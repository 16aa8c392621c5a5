import Armada3720.Env.RoundTrip

/-!
# The stored environment

`env/common.c` with `CONFIG_SYS_REDUNDAND_ENVIRONMENT`: the environment is kept in two copies, each with a CRC
and a byte of flags, and `env_import_redund` chooses between them. What does not depend on the storage is in
`EnvConfig`. An environment is a relation between names and values.
-/

namespace Armada3720.Env

inductive EnvValid
  | invalid
  | valid
  | redund
  deriving DecidableEq, Repr

structure EnvT where
  crc : UInt32
  flags : UInt8
  data : List UInt8
  deriving DecidableEq, Repr

structure EnvConfig where
  envSize : Nat
  crc32 : List UInt8 → UInt32
  rx : Regex
  hooks : HsearchData → Hooks
  malloc : Nat → Bool
  /-- the table that `set_default_env` loads -/
  defaultEnv : HsearchData

/-- The variables in RAM: `gd->env_valid`, the static `env_flags`, and the table of `env_htab`. -/
structure Gd where
  envValid : EnvValid
  envFlags : UInt8
  htab : Option HsearchData

/-- The RAM variables at boot: `env_init` has set `gd->env_valid`, and `env_flags` is zero. -/
def Gd.boot : Gd := ⟨.valid, 0, none⟩

/-- `gd->env_valid == ENV_REDUND ? ENV_VALID : ENV_REDUND`. -/
def EnvValid.flip (v : EnvValid) : EnvValid := if v = .redund then .valid else .redund

theorem EnvValid.flip_ne_invalid (v : EnvValid) : v.flip ≠ .invalid := by
  cases v <;> decide

theorem EnvValid.flip_flip {v : EnvValid} (hv : v ≠ .invalid) : v.flip.flip = v := by
  cases v with
  | invalid => exact absurd rfl hv
  | valid => rfl
  | redund => rfl

theorem EnvValid.flip_ne {v : EnvValid} (hv : v ≠ .invalid) : v.flip ≠ v := by
  cases v with
  | invalid => exact absurd rfl hv
  | valid => decide
  | redund => decide

theorem EnvValid.eq_or_eq_flip {v w : EnvValid} (hv : v ≠ .invalid) (hw : w ≠ .invalid) :
    w = v ∨ w = v.flip := by
  cases v <;> cases w <;> simp_all [EnvValid.flip]

def EnvConfig.CrcOk (cfg : EnvConfig) (ep : EnvT) : Prop := cfg.crc32 ep.data = ep.crc

instance (cfg : EnvConfig) (ep : EnvT) : Decidable (cfg.CrcOk ep) :=
  inferInstanceAs (Decidable (cfg.crc32 ep.data = ep.crc))

def EnvConfig.setDefaultEnv (cfg : EnvConfig) (gd : Gd) : Gd :=
  { gd with htab := some cfg.defaultEnv }

/-- `env_import`; `true`: it returned `0`. -/
def EnvConfig.envImport (cfg : EnvConfig) (gd : Gd) (ep : EnvT) (check : Bool) :
    Option (Gd × Bool) :=
  if check ∧ ¬ cfg.CrcOk ep then
    some (cfg.setDefaultEnv gd, false)
  else
    match himportR cfg.hooks cfg.malloc gd.htab ep.data 0 0 false [] with
    | none => none
    | some (htab, true, _) => some ({ gd with htab := htab }, true)
    | some (htab, false, _) => some (cfg.setDefaultEnv { gd with htab := htab }, false)

/-- The choice of `env_import_redund` between two copies with right CRCs, by their flags. -/
def checkSerial (flags1 flags2 : UInt8) : EnvValid :=
  if flags1 = 255 ∧ flags2 = 0 then .redund
  else if flags2 = 255 ∧ flags1 = 0 then .valid
  else if flags2 < flags1 then .valid
  else if flags1 < flags2 then .redund
  else .valid

/-- The choice of `env_import_redund` between two copies that are not both bad. -/
def EnvConfig.chooseCopy (cfg : EnvConfig) (env1 env2 : EnvT) : EnvValid :=
  if cfg.CrcOk env1 ∧ ¬ cfg.CrcOk env2 then .valid
  else if ¬ cfg.CrcOk env1 ∧ cfg.CrcOk env2 then .redund
  else checkSerial env1.flags env2.flags

def EnvValid.pick (v : EnvValid) (env1 env2 : EnvT) : EnvT := if v = .valid then env1 else env2

/-- `env_import_redund`; `none` is a copy that could not be read. -/
def EnvConfig.envImportRedund (cfg : EnvConfig) (gd : Gd) (buf1 buf2 : Option EnvT) :
    Option (Gd × Bool) :=
  match buf1, buf2 with
  | none, none => some (cfg.setDefaultEnv gd, false)
  | some env1, none => cfg.envImport { gd with envValid := .valid } env1 true
  | none, some env2 => cfg.envImport { gd with envValid := .redund } env2 true
  | some env1, some env2 =>
    if ¬ cfg.CrcOk env1 ∧ ¬ cfg.CrcOk env2 then
      some (cfg.setDefaultEnv gd, false)
    else
      let choice := cfg.chooseCopy env1 env2
      let ep := choice.pick env1 env2
      cfg.envImport { gd with envValid := choice, envFlags := ep.flags } ep false

/-- The RAM variables and, if it succeeds, the copy it fills. A text longer than the data is cut here; the code
writes on behind the buffer. `none`: a missing string is read. -/
def EnvConfig.envExport (cfg : EnvConfig) (gd : Gd) (htab : HsearchData) :
    Option (Gd × Option EnvT) :=
  match hexportR cfg.rx htab 0 0 true (fun _ => true) cfg.envSize [] with
  | none => none
  | some (.error _) => some (gd, none)
  | some (.ok x) =>
    let data := x.buffer.take cfg.envSize
    let flags := gd.envFlags + 1
    some ({ gd with envFlags := flags }, some ⟨cfg.crc32 data, flags, data⟩)

/-! ## Environments -/

/-- The data is the text of the environment `E`: importing it succeeds with that map. -/
def EnvConfig.Imports (cfg : EnvConfig) (data : List UInt8) (E : Str → Str → Prop) : Prop :=
  ∃ t, (∀ old, ∃ errno,
    himportR cfg.hooks cfg.malloc old data 0 0 false [] = some (some t, true, errno)) ∧
    ∀ k v, t.Maps k v ↔ E k v

/-- The data fits the memory, which is to be had, and the hooks accept. -/
structure EnvConfig.Ok (cfg : EnvConfig) : Prop where
  pos : 0 < cfg.envSize
  ram : cfg.envSize ≤ ramSize
  accepting : ∀ t, (cfg.hooks t).Accepting
  malloc : ∀ n, cfg.malloc n = true

/-- The strings fit the text format, the text fits the data and the entries fit the table that an import makes.
-/
structure EnvConfig.Savable (cfg : EnvConfig) (T : HsearchData) : Prop where
  exportable : Exportable 0 T
  fits : ∀ x, hexportR cfg.rx T 0 0 true (fun _ => true) cfg.envSize [] = some (.ok x) →
    x.text.length ≤ cfg.envSize
  slots : ∀ t₀, hcreateR (importEntries cfg.envSize) = some t₀ →
    ((Finset.Icc 1 T.size).filter T.Live).card ≤ t₀.size

section Config

variable {cfg : EnvConfig} (hcfg : cfg.Ok)

theorem himportR_old {hk : HsearchData → Hooks} {malloc : Nat → Bool}
    (hmalloc : ∀ n, malloc n = true) (old old' : Option HsearchData) (env : List UInt8)
    (sep : UInt8) (crlf : Bool) (vars : List Str) :
    himportR hk malloc old env sep 0 crlf vars = himportR hk malloc old' env sep 0 crlf vars := by
  simp only [himportR, hmalloc, Nat.zero_and, if_true, Bool.true_eq_false, if_false]

include hcfg

/-- What `env_export` of a table that can be saved fills is the text of its environment. -/
theorem EnvConfig.Savable.envExport {T : HsearchData} (hT : cfg.Savable T) {gd gd' : Gd}
    {ep : EnvT} (h : cfg.envExport gd T = some (gd', some ep)) :
    gd' = { gd with envFlags := gd.envFlags + 1 } ∧ ep.flags = gd.envFlags + 1 ∧
      ep.data.length = cfg.envSize ∧ cfg.CrcOk ep ∧ cfg.Imports ep.data T.Maps := by
  unfold EnvConfig.envExport at h
  split at h
  · cases h
  · cases h
  · next x hx =>
    have hfits := hT.fits x hx
    have hsize : x.size = cfg.envSize := by
      unfold hexportR at hx
      split at hx
      · cases hx
      · have hpos := hcfg.pos.ne'
        simp only [ne_eq, hpos, not_false_eq_true, true_and, if_true, Bool.true_eq_false, false_and, if_false] at hx
        split at hx <;> cases hx
        rfl
    have hlen : x.buffer.length = cfg.envSize := by
      rw [Exported.buffer, List.length_append, List.length_replicate]
      omega
    have htake : x.buffer.take cfg.envSize = x.buffer := List.take_of_length_le hlen.le
    simp only [htake, Option.some.injEq, Prod.mk.injEq] at h
    obtain ⟨hgd, hep⟩ := h
    refine ⟨hgd.symm, by rw [← hep], by rw [← hep]; exact hlen, by rw [← hep]; rfl, ?_⟩
    rw [← hep]
    obtain ⟨t, l, himport, hload, hl⟩ := himportR_of_hexportR (.inl rfl) hT.exportable
      (Nat.zero_and _) hx (hsize.symm ▸ hfits) (hsize.symm ▸ hcfg.ram) hcfg.accepting
      (hcfg.malloc _) none (Nat.zero_and _) (hsize.symm ▸ hT.slots)
    refine ⟨t, fun old => ⟨none, (himportR_old hcfg.malloc old none _ _ _ _).trans himport⟩, fun k v => ?_⟩
    rw [hload.maps_iff, hl]

omit hcfg in
theorem EnvConfig.Savable.envExport_returns {T : HsearchData} (hT : cfg.Savable T) (gd : Gd) :
    cfg.envExport gd T = some (gd, none) ∨ ∃ gd' ep, cfg.envExport gd T = some (gd', some ep) := by
  have hreturns : ∃ r, hexportR cfg.rx T 0 0 true (fun _ => true) cfg.envSize [] = some r := by
    obtain ⟨es, hes⟩ := hT.exportable.exists_entries
    unfold hexportR
    simp only [hes]
    split_ifs <;> exact ⟨_, rfl⟩
  obtain ⟨r, hr⟩ := hreturns
  unfold EnvConfig.envExport
  rw [hr]
  cases r with
  | error e => exact Or.inl rfl
  | ok x => exact Or.inr ⟨_, _, rfl⟩

end Config

section Redund

variable {cfg : EnvConfig} {env1 env2 : EnvT} {E : Str → Str → Prop}

theorem checkSerial_ne_invalid (flags1 flags2 : UInt8) : checkSerial flags1 flags2 ≠ .invalid := by
  unfold checkSerial
  split_ifs <;> decide

theorem EnvConfig.chooseCopy_ne_invalid (cfg : EnvConfig) (env1 env2 : EnvT) :
    cfg.chooseCopy env1 env2 ≠ .invalid := by
  unfold EnvConfig.chooseCopy
  split_ifs
  · decide
  · decide
  · exact checkSerial_ne_invalid _ _

theorem EnvConfig.crcOk_pick (h : cfg.CrcOk env1 ∨ cfg.CrcOk env2) :
    cfg.CrcOk ((cfg.chooseCopy env1 env2).pick env1 env2) := by
  unfold EnvConfig.chooseCopy
  split_ifs with h1 h2
  · exact h1.1
  · exact h2.2
  · have hboth : cfg.CrcOk env1 ∧ cfg.CrcOk env2 := by tauto
    unfold EnvValid.pick
    split_ifs
    · exact hboth.1
    · exact hboth.2

theorem EnvConfig.Imports.envImport {ep : EnvT} (hE : cfg.Imports ep.data E) (gd : Gd) :
    ∃ t, cfg.envImport gd ep false = some ({ gd with htab := some t }, true) ∧
      ∀ k v, t.Maps k v ↔ E k v := by
  obtain ⟨t, himport, ht⟩ := hE
  obtain ⟨errno, himport⟩ := himport gd.htab
  refine ⟨t, ?_, ht⟩
  simp only [EnvConfig.envImport, Bool.false_eq_true, false_and, if_false, himport]

theorem EnvConfig.Ok.imports_of_envImport (hcfg : cfg.Ok) {ep : EnvT} {gd gd' : Gd}
    (h : cfg.envImport gd ep false = some (gd', true)) {t : HsearchData} (ht : gd'.htab = some t) :
    gd' = { gd with htab := some t } ∧ cfg.Imports ep.data t.Maps := by
  simp only [EnvConfig.envImport, Bool.false_eq_true, false_and, if_false] at h
  split at h
  · cases h
  · next htab errno himport =>
    cases h
    cases ht
    exact ⟨rfl, t, fun old => ⟨errno, (himportR_old hcfg.malloc old _ _ _ _ _).trans himport⟩, fun _ _ => Iff.rfl⟩
  · cases h

theorem EnvConfig.envImportRedund_both (h : cfg.CrcOk env1 ∨ cfg.CrcOk env2) (gd : Gd) :
    cfg.envImportRedund gd (some env1) (some env2) =
      cfg.envImport { gd with
        envValid := cfg.chooseCopy env1 env2
        envFlags := ((cfg.chooseCopy env1 env2).pick env1 env2).flags }
        ((cfg.chooseCopy env1 env2).pick env1 env2) false := by
  have hnot : ¬ (¬ cfg.CrcOk env1 ∧ ¬ cfg.CrcOk env2) := by tauto
  exact if_neg hnot

end Redund

/-! ## A small configuration -/

def smallEnv : EnvConfig where
  envSize := 16
  crc32 := fun data => .ofNat (data.map UInt8.toNat).sum
  rx := ⟨fun _ => true, fun _ _ => false⟩
  hooks := fun _ => .unset
  malloc := fun _ => true
  defaultEnv := fiveSlots

theorem smallEnv_ok : smallEnv.Ok :=
  ⟨by decide, Nat.le_of_ble_eq_true rfl, fun _ => Hooks.unset_accepting, fun _ => rfl⟩

def oneVar (c : UInt8) : HsearchData :=
  ⟨5, 1, fun i => if i = 3 then ⟨3, ⟨some [97], some [c], none, 0⟩⟩ else Slot.zero⟩

theorem oneVar_live {c : UInt8} {i : Nat} (h : (oneVar c).Live i) : i = 3 := by
  by_contra hi
  have hzero : (oneVar c).table i = Slot.zero := if_neg hi
  rw [HsearchData.Live, hzero] at h
  exact absurd h (by decide)

theorem smallEnv_savable (c : UInt8) (hc : c ≠ 0) : smallEnv.Savable (oneVar c) where
  exportable :=
    { strings := fun i _ _ hi => by
        obtain rfl := oneVar_live hi
        exact ⟨[97], [c], rfl, rfl, ⟨by decide, by decide +kernel, by simp; decide⟩,
          ⟨List.cons_ne_nil _ _, by simpa using hc⟩⟩
      inj := fun i i' _ _ _ _ _ hi hi' => (oneVar_live hi.1).trans (oneVar_live hi'.1).symm }
  fits x hx := by
    obtain ⟨es, sorted, hes, hperm, htext⟩ := hexportR_ok (Nat.zero_and _) hx
    have hentries : (oneVar c).entries = some [([97], [c])] := by rfl
    rw [hentries] at hes
    cases hes
    rw [htext, List.perm_singleton.mp hperm]
    simp only [List.flatMap_cons, List.flatMap_nil, exportText, escape]
    split <;> simp [smallEnv]
  slots t0 ht0 := by
    have hcard : ((Finset.Icc 1 (oneVar c).size).filter (oneVar c).Live).card = 1 := by
      refine Finset.card_eq_one.mpr ⟨3, Finset.ext fun i => ?_⟩
      rw [Finset.mem_filter, Finset.mem_singleton]
      refine ⟨fun h => oneVar_live h.2, ?_⟩
      rintro rfl
      exact ⟨by simp [oneVar], show (0 : Int) < 3 by decide⟩
    have hpos := (hashVal_mem (hcreateR_spec ht0).1 []).1
    have hle := (hashVal_mem (hcreateR_spec ht0).1 []).2
    omega

end Armada3720.Env
