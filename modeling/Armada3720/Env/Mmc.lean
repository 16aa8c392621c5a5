import Armada3720.Env.Common

/-!
# The redundant environment on MMC

`env/mmc.c` with `CONFIG_ENV_OFFSET_REDUND`. A save writes the copy that `gd->env_valid` does not stand for,
with the next serial number; a load chooses by the serial numbers. Writes may fail and leave their copy
untouched or bad, and reads may fail.

A load of both copies sets `gd->env_valid` and `env_flags` to those of the copy it chooses, and a save to those
of the copy it writes; from then on `env_flags` is ahead of that copy by the saves that failed
(`MmcInv`). The next save is newer unless `env_flags` passed `255` on the way (`newer_add_iff`). A load of one
copy sets no serial number, and the saves after it are not covered: `mmc_load_returns_older_save` is one that a
later load does not return.
-/

namespace Armada3720.Env

open EnvConfig EnvValid

/-- What `write_env` does to its copy; a write that fails leaves it as it was, or bad. -/
inductive MmcWrite
  | ok
  | untouched
  | spoiled (copy : EnvT)

structure MmcDisk where
  copy1 : EnvT
  copy2 : EnvT

def MmcDisk.copy (d : MmcDisk) (v : EnvValid) : EnvT := v.pick d.copy1 d.copy2

def MmcDisk.setCopy (d : MmcDisk) (v : EnvValid) (ep : EnvT) : MmcDisk :=
  if v = .valid then { d with copy1 := ep } else { d with copy2 := ep }

/-- The device and the RAM variables; the other fields are history, which the code does not have. -/
structure MmcState where
  disk : MmcDisk
  gd : Gd
  /-- the table last saved -/
  last : Option HsearchData
  /-- the last boot read both copies, or a save has succeeded since -/
  inStep : Bool
  /-- the saves since then whose write failed -/
  failed : Nat

/-- A board booted for the first time, from two bad copies. -/
def MmcState.fresh (cfg : EnvConfig) (d : MmcDisk) : MmcState := ⟨d, cfg.setDefaultEnv .boot, none, true, 0⟩

/-- The copy that `env_mmc_save` writes: `copy` is `1` if `gd->env_valid` is `ENV_VALID`. -/
def saveTarget (v : EnvValid) : EnvValid := if v = .valid then .redund else .valid

/-- `env_mmc_save`; `init` says whether the device can be set up. -/
def MmcState.envMmcSave (cfg : EnvConfig) (init : Bool) (w : MmcWrite) (s : MmcState)
    (htab : HsearchData) : Option MmcState :=
  if init = false then
    some s
  else
    match cfg.envExport s.gd htab with
    | none => none
    | some (gd, none) => some { s with gd := gd }
    | some (gd, some envNew) =>
      match w with
      | .ok => some ⟨s.disk.setCopy (saveTarget s.gd.envValid) envNew,
          { gd with envValid := gd.envValid.flip }, some htab, true, 0⟩
      | .untouched => some { s with gd := gd, failed := s.failed + 1 }
      | .spoiled copy => some { s with
          disk := s.disk.setCopy (saveTarget s.gd.envValid) copy, gd := gd, failed := s.failed + 1 }

/-- `env_mmc_load`; `read1` and `read2` say which copies can be read. -/
def MmcDisk.envMmcLoad (cfg : EnvConfig) (read1 read2 : Bool) (d : MmcDisk) (gd : Gd) :
    Option (Gd × Bool) :=
  match cfg.envImportRedund gd (if read1 then some d.copy1 else none) (if read2 then some d.copy2 else none) with
  | none => none
  | some (gd, true) => some (gd, true)
  | some (gd, false) => some (cfg.setDefaultEnv gd, false)

/-- What happens to a board: its variables are changed, saved, or it is rebooted. -/
inductive MmcEvent
  | edit (T : HsearchData)
  | save (init : Bool) (w : MmcWrite)
  | reboot (read1 read2 : Bool)

def MmcEvent.exec (cfg : EnvConfig) (s : MmcState) : MmcEvent → Option MmcState
  | .edit T => some { s with gd := { s.gd with htab := some T } }
  | .save init w => s.gd.htab.bind (s.envMmcSave cfg init w)
  | .reboot read1 read2 => (s.disk.envMmcLoad cfg read1 read2 .boot).map fun r =>
      { s with gd := r.1, inStep := read1 && read2, failed := 0 }

def runEvents (cfg : EnvConfig) : List MmcEvent → MmcState → Option MmcState
  | [], s => some s
  | e :: es, s => (e.exec cfg s).bind (runEvents cfg es)

/-- A property of every event of a history in the state it happens in. -/
def Along (cfg : EnvConfig) (P : MmcState → MmcEvent → Prop) : List MmcEvent → MmcState → Prop
  | [], _ => True
  | e :: es, s => P s e ∧ ∀ s' ∈ e.exec cfg s, Along cfg P es s'

instance Along.decidable (cfg : EnvConfig) (P : MmcState → MmcEvent → Prop) [∀ s e, Decidable (P s e)] :
    (es : List MmcEvent) → (s : MmcState) → Decidable (Along cfg P es s)
  | [], _ => isTrue trivial
  | e :: es, s =>
    have := Along.decidable cfg P es
    inferInstanceAs (Decidable (P s e ∧ ∀ s' ∈ e.exec cfg s, Along cfg P es s'))

/-- A write that spoils a copy leaves a bad CRC, and the tables that are saved can be saved. -/
def MmcEvent.Admissible (cfg : EnvConfig) (s : MmcState) : MmcEvent → Prop
  | .edit _ => True
  | .save _ w => (∀ copy, w = .spoiled copy → ¬ cfg.CrcOk copy) ∧
      ∀ T, s.gd.htab = some T → cfg.Savable T
  | .reboot _ _ => True

/-- The serial number `new` of the copy `v` is greater than `old`, but `0` comes after `255`; of equal ones the
first copy's is newer. -/
def Newer (v : EnvValid) (new old : UInt8) : Prop :=
  (new = 0 ∧ old = 255) ∨
    (¬ (new = 255 ∧ old = 0) ∧ (old < new ∨ (old = new ∧ v = .valid)))

/-- After the first save nothing is written until both copies have been read, and a save succeeds only while the
counter of the saves that failed has not taken `env_flags` past `255`. -/
def MmcEvent.Safe (s : MmcState) : MmcEvent → Prop
  | .save true .ok => s.last = none ∨ s.inStep ∧
      (s.failed = 0 ∨ s.failed < 254 ∧ s.failed ≤ s.gd.envFlags.toNat ∧ s.gd.envFlags.toNat < 255)
  | .save true (.spoiled _) => s.last = none ∨ s.inStep
  | _ => True

instance (s : MmcState) (e : MmcEvent) : Decidable (e.Safe s) := by
  unfold MmcEvent.Safe
  split <;> infer_instance

/-! ## Choosing a copy -/

theorem checkSerial_eq_valid_iff (flags1 flags2 : UInt8) :
    checkSerial flags1 flags2 = .valid ↔ Newer .valid flags1 flags2 := by
  unfold checkSerial Newer
  grind

theorem checkSerial_eq_redund_iff (flags1 flags2 : UInt8) :
    checkSerial flags1 flags2 = .redund ↔ Newer .redund flags2 flags1 := by
  unfold checkSerial Newer
  grind

/-- The number that a save gets after `k` that failed is newer than the one it counts from, unless the counter
passed `255` or went from `0` to `254`. -/
theorem newer_add_iff (v : EnvValid) (flags : UInt8) {k : Nat} (hk : k < 255) :
    Newer v (flags + .ofNat k + 1) flags ↔ k = 0 ∨
      k < 254 ∧ k ≤ (flags + .ofNat k).toNat ∧ (flags + .ofNat k).toNat < 255 := by
  have hlt := flags.toNat_lt
  simp only [Newer, UInt8.lt_iff_toNat_lt, ← UInt8.toNat_inj, UInt8.toNat_add, UInt8.toNat_ofNat',
    UInt8.reduceToNat]
  omega

section Copies

variable {cfg : EnvConfig} (d : MmcDisk)

theorem MmcDisk.chooseCopy_eq_iff {v : EnvValid} (hv : v ≠ .invalid) (hcrc : cfg.CrcOk (d.copy v)) :
    cfg.chooseCopy d.copy1 d.copy2 = v ↔
      ¬ cfg.CrcOk (d.copy v.flip) ∨ Newer v (d.copy v).flags (d.copy v.flip).flags := by
  unfold chooseCopy
  cases v with
  | invalid => exact absurd rfl hv
  | valid =>
    have h1 : cfg.CrcOk d.copy1 := hcrc
    show _ ↔ ¬ cfg.CrcOk d.copy2 ∨ Newer .valid d.copy1.flags d.copy2.flags
    by_cases h2 : cfg.CrcOk d.copy2
    · simp only [h1, h2, not_true_eq_false, and_false, false_and, if_false, false_or]
      exact checkSerial_eq_valid_iff _ _
    · simp only [h1, h2, not_false_eq_true, and_self, if_true, true_or]
  | redund =>
    have h2 : cfg.CrcOk d.copy2 := hcrc
    show _ ↔ ¬ cfg.CrcOk d.copy1 ∨ Newer .redund d.copy2.flags d.copy1.flags
    by_cases h1 : cfg.CrcOk d.copy1
    · simp only [h1, h2, not_true_eq_false, and_false, false_and, if_false, false_or]
      exact checkSerial_eq_redund_iff _ _
    · simp only [h1, h2, not_true_eq_false, not_false_eq_true, and_true, false_and, if_false, if_true, true_or]

theorem MmcDisk.copy_setCopy_self (v : EnvValid) (ep : EnvT) : (d.setCopy v ep).copy v = ep := by
  cases v <;> rfl

theorem MmcDisk.copy_setCopy_flip {v : EnvValid} (hv : v ≠ .invalid) (ep : EnvT) :
    (d.setCopy v ep).copy v.flip = d.copy v.flip := by
  cases v with
  | invalid => exact absurd rfl hv
  | valid => rfl
  | redund => rfl

theorem MmcDisk.copy_setCopy_or (v w : EnvValid) (ep : EnvT) :
    (d.setCopy v ep).copy w = ep ∨ (d.setCopy v ep).copy w = d.copy w := by
  cases v <;> cases w <;> simp [MmcDisk.setCopy, MmcDisk.copy, pick]

theorem saveTarget_eq_flip {v : EnvValid} (hv : v ≠ .invalid) : saveTarget v = v.flip := by
  cases v with
  | invalid => exact absurd rfl hv
  | valid => rfl
  | redund => rfl

theorem MmcDisk.crcOk_or {v : EnvValid} (hcrc : cfg.CrcOk (d.copy v)) :
    cfg.CrcOk d.copy1 ∨ cfg.CrcOk d.copy2 := by
  unfold MmcDisk.copy pick at hcrc
  split at hcrc
  · exact Or.inl hcrc
  · exact Or.inr hcrc

end Copies

/-! ## The invariant -/

/-- The copy `v` is the one that a load chooses, and holds the table `T`. -/
structure MmcDisk.Holds (cfg : EnvConfig) (d : MmcDisk) (v : EnvValid) (T : HsearchData) : Prop where
  ne : v ≠ .invalid
  crc : cfg.CrcOk (d.copy v)
  chosen : cfg.chooseCopy d.copy1 d.copy2 = v
  imports : cfg.Imports (d.copy v).data T.Maps

/-- Every intact copy holds an environment. -/
def MmcDisk.Texts (cfg : EnvConfig) (d : MmcDisk) : Prop :=
  ∀ v, cfg.CrcOk (d.copy v) → ∃ E, cfg.Imports (d.copy v).data E

/-- After a save a load chooses a copy with the table last saved. In step, that copy is the one `gd->env_valid`
stands for, and `env_flags` is its number plus the saves that failed. -/
structure MmcInv (cfg : EnvConfig) (s : MmcState) : Prop where
  table : ∃ T, s.gd.htab = some T
  valid : s.gd.envValid ≠ .invalid
  texts : s.disk.Texts cfg
  unsaved : s.last = none → ∀ v, ¬ cfg.CrcOk (s.disk.copy v)
  saved : ∀ T, s.last = some T → ∃ v, s.disk.Holds cfg v T ∧ (s.inStep →
    s.gd.envValid = v ∧ s.gd.envFlags = (s.disk.copy v).flags + .ofNat s.failed)

section Steps

variable {cfg : EnvConfig} {d : MmcDisk} {v : EnvValid} {T : HsearchData} {ep : EnvT}

theorem EnvConfig.envImport_returns (htext : cfg.CrcOk ep → ∃ E, cfg.Imports ep.data E) {check : Bool}
    (hcheck : check = true ∨ cfg.CrcOk ep) (gd : Gd) :
    ∃ gd' ok t, cfg.envImport gd ep check = some (gd', ok) ∧ gd'.htab = some t ∧ gd'.envValid = gd.envValid := by
  unfold envImport
  by_cases hcrc : cfg.CrcOk ep
  · obtain ⟨E, t, himport, -⟩ := htext hcrc
    obtain ⟨errno, himport⟩ := himport gd.htab
    rw [if_neg fun h => h.2 hcrc, himport]
    exact ⟨_, _, t, rfl, rfl, rfl⟩
  · rw [if_pos ⟨hcheck.resolve_right hcrc, hcrc⟩]
    exact ⟨_, _, cfg.defaultEnv, rfl, rfl, rfl⟩

theorem MmcDisk.Texts.load_returns (h : d.Texts cfg) (read1 read2 : Bool) :
    ∃ gd' ok t, d.envMmcLoad cfg read1 read2 .boot = some (gd', ok) ∧ gd'.htab = some t ∧
      gd'.envValid ≠ .invalid := by
  have hredund : ∃ gd' ok t, cfg.envImportRedund .boot (if read1 then some d.copy1 else none)
      (if read2 then some d.copy2 else none) = some (gd', ok) ∧ gd'.htab = some t ∧ gd'.envValid ≠ .invalid := by
    have himport : ∀ {w : EnvValid} {check : Bool} (flags : UInt8) (u : EnvValid), u ≠ .invalid →
        (check = true ∨ cfg.CrcOk (d.copy w)) → ∃ gd' ok t,
          cfg.envImport { Gd.boot with envValid := u, envFlags := flags } (d.copy w) check = some (gd', ok) ∧
            gd'.htab = some t ∧ gd'.envValid ≠ .invalid := by
      intro w check flags u hu hcheck
      obtain ⟨gd', ok, t, hgd', ht, hvalid⟩ := envImport_returns (h w) hcheck
        { Gd.boot with envValid := u, envFlags := flags }
      exact ⟨gd', ok, t, hgd', ht, hvalid.trans_ne hu⟩
    cases read1 with
    | false =>
      cases read2 with
      | false => exact ⟨_, _, cfg.defaultEnv, rfl, rfl, nofun⟩
      | true => exact himport (w := .redund) 0 .redund nofun (.inl rfl)
    | true =>
      cases read2 with
      | false => exact himport (w := .valid) 0 .valid nofun (.inl rfl)
      | true =>
        by_cases hok : cfg.CrcOk d.copy1 ∨ cfg.CrcOk d.copy2
        · simp only [if_true]
          rw [envImportRedund_both hok]
          exact himport _ _ (cfg.chooseCopy_ne_invalid _ _) (.inr (crcOk_pick hok))
        · exact ⟨_, false, cfg.defaultEnv, if_pos (not_or.mp hok), rfl, nofun⟩
  obtain ⟨gd', ok, t, hload, ht, hvalid⟩ := hredund
  unfold MmcDisk.envMmcLoad
  rw [hload]
  cases ok with
  | true => exact ⟨gd', true, t, rfl, ht, hvalid⟩
  | false => exact ⟨_, false, cfg.defaultEnv, rfl, rfl, hvalid⟩

theorem MmcDisk.Holds.loads (h : d.Holds cfg v T) (gd : Gd) :
    ∃ t, d.envMmcLoad cfg true true gd = some (⟨v, (d.copy v).flags, some t⟩, true) ∧
      ∀ k v, t.Maps k v ↔ T.Maps k v := by
  obtain ⟨t, himport, ht⟩ := h.imports.envImport { gd with envValid := v, envFlags := (d.copy v).flags }
  have hredund := envImportRedund_both (d.crcOk_or h.crc) gd
  rw [h.chosen] at hredund
  refine ⟨t, ?_, ht⟩
  simp only [MmcDisk.envMmcLoad, if_true]
  rw [hredund.trans himport]

theorem MmcDisk.Texts.setCopy (h : d.Texts cfg) (v : EnvValid)
    (hep : cfg.CrcOk ep → ∃ E, cfg.Imports ep.data E) : (d.setCopy v ep).Texts cfg := by
  intro w hw
  rcases d.copy_setCopy_or v w ep with hc | hc
  · rw [hc] at hw ⊢
    exact hep hw
  · rw [hc] at hw ⊢
    exact h w hw

/-- A copy with a newer number than the other one is what a load chooses. -/
theorem MmcDisk.holds_setCopy (hv : v ≠ .invalid) (hcrc : cfg.CrcOk ep) (himports : cfg.Imports ep.data T.Maps)
    (hnewer : ¬ cfg.CrcOk (d.copy v.flip) ∨ Newer v ep.flags (d.copy v.flip).flags) :
    (d.setCopy v ep).Holds cfg v T := by
  have hself := d.copy_setCopy_self v ep
  have hcrc' : cfg.CrcOk ((d.setCopy v ep).copy v) := by rwa [hself]
  refine ⟨hv, hcrc', ?_, by rwa [hself]⟩
  rw [(d.setCopy v ep).chooseCopy_eq_iff hv hcrc', hself, d.copy_setCopy_flip hv]
  exact hnewer

/-- Spoiling the other copy changes nothing. -/
theorem MmcDisk.Holds.spoil (h : d.Holds cfg v T) (hcrc : ¬ cfg.CrcOk ep) :
    (d.setCopy v.flip ep).Holds cfg v T ∧ (d.setCopy v.flip ep).copy v = d.copy v := by
  have hsame := d.copy_setCopy_flip v.flip_ne_invalid ep
  rw [flip_flip h.ne] at hsame
  have hcrc' : cfg.CrcOk ((d.setCopy v.flip ep).copy v) := by rw [hsame]; exact h.crc
  refine ⟨⟨h.ne, hcrc', ?_, by rw [hsame]; exact h.imports⟩, hsame⟩
  rw [(d.setCopy v.flip ep).chooseCopy_eq_iff h.ne hcrc', d.copy_setCopy_self]
  exact Or.inl hcrc

end Steps

/-! ## Histories -/

section Histories

variable {cfg : EnvConfig} {s : MmcState}

theorem MmcInv.fresh {d : MmcDisk} (hbad1 : ¬ cfg.CrcOk d.copy1) (hbad2 : ¬ cfg.CrcOk d.copy2) :
    MmcInv cfg (.fresh cfg d) := by
  have hbad : ∀ v, ¬ cfg.CrcOk (d.copy v) := by
    intro v
    unfold MmcDisk.copy pick
    split
    · exact hbad1
    · exact hbad2
  exact ⟨⟨cfg.defaultEnv, rfl⟩, nofun, fun v hv => absurd hv (hbad v), fun _ => hbad, nofun⟩

theorem MmcInv.reboot (h : MmcInv cfg s) (read1 read2 : Bool) :
    ∃ s', (MmcEvent.reboot read1 read2).exec cfg s = some s' ∧ MmcInv cfg s' := by
  obtain ⟨gd, ok, t, hload, ht, hvalid⟩ := h.texts.load_returns read1 read2
  refine ⟨⟨s.disk, gd, s.last, read1 && read2, 0⟩, by rw [MmcEvent.exec, hload]; rfl,
    ⟨t, ht⟩, hvalid, h.texts, h.unsaved, fun T hT => ?_⟩
  obtain ⟨v, hholds, -⟩ := h.saved T hT
  refine ⟨v, hholds, fun hboth => ?_⟩
  obtain ⟨rfl, rfl⟩ : read1 = true ∧ read2 = true := by simpa using hboth
  obtain ⟨t', hload', -⟩ := hholds.loads .boot
  cases hload.symm.trans hload'
  exact ⟨rfl, (UInt8.add_zero _).symm⟩

/-- A save that succeeds is what the next load chooses. -/
theorem MmcInv.saveOk (h : MmcInv cfg s) {T : HsearchData} {ep : EnvT} {gd : Gd}
    (hgd : gd = { s.gd with envFlags := s.gd.envFlags + 1 }) (htab : s.gd.htab = some T)
    (hflags : ep.flags = s.gd.envFlags + 1) (hcrc : cfg.CrcOk ep) (himports : cfg.Imports ep.data T.Maps)
    (hsafe : (MmcEvent.save true .ok).Safe s) :
    MmcInv cfg ⟨s.disk.setCopy (saveTarget s.gd.envValid) ep, { gd with envValid := gd.envValid.flip },
      some T, true, 0⟩ := by
  have hne := s.gd.envValid.flip_ne_invalid
  rw [saveTarget_eq_flip h.valid]
  subst hgd
  refine ⟨⟨T, htab⟩, hne, h.texts.setCopy _ fun _ => ⟨_, himports⟩, nofun, fun T' hT' => ?_⟩
  cases hT'
  refine ⟨s.gd.envValid.flip, MmcDisk.holds_setCopy hne hcrc himports ?_, fun _ => ⟨rfl, ?_⟩⟩
  · rw [flip_flip h.valid]
    cases hlast : s.last with
    | none => exact Or.inl (h.unsaved hlast _)
    | some T0 =>
      obtain ⟨hstep, hcount⟩ := hsafe.resolve_left (by rw [hlast]; nofun)
      obtain ⟨v, -, hin⟩ := h.saved T0 hlast
      obtain ⟨rfl, hcounter⟩ := hin hstep
      have hlt : s.failed < 255 := by omega
      rw [hflags, hcounter]
      rw [hcounter] at hcount
      exact Or.inr ((newer_add_iff _ _ hlt).mpr hcount)
  · rw [MmcDisk.copy_setCopy_self, hflags]
    exact (UInt8.add_zero _).symm

/-- A save that fails counts, and the copy that a load chooses stays. -/
theorem MmcInv.saveFails (h : MmcInv cfg s) {d : MmcDisk} (htexts : d.Texts cfg)
    (hbad : s.last = none → ∀ v, ¬ cfg.CrcOk (d.copy v))
    (hholds : ∀ v T, s.last = some T → s.disk.Holds cfg v T → (s.inStep → s.gd.envValid = v) →
      d.Holds cfg v T ∧ d.copy v = s.disk.copy v) :
    MmcInv cfg { s with
      disk := d, gd := { s.gd with envFlags := s.gd.envFlags + 1 }, failed := s.failed + 1 } := by
  refine ⟨h.table, h.valid, htexts, hbad, fun T hT => ?_⟩
  obtain ⟨v, hv, hin⟩ := h.saved T hT
  obtain ⟨hv', hsame⟩ := hholds v T hT hv fun hstep => (hin hstep).1
  refine ⟨v, hv', fun hstep => ⟨(hin hstep).1, ?_⟩⟩
  rw [hsame, (hin hstep).2, UInt8.ofNat_add, ← UInt8.add_assoc]
  rfl

/-- An event that is admissible and safe happens, and keeps the invariant. -/
theorem MmcInv.exec (hcfg : cfg.Ok) (h : MmcInv cfg s) {e : MmcEvent} (hadm : e.Admissible cfg s)
    (hsafe : e.Safe s) : ∃ s', e.exec cfg s = some s' ∧ MmcInv cfg s' := by
  cases e with
  | edit T => exact ⟨_, rfl, ⟨T, rfl⟩, h.valid, h.texts, h.unsaved, h.saved⟩
  | reboot read1 read2 => exact h.reboot read1 read2
  | save init w =>
    obtain ⟨T, hT⟩ := h.table
    obtain ⟨hspoiled, hsavable⟩ := hadm
    have hexec : (MmcEvent.save init w).exec cfg s = s.envMmcSave cfg init w T := by
      rw [MmcEvent.exec, hT]
      rfl
    rw [hexec, MmcState.envMmcSave]
    cases init with
    | false => exact ⟨s, if_pos rfl, h⟩
    | true =>
      rcases (hsavable T hT).envExport_returns s.gd with hx | ⟨gd, ep, hx⟩
      · rw [hx]
        exact ⟨s, rfl, h⟩
      · obtain ⟨hgd, hflags, -, hcrc, himports⟩ := (hsavable T hT).envExport hcfg hx
        rw [hx]
        cases w with
        | ok => exact ⟨_, rfl, h.saveOk hgd hT hflags hcrc himports hsafe⟩
        | untouched =>
          subst hgd
          exact ⟨_, rfl, h.saveFails h.texts h.unsaved fun v T _ hv _ => ⟨hv, rfl⟩⟩
        | spoiled copy =>
          subst hgd
          have hbad := hspoiled copy rfl
          refine ⟨_, rfl, h.saveFails (h.texts.setCopy _ fun hcrc => absurd hcrc hbad) (fun hlast v => ?_)
            fun v T hT' hv hin => ?_⟩
          · rcases s.disk.copy_setCopy_or (saveTarget s.gd.envValid) v copy with hc | hc
            · rwa [hc]
            · rw [hc]
              exact h.unsaved hlast v
          · obtain rfl := hin (hsafe.resolve_left (by rw [hT']; nofun))
            rw [saveTarget_eq_flip h.valid]
            exact hv.spoil hbad

theorem MmcInv.runEvents (hcfg : cfg.Ok) (h : MmcInv cfg s) (events : List MmcEvent)
    (hadm : Along cfg (MmcEvent.Admissible cfg) events s) (hsafe : Along cfg MmcEvent.Safe events s) :
    ∃ s', runEvents cfg events s = some s' ∧ MmcInv cfg s' := by
  induction events generalizing s with
  | nil => exact ⟨s, rfl, h⟩
  | cons e es ih =>
    obtain ⟨s1, hexec, h1⟩ := h.exec hcfg hadm.1 hsafe.1
    obtain ⟨s', hrun, h'⟩ := ih h1 (hadm.2 s1 hexec) (hsafe.2 s1 hexec)
    refine ⟨s', ?_, h'⟩
    rw [Env.runEvents, hexec]
    exact hrun

end Histories

/-- In every history in which nothing is written after a boot that could not read both copies, and no save
succeeds after the failed ones took the counter past `255`, a load with both copies readable returns the table
last saved. -/
theorem mmc_load_returns_latest_save (cfg : EnvConfig) (hcfg : cfg.Ok) (d : MmcDisk)
    (hbad1 : ¬ cfg.CrcOk d.copy1) (hbad2 : ¬ cfg.CrcOk d.copy2) (events : List MmcEvent)
    (hadm : Along cfg (MmcEvent.Admissible cfg) events (.fresh cfg d))
    (hsafe : Along cfg MmcEvent.Safe events (.fresh cfg d)) :
    ∃ s, runEvents cfg events (.fresh cfg d) = some s ∧
      ∀ T, s.last = some T → ∃ gd t, s.disk.envMmcLoad cfg true true .boot = some (gd, true) ∧
        gd.htab = some t ∧ ∀ k v, t.Maps k v ↔ T.Maps k v := by
  obtain ⟨s, hrun, hinv⟩ := (MmcInv.fresh hbad1 hbad2).runEvents hcfg events hadm hsafe
  refine ⟨s, hrun, fun T hT => ?_⟩
  obtain ⟨v, hholds, -⟩ := hinv.saved T hT
  obtain ⟨t, hload, ht⟩ := hholds.loads .boot
  exact ⟨_, t, hload, rfl, ht⟩

/-! ## Two histories -/

theorem admissible_edit_save {cfg : EnvConfig} {T : HsearchData} (hT : cfg.Savable T) {w : MmcWrite}
    (hw : ∀ copy, w = .spoiled copy → ¬ cfg.CrcOk copy) (es : List MmcEvent)
    (hes : ∀ s, Along cfg (MmcEvent.Admissible cfg) es s) (s : MmcState) :
    Along cfg (MmcEvent.Admissible cfg) (.edit T :: .save true w :: es) s := by
  refine ⟨trivial, fun s' hs' => ⟨⟨hw, fun T' hT' => ?_⟩, fun s'' _ => hes s''⟩⟩
  cases hs'
  cases hT'
  exact hT

def blankDisk : MmcDisk := ⟨⟨1, 0, []⟩, ⟨1, 0, []⟩⟩

/-- Three saves give the numbers 1, 2, 3. The first copy cannot be read at the next boot; the fourth save gets
the number 1. -/
def lateSave : List MmcEvent :=
  [.edit (oneVar 49), .save true .ok, .edit (oneVar 50), .save true .ok,
    .edit (oneVar 51), .save true .ok, .reboot false true, .edit (oneVar 52), .save true .ok]

def afterLateSave : Option MmcState := runEvents smallEnv lateSave (.fresh smallEnv blankDisk)

/-- After `lateSave` a load with both copies readable returns the third save, not the fourth. -/
theorem mmc_load_returns_older_save :
    ¬ smallEnv.CrcOk blankDisk.copy1 ∧ ¬ smallEnv.CrcOk blankDisk.copy2 ∧
    (∀ s, Along smallEnv (MmcEvent.Admissible smallEnv) lateSave s) ∧
    (afterLateSave.bind fun s => s.last.bind HsearchData.entries) = some [([97], [52])] ∧
    (afterLateSave.bind fun s => (s.disk.envMmcLoad smallEnv true true .boot).bind fun r =>
      r.1.htab.bind HsearchData.entries) = some [([97], [51])] := by
  have hT : ∀ c : UInt8, c ≠ 0 → smallEnv.Savable (oneVar c) := smallEnv_savable
  refine ⟨by decide, by decide, ?_, by decide +kernel, by decide +kernel⟩
  refine admissible_edit_save (hT _ (by decide)) (by nofun) _ (admissible_edit_save (hT _ (by decide)) (by nofun) _
    (admissible_edit_save (hT _ (by decide)) (by nofun) _ fun s => ⟨trivial, fun s' _ => ?_⟩))
  exact admissible_edit_save (hT _ (by decide)) (by nofun) [] (fun _ => trivial) s'

/-- Two saves, the second after one that failed; the save after the next boot spoils the first copy. -/
def failingSaves : List MmcEvent :=
  [.edit (oneVar 49), .save true .ok, .edit (oneVar 50), .save true .untouched, .edit (oneVar 51), .save true .ok,
    .reboot true true, .edit (oneVar 52), .save true (.spoiled ⟨1, 9, []⟩)]

/-- After `failingSaves` the load returns the second save that succeeded. -/
theorem mmc_load_returns_latest_save_failing :
    ∃ s, runEvents smallEnv failingSaves (.fresh smallEnv blankDisk) = some s ∧
      (s.last.bind HsearchData.entries) = some [([97], [51])] ∧
      ∀ T, s.last = some T → ∃ gd t, s.disk.envMmcLoad smallEnv true true .boot = some (gd, true) ∧
        gd.htab = some t ∧ ∀ k v, t.Maps k v ↔ T.Maps k v := by
  have hT : ∀ c : UInt8, c ≠ 0 → smallEnv.Savable (oneVar c) := smallEnv_savable
  have hspoiled : ∀ copy, MmcWrite.spoiled ⟨1, 9, []⟩ = .spoiled copy → ¬ smallEnv.CrcOk copy := by
    rintro _ ⟨⟩
    decide
  have hadm : ∀ s, Along smallEnv (MmcEvent.Admissible smallEnv) failingSaves s := by
    refine admissible_edit_save (hT _ (by decide)) (by nofun) _ (admissible_edit_save (hT _ (by decide)) (by nofun) _
      (admissible_edit_save (hT _ (by decide)) (by nofun) _ fun s => ⟨trivial, fun s' _ => ?_⟩))
    exact admissible_edit_save (hT _ (by decide)) hspoiled [] (fun _ => trivial) s'
  obtain ⟨s, hrun, hload⟩ := mmc_load_returns_latest_save smallEnv smallEnv_ok blankDisk (by decide)
    (by decide) failingSaves (hadm _) (by decide +kernel)
  have hlast : ((runEvents smallEnv failingSaves (.fresh smallEnv blankDisk)).bind fun s =>
      s.last.bind HsearchData.entries) = some [([97], [51])] := by decide +kernel
  rw [hrun] at hlast
  exact ⟨s, hrun, hlast, hload⟩

end Armada3720.Env
