import Armada3720.Lib.Flash
import Armada3720.Env.Common

/-!
# The redundant environment in SPI flash

`env/sf.c` with `CONFIG_ENV_OFFSET_REDUND`. A save erases the sectors of the copy that is not current, writes it
and the rest of its sector, and then marks the other copy obsolete. Power may be cut during any flash operation
(`SfSaveCut`).

`env_sf_survives_power_cuts` is for every state that loads, changes, saves and such cuts lead to. The flash does what
it is told until the cut; that a bit flips or an operation fails on its own is not modelled.
-/

namespace Armada3720.Env

open Lib EnvConfig

structure SfConfig where
  env : EnvConfig
  offset : Nat
  offsetRedund : Nat
  sectSize : Nat

/-- `CONFIG_ENV_SIZE`: the data and the header of five bytes. -/
def SfConfig.configEnvSize (cfg : SfConfig) : Nat := cfg.env.envSize + 5

/-- The bytes that a save erases: `DIV_ROUND_UP(CONFIG_ENV_SIZE, CONFIG_ENV_SECT_SIZE)` sectors. -/
def SfConfig.eraseSize (cfg : SfConfig) : Nat :=
  (cfg.configEnvSize + cfg.sectSize - 1) / cfg.sectSize * cfg.sectSize

def activeFlag : UInt8 := 1

def obsoleteFlag : UInt8 := 0

/-- The layout of `env_t`: the CRC in four bytes, low byte first, the flags, the data. -/
def EnvT.bytes (ep : EnvT) : List UInt8 :=
  .ofNat ep.crc.toNat :: .ofNat (ep.crc.toNat / 256) :: .ofNat (ep.crc.toNat / 256 ^ 2) ::
    .ofNat (ep.crc.toNat / 256 ^ 3) :: ep.flags :: ep.data

def EnvT.ofBytes (bytes : List UInt8) : EnvT where
  crc := .ofNat ((bytes.getD 0 0).toNat + (bytes.getD 1 0).toNat * 256 +
    (bytes.getD 2 0).toNat * 256 ^ 2 + (bytes.getD 3 0).toNat * 256 ^ 3)
  flags := bytes.getD 4 0
  data := bytes.drop 5

def SfConfig.offsetOf (cfg : SfConfig) (v : EnvValid) : Nat :=
  if v = .valid then cfg.offset else cfg.offsetRedund

def SfConfig.copyAt (cfg : SfConfig) (f : Flash) (off : Nat) : EnvT :=
  .ofBytes (f.read off cfg.configEnvSize)

/-- The flash operations of `env_sf_save`, the rest of the sector having been read first. -/
def SfConfig.saveOps (cfg : SfConfig) (f : Flash) (envValid : EnvValid) (envNew : EnvT) :
    List FlashOp :=
  let envNewOffset := if envValid = .valid then cfg.offsetRedund else cfg.offset
  let envOffset := if envValid = .valid then cfg.offset else cfg.offsetRedund
  let savedOffset := envNewOffset + cfg.configEnvSize
  [.erase envNewOffset cfg.eraseSize, .program envNewOffset envNew.bytes] ++
    (if cfg.sectSize > cfg.configEnvSize then
      [.program savedOffset (f.read savedOffset (cfg.sectSize - cfg.configEnvSize))]
    else []) ++
    [.program (envOffset + 4) [obsoleteFlag]]

/-- The copy that `env_sf_save` writes; `none` if the export fails. -/
def SfConfig.envNew (cfg : SfConfig) (gd : Gd) (htab : HsearchData) : Option (Gd × Option EnvT) :=
  (cfg.env.envExport gd htab).map fun r => (r.1, r.2.map fun ep => { ep with flags := activeFlag })

/-- `env_sf_save` that runs to its end; `true`: it returned `0`. -/
def SfConfig.envSfSave (cfg : SfConfig) (f : Flash) (gd : Gd) (htab : HsearchData) :
    Option (Flash × Gd × Bool) :=
  match cfg.envNew gd htab with
  | none => none
  | some (gd', none) => some (f, gd', false)
  | some (gd', some envNew) =>
    some (applyOps (cfg.saveOps f gd.envValid envNew) f, { gd' with envValid := gd.envValid.flip }, true)

/-- `env_sf_load`, both copies being readable. -/
def SfConfig.envSfLoad (cfg : SfConfig) (f : Flash) (gd : Gd) : Option (Gd × Bool) :=
  cfg.env.envImportRedund gd (some (cfg.copyAt f cfg.offset)) (some (cfg.copyAt f cfg.offsetRedund))

/-- A copy that is partly erased or partly written fails its CRC. -/
def SfSaveCut (cfg : SfConfig) (f : Flash) (gd : Gd) (htab : HsearchData) (f' : Flash) : Prop :=
  ∃ gd' envNew, cfg.envNew gd htab = some (gd', some envNew) ∧
    CutDuring (cfg.saveOps f gd.envValid envNew) f f' ∧
    (cfg.copyAt f' (cfg.offsetOf gd.envValid.flip) = cfg.copyAt f (cfg.offsetOf gd.envValid.flip) ∨
      cfg.copyAt f' (cfg.offsetOf gd.envValid.flip) = envNew ∨
      ¬ cfg.env.CrcOk (cfg.copyAt f' (cfg.offsetOf gd.envValid.flip)))

/-- The flash, the RAM variables, and the environment `E` last loaded or last saved, after saves, changes and
reboots, in which saves may be cut. -/
inductive SfReach (cfg : SfConfig) (f₀ : Flash) : Flash → Gd → (Str → Str → Prop) → Prop
  | boot {gd : Gd} {t : HsearchData} (hload : cfg.envSfLoad f₀ .boot = some (gd, true))
      (ht : gd.htab = some t) : SfReach cfg f₀ f₀ gd t.Maps
  | edit {f : Flash} {gd : Gd} {E : Str → Str → Prop} (T : HsearchData) (h : SfReach cfg f₀ f gd E) :
      SfReach cfg f₀ f { gd with htab := some T } E
  | save {f f' : Flash} {gd gd' : Gd} {E : Str → Str → Prop} {T : HsearchData}
      (h : SfReach cfg f₀ f gd E) (hT : gd.htab = some T) (hsavable : cfg.env.Savable T)
      (hsave : cfg.envSfSave f gd T = some (f', gd', true)) : SfReach cfg f₀ f' gd' T.Maps
  | saveFails {f f' : Flash} {gd gd' : Gd} {E : Str → Str → Prop} {T : HsearchData}
      (h : SfReach cfg f₀ f gd E) (hT : gd.htab = some T) (hsavable : cfg.env.Savable T)
      (hsave : cfg.envSfSave f gd T = some (f', gd', false)) : SfReach cfg f₀ f' gd' E
  | reboot {f : Flash} {gd gd' : Gd} {E : Str → Str → Prop} {ok : Bool} {t : HsearchData}
      (h : SfReach cfg f₀ f gd E) (hload : cfg.envSfLoad f .boot = some (gd', ok))
      (ht : gd'.htab = some t) : SfReach cfg f₀ f gd' t.Maps
  | cut {f f' : Flash} {gd gd' : Gd} {E : Str → Str → Prop} {T t : HsearchData} {ok : Bool}
      (h : SfReach cfg f₀ f gd E) (hT : gd.htab = some T) (hsavable : cfg.env.Savable T)
      (hcut : SfSaveCut cfg f gd T f') (hload : cfg.envSfLoad f' .boot = some (gd', ok))
      (ht : gd'.htab = some t) : SfReach cfg f₀ f' gd' t.Maps

/-! ## Copies in the flash -/

/-- The copies lie in separate sectors, and the rest is in order. -/
structure SfConfig.Ok (cfg : SfConfig) : Prop where
  env : cfg.env.Ok
  sect : 0 < cfg.sectSize
  apart : cfg.offset + cfg.eraseSize ≤ cfg.offsetRedund ∨
    cfg.offsetRedund + cfg.eraseSize ≤ cfg.offset

theorem EnvT.ofBytes_bytes (ep : EnvT) : EnvT.ofBytes ep.bytes = ep := by
  have hlt := ep.crc.toNat_lt
  have hcrc : (EnvT.ofBytes ep.bytes).crc = ep.crc := by
    apply UInt32.toNat_inj.mp
    simp only [EnvT.ofBytes, EnvT.bytes, List.getD_cons_zero, List.getD_cons_succ,
      UInt8.toNat_ofNat', UInt32.toNat_ofNat']
    omega
  obtain ⟨crc, flags, data⟩ := ep
  exact congrArg (fun c => EnvT.mk c flags data) hcrc

open SfConfig

section Copies

variable {cfg : SfConfig} {f f' : Flash} {off : Nat}

theorem SfConfig.copyAt_congr (h : ∀ a, off ≤ a → a < off + cfg.configEnvSize → f' a = f a) :
    cfg.copyAt f' off = cfg.copyAt f off := by
  rw [copyAt, Flash.read_congr h, copyAt]

theorem SfConfig.copyAt_eq (cfg : SfConfig) (f : Flash) (off : Nat) : cfg.copyAt f off =
    ⟨.ofNat ((f off).toNat + (f (off + 1)).toNat * 256 + (f (off + 1 + 1)).toNat * 256 ^ 2 +
      (f (off + 1 + 1 + 1)).toNat * 256 ^ 3), f (off + 4), f.read (off + 5) cfg.env.envSize⟩ := by
  rw [copyAt, configEnvSize, Flash.read_succ, Flash.read_succ, Flash.read_succ, Flash.read_succ, Flash.read_succ]
  rfl

theorem SfConfig.copyAt_flags (h : ∀ a, off ≤ a → a < off + cfg.configEnvSize → a ≠ off + 4 → f' a = f a) :
    (cfg.copyAt f' off).crc = (cfg.copyAt f off).crc ∧
      (cfg.copyAt f' off).data = (cfg.copyAt f off).data := by
  have hsize : cfg.configEnvSize = cfg.env.envSize + 5 := rfl
  rw [copyAt_eq, copyAt_eq]
  refine ⟨?_, Flash.read_congr fun a h1 h2 => h a (by omega) (by omega) (by omega)⟩
  rw [h off (by omega) (by omega) (by omega), h (off + 1) (by omega) (by omega) (by omega),
    h (off + 1 + 1) (by omega) (by omega) (by omega),
    h (off + 1 + 1 + 1) (by omega) (by omega) (by omega)]

end Copies

/-- The operations of a save on the copy at `new`. -/
def SfConfig.writeOps (cfg : SfConfig) (f : Flash) (new : Nat) (envNew : EnvT) : List FlashOp :=
  [.erase new cfg.eraseSize, .program new envNew.bytes] ++
    (if cfg.sectSize > cfg.configEnvSize then
      [.program (new + cfg.configEnvSize) (f.read (new + cfg.configEnvSize) (cfg.sectSize - cfg.configEnvSize))]
    else [])

section Save

variable {cfg : SfConfig} (hcfg : cfg.Ok) {f f' : Flash} {v : EnvValid} {ep : EnvT}

theorem SfConfig.saveOps_eq (hv : v ≠ .invalid) : cfg.saveOps f v ep =
    cfg.writeOps f (cfg.offsetOf v.flip) ep ++ [.program (cfg.offsetOf v + 4) [obsoleteFlag]] := by
  cases v with
  | invalid => exact absurd rfl hv
  | valid => rfl
  | redund => rfl

include hcfg

theorem SfConfig.Ok.configEnvSize_le : cfg.configEnvSize ≤ cfg.eraseSize := by
  have hs := hcfg.sect
  have hdiv := Nat.div_add_mod (cfg.configEnvSize + cfg.sectSize - 1) cfg.sectSize
  have hmod := Nat.mod_lt (cfg.configEnvSize + cfg.sectSize - 1) hs
  rw [eraseSize, Nat.mul_comm]
  omega

theorem SfConfig.Ok.sectSize_le : cfg.sectSize ≤ cfg.eraseSize := by
  have hs := hcfg.sect
  have hsize : 0 < cfg.configEnvSize := Nat.succ_pos _
  have hone : 1 ≤ (cfg.configEnvSize + cfg.sectSize - 1) / cfg.sectSize :=
    (Nat.one_le_div_iff hs).mpr (by omega)
  calc cfg.sectSize = 1 * cfg.sectSize := (Nat.one_mul _).symm
    _ ≤ cfg.eraseSize := Nat.mul_le_mul_right _ hone

theorem SfConfig.Ok.offsetOf_apart (hv : v ≠ .invalid) :
    cfg.offsetOf v + cfg.eraseSize ≤ cfg.offsetOf v.flip ∨
      cfg.offsetOf v.flip + cfg.eraseSize ≤ cfg.offsetOf v := by
  cases v with
  | invalid => exact absurd rfl hv
  | valid => exact hcfg.apart
  | redund => exact hcfg.apart.symm

theorem SfConfig.Ok.covers_writeOps {new a : Nat} (hlen : ep.data.length = cfg.env.envSize)
    {op : FlashOp} (hop : op ∈ cfg.writeOps f new ep) (ha : op.Covers a) :
    new ≤ a ∧ a < new + cfg.eraseSize := by
  have hle := hcfg.configEnvSize_le
  have hsect := hcfg.sectSize_le
  have hsize : cfg.configEnvSize = cfg.env.envSize + 5 := rfl
  have hbytes : ep.bytes.length = cfg.configEnvSize := by
    rw [hsize, ← hlen]
    rfl
  simp only [writeOps, List.mem_append, List.mem_cons, List.not_mem_nil, or_false] at hop
  rcases hop with (rfl | rfl) | hop
  · exact ha
  · simp only [FlashOp.Covers, hbytes] at ha
    omega
  · split at hop
    · rw [List.mem_singleton] at hop
      subst hop
      simp only [FlashOp.Covers, Flash.length_read] at ha
      omega
    · cases hop

theorem SfConfig.Ok.copyAt_writeOps (f : Flash) (new : Nat) (hlen : ep.data.length = cfg.env.envSize) :
    cfg.copyAt (applyOps (cfg.writeOps f new ep) f) new = ep := by
  have hle := hcfg.configEnvSize_le
  have hbytes : ep.bytes.length = cfg.configEnvSize := by
    rw [configEnvSize, ← hlen]
    rfl
  have hrest : ∀ a, new ≤ a → a < new + cfg.configEnvSize →
      applyOps (cfg.writeOps f new ep) f a =
        FlashOp.apply (FlashOp.apply f (.erase new cfg.eraseSize)) (.program new ep.bytes) a := by
    intro a h1 h2
    rw [writeOps, applyOps, List.foldl_append]
    refine applyOps_of_not_covers (fun op hop hc => ?_) _
    split at hop
    · rw [List.mem_singleton] at hop
      subst hop
      have := hc.1
      omega
    · cases hop
  rw [copyAt, Flash.read_congr hrest, ← hbytes, read_program_erase f (hbytes.trans_le hle), EnvT.ofBytes_bytes]

section

variable (hv : v ≠ .invalid) (hlen : ep.data.length = cfg.env.envSize)
include hv hlen

theorem SfConfig.Ok.not_covers_saveOps {a : Nat} (h1 : cfg.offsetOf v ≤ a)
    (h2 : a < cfg.offsetOf v + cfg.configEnvSize) :
    ∀ op ∈ cfg.writeOps f (cfg.offsetOf v.flip) ep, ¬ op.Covers a := by
  intro op hop hc
  have hle := hcfg.configEnvSize_le
  have hin := hcfg.covers_writeOps hlen hop hc
  have happart := hcfg.offsetOf_apart hv
  omega

/-- A save writes one byte of the old copy, its flags, and then the new copy is complete. -/
theorem SfConfig.Ok.copyAt_saved :
    cfg.copyAt (applyOps (cfg.saveOps f v ep) f) (cfg.offsetOf v.flip) = ep ∧
      (cfg.copyAt (applyOps (cfg.saveOps f v ep) f) (cfg.offsetOf v)).flags = obsoleteFlag := by
  have hle := hcfg.configEnvSize_le
  have happart := hcfg.offsetOf_apart hv
  have hsize : cfg.configEnvSize = cfg.env.envSize + 5 := rfl
  rw [cfg.saveOps_eq hv, applyOps, List.foldl_append]
  constructor
  · refine (copyAt_congr fun a h1 h2 => ?_).trans (hcfg.copyAt_writeOps f _ hlen)
    refine applyOps_of_not_covers (fun op hop hc => ?_) _
    rw [List.mem_singleton] at hop
    subst hop
    simp only [FlashOp.Covers, List.length_singleton] at hc
    omega
  · rw [copyAt_eq]
    simp only [List.foldl_cons, List.foldl_nil, FlashOp.apply, List.length_singleton, le_refl,
      Nat.lt_add_one, and_self, if_true, Nat.sub_self, List.getD_cons_zero]
    exact UInt8.and_zero

/-- A save that is cut leaves the old copy as it was, or differing in its flags beside a complete new one. -/
theorem SfConfig.Ok.copyAt_cut (hcut : CutDuring (cfg.saveOps f v ep) f f') :
    cfg.copyAt f' (cfg.offsetOf v) = cfg.copyAt f (cfg.offsetOf v) ∨
      (cfg.copyAt f' (cfg.offsetOf v.flip) = ep ∧
        (cfg.copyAt f' (cfg.offsetOf v)).crc = (cfg.copyAt f (cfg.offsetOf v)).crc ∧
        (cfg.copyAt f' (cfg.offsetOf v)).data = (cfg.copyAt f (cfg.offsetOf v)).data) := by
  have hle := hcfg.configEnvSize_le
  have happart := hcfg.offsetOf_apart hv
  have hsize : cfg.configEnvSize = cfg.env.envSize + 5 := rfl
  rw [cfg.saveOps_eq hv] at hcut
  rcases hcut.of_append with hcut | hlast
  · refine Or.inl (copyAt_congr fun a h1 h2 => ?_)
    exact hcut.of_not_covers (hcfg.not_covers_saveOps hv hlen h1 h2)
  · -- only the flags of the old copy are being written
    have hother : ∀ a, a ≠ cfg.offsetOf v + 4 →
        f' a = applyOps (cfg.writeOps f (cfg.offsetOf v.flip) ep) f a := by
      intro a ha
      refine hlast.1 a fun hc => ha ?_
      simp only [FlashOp.Covers, List.length_singleton] at hc
      omega
    refine Or.inr ⟨?_, copyAt_flags fun a h1 h2 h3 => ?_⟩
    · refine (copyAt_congr fun a h1 h2 => hother a ?_).trans (hcfg.copyAt_writeOps f _ hlen)
      omega
    · rw [hother a h3]
      exact applyOps_of_not_covers (hcfg.not_covers_saveOps hv hlen h1 h2) f

end

end Save

/-! ## Loads -/

/-- The copy that `env_valid` stands for is intact, a load chooses it, and it holds `E`. -/
structure SfInv (cfg : SfConfig) (f : Flash) (v : EnvValid) (E : Str → Str → Prop) : Prop where
  proper : v ≠ .invalid
  crc : cfg.env.CrcOk (cfg.copyAt f (cfg.offsetOf v))
  chosen : cfg.env.chooseCopy (cfg.copyAt f cfg.offset) (cfg.copyAt f cfg.offsetRedund) = v
  imports : cfg.env.Imports (cfg.copyAt f (cfg.offsetOf v)).data E

section Load

variable {cfg : SfConfig} {f f' : Flash} {v : EnvValid} {E : Str → Str → Prop}

theorem SfConfig.pick_copyAt (cfg : SfConfig) (f : Flash) (v : EnvValid) :
    v.pick (cfg.copyAt f cfg.offset) (cfg.copyAt f cfg.offsetRedund) =
      cfg.copyAt f (cfg.offsetOf v) := by
  unfold EnvValid.pick offsetOf
  split <;> rfl

theorem SfConfig.copyAt_both (hv : v ≠ .invalid) (h1 : cfg.copyAt f' (cfg.offsetOf v) = cfg.copyAt f (cfg.offsetOf v))
    (h2 : cfg.copyAt f' (cfg.offsetOf v.flip) = cfg.copyAt f (cfg.offsetOf v.flip)) :
    cfg.copyAt f' cfg.offset = cfg.copyAt f cfg.offset ∧
      cfg.copyAt f' cfg.offsetRedund = cfg.copyAt f cfg.offsetRedund := by
  cases v with
  | invalid => exact absurd rfl hv
  | valid => exact ⟨h1, h2⟩
  | redund => exact ⟨h2, h1⟩

theorem SfConfig.crcOk_or (h : cfg.env.CrcOk (cfg.copyAt f (cfg.offsetOf v))) :
    cfg.env.CrcOk (cfg.copyAt f cfg.offset) ∨ cfg.env.CrcOk (cfg.copyAt f cfg.offsetRedund) := by
  unfold offsetOf at h
  split at h
  · exact Or.inl h
  · exact Or.inr h

/-- The environment `E` is what the next load returns. -/
def SfConfig.Loads (cfg : SfConfig) (f : Flash) (E : Str → Str → Prop) : Prop :=
  ∃ gd t, cfg.envSfLoad f .boot = some (gd, true) ∧ gd.htab = some t ∧ ∀ k v, t.Maps k v ↔ E k v

theorem SfConfig.loads_of_imports (hcrc : cfg.env.CrcOk (cfg.copyAt f (cfg.offsetOf v)))
    (hE : cfg.env.Imports (cfg.copyAt f (cfg.offsetOf (cfg.env.chooseCopy (cfg.copyAt f cfg.offset)
      (cfg.copyAt f cfg.offsetRedund)))).data E) : cfg.Loads f E := by
  rw [← cfg.pick_copyAt] at hE
  obtain ⟨t, himport, ht⟩ := hE.envImport
    { Gd.boot with
      envValid := cfg.env.chooseCopy (cfg.copyAt f cfg.offset) (cfg.copyAt f cfg.offsetRedund)
      envFlags := ((cfg.env.chooseCopy (cfg.copyAt f cfg.offset)
        (cfg.copyAt f cfg.offsetRedund)).pick (cfg.copyAt f cfg.offset)
          (cfg.copyAt f cfg.offsetRedund)).flags }
  exact ⟨_, t, (envImportRedund_both (crcOk_or hcrc) Gd.boot).trans himport, rfl, ht⟩

theorem SfInv.loads (h : SfInv cfg f v E) : cfg.Loads f E :=
  loads_of_imports h.crc (by rw [h.chosen]; exact h.imports)

theorem SfConfig.Ok.inv_of_load (hcfg : cfg.Ok) {gd : Gd} {t : HsearchData}
    (hload : cfg.envSfLoad f .boot = some (gd, true)) (ht : gd.htab = some t) :
    SfInv cfg f gd.envValid t.Maps := by
  unfold envSfLoad at hload
  by_cases hok : cfg.env.CrcOk (cfg.copyAt f cfg.offset) ∨
      cfg.env.CrcOk (cfg.copyAt f cfg.offsetRedund)
  · rw [envImportRedund_both hok] at hload
    obtain ⟨hgd, himports⟩ := hcfg.env.imports_of_envImport hload ht
    have hv : gd.envValid = cfg.env.chooseCopy (cfg.copyAt f cfg.offset)
        (cfg.copyAt f cfg.offsetRedund) := by rw [hgd]
    rw [cfg.pick_copyAt, ← hv] at himports
    have hcrc := crcOk_pick hok
    rw [cfg.pick_copyAt, ← hv] at hcrc
    exact ⟨hv ▸ cfg.env.chooseCopy_ne_invalid _ _, hcrc, hv.symm, himports⟩
  · obtain ⟨h1, h2⟩ := not_or.mp hok
    simp only [envImportRedund, h1, h2, not_false_eq_true, and_self, if_true] at hload
    cases hload

end Load

/-! ## Saves -/

section Saves

variable {cfg : SfConfig} (hcfg : cfg.Ok) {f f' : Flash} {gd gd' : Gd} {E : Str → Str → Prop}
  {T : HsearchData} {ep : EnvT}

include hcfg

theorem SfConfig.Ok.envNew_spec (hT : cfg.env.Savable T) (h : cfg.envNew gd T = some (gd', some ep)) :
    gd'.envValid = gd.envValid ∧ ep.flags = activeFlag ∧ ep.data.length = cfg.env.envSize ∧
      cfg.env.CrcOk ep ∧ cfg.env.Imports ep.data T.Maps := by
  obtain ⟨⟨gd1, r⟩, hexport, hr⟩ := Option.map_eq_some_iff.mp h
  cases r with
  | none => cases hr
  | some ep1 =>
    cases hr
    obtain ⟨hgd, -, hlen, hcrc, himports⟩ := hT.envExport hcfg.env hexport
    exact ⟨by rw [hgd], rfl, hlen, hcrc, himports⟩

omit hcfg in
theorem SfConfig.chooseCopy_active {v : EnvValid} (hv : v ≠ .invalid)
    (hcrc : cfg.env.CrcOk (cfg.copyAt f (cfg.offsetOf v)))
    (hactive : (cfg.copyAt f (cfg.offsetOf v)).flags = activeFlag)
    (hobsolete : (cfg.copyAt f (cfg.offsetOf v.flip)).flags = obsoleteFlag) :
    cfg.env.chooseCopy (cfg.copyAt f cfg.offset) (cfg.copyAt f cfg.offsetRedund) = v := by
  unfold chooseCopy
  cases v with
  | invalid => exact absurd rfl hv
  | valid =>
    simp only [offsetOf, EnvValid.flip, reduceCtorEq, if_true, if_false] at hcrc hactive hobsolete
    simp only [hcrc, hactive, hobsolete, true_and, not_true_eq_false, false_and, if_false]
    split
    · rfl
    · decide
  | redund =>
    simp only [offsetOf, EnvValid.flip, reduceCtorEq, if_true, if_false] at hcrc hactive hobsolete
    simp only [hcrc, hactive, hobsolete, not_true_eq_false, and_false, if_false, and_true]
    split
    · rfl
    · decide

/-- A save that runs to its end makes the new copy the current one. -/
theorem SfInv.save (h : SfInv cfg f gd.envValid E) (hT : cfg.env.Savable T)
    (hsave : cfg.envSfSave f gd T = some (f', gd', true)) : SfInv cfg f' gd'.envValid T.Maps := by
  unfold envSfSave at hsave
  split at hsave
  · cases hsave
  · cases hsave
  · next gd1 ep hnew =>
    cases hsave
    obtain ⟨-, hflags, hlen, hcrc, himports⟩ := hcfg.envNew_spec hT hnew
    obtain ⟨hcopy, hold⟩ := hcfg.copyAt_saved h.proper hlen
    have hflip := gd.envValid.flip_ne_invalid
    refine ⟨hflip, by rw [hcopy]; exact hcrc, ?_, by rw [hcopy]; exact himports⟩
    exact chooseCopy_active hflip (by rw [hcopy]; exact hcrc) (by rw [hcopy]; exact hflags)
      (by rw [EnvValid.flip_flip h.proper]; exact hold)

/-- After a save that was cut, a load returns the current environment or the new one. -/
theorem SfInv.loads_of_cut (h : SfInv cfg f gd.envValid E) (hT : cfg.env.Savable T)
    (hcut : SfSaveCut cfg f gd T f') : cfg.Loads f' E ∨ cfg.Loads f' T.Maps := by
  obtain ⟨gd1, ep, hnew, hduring, hcrc'⟩ := hcut
  obtain ⟨-, hflags, hlen, hepcrc, himports⟩ := hcfg.envNew_spec hT hnew
  have hold := hcfg.copyAt_cut h.proper hlen hduring
  -- the data and the CRC of the old copy are untouched in either case
  have holdcrc : cfg.env.CrcOk (cfg.copyAt f' (cfg.offsetOf gd.envValid)) := by
    have hc := h.crc
    rcases hold with ho | ⟨-, ho1, ho2⟩
    · rwa [ho]
    · rwa [EnvConfig.CrcOk, ho1, ho2]
  have holdimp : cfg.env.Imports (cfg.copyAt f' (cfg.offsetOf gd.envValid)).data E := by
    have hi := h.imports
    rcases hold with ho | ⟨-, -, ho2⟩
    · rwa [ho]
    · rwa [ho2]
  rcases EnvValid.eq_or_eq_flip h.proper (cfg.env.chooseCopy_ne_invalid
    (cfg.copyAt f' cfg.offset) (cfg.copyAt f' cfg.offsetRedund)) with hchoice | hchoice
  · exact Or.inl (loads_of_imports holdcrc (by rw [hchoice]; exact holdimp))
  · -- the load chooses the new copy: it is complete
    have hpick := crcOk_pick (crcOk_or holdcrc)
    rw [cfg.pick_copyAt, hchoice] at hpick
    have hnewcopy : cfg.copyAt f' (cfg.offsetOf gd.envValid.flip) = ep := by
      rcases hcrc' with hsame | hdone | hbad
      · rcases hold with ho | ⟨hdone, -⟩
        · -- both copies are as before the save, and then the load chooses the old one
          have hsamechoice := h.chosen
          obtain ⟨h1, h2⟩ := copyAt_both h.proper ho hsame
          rw [← h1, ← h2, hchoice] at hsamechoice
          exact absurd hsamechoice (EnvValid.flip_ne h.proper)
        · exact hdone
      · exact hdone
      · exact absurd hpick hbad
    refine Or.inr (loads_of_imports holdcrc ?_)
    rw [hchoice, hnewcopy]
    exact himports

omit hcfg in
theorem SfConfig.envSfSave_fails (hsave : cfg.envSfSave f gd T = some (f', gd', false)) :
    f' = f ∧ gd'.envValid = gd.envValid := by
  unfold envSfSave at hsave
  split at hsave
  · cases hsave
  · next gd1 hnew =>
    cases hsave
    obtain ⟨⟨gd2, r⟩, hexport, hr⟩ := Option.map_eq_some_iff.mp hnew
    cases r with
    | some ep => cases hr
    | none =>
      cases hr
      unfold envExport at hexport
      split at hexport
      · cases hexport
      · cases hexport
        exact ⟨rfl, rfl⟩
      · cases hexport
  · cases hsave

end Saves

/-! ## Runs -/

theorem SfReach.inv {cfg : SfConfig} (hcfg : cfg.Ok) {f0 f : Flash} {gd : Gd}
    {E : Str → Str → Prop} (h : SfReach cfg f0 f gd E) : SfInv cfg f gd.envValid E := by
  induction h with
  | boot hload ht => exact hcfg.inv_of_load hload ht
  | edit T _ ih => exact ih
  | save _ _ hsavable hsave ih => exact ih.save hcfg hsavable hsave
  | saveFails _ _ _ hsave ih =>
    obtain ⟨rfl, hv⟩ := envSfSave_fails hsave
    rwa [hv]
  | reboot _ hload ht ih =>
    obtain ⟨gd1, t1, hload1, -⟩ := ih.loads
    rw [hload1] at hload
    cases hload
    exact hcfg.inv_of_load hload1 ht
  | cut _ _ hsavable hcut hload ht ih =>
    rcases ih.loads_of_cut hcfg hsavable hcut with ⟨gd1, t1, hload1, -⟩ | ⟨gd1, t1, hload1, -⟩ <;>
    · rw [hload1] at hload
      cases hload
      exact hcfg.inv_of_load hload1 ht

/-- The environment survives power cuts: every load succeeds; it returns the current environment, or after a
save that was cut, that one or the one being saved. -/
theorem env_sf_survives_power_cuts (cfg : SfConfig) (hcfg : cfg.Ok) (f₀ f : Flash) (gd : Gd)
    (E : Str → Str → Prop) (h : SfReach cfg f₀ f gd E) :
    cfg.Loads f E ∧ ∀ T f', gd.htab = some T → cfg.env.Savable T → SfSaveCut cfg f gd T f' →
      cfg.Loads f' E ∨ cfg.Loads f' T.Maps :=
  ⟨(h.inv hcfg).loads, fun _ _ _ hT hcut => (h.inv hcfg).loads_of_cut hcfg hT hcut⟩

def smallSf : SfConfig := ⟨smallEnv, 0, 64, 32⟩

theorem smallSf_ok : smallSf.Ok := ⟨smallEnv_ok, by decide, by decide⟩

theorem smallSf_loads_zeros : smallSf.Loads (fun _ => 0) fun _ _ => False := by
  obtain ⟨t0, ht0⟩ := hcreateR_importEntries (n := 16) (Nat.le_of_ble_eq_true rfl)
  have hempty : ∃ t, himportR smallSf.env.hooks smallSf.env.malloc none (List.replicate 16 0) 0 0
      false [] = some (some t, true, none) ∧ Loaded t [] :=
    himportR_entries (l := []) (fun _ => Hooks.unset_accepting) (.inl rfl) nofun
      List.nodup_nil rfl rfl none (Nat.zero_and _) ht0 (Nat.zero_le _)
  obtain ⟨t, himport, hload⟩ := hempty
  refine loads_of_imports (v := .valid) (by decide) ⟨t, fun old => ⟨none, ?_⟩, fun k v => ?_⟩
  · exact (himportR_old smallSf_ok.env.malloc old none _ _ _ _).trans himport
  · rw [hload.maps_iff]
    exact iff_of_false List.not_mem_nil id

theorem smallSf_envNew (gd : Gd) (c : UInt8) :
    ∃ gd' ep, smallSf.envNew gd (oneVar c) = some (gd', some ep) :=
  ⟨_, _, rfl⟩

/-- A first save that succeeds, and a second one whose power is cut between the erase and the write. -/
theorem env_sf_survives_power_cuts_second_save : ∃ f gd f',
    SfReach smallSf (fun _ => 0) f gd (oneVar 49).Maps ∧ gd.htab = some (oneVar 50) ∧
      smallSf.Loads f (oneVar 49).Maps ∧ SfSaveCut smallSf f gd (oneVar 50) f' ∧
      (smallSf.Loads f' (oneVar 49).Maps ∨ smallSf.Loads f' (oneVar 50).Maps) := by
  obtain ⟨gd₀, t, hload, ht, -⟩ := smallSf_loads_zeros
  have hvalid : gd₀.envValid = .valid := by
    have hrun : ((smallSf.envSfLoad (fun _ => 0) .boot).map fun r => r.1.envValid) = some .valid := by
      decide +kernel
    rw [hload] at hrun
    exact Option.some.inj hrun
  obtain ⟨gd₁, ep₁, hnew₁⟩ := smallSf_envNew { gd₀ with htab := some (oneVar 49) } 49
  have hsave := SfReach.save ((SfReach.boot hload ht).edit (oneVar 49)) rfl (smallEnv_savable 49 (by decide))
    (by rw [SfConfig.envSfSave, hnew₁])
  have hreach := hsave.edit (oneVar 50)
  obtain ⟨gd₂, ep₂, hnew₂⟩ := smallSf_envNew
    { gd₁ with envValid := gd₀.envValid.flip, htab := some (oneVar 50) } 50
  obtain ⟨hloads, hcuts⟩ := env_sf_survives_power_cuts smallSf smallSf_ok _ _ _ _ hreach
  generalize applyOps _ _ = f at hreach hloads hcuts
  have hcut : SfSaveCut smallSf f { gd₁ with envValid := gd₀.envValid.flip, htab := some (oneVar 50) } (oneVar 50)
      ((FlashOp.erase 0 32).apply f) := by
    refine ⟨gd₂, ep₂, hnew₂, ?_, .inr (.inr ?_)⟩
    · rw [hvalid]
      exact .later (.now (FlashOp.cut_self _ _))
    · rw [hvalid]
      show ¬ smallEnv.CrcOk (.ofBytes (Flash.read _ 0 21))
      rw [Flash.read_erase (by decide)]
      decide
  exact ⟨f, _, _, hreach, rfl, hloads, hcut, hcuts _ _ rfl (smallEnv_savable 50 (by decide)) hcut⟩

end Armada3720.Env
