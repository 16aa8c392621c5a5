import Armada3720.Psci.Topology
import Armada3720.Lib.Reaches

/-!
# Turning a CPU on

`psci_cpu_on_start` on any CPU, `psci_do_cpu_off` and the warm boot path of the target, in any interleaving. The
target starts as soon as `pwr_domain_on` has succeeded, before its context is stored, and waits for the lock
before it uses the context. Memory is coherent.

`cpu_on_granted_once` and `cpu_on_never_stops` are for every interleaving. They do not say that a call that waits for
the lock gets it.
-/

namespace Armada3720.Psci

open Lib

/-! ## The system -/

inductive PsciError where
  | success
  | alreadyOn
  | onPending
  | internFail
deriving DecidableEq, Repr

def cpuOnValidateState : AffInfoState → PsciError
  | .on => .alreadyOn
  | .onPending => .onPending
  | .off => .success

section System

variable (Cpu Ep : Type)

inductive Place where
  /-- Outside the functions below. -/
  | running
  /-- In `psci_cpu_on_start`, with the lock of the target. -/
  | onLocked (target : Cpu) (ep : Ep)
  /-- The same, with the target set to ON_PENDING. -/
  | onPending (target : Cpu) (ep : Ep)
  /-- The same, after `pwr_domain_on` has succeeded. -/
  | onPowered (target : Cpu) (ep : Ep)
  /-- At the end of `psci_do_cpu_off`. -/
  | turningOff
  | off
  /-- In `psci_warmboot_entrypoint`, which has found the CPU not OFF. -/
  | warmboot
  /-- In `psci_cpu_on_finish`. -/
  | onFinish
  /-- The same, after the lock has been taken and released. -/
  | synced
  /-- `cm_prepare_el3_exit` has used the context. -/
  | leaving (ep : Ep)
  /-- In `psci_cpu_suspend_finish`. -/
  | suspendFinish
  /-- After a panic or a failed assertion. -/
  | stopped

/-- `aff_info_state`, the holder of the spin lock, the context, whether it is powered on when it is down, and
where it is. -/
structure CpuData where
  affInfoState : AffInfoState
  lock : Option Cpu
  context : Ep
  wake : Bool
  place : Place Cpu Ep

/-- What has happened, the newest first. -/
inductive Record where
  /-- A call of `psci_cpu_on_start` for the target has returned. -/
  | cpuOnReturned (target : Cpu) (ep : Ep) (rc : PsciError)
  /-- A CPU has set itself to OFF. -/
  | cpuOff (cpu : Cpu)
  /-- A CPU has left EL3 through `psci_cpu_on_finish`, with a context. -/
  | left (cpu : Cpu) (ep : Ep)

structure OnSystem where
  cpu : Cpu → CpuData Cpu Ep
  history : List (Record Cpu Ep)

inductive OnEvent where
  | lock (caller target : Cpu) (ep : Ep)
  | validate (caller : Cpu)
  | pwrDomainOn (caller : Cpu) (fails : Bool)
  | storeContext (caller : Cpu)
  | cpuOff (cpu : Cpu)
  | powerDown (cpu : Cpu)
  | reset (cpu : Cpu)
  | chooseFinisher (cpu : Cpu)
  | sync (cpu : Cpu)
  | prepareExit (cpu : Cpu)
  | setRun (cpu : Cpu)

end System

section Steps

variable {Cpu Ep : Type} [DecidableEq Cpu]

def OnSystem.set (sys : OnSystem Cpu Ep) (c : Cpu) (f : CpuData Cpu Ep → CpuData Cpu Ep) : OnSystem Cpu Ep :=
  { sys with cpu := Function.update sys.cpu c (f (sys.cpu c)) }

def OnSystem.goto (sys : OnSystem Cpu Ep) (c : Cpu) (place : Place Cpu Ep) : OnSystem Cpu Ep :=
  sys.set c fun d => { d with place := place }

def OnSystem.setAffInfoState (sys : OnSystem Cpu Ep) (c : Cpu) (state : AffInfoState) : OnSystem Cpu Ep :=
  sys.set c fun d => { d with affInfoState := state }

def OnSystem.setLock (sys : OnSystem Cpu Ep) (c : Cpu) (holder : Option Cpu) : OnSystem Cpu Ep :=
  sys.set c fun d => { d with lock := holder }

def OnSystem.setWake (sys : OnSystem Cpu Ep) (c : Cpu) (wake : Bool) : OnSystem Cpu Ep :=
  sys.set c fun d => { d with wake := wake }

/-- `cm_init_context_by_index`. -/
def OnSystem.cmInitContext (sys : OnSystem Cpu Ep) (c : Cpu) (ep : Ep) : OnSystem Cpu Ep :=
  sys.set c fun d => { d with context := ep }

def OnSystem.record (sys : OnSystem Cpu Ep) (r : Record Cpu Ep) : OnSystem Cpu Ep :=
  { sys with history := r :: sys.history }

/-- The label `exit` of `psci_cpu_on_start`. -/
def OnSystem.onReturn (sys : OnSystem Cpu Ep) (caller target : Cpu) (ep : Ep) (rc : PsciError) :
    OnSystem Cpu Ep :=
  ((sys.setLock target none).goto caller .running).record (.cpuOnReturned target ep rc)

/-- `psci_cpu_on_start` up to the lock, which must be free. -/
def stepLock (sys : OnSystem Cpu Ep) (caller target : Cpu) (ep : Ep) : Option (OnSystem Cpu Ep) :=
  match (sys.cpu caller).place, (sys.cpu target).lock with
  | .running, none => some ((sys.setLock target (some caller)).goto caller (.onLocked target ep))
  | _, _ => none

/-- `psci_cpu_on_start` from the lock to the hook. -/
def stepValidate (sys : OnSystem Cpu Ep) (caller : Cpu) : Option (OnSystem Cpu Ep) :=
  match (sys.cpu caller).place with
  | .onLocked target ep =>
    match cpuOnValidateState (sys.cpu target).affInfoState with
    | .success => some ((sys.setAffInfoState target .onPending).goto caller (.onPending target ep))
    | rc => some (sys.onReturn caller target ep rc)
  | _ => none

/-- `pwr_domain_on` in `psci_cpu_on_start`. -/
def stepPwrDomainOn (sys : OnSystem Cpu Ep) (caller : Cpu) (fails : Bool) : Option (OnSystem Cpu Ep) :=
  match (sys.cpu caller).place with
  | .onPending target ep =>
    if fails then some ((sys.setAffInfoState target .off).onReturn caller target ep .internFail)
    else some ((sys.setWake target true).goto caller (.onPowered target ep))
  | _ => none

/-- The end of `psci_cpu_on_start` after the hook has succeeded. -/
def stepStoreContext (sys : OnSystem Cpu Ep) (caller : Cpu) : Option (OnSystem Cpu Ep) :=
  match (sys.cpu caller).place with
  | .onPowered target ep => some ((sys.cmInitContext target ep).onReturn caller target ep .success)
  | _ => none

/-- `psci_do_cpu_off` that succeeds, up to the `wfi`. -/
def stepCpuOff (sys : OnSystem Cpu Ep) (c : Cpu) : Option (OnSystem Cpu Ep) :=
  match (sys.cpu c).place with
  | .running => some (((sys.setAffInfoState c .off).goto c .turningOff).record (.cpuOff c))
  | _ => none

/-- The power controller switches the CPU off. -/
def stepPowerDown (sys : OnSystem Cpu Ep) (c : Cpu) : Option (OnSystem Cpu Ep) :=
  match (sys.cpu c).place with
  | .turningOff => some (sys.goto c .off)
  | _ => none

/-- The CPU comes out of reset and checks its state. -/
def stepReset (sys : OnSystem Cpu Ep) (c : Cpu) : Option (OnSystem Cpu Ep) :=
  match (sys.cpu c).place, (sys.cpu c).wake with
  | .off, true =>
    some ((sys.setWake c false).goto c (if (sys.cpu c).affInfoState = .off then .stopped else .warmboot))
  | _, _ => none

/-- `psci_warmboot_entrypoint` chooses the finisher. -/
def stepChooseFinisher (sys : OnSystem Cpu Ep) (c : Cpu) : Option (OnSystem Cpu Ep) :=
  match (sys.cpu c).place with
  | .warmboot => some (sys.goto c (if (sys.cpu c).affInfoState = .onPending then .onFinish else .suspendFinish))
  | _ => none

/-- `psci_cpu_on_finish` takes and releases the lock, and checks the state. -/
def stepSync (sys : OnSystem Cpu Ep) (c : Cpu) : Option (OnSystem Cpu Ep) :=
  match (sys.cpu c).place, (sys.cpu c).lock with
  | .onFinish, none => some (sys.goto c (if (sys.cpu c).affInfoState = .onPending then .synced else .stopped))
  | _, _ => none

def stepPrepareExit (sys : OnSystem Cpu Ep) (c : Cpu) : Option (OnSystem Cpu Ep) :=
  match (sys.cpu c).place with
  | .synced => some (sys.goto c (.leaving (sys.cpu c).context))
  | _ => none

/-- `psci_set_pwr_domains_to_run`, after which the CPU leaves EL3. -/
def stepSetRun (sys : OnSystem Cpu Ep) (c : Cpu) : Option (OnSystem Cpu Ep) :=
  match (sys.cpu c).place with
  | .leaving ep => some (((sys.setAffInfoState c .on).goto c .running).record (.left c ep))
  | _ => none

/-- One step, if it is enabled. -/
def onStep (sys : OnSystem Cpu Ep) : OnEvent Cpu Ep → Option (OnSystem Cpu Ep)
  | .lock caller target ep => stepLock sys caller target ep
  | .validate caller => stepValidate sys caller
  | .pwrDomainOn caller fails => stepPwrDomainOn sys caller fails
  | .storeContext caller => stepStoreContext sys caller
  | .cpuOff c => stepCpuOff sys c
  | .powerDown c => stepPowerDown sys c
  | .reset c => stepReset sys c
  | .chooseFinisher c => stepChooseFinisher sys c
  | .sync c => stepSync sys c
  | .prepareExit c => stepPrepareExit sys c
  | .setRun c => stepSetRun sys c

/-- A CPU that runs, or that is off, at the start. -/
def CpuData.initial (running : Bool) (context : Ep) : CpuData Cpu Ep :=
  if running then ⟨.on, none, context, false, .running⟩ else ⟨.off, none, context, false, .off⟩

/-- The CPUs that run at the start, and what is in the contexts then. -/
def onBoot (running : Cpu → Bool) (context : Cpu → Ep) : OnSystem Cpu Ep :=
  ⟨fun c => .initial (running c) (context c), []⟩

end Steps

/-! ## What has happened -/

section History

variable {Cpu Ep : Type} [DecidableEq Cpu]

/-- The parameters of the calls that were granted for a CPU since it was last turned off. -/
def grants (c : Cpu) : List (Record Cpu Ep) → List Ep
  | [] => []
  | .cpuOnReturned target ep rc :: h => if target = c ∧ rc = .success then ep :: grants c h else grants c h
  | .cpuOff d :: h => if d = c then [] else grants c h
  | .left _ _ :: h => grants c h

/-- A call is granted if none has been since the CPU was turned off, and otherwise returns one of three errors;
a CPU leaves with the parameters of the granted call. -/
def Record.Ok (h : List (Record Cpu Ep)) : Record Cpu Ep → Prop
  | .cpuOnReturned target _ rc =>
    rc = .success ∧ grants target h = [] ∨ rc = .alreadyOn ∨ rc = .onPending ∨ rc = .internFail
  | .cpuOff _ => True
  | .left c ep => grants c h = [ep]

/-- Every record finds what it should. -/
def HistoryOk : List (Record Cpu Ep) → Prop
  | [] => True
  | r :: h => r.Ok h ∧ HistoryOk h

end History

/-! ## The invariant -/

section Invariant

variable {Cpu Ep : Type}

/-- The CPU whose lock a CPU at a place holds. -/
def Place.target : Place Cpu Ep → Option Cpu
  | .onLocked t _ | .onPending t _ | .onPowered t _ => some t
  | _ => none

/-- The CPU is on. -/
def Place.Awake : Place Cpu Ep → Prop
  | .running | .onLocked _ _ | .onPending _ _ | .onPowered _ _ => True
  | _ => False

theorem Place.awake_of_target {p : Place Cpu Ep} {t : Cpu} (h : p.target = some t) : p.Awake := by
  revert h
  cases p <;> simp [Place.target, Place.Awake]

/-- The CPU is off, or will be. -/
def Place.Down : Place Cpu Ep → Prop
  | .turningOff | .off => True
  | _ => False

/-- The CPU is about to start, or has not yet taken the lock. -/
def CpuData.Waking (d : CpuData Cpu Ep) : Prop :=
  d.place.Down ∧ d.wake = true ∨ (d.place = .warmboot ∨ d.place = .onFinish) ∧ d.wake = false

/-- The CPU is past the lock, and uses the parameters if it uses any. -/
def CpuData.Finishing (d : CpuData Cpu Ep) (ep : Ep) : Prop :=
  (d.place = .synced ∨ d.place = .leaving ep) ∧ d.wake = false

/-- No call of `psci_cpu_on_start` is about to turn the CPU on. -/
def OnSystem.NoStarter (sys : OnSystem Cpu Ep) (c : Cpu) : Prop :=
  ∀ a ep, (sys.cpu a).place ≠ .onPending c ep ∧ (sys.cpu a).place ≠ .onPowered c ep

/-- The calls that are about to turn a CPU on are the same. -/
def SameStarters (sys sys' : OnSystem Cpu Ep) (c : Cpu) : Prop :=
  ∀ a ep, ((sys'.cpu a).place = .onPending c ep ↔ (sys.cpu a).place = .onPending c ep) ∧
    ((sys'.cpu a).place = .onPowered c ep ↔ (sys.cpu a).place = .onPowered c ep)

theorem SameStarters.noStarter {sys sys' : OnSystem Cpu Ep} {c : Cpu} (h : SameStarters sys sys' c)
    (hn : sys.NoStarter c) : sys'.NoStarter c := fun a ep =>
  ⟨fun h' => (hn a ep).1 ((h a ep).1.1 h'), fun h' => (hn a ep).2 ((h a ep).2.1 h')⟩

variable [DecidableEq Cpu]

/-- The states a CPU can be in. -/
inductive CpuOk (sys : OnSystem Cpu Ep) (c : Cpu) : Prop
  | on (hstate : (sys.cpu c).affInfoState = .on) (hplace : (sys.cpu c).place.Awake)
      (hwake : (sys.cpu c).wake = false) (hstarter : sys.NoStarter c)
  | off (hstate : (sys.cpu c).affInfoState = .off) (hplace : (sys.cpu c).place.Down)
      (hwake : (sys.cpu c).wake = false) (hstarter : sys.NoStarter c) (hgrants : grants c sys.history = [])
  | pending (a : Cpu) (ep : Ep) (hstate : (sys.cpu c).affInfoState = .onPending)
      (hplace : (sys.cpu c).place.Down) (hwake : (sys.cpu c).wake = false)
      (hstarter : (sys.cpu a).place = .onPending c ep) (hgrants : grants c sys.history = [])
  | powered (a : Cpu) (ep : Ep) (hstate : (sys.cpu c).affInfoState = .onPending) (hwaking : (sys.cpu c).Waking)
      (hstarter : (sys.cpu a).place = .onPowered c ep) (hgrants : grants c sys.history = [])
  | granted (hstate : (sys.cpu c).affInfoState = .onPending)
      (hplace : (sys.cpu c).Waking ∨ (sys.cpu c).Finishing (sys.cpu c).context) (hstarter : sys.NoStarter c)
      (hgrants : grants c sys.history = [(sys.cpu c).context])

structure OnInv (sys : OnSystem Cpu Ep) : Prop where
  lock : ∀ a t, (sys.cpu a).place.target = some t → (sys.cpu t).lock = some a
  cpu : ∀ c, CpuOk sys c
  history : HistoryOk sys.history

end Invariant

/-! ## The steps keep the invariant -/

open OnSystem

section Frame

variable {Cpu Ep : Type} [DecidableEq Cpu] {sys sys' : OnSystem Cpu Ep} {a c t : Cpu} {ep : Ep}

@[simp] theorem set_cpu_self (f : CpuData Cpu Ep → CpuData Cpu Ep) : (sys.set c f).cpu c = f (sys.cpu c) :=
  Function.update_self ..

@[simp] theorem set_cpu_of_ne (f : CpuData Cpu Ep → CpuData Cpu Ep) (h : a ≠ c) : (sys.set c f).cpu a = sys.cpu a :=
  Function.update_of_ne h ..

@[simp] theorem set_history (f : CpuData Cpu Ep → CpuData Cpu Ep) : (sys.set c f).history = sys.history :=
  rfl

@[simp] theorem set_set (f g : CpuData Cpu Ep → CpuData Cpu Ep) : (sys.set c f).set c g = sys.set c (g ∘ f) := by
  simp [OnSystem.set]

/-- A CPU whose data (its lock apart), grants and starters stay is as it was. -/
theorem CpuOk.frame (h : CpuOk sys c) {l : Option Cpu} (hcpu : sys'.cpu c = { sys.cpu c with lock := l })
    (hgrants : grants c sys'.history = grants c sys.history) (hsame : SameStarters sys sys' c) :
    CpuOk sys' c := by
  cases h with
  | on hs hp hw hn => exact .on (hcpu ▸ hs) (hcpu ▸ hp) (hcpu ▸ hw) (hsame.noStarter hn)
  | off hs hp hw hn hg =>
    exact .off (hcpu ▸ hs) (hcpu ▸ hp) (hcpu ▸ hw) (hsame.noStarter hn) (hgrants.trans hg)
  | pending a ep hs hp hw hst hg =>
    exact .pending a ep (hcpu ▸ hs) (hcpu ▸ hp) (hcpu ▸ hw) ((hsame a ep).1.2 hst) (hgrants.trans hg)
  | powered a ep hs hw hst hg =>
    exact .powered a ep (hcpu ▸ hs) (hcpu ▸ hw) ((hsame a ep).2.2 hst) (hgrants.trans hg)
  | granted hs hp hn hg =>
    exact .granted (hcpu ▸ hs) (hcpu ▸ hp) (hsame.noStarter hn) (by rw [hgrants, hcpu]; exact hg)

theorem place_called {f : CpuData Cpu Ep → CpuData Cpu Ep} (hf : ∀ d, (f d).place = d.place)
    (p : Place Cpu Ep) (hne : c ≠ a) : (((sys.set t f).goto a p).cpu c).place = (sys.cpu c).place := by
  by_cases hct : c = t
  · subst hct
    simp [goto, hne, hf]
  · simp [goto, hne, hct]

section

variable (h : OnInv sys)
include h

theorem OnInv.on_of_awake (ha : (sys.cpu a).place.Awake) :
    (sys.cpu a).affInfoState = .on ∧ (sys.cpu a).wake = false ∧ sys.NoStarter a := by
  cases h.cpu a with
  | on hs _ hw hn => exact ⟨hs, hw, hn⟩
  | off _ hp => revert ha hp; cases (sys.cpu a).place <;> simp [Place.Awake, Place.Down]
  | pending _ _ _ hp => revert ha hp; cases (sys.cpu a).place <;> simp [Place.Awake, Place.Down]
  | powered _ _ _ hw =>
    revert ha hw
    unfold CpuData.Waking
    cases (sys.cpu a).place <;> simp [Place.Awake, Place.Down]
  | granted _ hp =>
    revert ha hp
    unfold CpuData.Waking CpuData.Finishing
    cases (sys.cpu a).place <;> simp [Place.Awake, Place.Down]

theorem OnInv.holder_unique {a b : Cpu} (ha : (sys.cpu a).place.target = some t)
    (hb : (sys.cpu b).place.target = some t) : a = b :=
  Option.some.inj ((h.lock a t ha).symm.trans (h.lock b t hb))

theorem OnInv.of_pending (ha : (sys.cpu a).place = .onPending t ep) :
    a ≠ t ∧ (sys.cpu t).affInfoState = .onPending ∧ (sys.cpu t).place.Down ∧ (sys.cpu t).wake = false ∧
      grants t sys.history = [] := by
  have hne : a ≠ t := fun heq =>
    ((h.on_of_awake (a := a) (by rw [ha]; trivial)).2.2 a ep).1 (heq ▸ ha)
  cases h.cpu t with
  | on _ _ _ hn => exact absurd ha (hn a ep).1
  | off _ _ _ hn => exact absurd ha (hn a ep).1
  | pending _ _ hs hp hw _ hg => exact ⟨hne, hs, hp, hw, hg⟩
  | powered b _ _ _ hb =>
    have : a = b := h.holder_unique (by rw [ha]; rfl) (by rw [hb]; rfl)
    rw [← this, ha] at hb
    cases hb
  | granted _ _ hn => exact absurd ha (hn a ep).1

theorem OnInv.of_powered (ha : (sys.cpu a).place = .onPowered t ep) :
    a ≠ t ∧ (sys.cpu t).affInfoState = .onPending ∧ (sys.cpu t).Waking ∧ grants t sys.history = [] := by
  have hne : a ≠ t := fun heq =>
    ((h.on_of_awake (a := a) (by rw [ha]; trivial)).2.2 a ep).2 (heq ▸ ha)
  cases h.cpu t with
  | on _ _ _ hn => exact absurd ha (hn a ep).2
  | off _ _ _ hn => exact absurd ha (hn a ep).2
  | pending b _ _ _ _ hb =>
    have : a = b := h.holder_unique (by rw [ha]; rfl) (by rw [hb]; rfl)
    rw [← this, ha] at hb
    cases hb
  | powered _ _ hs hw _ hg => exact ⟨hne, hs, hw, hg⟩
  | granted _ _ hn => exact absurd ha (hn a ep).2

variable {f : CpuData Cpu Ep → CpuData Cpu Ep}

theorem OnInv.call {p : Place Cpu Ep} {hist : List (Record Cpu Ep)}
    (hf : ∀ d, (f d).place = d.place) (ha : (sys.cpu a).place.Awake) (hp : p.Awake)
    (hfrom : ∀ c, (sys.cpu a).place.target = some c → c = t)
    (hto : ∀ c, p.target = some c → c = t ∧ (f (sys.cpu t)).lock = some a)
    (hfree : ∀ b, b ≠ a → (sys.cpu b).place.target ≠ some t)
    (hgrants : ∀ c, c ≠ t → grants c hist = grants c sys.history) (hhist : HistoryOk hist)
    (hok : CpuOk ⟨((sys.set t f).goto a p).cpu, hist⟩ t) :
    OnInv ⟨((sys.set t f).goto a p).cpu, hist⟩ := by
  have hself : (((sys.set t f).goto a p).cpu a).place = p := by simp [goto]
  have hlock : ∀ b, b ≠ t → (((sys.set t f).goto a p).cpu b).lock = (sys.cpu b).lock := by
    intro b hb
    by_cases hba : b = a
    · subst hba
      simp [goto, hb]
    · simp [goto, hb, hba]
  have hlockt : (((sys.set t f).goto a p).cpu t).lock = (f (sys.cpu t)).lock := by
    by_cases hta : t = a
    · subst hta
      simp [goto]
    · simp [goto, hta]
  have hstart : ∀ c, c ≠ t → ∀ q : Place Cpu Ep, q.target = some c → ∀ b,
      (((sys.set t f).goto a p).cpu b).place = q ↔ (sys.cpu b).place = q := by
    intro c hc q hq b
    by_cases hb : b = a
    · subst hb
      rw [hself]
      exact ⟨fun h' => absurd (hto c (h' ▸ hq)).1 hc, fun h' => absurd (hfrom c (h' ▸ hq)) hc⟩
    · rw [place_called hf p hb]
  refine ⟨fun b c hb => ?_, fun c => ?_, hhist⟩
  · by_cases hba : b = a
    · subst hba
      rw [hself] at hb
      obtain ⟨rfl, hl⟩ := hto c hb
      rw [hlockt, hl]
    · rw [place_called hf p hba] at hb
      have hct : c ≠ t := fun hct => hfree b hba (hct ▸ hb)
      rw [hlock c hct]
      exact h.lock b c hb
  · by_cases hct : c = t
    · exact hct ▸ hok
    have hsame : SameStarters sys ⟨((sys.set t f).goto a p).cpu, hist⟩ c := fun b ep =>
      ⟨hstart c hct _ rfl b, hstart c hct _ rfl b⟩
    by_cases hca : c = a
    · subst hca
      obtain ⟨hs, hw, hn⟩ := h.on_of_awake ha
      refine .on ?_ ?_ ?_ (hsame.noStarter hn)
      · simpa [goto, hct] using hs
      · simpa [goto, hct] using hp
      · simpa [goto, hct] using hw
    · refine (h.cpu c).frame (l := (sys.cpu c).lock) ?_ (hgrants c hct) hsame
      simp [goto, hct, hca]

theorem OnInv.own {hist : List (Record Cpu Ep)} (hf : ∀ d, (f d).lock = d.lock)
    (hfrom : (sys.cpu c).place.target = none) (hto : (f (sys.cpu c)).place.target = none)
    (hgrants : ∀ b, b ≠ c → grants b hist = grants b sys.history) (hhist : HistoryOk hist)
    (hok : SameStarters sys ⟨(sys.set c f).cpu, hist⟩ c → CpuOk ⟨(sys.set c f).cpu, hist⟩ c) :
    OnInv ⟨(sys.set c f).cpu, hist⟩ := by
  have hstart : ∀ {d} {q : Place Cpu Ep}, q.target = some d → ∀ b,
      ((sys.set c f).cpu b).place = q ↔ (sys.cpu b).place = q := by
    intro d q hq b
    by_cases hb : b = c
    · subst hb
      constructor
      · intro h'
        simp [← h', hto] at hq
      · intro h'
        simp [← h', hfrom] at hq
    · rw [set_cpu_of_ne f hb]
  have hlock : ∀ b, ((sys.set c f).cpu b).lock = (sys.cpu b).lock := by
    intro b
    by_cases hb : b = c
    · subst hb
      simp [hf]
    · simp [hb]
  refine ⟨fun b d hb => ?_, fun d => ?_, hhist⟩
  · exact (hlock d).trans (h.lock b d ((hstart hb b).1 rfl ▸ hb))
  · have hsame : SameStarters sys ⟨(sys.set c f).cpu, hist⟩ d := fun b ep =>
      ⟨hstart rfl b, hstart rfl b⟩
    by_cases hd : d = c
    · subst hd
      exact hok hsame
    · refine (h.cpu d).frame (l := (sys.cpu d).lock) ?_ (hgrants d hd) hsame
      simp [hd]

theorem OnInv.own_silent (hf : ∀ d, (f d).lock = d.lock) (hfrom : (sys.cpu c).place.target = none)
    (hto : (f (sys.cpu c)).place.target = none)
    (hok : SameStarters sys (sys.set c f) c → CpuOk (sys.set c f) c) :
    OnInv (sys.set c f) :=
  h.own hf hfrom hto (fun _ _ => rfl) h.history hok

end

end Frame

section StepsKeep

variable {Cpu Ep : Type} [DecidableEq Cpu] {sys sys' : OnSystem Cpu Ep} {a c t : Cpu} {ep : Ep}

variable {hist : List (Record Cpu Ep)}

theorem OnInv.call_idle (h : OnInv sys) {l : Option Cpu} {p : Place Cpu Ep}
    (ha : (sys.cpu a).place.Awake) (hp : p.Awake)
    (hfrom : ∀ q : Place Cpu Ep, (sys.cpu a).place = q → ∀ ep, q ≠ .onPending t ep ∧ q ≠ .onPowered t ep)
    (hto : ∀ ep, p ≠ .onPending t ep ∧ p ≠ .onPowered t ep)
    (hgrants : grants t hist = grants t sys.history) :
    CpuOk ⟨((sys.setLock t l).goto a p).cpu, hist⟩ t := by
  have hsame : SameStarters sys ⟨((sys.setLock t l).goto a p).cpu, hist⟩ t := by
    intro b ep
    by_cases hb : b = a
    · subst hb
      simp [goto, hto ep, hfrom _ rfl ep]
    · have hplace : (((sys.setLock t l).goto a p).cpu b).place = (sys.cpu b).place :=
        place_called (f := fun d => { d with lock := l }) (fun _ => rfl) p hb
      simp only [hplace, and_self]
  by_cases hta : t = a
  · subst hta
    obtain ⟨hs, hw, hn⟩ := h.on_of_awake ha
    refine .on ?_ ?_ ?_ (hsame.noStarter hn)
    · simpa [goto, setLock] using hs
    · simpa [goto] using hp
    · simpa [goto, setLock] using hw
  · refine (h.cpu t).frame (l := l) ?_ hgrants hsame
    simp [goto, setLock, hta]

theorem OnInv.free_of_holder (h : OnInv sys) (ha : (sys.cpu a).place.target = some t) :
    ∀ b, b ≠ a → (sys.cpu b).place.target ≠ some t :=
  fun _ hb hbt => hb (h.holder_unique hbt ha)

theorem OnInv.call_held (h : OnInv sys) {f : CpuData Cpu Ep → CpuData Cpu Ep} {p : Place Cpu Ep}
    (hf : ∀ d, (f d).place = d.place) (ha : (sys.cpu a).place.target = some t) (hp : p.Awake)
    (hto : ∀ c, p.target = some c → c = t ∧ (f (sys.cpu t)).lock = some a)
    (hgrants : ∀ c, c ≠ t → grants c hist = grants c sys.history) (hhist : HistoryOk hist)
    (hok : CpuOk ⟨((sys.set t f).goto a p).cpu, hist⟩ t) :
    OnInv ⟨((sys.set t f).goto a p).cpu, hist⟩ :=
  h.call hf (Place.awake_of_target ha) hp (fun _ hc => (Option.some.inj (ha.symm.trans hc)).symm) hto
    (h.free_of_holder ha) hgrants hhist hok

theorem OnInv.stepLock (h : OnInv sys) (hs : stepLock sys a t ep = some sys') : OnInv sys' := by
  unfold Psci.stepLock at hs
  split at hs
  next hplace hlock =>
    cases hs
    refine h.call (fun _ => rfl) (by rw [hplace]; trivial) trivial ?_ ?_ ?_ (fun _ _ => rfl) h.history
      (h.call_idle (by rw [hplace]; trivial) trivial ?_ ?_ rfl)
    · simp [hplace, Place.target]
    · rintro c ⟨⟩
      exact ⟨rfl, rfl⟩
    · intro b _ hb
      simp [h.lock b t hb] at hlock
    · rintro _ rfl
      simp [hplace]
    · simp
  next => cases hs

theorem OnInv.noStarter_of_return (h : OnInv sys) {f : CpuData Cpu Ep → CpuData Cpu Ep}
    (hf : ∀ d, (f d).place = d.place) (ha : (sys.cpu a).place.target = some t) :
    OnSystem.NoStarter ⟨((sys.set t f).goto a .running).cpu, hist⟩ t := by
  intro b ep
  by_cases hb : b = a
  · subst hb
    simp [goto]
  · have hplace : (((sys.set t f).goto a .running).cpu b).place = (sys.cpu b).place :=
      place_called hf .running hb
    have hfree := h.free_of_holder ha b hb
    refine ⟨fun h' => hfree ?_, fun h' => hfree ?_⟩
    · rw [← hplace, show (((sys.set t f).goto a .running).cpu b).place = .onPending t ep from h']
      rfl
    · rw [← hplace, show (((sys.set t f).goto a .running).cpu b).place = .onPowered t ep from h']
      rfl

theorem grants_refused {rc : PsciError} (hrc : rc ≠ .success) (c t : Cpu) (ep : Ep)
    (h : List (Record Cpu Ep)) : grants c (.cpuOnReturned t ep rc :: h) = grants c h := by
  simp [grants, hrc]

theorem grants_of_ne (rc : PsciError) (hc : c ≠ t) (ep : Ep) (h : List (Record Cpu Ep)) :
    grants c (.cpuOnReturned t ep rc :: h) = grants c h := by
  simp [grants, Ne.symm hc]

section

variable (h : OnInv sys)
include h

theorem OnInv.stepValidate (hs : stepValidate sys a = some sys') : OnInv sys' := by
  unfold Psci.stepValidate at hs
  split at hs
  next t ep hplace =>
    have ha : (sys.cpu a).place.Awake := by rw [hplace]; trivial
    have htarget : (sys.cpu a).place.target = some t := by rw [hplace]; rfl
    split at hs
    next hrc =>
      -- The target is OFF, so it is another CPU, and it stays down until the hook has succeeded.
      cases hs
      have hoff : (sys.cpu t).affInfoState = .off := by
        revert hrc
        cases (sys.cpu t).affInfoState <;> simp [cpuOnValidateState]
      have hta : t ≠ a := by
        rintro rfl
        simp [(h.on_of_awake ha).1] at hoff
      refine h.call_held (fun _ => rfl) htarget trivial ?_ (fun _ _ => rfl) h.history ?_
      · rintro c ⟨⟩
        exact ⟨rfl, h.lock a t htarget⟩
      · cases h.cpu t with
        | off _ hp hw _ hg =>
          refine .pending a ep ?_ ?_ ?_ ?_ hg
          · simp [goto, hta]
          · simpa [goto, hta] using hp
          · simpa [goto, hta] using hw
          · simp [goto]
        | on hs => simp [hs] at hoff
        | pending _ _ hs => simp [hs] at hoff
        | powered _ _ hs => simp [hs] at hoff
        | granted hs => simp [hs] at hoff
    next hrc =>
      cases hs
      have hne : cpuOnValidateState (sys.cpu t).affInfoState ≠ .success := fun heq => hrc heq
      refine h.call_held (fun _ => rfl) htarget trivial (by simp [Place.target])
        (fun c _ => grants_refused hne c t ep _) ⟨?_, h.history⟩
        (h.call_idle ha trivial ?_ (by simp) (grants_refused hne t t ep _))
      · revert hne
        cases (sys.cpu t).affInfoState <;> simp [cpuOnValidateState, Record.Ok]
      · rintro _ rfl
        simp [hplace]
  next => cases hs

theorem OnInv.stepPwrDomainOn {fails : Bool} (hs : stepPwrDomainOn sys a fails = some sys') :
    OnInv sys' := by
  unfold Psci.stepPwrDomainOn at hs
  split at hs
  next t ep hplace =>
    have htarget : (sys.cpu a).place.target = some t := by rw [hplace]; rfl
    obtain ⟨hat, hstate, hdown, hwake, hg⟩ := h.of_pending hplace
    split at hs
    next =>
      cases hs
      rw [onReturn, setLock, setAffInfoState, set_set]
      have hne : PsciError.internFail ≠ .success := by decide
      refine h.call_held (fun _ => rfl) htarget trivial (by simp [Place.target])
        (fun c _ => grants_refused hne c t ep _) ⟨by simp [Record.Ok], h.history⟩ (.off ?_ ?_ ?_ ?_ ?_)
      · simp [goto, hat.symm]
      · simpa [goto, hat.symm] using hdown
      · simpa [goto, hat.symm] using hwake
      · exact h.noStarter_of_return (fun _ => rfl) htarget
      · exact (grants_refused hne t t ep _).trans hg
    next =>
      cases hs
      refine h.call_held (fun _ => rfl) htarget trivial ?_ (fun _ _ => rfl) h.history
        (.powered a ep ?_ (.inl ?_) ?_ hg)
      · rintro c ⟨⟩
        exact ⟨rfl, h.lock a t htarget⟩
      · simpa [goto, hat.symm] using hstate
      · simpa [goto, hat.symm] using hdown
      · simp [goto]
  next => cases hs

theorem OnInv.stepStoreContext (hs : stepStoreContext sys a = some sys') : OnInv sys' := by
  unfold Psci.stepStoreContext at hs
  split at hs
  next t ep hplace =>
    have htarget : (sys.cpu a).place.target = some t := by rw [hplace]; rfl
    obtain ⟨hat, hstate, hwaking, hg⟩ := h.of_powered hplace
    cases hs
    rw [onReturn, setLock, cmInitContext, set_set]
    refine h.call_held (fun _ => rfl) htarget trivial (by simp [Place.target])
      (fun c hc => grants_of_ne _ hc ep _) ⟨.inl ⟨rfl, hg⟩, h.history⟩ (.granted ?_ (.inl ?_) ?_ ?_)
    · simpa [goto, hat.symm] using hstate
    · simpa [goto, hat.symm, CpuData.Waking] using hwaking
    · exact h.noStarter_of_return (fun _ => rfl) htarget
    · simp [goto, hat.symm, grants, hg]
  next => cases hs

theorem OnInv.stepCpuOff (hs : stepCpuOff sys c = some sys') : OnInv sys' := by
  unfold Psci.stepCpuOff at hs
  split at hs
  next hplace =>
    obtain ⟨_, hwake, hn⟩ := h.on_of_awake (by rw [hplace]; trivial)
    cases hs
    rw [goto, setAffInfoState, set_set]
    refine h.own (fun _ => rfl) (by rw [hplace]; rfl) rfl ?_ ⟨trivial, h.history⟩
      fun hsame => .off ?_ ?_ ?_ (hsame.noStarter hn) ?_
    · intro b hb
      simp [grants, Ne.symm hb]
    · simp
    · simp [Place.Down]
    · simpa using hwake
    · simp [grants]
  next => cases hs

theorem OnInv.stepPowerDown (hs : stepPowerDown sys c = some sys') : OnInv sys' := by
  unfold Psci.stepPowerDown at hs
  split at hs
  next hplace =>
    cases hs
    rw [goto]
    refine h.own_silent (fun _ => rfl) (by rw [hplace]; rfl) rfl fun hsame => ?_
    cases h.cpu c with
    | on _ hp => simp [hplace, Place.Awake] at hp
    | off hs hp hw hn hg =>
      exact .off (by simpa using hs) (by simp [Place.Down]) (by simpa using hw) (hsame.noStarter hn) hg
    | pending a ep hs hp hw hst hg =>
      exact .pending a ep (by simpa using hs) (by simp [Place.Down]) (by simpa using hw) ((hsame a ep).1.2 hst) hg
    | powered a ep hs hw hst hg =>
      refine .powered a ep (by simpa using hs) ?_ ((hsame a ep).2.2 hst) hg
      simpa [CpuData.Waking, hplace, Place.Down] using hw
    | granted hs hp hn hg =>
      refine .granted (by simpa using hs) ?_ (hsame.noStarter hn) (by simpa using hg)
      simpa [CpuData.Waking, CpuData.Finishing, hplace, Place.Down] using hp
  next => cases hs

theorem OnInv.stepReset (hs : stepReset sys c = some sys') : OnInv sys' := by
  unfold Psci.stepReset at hs
  split at hs
  next hplace hwake =>
    cases hs
    rw [goto, setWake, set_set]
    refine h.own_silent (fun _ => rfl) (by rw [hplace]; rfl) (by dsimp; split <;> rfl) fun hsame => ?_
    cases h.cpu c with
    | on _ hp => simp [hplace, Place.Awake] at hp
    | off _ _ hw => simp [hwake] at hw
    | pending _ _ _ _ hw => simp [hwake] at hw
    | powered a ep hs hw hst hg =>
      refine .powered a ep (by simpa using hs) (.inr ?_) ((hsame a ep).2.2 hst) hg
      simp [hs]
    | granted hs hp hn hg =>
      refine .granted (by simpa using hs) (.inl (.inr ?_)) (hsame.noStarter hn) (by simpa using hg)
      simp [hs]
  next => cases hs

theorem OnInv.stepChooseFinisher (hs : stepChooseFinisher sys c = some sys') : OnInv sys' := by
  unfold Psci.stepChooseFinisher at hs
  split at hs
  next hplace =>
    cases hs
    rw [goto]
    refine h.own_silent (fun _ => rfl) (by rw [hplace]; rfl) (by dsimp; split <;> rfl) fun hsame => ?_
    cases h.cpu c with
    | on _ hp => simp [hplace, Place.Awake] at hp
    | off _ hp => simp [hplace, Place.Down] at hp
    | pending _ _ _ hp => simp [hplace, Place.Down] at hp
    | powered a ep hs hw hst hg =>
      refine .powered a ep (by simpa using hs) (.inr ?_) ((hsame a ep).2.2 hst) hg
      simpa [hs, hplace, CpuData.Waking, Place.Down] using hw
    | granted hs hp hn hg =>
      refine .granted (by simpa using hs) (.inl (.inr ?_)) (hsame.noStarter hn) (by simpa using hg)
      simpa [hs, hplace, CpuData.Waking, CpuData.Finishing, Place.Down] using hp
  next => cases hs

theorem OnInv.stepSync (hs : stepSync sys c = some sys') : OnInv sys' := by
  unfold Psci.stepSync at hs
  split at hs
  next hplace hlock =>
    cases hs
    rw [goto]
    refine h.own_silent (fun _ => rfl) (by rw [hplace]; rfl) (by dsimp; split <;> rfl) fun hsame => ?_
    cases h.cpu c with
    | on _ hp => simp [hplace, Place.Awake] at hp
    | off _ hp => simp [hplace, Place.Down] at hp
    | pending _ _ _ hp => simp [hplace, Place.Down] at hp
    | powered a ep _ _ hst =>
      -- The lock is free, so no call is on its way to the context.
      have := h.lock a c (by rw [hst]; rfl)
      simp [hlock] at this
    | granted hs hp hn hg =>
      refine .granted (by simpa using hs) (.inr ?_) (hsame.noStarter hn) (by simpa using hg)
      simpa [hs, hplace, CpuData.Waking, CpuData.Finishing, Place.Down] using hp
  next => cases hs

theorem OnInv.of_finishing (hplace : (sys.cpu c).place = .synced ∨ ∃ ep, (sys.cpu c).place = .leaving ep) :
    (sys.cpu c).affInfoState = .onPending ∧ (sys.cpu c).Finishing (sys.cpu c).context ∧ sys.NoStarter c ∧
      grants c sys.history = [(sys.cpu c).context] := by
  have hnot : ¬ (sys.cpu c).place.Awake ∧ ¬ (sys.cpu c).place.Down ∧ ¬ (sys.cpu c).Waking := by
    rcases hplace with hp | ⟨ep, hp⟩ <;> simp [CpuData.Waking, hp, Place.Awake, Place.Down]
  cases h.cpu c with
  | on _ hp => exact absurd hp hnot.1
  | off _ hp => exact absurd hp hnot.2.1
  | pending _ _ _ hp => exact absurd hp hnot.2.1
  | powered _ _ _ hw => exact absurd hw hnot.2.2
  | granted hs hp hn hg => exact ⟨hs, hp.resolve_left hnot.2.2, hn, hg⟩

theorem OnInv.stepPrepareExit (hs : stepPrepareExit sys c = some sys') : OnInv sys' := by
  unfold Psci.stepPrepareExit at hs
  split at hs
  next hplace =>
    obtain ⟨hstate, hp, hn, hg⟩ := h.of_finishing (.inl hplace)
    cases hs
    rw [goto]
    refine h.own_silent (fun _ => rfl) (by rw [hplace]; rfl) rfl fun hsame => ?_
    refine .granted (by simpa using hstate) (.inr ?_) (hsame.noStarter hn) (by simpa using hg)
    simpa [CpuData.Finishing] using hp.2
  next => cases hs

theorem OnInv.stepSetRun (hs : stepSetRun sys c = some sys') : OnInv sys' := by
  unfold Psci.stepSetRun at hs
  split at hs
  next ep hplace =>
    obtain ⟨_, hp, hn, hg⟩ := h.of_finishing (.inr ⟨ep, hplace⟩)
    obtain rfl : ep = (sys.cpu c).context := by simpa [hplace, CpuData.Finishing] using hp.1
    cases hs
    rw [goto, setAffInfoState, set_set]
    exact h.own (fun _ => rfl) (by rw [hplace]; rfl) rfl (fun _ _ => rfl) ⟨hg, h.history⟩ fun hsame =>
      .on (by simp) (by simp [Place.Awake]) (by simpa using hp.2) (hsame.noStarter hn)
  next => cases hs

/-- No step of any CPU leaves the invariant. -/
theorem OnInv.step {e : OnEvent Cpu Ep} (hs : onStep sys e = some sys') : OnInv sys' := by
  cases e with
  | lock => exact h.stepLock hs
  | validate => exact h.stepValidate hs
  | pwrDomainOn => exact h.stepPwrDomainOn hs
  | storeContext => exact h.stepStoreContext hs
  | cpuOff => exact h.stepCpuOff hs
  | powerDown => exact h.stepPowerDown hs
  | reset => exact h.stepReset hs
  | chooseFinisher => exact h.stepChooseFinisher hs
  | sync => exact h.stepSync hs
  | prepareExit => exact h.stepPrepareExit hs
  | setRun => exact h.stepSetRun hs

end

theorem OnInv.boot (running : Cpu → Bool) (context : Cpu → Ep) : OnInv (onBoot running context) := by
  have hplace : ∀ a, ((onBoot running context).cpu a).place.target = none := by
    intro a
    cases hr : running a <;> simp [onBoot, CpuData.initial, hr, Place.target]
  have hn : ∀ c, (onBoot running context).NoStarter c := by
    intro c a ep
    constructor <;>
    · intro h'
      have := hplace a
      rw [h'] at this
      cases this
  refine ⟨fun a t ha => ?_, fun c => ?_, trivial⟩
  · rw [hplace a] at ha
    cases ha
  · cases hr : running c with
    | true =>
      have hc : (onBoot running context).cpu c = ⟨.on, none, context c, false, .running⟩ := by
        simp [onBoot, CpuData.initial, hr]
      exact .on (by rw [hc]) (by rw [hc]; trivial) (by rw [hc]) (hn c)
    | false =>
      have hc : (onBoot running context).cpu c = ⟨.off, none, context c, false, .off⟩ := by
        simp [onBoot, CpuData.initial, hr]
      exact .off (by rw [hc]) (by rw [hc]; trivial) (by rw [hc]) (hn c) rfl

end StepsKeep

/-! ## Every interleaving -/

section Runs

variable {Cpu Ep : Type} [DecidableEq Cpu] {sys : OnSystem Cpu Ep}

def OnStep (sys : OnSystem Cpu Ep) (e : OnEvent Cpu Ep) (sys' : OnSystem Cpu Ep) : Prop :=
  onStep sys e = some sys'

/-- The states that any interleaving of the CPUs leads to. -/
abbrev OnReaches (running : Cpu → Bool) (context : Cpu → Ep) : OnSystem Cpu Ep → Prop :=
  Reaches OnStep (fun _ _ => True) (onBoot running context)

theorem OnReaches.inv {running : Cpu → Bool} {context : Cpu → Ep} (h : OnReaches running context sys) :
    OnInv sys :=
  h.invariant (OnInv.boot running context) fun hinv _ hs => hinv.step hs

/-- In every interleaving no CPU panics, fails an assertion or takes its start for a wake-up from suspend. -/
theorem cpu_on_never_stops (running : Cpu → Bool) (context : Cpu → Ep) (h : OnReaches running context sys) (c : Cpu) :
    (sys.cpu c).place ≠ .stopped ∧ (sys.cpu c).place ≠ .suspendFinish := by
  have hok := h.inv.cpu c
  constructor
  all_goals
    intro hplace
    cases hok with
    | on _ hp => simp [hplace, Place.Awake] at hp
    | off _ hp => simp [hplace, Place.Down] at hp
    | pending _ _ _ hp => simp [hplace, Place.Down] at hp
    | powered _ _ _ hw => simp [hplace, CpuData.Waking, Place.Down] at hw
    | granted _ hp => simp [hplace, CpuData.Waking, CpuData.Finishing, Place.Down] at hp

/-- CPU 0 turns CPU 1 on, which is reset, takes the warm boot path and leaves EL3 with the parameters. -/
theorem exists_turned_on : ∃ sys : OnSystem (Fin 2) Nat, OnReaches (· = 0) (fun _ => 0) sys ∧
    sys.history = [.left 1 7, .cpuOnReturned 1 7 .success] := by
  have step : ∀ {sys sys' : OnSystem (Fin 2) Nat} (e : OnEvent (Fin 2) Nat), OnReaches (· = 0) (fun _ => 0) sys →
      onStep sys e = some sys' → OnReaches (· = 0) (fun _ => 0) sys' := fun _ h hs => h.step trivial hs
  have h := step (.setRun 1) (step (.prepareExit 1) (step (.sync 1) (step (.storeContext 0)
    (step (.chooseFinisher 1) (step (.reset 1) (step (.pwrDomainOn 0 false) (step (.validate 0)
      (step (.lock 0 1 7) .start rfl) rfl) rfl) rfl) rfl) rfl) rfl) rfl) rfl
  exact ⟨_, h, rfl⟩

theorem cpu_on_never_stops_turned_on : ∃ sys : OnSystem (Fin 2) Nat, OnReaches (· = 0) (fun _ => 0) sys ∧
    sys.history = [.left 1 7, .cpuOnReturned 1 7 .success] ∧
      (sys.cpu 1).place ≠ .stopped ∧ (sys.cpu 1).place ≠ .suspendFinish := by
  obtain ⟨sys, h, hhistory⟩ := exists_turned_on
  exact ⟨sys, h, hhistory, cpu_on_never_stops _ _ h 1⟩

/-- In every interleaving a call is granted only if none has been since the CPU was turned off, every other call
returns ALREADY_ON, ON_PENDING or INTERN_FAIL, and a CPU that leaves EL3 does so with the parameters of the
granted call. -/
theorem cpu_on_granted_once (running : Cpu → Bool) (context : Cpu → Ep) (h : OnReaches running context sys) :
    HistoryOk sys.history :=
  h.inv.history

theorem cpu_on_granted_once_two : ∃ sys : OnSystem (Fin 2) Nat, OnReaches (· = 0) (fun _ => 0) sys ∧
    sys.history = [.left 1 7, .cpuOnReturned 1 7 .success] ∧ HistoryOk sys.history := by
  obtain ⟨sys, h, hhistory⟩ := exists_turned_on
  exact ⟨sys, h, hhistory, cpu_on_granted_once _ _ h⟩

end Runs

end Armada3720.Psci
