import Mathlib.Data.Fintype.Basic
import Mathlib.Data.List.FinRange
import Mathlib.Logic.Function.Basic

/-!
# The SDEI dispatcher

The Software Delegated Exception Interface of BL31: the event maps, the entries with their state machine, the
dispatch stack of each CPU, and the calls. Private maps have an entry for each CPU, shared maps have one. Each
call is one step, and `none` is a failed assertion or a panic.
-/

namespace Armada3720.Sdei

/-! ## The handler states -/

/-- `sdei_state_t`: the bits RUNNING, ENABLED and REGISTERED. -/
structure HandlerState where
  running : Bool
  enabled : Bool
  registered : Bool
deriving DecidableEq, Repr

inductive Action where
  | register
  | release
  | enable
  | disable
  | unregister
  | routing
  | context
  | complete
  | completeResume
  | dispatch
deriving DecidableEq, Repr

/-- An entry of `sdei_state_table`: `X___`, `NOP_` or the new state. -/
inductive Next where
  | invalid
  | nop
  | to (state : HandlerState)
deriving DecidableEq, Repr

def sdeiStateTable : HandlerState → Action → Next
  | ⟨false, false, false⟩, .register => .to ⟨false, false, true⟩
  | ⟨false, false, false⟩, .release => .nop
  | ⟨true, false, false⟩, .context => .nop
  | ⟨true, false, false⟩, .complete => .to ⟨false, false, false⟩
  | ⟨true, false, false⟩, .completeResume => .to ⟨false, false, false⟩
  | ⟨false, false, true⟩, .enable => .to ⟨false, true, true⟩
  | ⟨false, false, true⟩, .disable => .nop
  | ⟨false, false, true⟩, .unregister => .to ⟨false, false, false⟩
  | ⟨false, false, true⟩, .routing => .nop
  | ⟨true, false, true⟩, .enable => .to ⟨true, true, true⟩
  | ⟨true, false, true⟩, .disable => .nop
  | ⟨true, false, true⟩, .unregister => .to ⟨true, false, false⟩
  | ⟨true, false, true⟩, .context => .nop
  | ⟨true, false, true⟩, .complete => .to ⟨false, false, true⟩
  | ⟨true, false, true⟩, .completeResume => .to ⟨false, false, true⟩
  | ⟨false, true, true⟩, .enable => .nop
  | ⟨false, true, true⟩, .disable => .to ⟨false, false, true⟩
  | ⟨false, true, true⟩, .unregister => .to ⟨false, false, false⟩
  | ⟨false, true, true⟩, .dispatch => .to ⟨true, true, true⟩
  | ⟨true, true, true⟩, .enable => .nop
  | ⟨true, true, true⟩, .disable => .to ⟨true, false, true⟩
  | ⟨true, true, true⟩, .unregister => .to ⟨true, false, false⟩
  | ⟨true, true, true⟩, .context => .nop
  | ⟨true, true, true⟩, .complete => .to ⟨false, true, true⟩
  | ⟨true, true, true⟩, .completeResume => .to ⟨false, true, true⟩
  | _, _ => .invalid

/-- `can_sdei_state_trans`: the state after the action, if it is allowed. -/
def canSdeiStateTrans (state : HandlerState) (act : Action) : Option HandlerState :=
  match sdeiStateTable state act with
  | .invalid => none
  | .nop => some state
  | .to next => some next

/-! ## The interrupt controller -/

inductive IntrType where
  | sEl1
  | el3
  | ns
deriving DecidableEq, Repr

inductive RoutingMode where
  | pe
  | any
deriving DecidableEq, Repr

structure Line where
  intrType : IntrType
  priority : Nat
  enabled : Bool
  pending : Bool
  active : Bool
deriving DecidableEq, Repr

/-- A line for each interrupt as a CPU sees it, and the routing mode and target last programmed for each SPI. -/
structure Ic (Cpu : Type) where
  line : Cpu → Nat → Line
  routing : Nat → RoutingMode × BitVec 64

def Ic.reset {Cpu : Type} : Ic Cpu :=
  ⟨fun _ _ => ⟨.ns, 0xff, false, false, false⟩, fun _ => (.any, 0)⟩

def platIcIsSgi (id : Nat) : Bool := id < 16

def platIcIsSpi (id : Nat) : Bool := 32 ≤ id && id ≤ 1019

section Controller

variable {Cpu : Type} [DecidableEq Cpu]

/-- Change the line of an interrupt: an SPI for all CPUs, another one for the CPU. -/
def Ic.update (ic : Ic Cpu) (cpu : Cpu) (id : Nat) (f : Line → Line) : Ic Cpu :=
  { ic with line := fun c i => if i = id ∧ (platIcIsSpi id ∨ c = cpu) then f (ic.line c i) else ic.line c i }

def Ic.enableInterrupt (ic : Ic Cpu) (cpu : Cpu) (id : Nat) : Ic Cpu :=
  ic.update cpu id fun l => { l with enabled := true }

def Ic.disableInterrupt (ic : Ic Cpu) (cpu : Cpu) (id : Nat) : Ic Cpu :=
  ic.update cpu id fun l => { l with enabled := false }

def Ic.setPending (ic : Ic Cpu) (cpu : Cpu) (id : Nat) : Ic Cpu :=
  ic.update cpu id fun l => { l with pending := true }

def Ic.clearPending (ic : Ic Cpu) (cpu : Cpu) (id : Nat) : Ic Cpu :=
  ic.update cpu id fun l => { l with pending := false }

def Ic.setInterruptType (ic : Ic Cpu) (cpu : Cpu) (id : Nat) (intrType : IntrType) : Ic Cpu :=
  ic.update cpu id fun l => { l with intrType := intrType }

def Ic.setInterruptPriority (ic : Ic Cpu) (cpu : Cpu) (id priority : Nat) : Ic Cpu :=
  ic.update cpu id fun l => { l with priority := priority }

def Ic.endOfInterrupt (ic : Ic Cpu) (cpu : Cpu) (id : Nat) : Ic Cpu :=
  ic.update cpu id fun l => { l with active := false }

def Ic.setSpiRouting (ic : Ic Cpu) (id : Nat) (mode : RoutingMode) (mpidr : BitVec 64) : Ic Cpu :=
  { ic with routing := Function.update ic.routing id (mode, mpidr) }

end Controller

/-! ## The platform and the state -/

/-- The number of CPUs and of the maps, what does not change of the maps, and the hooks. -/
structure Platform where
  numCpus : Nat
  numPriv : Nat
  numShrd : Nat
  evNum : Fin numPriv ⊕ Fin numShrd → Int
  intr : Fin numPriv ⊕ Fin numShrd → Nat
  dynamic : Fin numPriv ⊕ Fin numShrd → Bool
  critical : Fin numPriv ⊕ Fin numShrd → Bool
  signalable : Fin numPriv ⊕ Fin numShrd → Bool
  criticalPri : Nat
  normalPri : Nat
  mpidr : Fin numCpus → BitVec 64
  corePosByMpidr : BitVec 64 → Option (Fin numCpus)
  validEntryPoint : BitVec 64 → Bool

abbrev Platform.Cpu (P : Platform) : Type := Fin P.numCpus

abbrev Platform.Map (P : Platform) : Type := Fin P.numPriv ⊕ Fin P.numShrd

structure Entry where
  ep : BitVec 64
  arg : BitVec 64
  affinity : BitVec 64
  regFlags : BitVec 32
  state : HandlerState
deriving DecidableEq

structure EvMap where
  intr : Nat
  bound : Bool
  regCount : Int
deriving DecidableEq

structure Dispatch (P : Platform) where
  map : P.Map
  intrRaw : Nat

structure CpuState (P : Platform) where
  dispatchStack : List (Dispatch P)
  peMasked : Bool
  pendingEnables : Bool

structure State (P : Platform) where
  priv : P.Cpu → Fin P.numPriv → Entry
  shrd : Fin P.numShrd → Entry
  map : P.Map → EvMap
  cpu : P.Cpu → CpuState P
  ic : Ic P.Cpu

def sdeiEinval : Int := -2

def sdeiEdeny : Int := -3

def sdeiEpend : Int := -5

def sdeiEnomem : Int := -10

def sdeiRegfRmAny : BitVec 64 := 0

def sdeiRegfRmPe : BitVec 64 := 1

def sdeiEvent0 : Int := 0

def sdeiDynIrq : Nat := 0

def mpidrAffinityMask : BitVec 64 := 0xff00ffffff#64

def lowestIntrPriority : Nat := 0xff

def maxEventNesting : Nat := 2

def HandlerState.none : HandlerState := ⟨false, false, false⟩

variable {P : Platform}

def isEventPrivate : P.Map → Bool
  | .inl _ => true
  | .inr _ => false

def sdeiEventPriority (P : Platform) (m : P.Map) : Nat :=
  if P.critical m then P.criticalPri else P.normalPri

def Platform.mapping (P : Platform) (shared : Bool) : List P.Map :=
  if shared then (List.finRange P.numShrd).map .inr else (List.finRange P.numPriv).map .inl

/-- The maps of both mappings, the private ones first. -/
def Platform.maps (P : Platform) : List P.Map :=
  P.mapping false ++ P.mapping true

def State.getEventEntry (s : State P) (cpu : P.Cpu) : P.Map → Entry
  | .inl i => s.priv cpu i
  | .inr j => s.shrd j

def State.setEntry (s : State P) (cpu : P.Cpu) (m : P.Map) (e : Entry) : State P :=
  match m with
  | .inl i => { s with priv := Function.update s.priv cpu (Function.update (s.priv cpu) i e) }
  | .inr j => { s with shrd := Function.update s.shrd j e }

def State.setEntryState (s : State P) (cpu : P.Cpu) (m : P.Map) (state : HandlerState) : State P :=
  s.setEntry cpu m { s.getEventEntry cpu m with state := state }

def State.setMap (s : State P) (m : P.Map) (em : EvMap) : State P :=
  { s with map := Function.update s.map m em }

def State.addRegCount (s : State P) (m : P.Map) (d : Int) : State P :=
  s.setMap m { s.map m with regCount := (s.map m).regCount + d }

def State.setCpu (s : State P) (cpu : P.Cpu) (c : CpuState P) : State P :=
  { s with cpu := Function.update s.cpu cpu c }

def State.onIc (s : State P) (f : Ic P.Cpu → Ic P.Cpu) : State P :=
  { s with ic := f s.ic }

def findEventMap (P : Platform) (evNum : Int) : Option P.Map :=
  P.maps.find? (P.evNum · = evNum)

def State.findEventMapByIntr (s : State P) (intr : Nat) (shared : Bool) : Option P.Map :=
  (P.mapping shared).find? fun m => (s.map m).intr = intr

/-- What a call returns, with the state after it. -/
abbrev Result (P : Platform) : Type := Option (Int × State P)

/-! ## The calls -/

def validateFlags (P : Platform) (flags mpidr : BitVec 64) : Int :=
  if flags = sdeiRegfRmPe then if (P.corePosByMpidr mpidr).isSome then 0 else sdeiEinval
  else if flags = sdeiRegfRmAny then 0
  else sdeiEinval

/-- The routing mode for the flags. -/
def routingOf (flags : BitVec 64) : RoutingMode :=
  if flags = sdeiRegfRmAny then .any else .pe

def sdeiEventRoutingSet (s : State P) (cpu : P.Cpu) (evNum : Int) (flags mpidr : BitVec 64) : Result P :=
  if validateFlags P flags mpidr ≠ 0 then some (validateFlags P flags mpidr, s)
  else
    match findEventMap P evNum with
    | none => some (sdeiEinval, s)
    | some m =>
      if isEventPrivate m then some (sdeiEinval, s)
      else if !(s.map m).bound then some (sdeiEinval, s)
      else
        match canSdeiStateTrans (s.getEventEntry cpu m).state .routing with
        | none => some (sdeiEdeny, s)
        | some state =>
          let s := s.setEntry cpu m { s.getEventEntry cpu m with regFlags := flags.setWidth 32, state := state }
          some (0, s.onIc (·.setSpiRouting (s.map m).intr (routingOf flags) mpidr))

/-- What `sdei_event_register` programs for a bound map. -/
def programRegister (P : Platform) (cpu : P.Cpu) (m : P.Map) (intr : Nat) (flags mpidr : BitVec 64)
    (ic : Ic P.Cpu) : Ic P.Cpu :=
  let ic := ic.disableInterrupt cpu intr
  let ic := if P.evNum m = sdeiEvent0 then ic else ic.clearPending cpu intr
  let ic := ic.setInterruptType cpu intr .el3
  let ic := ic.setInterruptPriority cpu intr (sdeiEventPriority P m)
  if isEventPrivate m then ic else ic.setSpiRouting intr (routingOf flags) mpidr

/-- The assertions on `reg_count` in register and unregister. -/
def regCountOk (m : P.Map) (count : Int) : Bool :=
  if isEventPrivate m then 0 ≤ count else count = 0

/-- The end of `sdei_event_register`: `set_sdei_entry`, and the count. -/
def State.populate (s : State P) (cpu : P.Cpu) (m : P.Map) (state : HandlerState)
    (ep arg flags mpidr : BitVec 64) : State P :=
  (s.setEntry cpu m ⟨ep, arg, mpidr &&& mpidrAffinityMask, flags.setWidth 32, state⟩).addRegCount m 1

/-- `sdei_event_register` after the map is found. -/
def State.registerMap (s : State P) (cpu : P.Cpu) (m : P.Map) (ep arg flags mpidr : BitVec 64) : Result P :=
  match canSdeiStateTrans (s.getEventEntry cpu m).state .register with
  | none => some (sdeiEdeny, s)
  | some state =>
    if P.dynamic m && !(s.map m).bound then some (sdeiEdeny, s)
    else if !regCountOk m (s.map m).regCount then none
    else if (s.map m).bound then
      if (s.ic.line cpu (s.map m).intr).active then some (sdeiEdeny, s)
      else if (s.ic.line cpu (s.map m).intr).intrType ≠ .ns then some (sdeiEdeny, s)
      else
        let s := s.onIc (programRegister P cpu m (s.map m).intr flags mpidr)
        some (0, s.populate cpu m state ep arg flags mpidr)
    else some (0, s.populate cpu m state ep arg flags mpidr)

def sdeiEventRegister (s : State P) (cpu : P.Cpu) (evNum : Int) (ep arg flags mpidr : BitVec 64) : Result P :=
  if ep = 0 ∨ !P.validEntryPoint ep then some (sdeiEinval, s)
  else if validateFlags P flags mpidr ≠ 0 then some (validateFlags P flags mpidr, s)
  else
    match findEventMap P evNum with
    | none => some (sdeiEinval, s)
    | some m => s.registerMap cpu m ep arg (if isEventPrivate m then sdeiRegfRmPe else flags) mpidr

/-- The action, and the interrupt if ENABLED changes as given. -/
def changeEnabled (act : Action) (changes : Bool → Bool → Bool)
    (program : Ic P.Cpu → P.Cpu → Nat → Ic P.Cpu) (s : State P) (cpu : P.Cpu) (evNum : Int) : Result P :=
  match findEventMap P evNum with
  | none => some (sdeiEinval, s)
  | some m =>
    let before := (s.getEventEntry cpu m).state
    match canSdeiStateTrans before act with
    | none => some (sdeiEdeny, s)
    | some after =>
      let s := s.setEntryState cpu m after
      if (s.map m).bound && changes before.enabled after.enabled then
        some (0, s.onIc (program · cpu (s.map m).intr))
      else some (0, s)

def sdeiEventEnable (s : State P) (cpu : P.Cpu) (evNum : Int) : Result P :=
  changeEnabled .enable (fun before after => !before && after) Ic.enableInterrupt s cpu evNum

def sdeiEventDisable (s : State P) (cpu : P.Cpu) (evNum : Int) : Result P :=
  changeEnabled .disable (fun before after => before && !after) Ic.disableInterrupt s cpu evNum

inductive Info where
  | type
  | notSignaled
  | priority
  | routingMode
  | routingAff
deriving DecidableEq, Repr

def sdeiEventGetInfo (s : State P) (cpu : P.Cpu) (evNum : Int) (info : Info) : Int :=
  match findEventMap P evNum with
  | none => sdeiEinval
  | some m =>
    let se := s.getEventEntry cpu m
    match info with
    | .type => (!isEventPrivate m).toInt
    | .notSignaled => (!P.signalable m).toInt
    | .priority => (P.critical m).toInt
    | .routingMode =>
      if isEventPrivate m then sdeiEinval
      else if !se.state.registered then sdeiEdeny
      else (decide (se.regFlags = sdeiRegfRmPe.setWidth 32)).toInt
    | .routingAff =>
      if isEventPrivate m then sdeiEinval
      else if !se.state.registered then sdeiEdeny
      else if se.regFlags ≠ sdeiRegfRmPe.setWidth 32 then sdeiEinval
      else se.affinity.toNat

/-- What `sdei_event_unregister` programs for a bound map. -/
def programUnregister (P : Platform) (cpu : P.Cpu) (m : P.Map) (intr : Nat) (ic : Ic P.Cpu) : Ic P.Cpu :=
  let ic := ic.disableInterrupt cpu intr
  let ic := if P.evNum m = sdeiEvent0 then ic else ic.clearPending cpu intr
  let ic := ic.setInterruptType cpu intr .ns
  ic.setInterruptPriority cpu intr lowestIntrPriority

/-- The end of `sdei_event_unregister`: the count, and `clear_event_entries`. -/
def State.clear (s : State P) (cpu : P.Cpu) (m : P.Map) (state : HandlerState) : State P :=
  (s.setEntry cpu m ⟨0, 0, 0, 0, state⟩).addRegCount m (-1)

/-- `sdei_event_unregister` after the map is found. -/
def State.unregisterMap (s : State P) (cpu : P.Cpu) (m : P.Map) : Result P :=
  let se := s.getEventEntry cpu m
  match canSdeiStateTrans se.state .unregister with
  | none => some (if se.state.running then sdeiEpend else sdeiEdeny, s)
  | some state =>
    let ret := if state.running then sdeiEpend else 0
    if !regCountOk m ((s.map m).regCount - 1) then none
    else if (s.map m).bound then
      if (s.ic.line cpu (s.map m).intr).intrType ≠ .el3 then none
      else some (ret, (s.onIc (programUnregister P cpu m (s.map m).intr)).clear cpu m state)
    else some (ret, s.clear cpu m state)

def sdeiEventUnregister (s : State P) (cpu : P.Cpu) (evNum : Int) : Result P :=
  match findEventMap P evNum with
  | none => some (sdeiEinval, s)
  | some m => s.unregisterMap cpu m

/-- A slot that is bound keeps the loop going until another CPU changes it; here, for ever. -/
def State.bindSlot (s : State P) (cpu : P.Cpu) (intr : Nat) : Result P :=
  match s.findEventMapByIntr sdeiDynIrq (platIcIsSpi intr) with
  | none => some (sdeiEnomem, s)
  | some m =>
    if !P.dynamic m then none
    else if (s.ic.line cpu intr).intrType ≠ .ns then some (sdeiEdeny, s)
    else if (s.map m).bound then none
    else some (P.evNum m, s.setMap m { s.map m with intr := intr, bound := true })

def sdeiInterruptBind (s : State P) (cpu : P.Cpu) (intr : Nat) : Result P :=
  if platIcIsSgi intr then some (sdeiEinval, s)
  else
    match s.findEventMapByIntr intr (platIcIsSpi intr) with
    | some m =>
      if !P.dynamic m then some (sdeiEinval, s)
      else if (s.map m).bound then some (P.evNum m, s)
      else s.bindSlot cpu intr
    | none => s.bindSlot cpu intr

def sdeiInterruptRelease (s : State P) (cpu : P.Cpu) (evNum : Int) : Result P :=
  match findEventMap P evNum with
  | none => some (sdeiEinval, s)
  | some m =>
    if !P.dynamic m then some (sdeiEinval, s)
    else if (s.map m).regCount ≠ 0 then some (sdeiEdeny, s)
    else
      match canSdeiStateTrans (s.getEventEntry cpu m).state .release with
      | none => some (sdeiEdeny, s)
      | some state =>
        let s := s.setEntryState cpu m state
        if (s.map m).bound then
          if (s.ic.line cpu (s.map m).intr).active then some (sdeiEdeny, s)
          else some (0, s.setMap m { s.map m with intr := sdeiDynIrq, bound := false })
        else some (sdeiEinval, s)

/-- The unregister loop of the two resets, with the first error that counts. -/
def unregisterAll (cpu : P.Cpu) (maps : List P.Map) (s : State P) : Result P :=
  maps.foldlM (fun (finalRet, s) m => do
    let (ret, s) ← sdeiEventUnregister s cpu (P.evNum m)
    pure (if ret = sdeiEpend ∧ finalRet = 0 then sdeiEdeny else finalRet, s)) (0, s)

def sdeiPrivateReset (s : State P) (cpu : P.Cpu) : Result P :=
  unregisterAll cpu (P.mapping false) s

/-- The release loop of `sdei_shared_reset`. -/
def releaseAll (cpu : P.Cpu) (maps : List P.Map) (s : State P) : Result P :=
  maps.foldlM (fun (finalRet, s) m =>
    if P.dynamic m && (s.map m).bound then do
      let (ret, s) ← sdeiInterruptRelease s cpu (P.evNum m)
      pure (if ret ≠ 0 ∧ finalRet = 0 then ret else finalRet, s)
    else pure (finalRet, s)) (0, s)

def sdeiSharedReset (s : State P) (cpu : P.Cpu) : Result P := do
  let (ret, s) ← unregisterAll cpu (P.mapping true) s
  if ret ≠ 0 then some (ret, s) else releaseAll cpu P.maps s

/-! ## Masking, interrupts and completion -/

/-- `MPIDR_EL1` with the affinity mask. -/
def Platform.myMpidr (P : Platform) (cpu : P.Cpu) : BitVec 64 :=
  P.mpidr cpu &&& mpidrAffinityMask

def sdeiPeMask (s : State P) (cpu : P.Cpu) : Int × State P :=
  ((!(s.cpu cpu).peMasked).toInt, s.setCpu cpu { s.cpu cpu with peMasked := true })

/-- Whether `sdei_pe_unmask` enables the interrupt of a map. -/
def State.unmaskEnables (s : State P) (cpu : P.Cpu) (m : P.Map) : Bool :=
  let se := s.getEventEntry cpu m
  (s.map m).bound && se.state.enabled &&
    (isEventPrivate m || (se.regFlags = sdeiRegfRmPe.setWidth 32 && se.affinity = P.myMpidr cpu))

def sdeiPeUnmask (s : State P) (cpu : P.Cpu) : State P :=
  let ic :=
    if (s.cpu cpu).pendingEnables then
      P.maps.foldl (fun ic m => if s.unmaskEnables cpu m then ic.enableInterrupt cpu (s.map m).intr else ic) s.ic
    else s.ic
  { s.setCpu cpu { s.cpu cpu with pendingEnables := false, peMasked := false } with ic := ic }

/-- The assertion on the affinity in `sdei_intr_handler` and `handle_masked_trigger`. -/
def State.affinityOk (s : State P) (cpu : P.Cpu) (m : P.Map) : Bool :=
  let se := s.getEventEntry cpu m
  isEventPrivate m || se.regFlags ≠ sdeiRegfRmPe.setWidth 32 || se.affinity = P.myMpidr cpu

def handleMaskedTrigger (s : State P) (cpu : P.Cpu) (m : P.Map) (intrRaw : Nat) : Result P :=
  let intr := (s.map m).intr
  if P.evNum m = sdeiEvent0 then some (0, s)
  else if !s.affinityOk cpu m then none
  else if isEventPrivate m || (s.getEventEntry cpu m).regFlags = sdeiRegfRmPe.setWidth 32 then
    some (0, (s.onIc fun ic => ((ic.disableInterrupt cpu intr).setPending cpu intr).endOfInterrupt cpu intrRaw).setCpu
      cpu { s.cpu cpu with pendingEnables := true })
  else some (0, s.onIc fun ic => (ic.setPending cpu intr).endOfInterrupt cpu intrRaw)

/-- The assertions of `sdei_intr_handler` on the dispatch that is outstanding. -/
def State.mayPreempt (s : State P) (cpu : P.Cpu) (m : P.Map) : Bool :=
  match (s.cpu cpu).dispatchStack with
  | [] => true
  | d :: _ => P.critical m && !P.critical d.map

/-- `push_dispatch`, which asserts that there is room. -/
def State.pushDispatch (s : State P) (cpu : P.Cpu) (d : Dispatch P) : Option (State P) :=
  let c := s.cpu cpu
  if c.dispatchStack.length < maxEventNesting then
    some (s.setCpu cpu { c with dispatchStack := d :: c.dispatchStack })
  else none

/-- `sdei_intr_handler` for an interrupt that has been acknowledged. -/
def sdeiIntrHandler (s : State P) (cpu : P.Cpu) (intrRaw : Nat) : Result P :=
  match s.findEventMapByIntr intrRaw (platIcIsSpi intrRaw) with
  | none => none
  | some m =>
    if P.evNum m ≠ sdeiEvent0 ∧ !(s.map m).bound then none
    else if (s.cpu cpu).peMasked then handleMaskedTrigger s cpu m intrRaw
    else if !s.affinityOk cpu m then none
    else
      let se := s.getEventEntry cpu m
      match canSdeiStateTrans se.state .dispatch with
      | none =>
        some (0, s.onIc fun ic =>
          (if se.state.registered then ic.setPending cpu (s.map m).intr else ic).endOfInterrupt cpu intrRaw)
      | some state =>
        if !s.mayPreempt cpu m then none
        else ((s.setEntryState cpu m state).pushDispatch cpu ⟨m, intrRaw⟩).map fun s => (0, s)

/-- `sdei_dispatch_event`. The priority it activates is not part of the state. -/
def sdeiDispatchEvent (s : State P) (cpu : P.Cpu) (evNum : Int) : Result P :=
  if (s.cpu cpu).peMasked then some (-1, s)
  else if evNum = sdeiEvent0 then some (-1, s)
  else
    match findEventMap P evNum with
    | none => some (-1, s)
    | some m =>
      if P.dynamic m || (s.map m).bound then some (-1, s)
      else if !isEventPrivate m then some (-1, s)
      else if !s.mayPreempt cpu m then some (-1, s)
      else
        match canSdeiStateTrans (s.getEventEntry cpu m).state .dispatch with
        | none => some (-1, s)
        | some state => ((s.setEntryState cpu m state).pushDispatch cpu ⟨m, 0⟩).map fun s => (0, s)

/-- `sdei_event_complete`. The priority it deactivates is not part of the state. -/
def sdeiEventComplete (s : State P) (cpu : P.Cpu) (resume : Bool) (pc : BitVec 64) : Result P :=
  match (s.cpu cpu).dispatchStack with
  | [] => some (sdeiEdeny, s)
  | d :: rest =>
    if resume && !P.validEntryPoint pc then some (sdeiEdeny, s)
    else
      match canSdeiStateTrans (s.getEventEntry cpu d.map).state (if resume then .completeResume else .complete) with
      | none => some (sdeiEdeny, s)
      | some state =>
        let s := (s.setEntryState cpu d.map state).setCpu cpu { s.cpu cpu with dispatchStack := rest }
        if P.evNum d.map = sdeiEvent0 ∨ (s.map d.map).bound then
          some (0, s.onIc (·.endOfInterrupt cpu d.intrRaw))
        else some (0, s)

def sdeiCpuOnInit (s : State P) (cpu : P.Cpu) : State P :=
  let s := { s with priv := Function.update s.priv cpu fun _ => ⟨0, 0, 0, 0, .none⟩ }
  (sdeiPeMask s cpu).2

/-! ## Whole runs -/

/-- A CPU that is turned off leaves the data as it is. -/
inductive Event (P : Platform) where
  | register (cpu : P.Cpu) (evNum : Int) (ep arg flags mpidr : BitVec 64)
  | enable (cpu : P.Cpu) (evNum : Int)
  | disable (cpu : P.Cpu) (evNum : Int)
  | unregister (cpu : P.Cpu) (evNum : Int)
  | routingSet (cpu : P.Cpu) (evNum : Int) (flags mpidr : BitVec 64)
  | bind (cpu : P.Cpu) (intr : Nat)
  | release (cpu : P.Cpu) (evNum : Int)
  | privateReset (cpu : P.Cpu)
  | sharedReset (cpu : P.Cpu)
  | peMask (cpu : P.Cpu)
  | peUnmask (cpu : P.Cpu)
  | interrupt (cpu : P.Cpu) (intrRaw : Nat)
  | dispatch (cpu : P.Cpu) (evNum : Int)
  | complete (cpu : P.Cpu) (resume : Bool) (pc : BitVec 64)
  | cpuOn (cpu : P.Cpu)
  | hardware (ic : Ic P.Cpu)

def Event.run (s : State P) : Event P → Result P
  | .register cpu evNum ep arg flags mpidr => sdeiEventRegister s cpu evNum ep arg flags mpidr
  | .enable cpu evNum => sdeiEventEnable s cpu evNum
  | .disable cpu evNum => sdeiEventDisable s cpu evNum
  | .unregister cpu evNum => sdeiEventUnregister s cpu evNum
  | .routingSet cpu evNum flags mpidr => sdeiEventRoutingSet s cpu evNum flags mpidr
  | .bind cpu intr => sdeiInterruptBind s cpu intr
  | .release cpu evNum => sdeiInterruptRelease s cpu evNum
  | .privateReset cpu => sdeiPrivateReset s cpu
  | .sharedReset cpu => sdeiSharedReset s cpu
  | .peMask cpu => some (sdeiPeMask s cpu)
  | .peUnmask cpu => some (0, sdeiPeUnmask s cpu)
  | .interrupt cpu intrRaw => sdeiIntrHandler s cpu intrRaw
  | .dispatch cpu evNum => sdeiDispatchEvent s cpu evNum
  | .complete cpu resume pc => sdeiEventComplete s cpu resume pc
  | .cpuOn cpu => some (0, sdeiCpuOnInit s cpu)
  | .hardware ic => some (0, { s with ic := ic })

def Step (s : State P) (e : Event P) (s' : State P) : Prop :=
  ∃ ret, e.run s = some (ret, s')

/-- Nothing is registered, and the maps of events that are neither dynamic nor event 0 are bound. -/
def sdeiInit (P : Platform) (bootCpu : P.Cpu) (ic : Ic P.Cpu) : State P :=
  sdeiCpuOnInit
    { priv := fun _ _ => ⟨0, 0, 0, 0, .none⟩
      shrd := fun _ => ⟨0, 0, 0, 0, .none⟩
      map := fun m => ⟨P.intr m, !P.dynamic m && (!isEventPrivate m || P.evNum m ≠ sdeiEvent0), 0⟩
      cpu := fun _ => ⟨[], false, false⟩
      ic := ic } bootCpu

end Armada3720.Sdei
