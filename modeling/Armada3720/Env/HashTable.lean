import Mathlib

/-!
# The environment hash table

`lib/hashtable.c` of U-Boot: open addressing with double hashing over `1 .. size`. `used` of a slot is `0` while
never used, `-1` once deleted, and the first hash value of its key otherwise; it is signed, a hash value is not,
and they are compared after conversion. Memory, the `change_ok` hook, callbacks and attribute lookups are a
`Hooks` record.
-/

namespace Armada3720.Env

/-- A C string: its characters, without the terminating NUL. -/
abbrev Str := List UInt8

inductive EnvOp
  | create
  | delete
  | overwrite
  deriving DecidableEq, Repr

inductive Action
  | find
  | enter
  deriving DecidableEq, Repr

inductive Errno
  | EINVAL
  | ENOMEM
  | EPERM
  | ESRCH
  deriving DecidableEq, Repr

/-- A variable's callback (name, new value, operation, flags); `true` refuses the change. -/
abbrev Callback := Str → Option Str → EnvOp → Nat → Bool

/-- `ENTRY`. A `none` string is a NULL pointer. -/
structure Entry where
  key : Option Str
  data : Option Str
  callback : Option Callback
  flags : Nat

structure Slot where
  used : Int
  entry : Entry

/-- `struct hsearch_data` of a table that was created. -/
structure HsearchData where
  size : Nat
  filled : Nat
  table : Nat → Slot

/-- The `change_ok` hook (`true` refuses), the attributes found for a new variable, and whether memory is to be
had. -/
structure Hooks where
  changeOk : Option (Entry → Option Str → EnvOp → Nat → Bool)
  callbackOf : Str → Option Callback
  flagsOf : Str → Option Nat
  strdup : Str → Option Str

structure Item where
  key : Str
  data : Option Str

/-- The result of `hsearch_r`: its return value, the slot `*retval` points to, and `errno`. -/
structure SearchResult where
  ret : Nat
  retval : Option Nat
  errno : Option Errno
  deriving DecidableEq, Repr

/-- The value of a signed 32-bit number read as an unsigned one. -/
def uintOfInt (x : Int) : Nat := (x % 2 ^ 32).toNat

/-- The value of an unsigned 32-bit number stored in a signed one. -/
def intOfUint (n : Nat) : Int := if n < 2 ^ 31 then n else (n : Int) - 2 ^ 32

/-! ## hcreate -/

/-- The `while` loop of `isprime`: the divisor it stops at. `div * div` wraps at 32 bits. -/
def isprimeLoop (number : Nat) : Nat → Nat → Nat
  | 0, div => div
  | fuel + 1, div =>
    if div * div % 2 ^ 32 < number ∧ number % div ≠ 0 then
      isprimeLoop number fuel (div + 2)
    else
      div

/-- `isprime`, for the odd numbers it is called with. -/
def isprime (number : Nat) : Bool := number % isprimeLoop number number 3 ≠ 0

/-- The `while` loop of `hcreate_r`; `nel` is 64 bits wide and `isprime` takes its low 32. -/
def nextPrime : Nat → Nat → Option Nat
  | 0, _ => none
  | fuel + 1, nel =>
    if isprime (nel % 2 ^ 32) then some nel else nextPrime fuel ((nel + 2) % 2 ^ 64)

def Slot.zero : Slot := ⟨0, ⟨none, none, none, 0⟩⟩

def sizeofEntry : Nat := 40

/-- The RAM that `mvebu_mem_map` maps above the secure region: `calloc` can hand out no more. -/
def ramSize : Nat := 0x80000000

/-- `hcreate_r` without a table. A table that memory can hold at all is allocated. -/
def hcreateR (nel : Nat) : Option HsearchData :=
  match nextPrime (2 ^ 31 + 1) (nel ||| 1) with
  | none => none
  | some nel =>
    let size := nel % 2 ^ 32
    if (size + 1) * sizeofEntry ≤ ramSize then
      some { size := size, filled := 0, table := fun _ => Slot.zero }
    else
      none

/-! ## hsearch -/

/-- The first hash value of a key: its slot in `1 .. size`. -/
def hashVal (size : Nat) (key : Str) : Nat :=
  let len := key.length % 2 ^ 32
  let hval := (key.take len).reverse.foldl (fun h c => (h * 16 + c.toNat) % 2 ^ 32) len % size
  if hval = 0 then hval + 1 else hval

/-- The second hash value: how far back the search goes at each step. -/
def hashVal2 (size hval : Nat) : Nat := 1 + hval % ((size + 2 ^ 32 - 2) % 2 ^ 32)

def HsearchData.setSlot (htab : HsearchData) (idx : Nat) (s : Slot) : HsearchData :=
  { htab with table := Function.update htab.table idx s }

/-- `hsearch_r` gives up: NULL in `*retval` and `0` returned. -/
def searchFail (htab : HsearchData) (e : Errno) : HsearchData × SearchResult :=
  (htab, ⟨0, none, some e⟩)

def Hooks.refuses (hk : Hooks) (e : Entry) (newval : Option Str) (op : EnvOp) (flag : Nat) : Bool :=
  match hk.changeOk with
  | none => false
  | some f => f e newval op flag

def Entry.callbackRefuses (e : Entry) (name : Str) (value : Option Str) (op : EnvOp) (flag : Nat) :
    Bool :=
  match e.callback with
  | none => false
  | some f => f name value op flag

/-- `env_callback_init`: a callback listed for the variable is attached to it. -/
def Hooks.envCallbackInit (hk : Hooks) (e : Entry) : Entry :=
  match e.key.bind hk.callbackOf with
  | none => e
  | some f => { e with callback := some f }

/-- `env_flags_init`: flags listed for the variable are stored with it. -/
def Hooks.envFlagsInit (hk : Hooks) (e : Entry) : Entry :=
  match e.key.bind hk.flagsOf with
  | none => e
  | some n => { e with flags := n }

/-- `_compare_and_overwrite_entry`; `none` is its `-1`, keep searching. -/
def compareAndOverwriteEntry (hk : Hooks) (item : Item) (action : Action) (htab : HsearchData)
    (flag hval idx : Nat) : Option (HsearchData × SearchResult) :=
  let slot := htab.table idx
  if uintOfInt slot.used = hval ∧ slot.entry.key = some item.key then
    match action, item.data with
    | .enter, some value =>
      if hk.refuses slot.entry (some value) .overwrite flag then
        some (searchFail htab .EPERM)
      else if slot.entry.callbackRefuses item.key (some value) .overwrite flag then
        some (searchFail htab .EINVAL)
      else
        let data := hk.strdup value
        let htab' := htab.setSlot idx { slot with entry := { slot.entry with data := data } }
        if data = none then some (searchFail htab' .ENOMEM)
        else some (htab', ⟨idx, some idx, none⟩)
    | _, _ => some (htab, ⟨idx, some idx, none⟩)
  else
    none

/-- How the search ends: at an entry for the key, or at a slot index where none was found. -/
inductive Probed
  | done (htab : HsearchData) (res : SearchResult)
  | empty (idx : Nat)

/-- The `do ... while` loop of `hsearch_r`. -/
def probeLoop (hk : Hooks) (item : Item) (action : Action) (htab : HsearchData)
    (flag hval hval2 : Nat) : Nat → Nat → Option Probed
  | 0, _ => none
  | fuel + 1, idx =>
    let idx := if idx ≤ hval2 then htab.size + idx - hval2 else idx - hval2
    if idx = hval then
      some (.empty idx)
    else
      match compareAndOverwriteEntry hk item action htab flag hval idx with
      | some (htab', res) => some (.done htab' res)
      | none =>
        if (htab.table idx).used ≠ 0 then
          probeLoop hk item action htab flag hval hval2 fuel idx
        else
          some (.empty idx)

/-- `_hdelete`: the slot becomes a deleted one. -/
def hdelete (htab : HsearchData) (idx : Nat) : HsearchData :=
  let slot := htab.table idx
  { htab.setSlot idx ⟨-1, { slot.entry with callback := none, flags := 0 }⟩ with
    filled := uintOfInt (htab.filled - 1) }

/-- The new entry of `hsearch_r`, made in slot `idx`. -/
def hsearchCreate (hk : Hooks) (item : Item) (htab : HsearchData) (flag hval idx : Nat) :
    HsearchData × SearchResult :=
  let key := hk.strdup item.key
  let data := item.data.bind hk.strdup
  let e := { (htab.table idx).entry with key := key, data := data }
  let htab' := htab.setSlot idx ⟨intOfUint hval, e⟩
  if key = none ∨ data = none then
    searchFail htab' .ENOMEM
  else
    let e' := hk.envFlagsInit (hk.envCallbackInit e)
    let htab' := { htab'.setSlot idx ⟨intOfUint hval, e'⟩ with
      filled := (htab.filled + 1) % 2 ^ 32 }
    if hk.refuses e' item.data .create flag then
      searchFail (hdelete htab' idx) .EPERM
    else if e'.callbackRefuses item.key item.data .create flag then
      searchFail (hdelete htab' idx) .EINVAL
    else
      (htab', ⟨1, some idx, none⟩)

/-- The end of `hsearch_r`, the search having stopped at slot `idx` without an entry. -/
def hsearchMissing (hk : Hooks) (item : Item) (action : Action) (htab : HsearchData)
    (flag hval firstDeleted idx : Nat) : HsearchData × SearchResult :=
  match action with
  | .find => searchFail htab .ESRCH
  | .enter =>
    if htab.filled = htab.size then searchFail htab .ENOMEM
    else hsearchCreate hk item htab flag hval (if firstDeleted ≠ 0 then firstDeleted else idx)

/-- What `hsearch_r` does after its loop. -/
def Probed.finish (hk : Hooks) (item : Item) (action : Action) (htab : HsearchData)
    (flag hval firstDeleted : Nat) : Probed → HsearchData × SearchResult
  | .done htab' res => (htab', res)
  | .empty idx => hsearchMissing hk item action htab flag hval firstDeleted idx

/-- `none` would be a search that never stops. Slot numbers are far below `2 ^ 31` (`hcreateR`). -/
def hsearchR (hk : Hooks) (item : Item) (action : Action) (htab : HsearchData) (flag : Nat) :
    Option (HsearchData × SearchResult) :=
  let hval := hashVal htab.size item.key
  let slot := htab.table hval
  if slot.used ≠ 0 then
    let firstDeleted := if slot.used = -1 then hval else 0
    match compareAndOverwriteEntry hk item action htab flag hval hval with
    | some r => some r
    | none =>
      (probeLoop hk item action htab flag hval (hashVal2 htab.size hval) htab.size hval).map
        (Probed.finish hk item action htab flag hval firstDeleted)
  else
    some (hsearchMissing hk item action htab flag hval 0 hval)

/-! ## hdelete -/

def hdeleteR (hk : Hooks) (key : Str) (htab : HsearchData) (flag : Nat) :
    Option (HsearchData × Nat × Option Errno) :=
  match hsearchR hk ⟨key, none⟩ .find htab 0 with
  | none => none
  | some (htab, res) =>
    let idx := res.ret
    if idx = 0 then
      some (htab, 0, some .ESRCH)
    else
      let e := (htab.table idx).entry
      if hk.refuses e none .delete flag then some (htab, 0, some .EPERM)
      else if e.callbackRefuses key none .delete flag then some (htab, 0, some .EINVAL)
      else some (hdelete htab idx, 1, none)

end Armada3720.Env
