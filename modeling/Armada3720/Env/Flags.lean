import Armada3720.Env.Attr
import Armada3720.Env.HashTableRun

/-!
# Variable types and access flags

`env/flags.c` of U-Boot with `CONFIG_CMD_NET` and without `CONFIG_REGEX`. `.flags` and a static list give
variables a type and access rights, kept in the hash table: by `env_flags_init` for a new variable, by
`on_flags` for all when `.flags` changes. `env_flags_init` reads `.flags` through a pointer that it takes at its
first call only (`FlagsList`). On a board that call is made by the first import, before `GD_FLG_ENV_READY` is
set, when `env_get` does not read the table but the default environment, through `gd->env_buf`. Memory is
available.
-/

namespace Armada3720.Env

/-! ## Types and access rights -/

inductive EnvFlagsVartype
  | string
  | decimal
  | hex
  | bool
  | ipaddr
  | macaddr
  | «end»
  deriving DecidableEq, Repr

def EnvFlagsVartype.code : EnvFlagsVartype → Nat
  | string => 0
  | decimal => 1
  | hex => 2
  | bool => 3
  | ipaddr => 4
  | macaddr => 5
  | «end» => 6

/-- A number read as an `enum env_flags_vartype`; `none` is no value of it. -/
def EnvFlagsVartype.ofCode : Nat → Option EnvFlagsVartype
  | 0 => some string
  | 1 => some decimal
  | 2 => some hex
  | 3 => some bool
  | 4 => some ipaddr
  | 5 => some macaddr
  | 6 => some «end»
  | _ => none

inductive EnvFlagsVaraccess
  | any
  | readonly
  | writeonce
  | changedefault
  deriving DecidableEq, Repr

/-- `env_flags_vartype_rep`, `"sdxbim"`: the letter of each type. -/
def envFlagsVartypeRep : List (UInt8 × EnvFlagsVartype) :=
  [(115, .string), (100, .decimal), (120, .hex), (98, .bool), (105, .ipaddr), (109, .macaddr)]

/-- `env_flags_varaccess_rep`, `"aroc"`: the letter of each access right. -/
def envFlagsVaraccessRep : List (UInt8 × EnvFlagsVaraccess) :=
  [(97, .any), (114, .readonly), (111, .writeonce), (99, .changedefault)]

def vartypeBinMask : Nat := 0x7

def preventDelete : Nat := 1 <<< 3

def preventCreate : Nat := 1 <<< 4

def preventOverwr : Nat := 1 <<< 5

def preventNondefOverwr : Nat := 1 <<< 6

def EnvFlagsVaraccess.mask : EnvFlagsVaraccess → Nat
  | any => 0
  | readonly => preventDelete ||| preventCreate ||| preventOverwr
  | writeonce => preventDelete ||| preventOverwr
  | changedefault => preventDelete ||| preventNondefOverwr

/-- `env_flags_parse_vartype`: the first letter; an unknown one is a string's. -/
def envFlagsParseVartype (flags : Str) : EnvFlagsVartype :=
  match flags with
  | [] => .string
  | c :: _ => (envFlagsVartypeRep.lookup c).getD .string

/-- `env_flags_parse_varaccess`: the second letter; an unknown one allows any access. -/
def envFlagsParseVaraccess (flags : Str) : EnvFlagsVaraccess :=
  match flags with
  | _ :: c :: _ => (envFlagsVaraccessRep.lookup c).getD .any
  | _ => .any

def envParseFlagsToBin (flags : Str) : Nat :=
  ((envFlagsParseVartype flags).code &&& vartypeBinMask) ||| (envFlagsParseVaraccess flags).mask

/-! ## Checking a value against its type -/

def isdigit (c : UInt8) : Bool := 48 ≤ c ∧ c ≤ 57

def isxdigit (c : UInt8) : Bool := isdigit c ∨ (65 ≤ c ∧ c ≤ 70) ∨ (97 ≤ c ∧ c ≤ 102)

/-- `is_hex_prefix`: `0x` or `0X`. -/
def isHexPrefix : Str → Bool
  | 48 :: c :: _ => c = 120 ∨ c = 88
  | _ => false

/-- The loop of `skip_num`; no `maxDigits` is its `-1`, which the count does not come back to. -/
def skipDigits (digit : UInt8 → Bool) : (maxDigits : Option Nat) → Str → Str
  | _, [] => []
  | some 0, value => value
  | some (n + 1), c :: value => if digit c then skipDigits digit (some n) value else c :: value
  | none, c :: value => if digit c then skipDigits digit none value else c :: value

/-- `skip_num`: the value from where the number ends. -/
def skipNum (hex : Bool) (value : Str) (maxDigits : Option Nat) : Str :=
  if hex then skipDigits isxdigit maxDigits (if isHexPrefix value then value.drop 2 else value)
  else skipDigits isdigit maxDigits value

/-- The loops over the groups of an address: `groups` numbers with `sep` between them. -/
def groupsOk (hex : Bool) (maxDigits : Nat) (sep : UInt8) : (groups : Nat) → Str → Bool
  | 0, _ => true
  | groups + 1, cur =>
    let «end» := skipNum hex cur (some maxDigits)
    if cur = «end» then false
    else if hex ∧ cur.length = «end».length + 2 ∧ isHexPrefix cur then false
    else if groups = 0 then «end» = []
    else match «end» with
      | [] => false
      | c :: cur => c = sep && groupsOk hex maxDigits sep groups cur

/-- `eth_validate_ethaddr_str`; `true` is its 0. -/
def ethValidateEthaddrStr (addr : Str) : Bool := groupsOk true 2 58 6 addr

/-- `_env_flags_validate_type`; `true` is its 0. -/
def validateType (value : Str) : Option EnvFlagsVartype → Bool
  | some .decimal => skipNum false value none = []
  | some .hex =>
    let «end» := skipNum true value none
    «end» = [] && !(value.length = «end».length + 2 && isHexPrefix value)
  | some .bool => value.length = 1 &&
      value.all fun c => c ∈ ([49, 121, 116, 89, 84, 48, 110, 102, 78, 70] : Str)
  | some .ipaddr => groupsOk false 3 46 4 value
  | some .macaddr => ethValidateEthaddrStr value
  | some .end => false
  | some .string => true
  | none => true

/-! ## env_flags_validate -/

def hForce : Nat := 1 <<< 1

/-- `ENV_FLAGS_LIST_STATIC`, the strings of `default_environment`, to which `env_init` sets `gd->env_addr`, and
`CONFIG_ENV_ACCESS_IGNORE_FORCE`. -/
structure FlagsConfig where
  staticList : Str
  defaultEnvironment : List Str
  ignoreForce : Bool

/-- `envmatch`: what stands behind the `=` in a string for `name`. -/
def envmatch : (name string : Str) → Option Str
  | [], d :: string => if d = 61 then some string else none
  | c :: name, d :: string =>
    if c ≠ d then none else if c = 61 then some string else envmatch name string
  | _, [] => none

/-- `sizeof(gd->env_buf)`. -/
def envBufSize : Nat := 32

/-- `env_get` before the import, with `env_get_f` into `gd->env_buf`: whether it returns the buffer or NULL, and
the buffer. A value that is too long is cut; an empty one is copied, but not returned. -/
def envGetF (cfg : FlagsConfig) (name buf : Str) : Bool × Str :=
  match cfg.defaultEnvironment.findSome? (envmatch name) with
  | none => (false, buf)
  | some value => (value ≠ [], value.take (envBufSize - 1))

/-- `env_get_default`, which reads as `env_get` does before the import. -/
def envGetDefault (cfg : FlagsConfig) (name : Str) : Option Str :=
  let r := envGetF cfg name []
  if r.1 then some r.2 else none

/-- `env_flags_validate`; `true` refuses. -/
def envFlagsValidate (cfg : FlagsConfig) (item : Entry) (newval : Option Str) (op : EnvOp) (flag : Nat) : Bool :=
  let newval := newval.getD []
  if op ≠ .delete ∧
      validateType newval (EnvFlagsVartype.ofCode (vartypeBinMask &&& item.flags)) = false then true
  else if cfg.ignoreForce = false ∧ flag &&& hForce ≠ 0 then false
  else
    match op with
    | .delete => item.flags &&& preventDelete ≠ 0
    | .overwrite =>
      if item.flags &&& preventOverwr ≠ 0 then true
      else if item.flags &&& preventNondefOverwr ≠ 0 then
        item.data.getD [] ≠ (item.key.bind (envGetDefault cfg)).getD []
      else false
    | .create => item.flags &&& preventCreate ≠ 0

/-- `gd->env_buf` after `env_flags_validate` of an overwrite, which may have asked `env_get_default`. -/
def envBufAfter (cfg : FlagsConfig) (item : Entry) (newval : Str) (flag : Nat) (buf : Str) : Str :=
  if validateType newval (EnvFlagsVartype.ofCode (vartypeBinMask &&& item.flags)) = true ∧
      ¬ (cfg.ignoreForce = false ∧ flag &&& hForce ≠ 0) ∧ item.flags &&& preventOverwr = 0 ∧
      item.flags &&& preventNondefOverwr ≠ 0 then
    (envGetF cfg (item.key.getD []) buf).2
  else buf

/-! ## env_flags_init -/

def envFlagsVar : Str := [46, 102, 108, 97, 103, 115]

/-- The pointer `flags_list`: NULL, into the entry of `.flags`, to `gd->env_buf`, or to memory that was freed. -/
inductive FlagsList
  | null
  | value (v : Str)
  | buffer
  | freed
  deriving DecidableEq, Repr

/-- The list that the pointer shows; `buf` is `gd->env_buf` now. -/
def FlagsList.list (buf : Str) : FlagsList → Option Str
  | value v => some v
  | buffer => some buf
  | _ => none

/-- The entry of `.flags` loses its value. -/
def FlagsList.free : FlagsList → FlagsList
  | value _ => freed
  | list => list

def envFlagsLookup (staticList : Str) (flagsList : Option Str) (name : Str) : Option Str :=
  (flagsList.bind (envAttrLookup · name)).or (envAttrLookup staticList name)

/-- The flags that `env_flags_init` sets; `none` leaves them as they are. -/
def flagsFor (staticList : Str) (flagsList : Option Str) (name : Str) : Option Nat :=
  (envFlagsLookup staticList flagsList name).bind fun flags =>
    if flags = [] then none else some (envParseFlagsToBin flags)

/-! ## on_flags -/

def HsearchData.setFlags (t : HsearchData) (i n : Nat) : HsearchData :=
  t.setSlot i { t.table i with entry := { (t.table i).entry with flags := n } }

/-- `hwalk_r` with `clear_flags`. -/
def clearAllFlags (t : HsearchData) : HsearchData :=
  (List.range' 1 t.size).foldl (fun t i => if 0 < (t.table i).used then t.setFlags i 0 else t) t

/-- The flags that an entry of a list stands for. -/
def attrFlags (attributes : Option Str) : Nat :=
  match attributes with
  | none => 0
  | some [] => 0
  | some attributes => envParseFlagsToBin attributes

def setFlags (name : Str) (value : Option Str) (t : HsearchData) : HsearchData :=
  match (hsearchR .unset ⟨name, none⟩ .find t 0).bind (·.2.retval) with
  | none => t
  | some i => t.setFlags i (attrFlags value)

def onFlags (staticList : Str) (value : Option Str) (t : HsearchData) : HsearchData :=
  envAttrWalk value setFlags (envAttrWalk (some staticList) setFlags (clearAllFlags t))

/-! ## Setting and deleting variables -/

/-- `env_get` after the import. -/
def envGet (t : HsearchData) (name : Str) : Option Str :=
  ((hsearchR .unset ⟨name, none⟩ .find t 0).bind (·.2.retval)).bind fun i => (t.table i).entry.data

/-- The environment, `GD_FLG_ENV_READY` and `gd->env_buf`, with `first_call` and `flags_list` of
`env_flags_init`. -/
structure FlagsState where
  htab : HsearchData
  ready : Bool
  envBuf : Str
  firstCall : Bool
  flagsList : FlagsList

/-- The state at boot with a table. -/
def FlagsState.boot (htab : HsearchData) : FlagsState := ⟨htab, false, [], true, .null⟩

/-- The list that `flags_list` shows. -/
def FlagsState.list (s : FlagsState) : Option Str := s.flagsList.list s.envBuf

/-- Refused by `env_flags_validate` or by the callback. Callbacks of variables but `.flags` can only refuse. -/
def changeRefused (cfg : FlagsConfig) (refuses : Callback) (item : Entry) (newval : Option Str)
    (op : EnvOp) (flag : Nat) : Bool :=
  envFlagsValidate cfg item newval op flag ||
    (item.key ≠ some envFlagsVar && refuses (item.key.getD []) newval op flag)

/-- A refusal by a callback has the effect of one by `change_ok`, which is asked before it. -/
def flagsHooks (cfg : FlagsConfig) (flagsList : Option Str) (refuses : Callback) : Hooks where
  changeOk := some (changeRefused cfg refuses)
  callbackOf _ := none
  flagsOf := flagsFor cfg.staticList flagsList
  strdup := some

/-- The first call takes `flags_list` with `env_get`; in the table the new variable is already. (The first call of
`env_callback_init`, just before, reads `.callbacks` into the same buffer.) -/
def FlagsState.initList (cfg : FlagsConfig) (key value : Str) (s : FlagsState) : FlagsState :=
  if s.firstCall = false then s
  else if s.ready then
    match if key = envFlagsVar then some value else envGet s.htab envFlagsVar with
    | none => { s with firstCall := false, flagsList := .null }
    | some v => { s with firstCall := false, flagsList := .value v }
  else
    let r := envGetF cfg envFlagsVar s.envBuf
    { s with firstCall := false, envBuf := r.2, flagsList := if r.1 then .buffer else .null }

def envFlagsAttrMaxLen : Nat := 2

/-- `none` is a read through a dangling `flags_list`, or a write behind the array for the attributes. -/
def FlagsState.create (cfg : FlagsConfig) (key value : Str) (flag : Nat) (refuses : Callback)
    (s : FlagsState) : Option (FlagsState × Bool) :=
  let s := s.initList cfg key value
  if s.flagsList = .freed then none
  else if ((envFlagsLookup cfg.staticList s.list key).getD []).length > envFlagsAttrMaxLen then
    none
  else
    (hsearchR (flagsHooks cfg s.list refuses) ⟨key, some value⟩ .enter s.htab flag).map fun r =>
      if r.2.retval.isSome then
        ({ s with htab := if key = envFlagsVar then onFlags cfg.staticList (some value) r.1 else r.1 }, true)
      else
        -- the entry was deleted again, and its value with it
        ({ s with htab := r.1, flagsList := if key = envFlagsVar then s.flagsList.free else s.flagsList }, false)

/-- `on_flags` is called before the value is replaced; it reads and writes no values. -/
def FlagsState.overwrite (cfg : FlagsConfig) (key value : Str) (flag : Nat) (refuses : Callback)
    (s : FlagsState) : Option (FlagsState × Bool) :=
  let found := (hsearchR .unset ⟨key, none⟩ .find s.htab 0).bind (·.2.retval)
  let envBuf := found.elim s.envBuf fun i => envBufAfter cfg (s.htab.table i).entry value flag s.envBuf
  (hsearchR (flagsHooks cfg s.list refuses) ⟨key, some value⟩ .enter s.htab flag).map fun r =>
    if key = envFlagsVar ∧ r.2.retval.isSome then
      ({ s with
        htab := onFlags cfg.staticList (some value) r.1
        envBuf := envBuf
        flagsList := s.flagsList.free }, true)
    else
      ({ s with htab := r.1, envBuf := envBuf }, r.2.retval.isSome)

/-- `on_flags` is called before the entry of `.flags` is deleted, whose own flags `_hdelete` clears. -/
def FlagsState.delete (cfg : FlagsConfig) (key : Str) (flag : Nat) (refuses : Callback)
    (s : FlagsState) : Option (FlagsState × Bool) :=
  (hdeleteR (flagsHooks cfg s.list refuses) key s.htab flag).map fun r =>
    if key = envFlagsVar ∧ r.2.1 ≠ 0 then
      ({ s with htab := onFlags cfg.staticList none r.1, flagsList := s.flagsList.free }, true)
    else
      ({ s with htab := r.1 }, r.2.1 ≠ 0)

/-- A variable is set or deleted, where `refuses` stands for the callbacks of the other variables; other code
reads the default environment; `env_import` sets `GD_FLG_ENV_READY`. -/
inductive FlagsCall
  | enter (key value : Str) (flag : Nat) (refuses : Callback)
  | delete (key : Str) (flag : Nat) (refuses : Callback)
  | getDefault (name : Str)
  | ready

def FlagsCall.exec (cfg : FlagsConfig) : FlagsCall → FlagsState → Option (FlagsState × Bool)
  | enter key value flag refuses, s =>
    if (envGet s.htab key).isSome then s.overwrite cfg key value flag refuses
    else if s.htab.filled = s.htab.size then some (s, false)
    else s.create cfg key value flag refuses
  | delete key flag refuses, s => s.delete cfg key flag refuses
  | getDefault name, s => some ({ s with envBuf := (envGetF cfg name s.envBuf).2 }, true)
  | ready, s => some ({ s with ready := true }, true)

end Armada3720.Env
