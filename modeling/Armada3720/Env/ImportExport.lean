import Armada3720.Lib.ShellSort
import Armada3720.Env.HashTable

/-!
# Export and import of the environment

`hexport_r` writes a table as `name=value` entries, each ended by a separator; `himport_r` parses such a text.
The export returns the text of its second pass and the size of the buffer, which the text may exceed. The parser
works in place, always behind the character that it reads next.
-/

namespace Armada3720.Env

open Lib

/-! ## Flags of `search.h` -/

def hNoclear : Nat := 1 <<< 0
def hHideDot : Nat := 1 <<< 3
def hMatchKey : Nat := 1 <<< 4
def hMatchData : Nat := 1 <<< 5
def hMatchIdent : Nat := 1 <<< 6
def hMatchSubstr : Nat := 1 <<< 7
def hMatchRegex : Nat := 1 <<< 8
def hMatchMethod : Nat := hMatchIdent ||| hMatchSubstr ||| hMatchRegex

/-! ## hexport -/

/-- `strcmp`: the difference of the first two characters that differ, cut to a signed byte. -/
def strcmp : Str → Str → Int
  | [], [] => 0
  | [], b :: _ => Int.bmod (0 - b.toNat) 256
  | a :: _, [] => Int.bmod a.toNat 256
  | a :: as, b :: bs => if a = b then strcmp as bs else Int.bmod (a.toNat - b.toNat) 256

/-- The regular expression library: whether a pattern compiles, and whether it matches. -/
structure Regex where
  slreCompile : Str → Bool
  slreMatch : Str → Str → Bool

def matchString (rx : Regex) (flag : Nat) (str pat : Str) : Bool :=
  let method := flag &&& hMatchMethod
  if method = hMatchIdent then str = pat
  else if method = hMatchSubstr then pat <:+: str
  else if method = hMatchRegex then rx.slreMatch pat str
  else false

/-- `match_entry`: some argument matches the name or the value. -/
def matchEntry (rx : Regex) (flag : Nat) (key data : Str) : List Str → Bool
  | [] => false
  | arg :: argv =>
    if rx.slreCompile arg = false then false
    else if flag &&& hMatchKey ≠ 0 ∧ matchString rx flag key arg then true
    else if flag &&& hMatchData ≠ 0 ∧ matchString rx flag data arg then true
    else matchEntry rx flag key data argv

def HsearchData.strings (htab : HsearchData) (i : Nat) : Option (Str × Str) :=
  match (htab.table i).entry.key, (htab.table i).entry.data with
  | some key, some data => some (key, data)
  | _, _ => none

/-- The slots that the first pass finds used, in order. -/
def HsearchData.liveSlots (htab : HsearchData) : List Nat :=
  (List.range' 1 htab.size).filter fun i => 0 < (htab.table i).used

/-- The entries of the table in slot order. `none`: a live entry without a string. -/
def HsearchData.entries (htab : HsearchData) : Option (List (Str × Str)) :=
  htab.liveSlots.mapM htab.strings

def exportSelects (rx : Regex) (flag : Nat) (argv : List Str) (e : Str × Str) : Bool :=
  (argv.isEmpty || matchEntry rx flag e.1 e.2 argv) &&
    !(flag &&& hHideDot ≠ 0 && e.1.head? = some '.'.toUInt8)

/-- What the first pass counts for an entry. -/
def exportLen (sep : UInt8) (e : Str × Str) : Nat :=
  e.1.length + 2 + (if sep = 0 then e.2.length
      else e.2.length + (e.2.filter fun c => c = sep ∨ c = '\\'.toUInt8).length) + 2

/-- A value as the second pass writes it. -/
def escape (sep : UInt8) (data : Str) : List UInt8 :=
  data.flatMap fun c => if c = sep ∨ c = '\\'.toUInt8 then ['\\'.toUInt8, c] else [c]

/-- An entry as the second pass writes it. -/
def exportText (sep : UInt8) (e : Str × Str) : List UInt8 :=
  e.1 ++ '='.toUInt8 :: (escape sep e.2 ++ [sep])

def cmpkey (e1 e2 : Str × Str) : Int := strcmp e1.1 e2.1

/-- The size `hexport_r` returns, and the text it writes to the start of the buffer. -/
structure Exported where
  size : Nat
  text : List UInt8

/-- With a buffer given or allocated here. `none`: a string of a live entry is missing. -/
def hexportR (rx : Regex) (htab : HsearchData) (sep : UInt8) (flag : Nat) (given : Bool)
    (calloc : Nat → Bool) (size : Nat) (argv : List Str) : Option (Except Errno Exported) :=
  match htab.entries with
  | none => none
  | some entries =>
    let list := entries.filter (exportSelects rx flag argv)
    let totlen := (list.map (exportLen sep)).sum
    let sorted := (shellSort cmpkey list.toArray).toList
    if size ≠ 0 ∧ size < totlen + 1 then
      some (.error .ENOMEM)
    else
      let size := if size ≠ 0 then size else totlen + 1
      if given = false ∧ calloc size = false then
        some (.error .ENOMEM)
      else
        some (.ok ⟨size, sorted.flatMap (exportText sep) ++ [0]⟩)

/-- The buffer after an export whose text fits it: cleared, then written. -/
def Exported.buffer (x : Exported) : List UInt8 :=
  x.text ++ List.replicate (x.size - x.text.length) 0

/-! ## himport -/

/-- `drop_var_from_set`: whether the variable is to be processed, and the names left. -/
def dropVarFromSet (name : Str) (vars : List (Option Str)) : Bool × List (Option Str) :=
  if vars.isEmpty then (true, vars)
  else (vars.contains (some name), vars.map fun v => if v = some name then none else v)

def isblank (c : UInt8) : Bool := c = ' '.toUInt8 ∨ c = '\t'.toUInt8

/-- The parse of a value up to its end: `\` makes the next character an ordinary one. -/
def parseValue (sep : UInt8) : List UInt8 → Str × List UInt8
  | [] => ([], [])
  | [c] => if c = 0 ∨ c = sep then ([], [c]) else ([c], [])
  | c :: c' :: rest =>
    if c = 0 ∨ c = sep then
      ([], c :: c' :: rest)
    else if c = '\\'.toUInt8 ∧ c' ≠ 0 then
      let r := parseValue sep rest
      (c' :: r.1, r.2)
    else
      let r := parseValue sep (c' :: rest)
      (c :: r.1, r.2)

/-- The characters still to be read, with a NUL behind them, the table, and the names asked for. -/
structure ImportState where
  dp : List UInt8
  htab : HsearchData
  vars : List (Option Str)

/-- `false`: an entry with an empty name, the import is given up. -/
def himportStep (hk : HsearchData → Hooks) (sep : UInt8) (flag : Nat) (s : ImportState) :
    Option (ImportState × Bool) :=
  let dp := s.dp.dropWhile isblank
  if dp.head? = some '#'.toUInt8 then
    some ({ s with dp := (dp.dropWhile fun c => c ≠ 0 ∧ c ≠ sep).drop 1 }, true)
  else
    let name := dp.takeWhile fun c => c ≠ '='.toUInt8 ∧ c ≠ 0 ∧ c ≠ sep
    let dp := dp.drop name.length
    let c := dp.headD 0
    let c' := (dp.drop 1).headD 0
    if c = 0 ∨ c' = 0 ∨ c = sep ∨ c' = sep then
      -- `name` or `name=`: the variable is deleted
      let dp := if c = '='.toUInt8 then dp.drop 2 else dp.drop 1
      let (found, vars) := dropVarFromSet name s.vars
      if found then
        (hdeleteR (hk s.htab) name s.htab flag).map fun r => (⟨dp, r.1, vars⟩, true)
      else
        some (⟨dp, s.htab, vars⟩, true)
    else
      let (value, dp) := parseValue sep (dp.drop 1)
      let dp := dp.drop 1
      if name = [] then
        some ({ s with dp := dp }, false)
      else
        let (found, vars) := dropVarFromSet name s.vars
        if found then
          (hsearchR (hk s.htab) ⟨name, some value⟩ .enter s.htab flag).map fun r =>
            (⟨dp, r.1, vars⟩, true)
        else
          some (⟨dp, s.htab, vars⟩, true)

/-- The parser's loop; `slack` characters lie behind the part of the input that counts. -/
def himportLoop (hk : HsearchData → Hooks) (sep : UInt8) (flag slack : Nat) :
    Nat → ImportState → Option (ImportState × Bool)
  | 0, _ => none
  | fuel + 1, s =>
    match himportStep hk sep flag s with
    | none => none
    | some (s', false) => some (s', false)
    | some (s', true) =>
      if slack < s'.dp.length ∧ s'.dp.headD 0 ≠ 0 then himportLoop hk sep flag slack fuel s'
      else some (s', true)

/-- Variables that were asked for and not in the input are deleted. -/
def deleteMissing (hk : HsearchData → Hooks) (flag : Nat) :
    List (Option Str) → HsearchData → Option HsearchData
  | [], htab => some htab
  | none :: vars, htab => deleteMissing hk flag vars htab
  | some v :: vars, htab =>
    match hdeleteR (hk htab) v htab flag with
    | none => none
    | some r => deleteMissing hk flag vars r.1

/-- Characters before the first NUL without the carriage returns in front of line feeds. -/
def dropCrs : List UInt8 → List UInt8
  | [] => []
  | [c] => [c]
  | c :: c' :: rest =>
    if c = '\r'.toUInt8 ∧ c' = '\n'.toUInt8 then dropCrs (c' :: rest)
    else c :: dropCrs (c' :: rest)

/-- The data, what the pass leaves behind at its end included, and how many characters it took out. -/
def crlfPass (env : List UInt8) : List UInt8 × Nat :=
  let text := env.takeWhile fun c => c ≠ 0
  let kept := dropCrs text
  (kept ++ env.drop kept.length, text.length - kept.length)

/-- The count is a signed 32-bit number and is passed on as an unsigned 64-bit one. -/
def importEntries (size : Nat) : Nat :=
  let nent := intOfUint ((64 + size / 8) % 2 ^ 32)
  if 512 < nent then 512 else (nent % 2 ^ 64).toNat

/-- The table (`none`: there is none), the value returned and `errno`. -/
def himportR (hk : HsearchData → Hooks) (malloc : Nat → Bool) (htab : Option HsearchData)
    (env : List UInt8) (sep : UInt8) (flag : Nat) (crlfIsLf : Bool) (vars : List Str) :
    Option (Option HsearchData × Bool × Option Errno) :=
  if malloc (env.length + 1) = false then
    some (htab, false, some .ENOMEM)
  else
    let old := if flag &&& hNoclear = 0 then none else htab
    match old.or (hcreateR (importEntries env.length)) with
    | none => some (none, false, none)
    | some htab =>
      if env = [] then
        some (some htab, true, none)
      else
        let (data, ignored) := if crlfIsLf then crlfPass env else (env, 0)
        match himportLoop hk sep flag (ignored + 1) (env.length + 1) ⟨data ++ [0], htab, vars.map some⟩ with
        | none => none
        | some (s, false) => some (some s.htab, false, some .EINVAL)
        | some (s, true) =>
          (deleteMissing hk flag s.vars s.htab).map fun htab => (some htab, true, none)

end Armada3720.Env
