import Mathlib

/-!
# Opening files of a firmware image package

`drivers/io/io_fip.c`: one file of the package is open at a time, which is read off the entry of the table of
contents looked at last. The backend answers as it likes.

An entry that a failed read leaves behind counts as an open file. `fip_reports_only_open_files` is for runs in which
such an entry has offset 0.
-/

namespace Armada3720.Io

structure FipTocEntry where
  uuid : BitVec 128
  offsetAddress : Nat
  size : Nat
  flags : Nat
  deriving DecidableEq

structure FileState where
  filePos : Nat
  entry : FipTocEntry
  deriving DecidableEq

/-- The results of `io_open` and `io_seek`, and for each `io_read` its result and what it leaves in the entry.
-/
structure OpenAnswers where
  ioOpen : Int
  ioSeek : Int
  ioRead : List (Int × FipTocEntry)

structure ReadAnswers where
  ioOpen : Int
  ioSeek : Int
  ioRead : Int
  bytesRead : Nat

/-- That only one file can be open at a time, with `-ENOMEM`, or another result. -/
inductive OpenResult
  | onlyOneAtATime
  | result (code : Int)
  deriving DecidableEq

/-- How the loop over the table of contents is left, and the entry then; `none` is that it still goes on after
the answers. -/
def searchToc (uuid : BitVec 128) : List (Int × FipTocEntry) → Option (Int × FipTocEntry)
  | [] => none
  | (result, entry) :: answers =>
    if result ≠ 0 then some (result, entry)
    else if entry.uuid = uuid then some (0, entry)
    else if entry.uuid = 0 then some (-2, { entry with offsetAddress := 0 })
    else searchToc uuid answers

def fipFileOpen (file : FileState) (uuid : BitVec 128) (io : OpenAnswers) :
    Option (OpenResult × FileState) :=
  if file.entry.offsetAddress ≠ 0 then some (.onlyOneAtATime, file)
  else if io.ioOpen ≠ 0 then some (.result (-2), file)
  else if io.ioSeek ≠ 0 then some (.result (-2), file)
  else
    (searchToc uuid io.ioRead).map fun r =>
      (.result r.1, ⟨if r.1 = 0 then 0 else file.filePos, r.2⟩)

def fipFileRead (file : FileState) (io : ReadAnswers) : Int × FileState :=
  if io.ioOpen ≠ 0 then (-2, file)
  else if io.ioSeek ≠ 0 then (-2, file)
  else if io.ioRead ≠ 0 then (-2, file)
  else (0, { file with filePos := (file.filePos + io.bytesRead) % 2 ^ 32 })

def fipFileClose (file : FileState) : FileState :=
  if file.entry.offsetAddress ≠ 0 then ⟨0, ⟨0, 0, 0, 0⟩⟩ else file

/-! ## Sequences of calls -/

inductive FipCall
  | open (uuid : BitVec 128) (io : OpenAnswers)
  | read (io : ReadAnswers)
  | close

/-- `current_file`, and how many files have been opened and not closed. -/
structure FipState where
  file : FileState
  opened : Nat
  deriving DecidableEq

/-- One call; `none` is an open that does not return. -/
def FipState.step (s : FipState) : FipCall → Option FipState
  | .open uuid io => (fipFileOpen s.file uuid io).map fun r =>
      ⟨r.2, if r.1 = .result 0 then s.opened + 1 else s.opened⟩
  | .read io => some { s with file := (fipFileRead s.file io).2 }
  | .close => some ⟨fipFileClose s.file, s.opened - 1⟩

def FipState.run (s : FipState) (calls : List FipCall) : Option FipState := calls.foldlM step s

def FipState.init : FipState := ⟨⟨0, ⟨0, 0, 0, 0⟩⟩, 0⟩

/-- A file that counts as open has been opened and not closed. -/
def FipState.Ok (s : FipState) : Prop := s.file.entry.offsetAddress ≠ 0 → 0 < s.opened

/-- A read of the table of contents that fails leaves an entry with offset 0. -/
def FipCall.Clean : FipCall → Prop
  | .open _ io => ∀ r ∈ io.ioRead, r.1 ≠ 0 → r.2.offsetAddress = 0
  | _ => True

theorem searchToc_clean {uuid : BitVec 128} {answers : List (Int × FipTocEntry)}
    {r : Int × FipTocEntry} (hclean : ∀ x ∈ answers, x.1 ≠ 0 → x.2.offsetAddress = 0)
    (h : searchToc uuid answers = some r) (hr : r.1 ≠ 0) : r.2.offsetAddress = 0 := by
  induction answers with
  | nil => cases h
  | cons x answers ih =>
    rw [searchToc] at h
    split at h
    · cases h
      exact hclean x List.mem_cons_self hr
    split at h
    · cases h
      exact absurd rfl hr
    split at h
    · cases h
      rfl
    · exact ih (fun y hy => hclean y (List.mem_cons_of_mem x hy)) h

theorem FipState.Ok.step {s s' : FipState} {call : FipCall} (hok : s.Ok) (hclean : call.Clean)
    (h : s.step call = some s') : s'.Ok := by
  cases call with
  | «open» uuid io =>
    obtain ⟨⟨result, file⟩, hcall, rfl⟩ := Option.map_eq_some_iff.mp h
    rw [fipFileOpen] at hcall
    split at hcall
    · cases hcall
      exact hok
    split at hcall
    · cases hcall
      exact hok
    split at hcall
    · cases hcall
      exact hok
    obtain ⟨r, hsearch, hr⟩ := Option.map_eq_some_iff.mp hcall
    cases hr
    intro hoff
    by_cases hz : r.1 = 0
    · simp [hz]
    · exact absurd (searchToc_clean hclean hsearch hz) hoff
  | read io =>
    cases h
    have hentry : (fipFileRead s.file io).2.entry = s.file.entry := by
      rw [fipFileRead]
      split_ifs <;> rfl
    intro hoff
    exact hok (hentry ▸ hoff)
  | close =>
    cases h
    intro hoff
    refine absurd ?_ hoff
    rw [fipFileClose]
    split
    · rfl
    · next hz => exact not_not.mp hz

theorem FipState.Ok.run {s s' : FipState} {calls : List FipCall} (hok : s.Ok)
    (hclean : ∀ call ∈ calls, call.Clean) (h : s.run calls = some s') : s'.Ok := by
  induction calls generalizing s with
  | nil =>
    cases h
    exact hok
  | cons call calls ih =>
    obtain ⟨t, hstep, hrun⟩ := Option.bind_eq_some_iff.mp h
    exact ih (hok.step (hclean call List.mem_cons_self) hstep)
      (fun c hc => hclean c (List.mem_cons_of_mem call hc)) hrun

/-- In every sequence of calls in which a failed read of the table of contents leaves an entry with
offset 0, too many open files are reported only while one is open. -/
theorem fip_reports_only_open_files (calls : List FipCall) (hclean : ∀ call ∈ calls, call.Clean)
    (s : FipState) (hrun : FipState.init.run calls = some s) (uuid : BitVec 128) (io : OpenAnswers)
    (file : FileState) (hopen : fipFileOpen s.file uuid io = some (.onlyOneAtATime, file)) :
    0 < s.opened := by
  have hok : s.Ok := FipState.Ok.run (s := FipState.init) (fun h => absurd rfl h) hclean hrun
  apply hok
  intro hz
  rw [fipFileOpen, if_neg (not_not.mpr hz)] at hopen
  split at hopen
  · cases hopen
  split at hopen
  · cases hopen
  obtain ⟨r, -, hr⟩ := Option.map_eq_some_iff.mp hopen
  cases hr

def oneFile : OpenAnswers := ⟨0, 0, [(0, ⟨1, 0x100, 8, 0⟩)]⟩

theorem fip_reports_oneFile :
    0 < (⟨⟨0, ⟨1, 0x100, 8, 0⟩⟩, 1⟩ : FipState).opened :=
  fip_reports_only_open_files [.open 1 oneFile]
    (by rintro call (_ | ⟨_, ⟨⟩⟩) r (_ | ⟨_, ⟨⟩⟩) h; exact absurd rfl h) _ rfl 2 oneFile _ rfl

/-- The first entry read is another file's, and the second read fails: the next open is told that there are too
many. -/
theorem fip_reports_after_failed_open :
    FipState.init.run [.open 2 ⟨0, 0, [(0, ⟨1, 0x100, 8, 0⟩), (-5, ⟨1, 0x100, 8, 0⟩)]⟩] =
        some ⟨⟨0, ⟨1, 0x100, 8, 0⟩⟩, 0⟩ ∧
      fipFileOpen ⟨0, ⟨1, 0x100, 8, 0⟩⟩ 1 oneFile =
        some (.onlyOneAtATime, ⟨0, ⟨1, 0x100, 8, 0⟩⟩) :=
  ⟨rfl, rfl⟩

end Armada3720.Io
