-- SUMMARY: Shared helpers: bounded copies, trimming, the data root, and text files.
import FruitClawApps.Lib.FileStore
import FruitClawApps.Lib.LexicalPath

/-!
# Configuration helpers

`core/fc_config.c` holds what the other parts of FruitClaw use: the bounded string copy, the
location of the data root, the checks on path arguments, and the reading and writing of text files.
-/

namespace FruitClaw

open LexicalPath

/-- `FC_PATH_LEN`, the size of every path buffer. -/
def fcPathLen : Nat := 192

/-- `CONFIG_FRUITCLAW_MAX_EVENT_TEXT`, the size of the text of an event and of a prompt. -/
def fcMaxEventText : Nat := 1024

/-! ## Strings -/

-- The sizes of the string fields of events and jobs.
instance neZero_24 : NeZero 24 := ⟨by decide⟩
instance neZero_32 : NeZero 32 := ⟨by decide⟩
instance neZero_40 : NeZero 40 := ⟨by decide⟩
instance neZero_48 : NeZero 48 := ⟨by decide⟩
instance neZero_64 : NeZero 64 := ⟨by decide⟩
instance neZero_192 : NeZero 192 := ⟨by decide⟩
instance neZero_1024 : NeZero 1024 := ⟨by decide⟩
instance neZero_8192 : NeZero 8192 := ⟨by decide⟩

/-- `fc_strlcpy` into a buffer that the caller hands on: the copied text, or
`-ENOSPC` if it had to be cut. -/
def fcStrlcpy (src : CStr) (dstLen : Nat) : Except Errno CStr :=
  if dstLen = 0 then .error .einval
  else if src.length < dstLen then .ok src
  else .error .enospc

theorem fcStrlcpy_ok {src p : CStr} {n : Nat} (h : fcStrlcpy src n = .ok p) :
    p = src ∧ p.length < n := by
  unfold fcStrlcpy at h
  split at h
  · cases h
  split at h
  · cases h; exact ⟨rfl, ‹_›⟩
  · cases h

/-- The tail loop of `fc_trim` on the reversed string: white space goes, and so
does a literal `\n` or `\r`, which serial setup commands can leave behind. -/
def fcTrimEnd : List Char → List Char
  | [] => []
  | [c] => if isspace c then [] else [c]
  | c :: d :: rest =>
    if isspace c then fcTrimEnd (d :: rest)
    else if d = '\\' ∧ (c = 'n' ∨ c = 'r') then fcTrimEnd rest
    else c :: d :: rest

def fcTrim (s : CStr) : CStr := (fcTrimEnd (s.dropWhile isspace).reverse).reverse

/-! ## The data root -/

/-- The directory that `fc_data_dir` returns. It is a configured absolute path. -/
structure DataRoot where
  dir : CStr
  absolute : dir.head? = some '/'

/-- `fc_data_dir` with the default configuration: the SD card if it is ready,
the flash directory otherwise. -/
def fcDataDir (sdReady : Bool) : DataRoot :=
  if sdReady then ⟨"/mnt/sd0/fruitclaw".toList, rfl⟩ else ⟨"/data/fruitclaw".toList, rfl⟩

variable (root : DataRoot) {env : WriteOutcome} (path : CStr)

theorem DataRoot.dir_eq : ∃ rest, root.dir = '/' :: rest :=
  List.head?_eq_some_iff.mp root.absolute

/-! ## Checks on path arguments -/

def fcPathHasParentRef : Bool :=
  strstr path "../".toList || strstr path "/..".toList || path == "..".toList

def fcPathIsSecret : Bool := strstr path "/secrets/".toList

/-- The substring test is enough to keep parent references out of the
components. -/
theorem no_parent_component {path : CStr} (h : fcPathHasParentRef path = false) :
    ['.', '.'] ∉ components path := by
  intro hmem
  simp only [fcPathHasParentRef, Bool.or_eq_false_iff, strstr_eq_false_iff,
    beq_eq_false_iff_ne] at h
  rcases parent_ref_of_mem hmem with hin | hin | heq
  · exact h.1.1 hin
  · exact h.1.2 hin
  · exact h.2 (by simp [heq])

/-- A component named `secrets` with something below it. -/
def SecretBelow : Prop :=
  ∃ xs ys, normalise path = xs ++ "secrets".toList :: ys ∧ ys ≠ []

theorem not_secretBelow {path : CStr} (habs : path.head? = some '/')
    (h : fcPathIsSecret path = false) : ¬ SecretBelow path := by
  rintro ⟨xs, ys, hnorm, hys⟩
  obtain ⟨rest, rfl⟩ := List.head?_eq_some_iff.mp habs
  have hin := infix_of_normalise hnorm hys
  have hneedle : '/' :: "secrets".toList ++ ['/'] = "/secrets/".toList := by simp
  exact strstr_eq_false_iff.mp h hin

/-! ## Paths under the data root -/

def fcDataPath (leaf : CStr) (outLen : Nat) : Except Errno CStr :=
  if outLen = 0 ∨ fcPathHasParentRef leaf then .error .einval
  else
    let path := root.dir ++ '/' :: leaf
    if path.length ≥ outLen then .error .enametoolong else .ok path

theorem fcDataPath_ok {root : DataRoot} {leaf p : CStr} {n : Nat}
    (h : fcDataPath root leaf n = .ok p) :
    p = root.dir ++ '/' :: leaf ∧ p.length < n ∧ ['.', '.'] ∉ components leaf := by
  unfold fcDataPath at h
  split at h
  · cases h
  rename_i hcheck
  push Not at hcheck
  dsimp only at h
  split at h
  · cases h
  cases h
  exact ⟨rfl, by omega, no_parent_component (by simpa using hcheck.2)⟩

theorem fcDataPath_below {root : DataRoot} {leaf p : CStr} {n : Nat}
    (h : fcDataPath root leaf n = .ok p) : Below (normalise root.dir) p := by
  obtain ⟨rfl, -, hleaf⟩ := fcDataPath_ok h
  exact below_join (below_self _) hleaf

theorem DataRoot.head?_append (rest : CStr) :
    (root.dir ++ rest).head? = some '/' := by
  obtain ⟨d, hd⟩ := root.dir_eq
  simp [hd]

/-! ## Text files -/

/-- `fc_read_text_file` on a file with the given contents, if it exists. `fault`
is an error of `read`. The buffer takes `outLen - 1` bytes of the file. -/
def fcReadTextFile (fault : Option Errno) (file : Option (List Char)) (outLen : Nat) (trim : Bool) :
    Except Errno CStr :=
  if outLen = 0 then .error .einval
  else
    match file, fault with
    | none, _ => .error .enoent
    | some _, some e => .error e
    | some bytes, none =>
      let out := CStr.ofMem (bytes.take (outLen - 1))
      .ok (if trim then fcTrim out else out)

/-- What the system calls of one file write answer. -/
structure WriteOutcome where
  opened : Ret
  /-- The number of bytes that `write` takes when it is given so many. -/
  written : Nat → Except Errno Nat
  renamed : Ret

/-- Every call succeeds, and `write` takes all bytes. -/
def WriteOutcome.success : WriteOutcome := ⟨.ok (), .ok, .ok ()⟩

/-- `fc_write_text_file_atomic`: the text goes to a temporary file, which then
takes the place of the file. -/
def fcWriteTextFileAtomic (env : WriteOutcome) (path text : CStr) : Ret × List FileOp :=
  let tmp := path ++ ".tmp".toList
  if tmp.length ≥ fcPathLen + 8 then (.error .enametoolong, [])
  else
    match env.opened with
    | .error e => (.error e, [])
    | .ok () =>
      match env.written text.length with
      | .error e => (.error e, [.create tmp, .unlink tmp])
      | .ok n =>
        if n ≠ text.length then
          (.error .eio, [.create tmp, .append tmp (text.take n), .unlink tmp])
        else
          match env.renamed with
          | .error e => (.error e, [.create tmp, .append tmp text, .unlink tmp])
          | .ok () => (.ok (), [.create tmp, .append tmp text, .rename tmp path])

/-- Whatever the system calls answer, only the file and its temporary
companion are touched. -/
theorem fcWriteTextFileAtomic_touched {path text p : CStr}
    (h : p ∈ FileStore.touched (fcWriteTextFileAtomic env path text).2) :
    p = path ∨ p = path ++ ".tmp".toList := by
  simp only [fcWriteTextFileAtomic] at h
  repeat' split at h
  all_goals simp at h
  all_goals tauto

theorem fcWriteTextFileAtomic_ok {path text : CStr} {ops : List FileOp}
    (h : fcWriteTextFileAtomic env path text = (.ok (), ops)) (fs : FileStore) :
    FileStore.run fs ops path = some text := by
  -- Only the last branch, behind the rename, returns zero.
  simp only [fcWriteTextFileAtomic] at h
  split at h
  · cases h
  split at h
  · cases h
  split at h
  · cases h
  split at h
  · cases h
  split at h
  · cases h
  · cases h
    simp [FileStore.run, FileOp.apply]

/-- A write that fails leaves the file as it was. -/
theorem fcWriteTextFileAtomic_error {path text : CStr} {e : Errno} {ops : List FileOp}
    (h : fcWriteTextFileAtomic env path text = (.error e, ops)) (fs : FileStore) :
    FileStore.run fs ops path = fs path := by
  refine FileStore.run_frame fun hmem => ?_
  simp only [fcWriteTextFileAtomic] at h
  repeat' split at h
  all_goals cases h
  all_goals simp at hmem

/-- The entries of a list file: its trimmed lines, without blank lines and
comments. A line buffer takes `room` bytes. -/
def listEntries (room : Nat) (text : List Char) : List CStr :=
  ((fgetsLines room text).map fcTrim).filter fun line => line ≠ [] ∧ line.head? ≠ some '#'

/-- The loop by which an allowlist is searched: the entry is a line of the file
`leaf` of the data root. -/
def fileLists (fs : FileStore) (leaf : CStr) (room : Nat) (entry : CStr) : Bool :=
  match fcDataPath root leaf fcPathLen with
  | .error _ => false
  | .ok path =>
    match fs path with
    | none => false
    | some text => (listEntries room text).contains entry

end FruitClaw
