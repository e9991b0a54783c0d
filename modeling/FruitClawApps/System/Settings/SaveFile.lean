-- SUMMARY: After a power failure in a save the old or the new content is read.
import FruitClawApps.Lib.Crash
import FruitClawApps.System.Settings.Text

/-!
# The files of the text storage

`save_text` writes a backup file, removes the settings file and renames the backup. `load_text`
renames a backup if there is no settings file. The power can fail before every operation, and a
write can be in any number of pieces.
-/

namespace System.Settings

open Crash Transition

/-- The settings file and its backup. -/
structure Store where
  file : Option (List Char)
  backup : Option (List Char)
deriving DecidableEq

/-- The content of the backup gets to the store in pieces. -/
def writePieces : List (List Char) → Prog Store Unit
  | [] => return ()
  | piece :: pieces => do
    modify fun s => { s with backup := s.backup.map (· ++ piece) }
    writePieces pieces

variable (pieces : List (List Char))

/-- The file operations of `save_text`. -/
def saveFile : Prog Store Unit := do
  modify fun s => { s with backup := some [] }
  writePieces pieces
  modify fun s => { s with file := none }
  modify fun s => ⟨s.backup, none⟩

/-- The file operations of `load_text`, and the content that it reads. -/
def loadFile : Prog Store (Option (List Char)) := do
  let s ← Crash.get
  if s.file = none ∧ s.backup ≠ none then
    modify fun s => ⟨s.backup, none⟩
    return (← Crash.get).file
  else return s.file

/-- What a power failure can leave of a save. -/
inductive Left (old new : List Char) : Store → Prop
  | old {s : Store} (h : s.file = some old) : Left old new s
  | removed : Left old new ⟨none, some new⟩
  | new {s : Store} (h : s.file = some new) : Left old new s

theorem wpc_writePieces {s : Store} {old written : List Char} (hfile : s.file = some old)
    (hbackup : s.backup = some written) :
    wpc (writePieces pieces) (fun _ t => t.file = some old ∧ t.backup = some (written ++ pieces.flatten))
      (fun t => t.file = some old) s := by
  induction pieces generalizing s written with
  | nil => exact wpc_pure ⟨hfile, by simpa using hbackup⟩
  | cons piece pieces ih =>
    refine wpc_bind (wpc_modify hfile ?_)
    rw [List.flatten_cons, ← List.append_assoc]
    exact ih hfile (by simp [hbackup])

theorem wpc_saveFile {s : Store} {old : List Char} (hfile : s.file = some old) :
    wpc (saveFile pieces) (fun _ t => t.file = some pieces.flatten) (Left old pieces.flatten) s := by
  refine wpc_bind (wpc_modify (.old hfile) (wpc_bind ?_))
  refine wpc_mono ?_ (fun _ h => .old h) (wpc_writePieces pieces hfile rfl)
  rintro - ⟨_, _⟩ ⟨rfl, rfl⟩
  exact wpc_bind (wpc_modify (.old rfl) (wpc_modify .removed rfl))

/-- A load reads what a failure has left, and puts it where the next save expects it. -/
theorem loadFile_left {old new : List Char} {s : Store} (h : Left old new s) :
    ((loadFile s).value = some old ∨ (loadFile s).value = some new) ∧ (loadFile s).final.file = (loadFile s).value := by
  cases h with
  | old h | new h => simp [loadFile, h]
  | removed => simp [loadFile]

/-- A save that a power failure may cut, and the next load. -/
def round (s : Store) (l : List (List Char) × Option Nat) : Store := (loadFile ((saveFile l.1 s).cut l.2)).final

/-- From a complete settings file on, after any number of interrupted saves, the load behind an
interrupted save reads what was there before it or what was to be saved. Behind a save that was not
interrupted, it reads what was saved. -/
theorem saveFile_atomic {F : Type} (ops : FloatOps F) {s : Store} {content : List Char} (hfile : s.file = some content)
    (rounds : List (List (List Char) × Option Nat)) (m : Map F) {pieces : List (List Char)}
    (hpieces : pieces.flatten = saveText ops m) (cut : Option Nat) :
    ∃ old, (run round s rounds).file = some old ∧
      ((loadFile ((saveFile pieces (run round s rounds)).cut cut)).value = some old ∨
        (loadFile ((saveFile pieces (run round s rounds)).cut cut)).value = some (saveText ops m)) ∧
      (cut = none → (loadFile ((saveFile pieces (run round s rounds)).cut cut)).value = some (saveText ops m)) := by
  have hleft {s : Store} {old : List Char} (hold : s.file = some old) (l : List (List Char) × Option Nat) :
      Left old l.1.flatten ((saveFile l.1 s).cut l.2) :=
    (wpc_saveFile l.1 hold).cut (fun _ _ h => .new h) l.2
  obtain ⟨old, hold⟩ : ∃ old, (run round s rounds).file = some old := by
    refine run_invariant (I := fun t : Store => ∃ old, t.file = some old) ?_ ⟨content, hfile⟩ rounds
    rintro s l ⟨old, hold⟩
    obtain ⟨hvalue, hfinal⟩ := loadFile_left (hleft hold l)
    rw [round, hfinal]
    rcases hvalue with h | h
    · exact ⟨_, h⟩
    · exact ⟨_, h⟩
  rw [← hpieces]
  refine ⟨old, hold, (loadFile_left (hleft hold (pieces, cut))).1, ?_⟩
  rintro rfl
  have hfinal : ((saveFile pieces (run round s rounds)).cut none).file = some pieces.flatten :=
    (wpc_saveFile pieces hold).1
  simp [loadFile, hfinal]

/-- A first save is cut in the middle of a piece, and a second one between the removal and the
renaming. -/
theorem saveFile_atomic_twice :
    let s := run round ⟨some "a=1\n".toList, none⟩ [(["b=".toList, "2\n".toList], some 2)]
    let left := (saveFile ["a=".toList, "3\n".toList] s).cut (some 4)
    ∃ old, s.file = some old ∧
      ((loadFile left).value = some old ∨
        (loadFile left).value = some (saveText wholeNumbers [⟨"a".toList, .int 3⟩])) := by
  have hpieces : ["a=".toList, "3\n".toList].flatten = saveText wholeNumbers [⟨"a".toList, .int 3⟩] := by decide
  obtain ⟨old, hold, hread, -⟩ := saveFile_atomic wholeNumbers (s := ⟨some "a=1\n".toList, none⟩) rfl
    [(["b=".toList, "2\n".toList], some 2)] _ hpieces (some 4)
  exact ⟨old, hold, hread⟩

end System.Settings
