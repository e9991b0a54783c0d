-- SUMMARY: A store of text files, and the files an operation can touch.
import FruitClawApps.Lib.CLib

/-!
# Files

The file system is the map from names to contents. A function that writes files returns the
operations that took effect, in order. From them follow the store that is left and the names that
were touched.
-/

/-- The contents of each file that exists. -/
abbrev FileStore := CStr → Option (List Char)

/-- A change of the store. -/
inductive FileOp where
  /-- `open` with `O_CREAT | O_TRUNC`. -/
  | create (name : CStr)
  /-- `write` at the end of an open file. -/
  | append (name : CStr) (bytes : List Char)
  | unlink (name : CStr)
  | rename (src dst : CStr)
deriving DecidableEq

namespace FileOp

/-- The names an operation touches. -/
@[simp] def files : FileOp → List CStr
  | .create name => [name]
  | .append name _ => [name]
  | .unlink name => [name]
  | .rename src dst => [src, dst]

def apply (fs : FileStore) : FileOp → FileStore
  | .create name => fun q => if q = name then some [] else fs q
  | .append name bytes => fun q => if q = name then some ((fs name).getD [] ++ bytes) else fs q
  | .unlink name => fun q => if q = name then none else fs q
  | .rename src dst => fun q => if q = dst then fs src else if q = src then none else fs q

theorem apply_frame {fs : FileStore} {op : FileOp} {q : CStr} (h : q ∉ op.files) :
    op.apply fs q = fs q := by
  cases op with
  | create | append | unlink | rename => simp_all [files, apply]

section

variable {fs : FileStore} {name src dst : CStr}

@[simp] theorem apply_create_self : apply fs (.create name) name = some [] := if_pos rfl

theorem apply_create_of_ne {q : CStr} (h : q ≠ name) : apply fs (.create name) q = fs q := if_neg h

theorem apply_append_self {content bytes : List Char} (h : fs name = some content) :
    apply fs (.append name bytes) name = some (content ++ bytes) := by
  simp only [apply, if_pos, h, Option.getD_some]

@[simp] theorem apply_unlink_self : apply fs (.unlink name) name = none := if_pos rfl

@[simp] theorem apply_rename_dst : apply fs (.rename src dst) dst = fs src := if_pos rfl

end

end FileOp

namespace FileStore

/-- The store after a list of operations. -/
def run (fs : FileStore) (ops : List FileOp) : FileStore := ops.foldl FileOp.apply fs

/-- The names a list of operations touches. -/
def touched (ops : List FileOp) : List CStr := ops.flatMap FileOp.files

@[simp] theorem touched_nil : touched [] = [] := rfl

@[simp] theorem touched_cons (op : FileOp) (ops : List FileOp) :
    touched (op :: ops) = op.files ++ touched ops := rfl

theorem run_frame {fs : FileStore} {ops : List FileOp} {q : CStr} (h : q ∉ touched ops) :
    run fs ops q = fs q := by
  induction ops generalizing fs with
  | nil => rfl
  | cons op ops ih =>
    rw [touched_cons, List.mem_append, not_or] at h
    have htail : run (op.apply fs) ops q = op.apply fs q := ih h.2
    rw [FileOp.apply_frame h.1] at htail
    exact htail

end FileStore
