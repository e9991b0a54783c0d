-- SUMMARY: Programs that make system calls on files, their runs and weakest preconditions.
import FruitClawApps.Lib.FileStore

/-!
# Programs on files

A program is a tree: it ends with a value, or it makes a call and goes on with the reply. The
environment chooses the outcomes of the calls. If there are none left before the program ends, the
power has failed.

`wp` is the weakest precondition in a world, which says which calls a state allows and what can come
of them. The same rules serve for the store itself and for an abstraction of it.
-/

namespace FileProgram

open List

/-- A system call. An open file is known by the name it was opened with. -/
inductive Call where
  | mkdir (name : CStr)
  /-- `open` with `O_RDONLY`. -/
  | openRead (name : CStr)
  /-- `open` with `O_CREAT | O_EXCL`. -/
  | createExcl (name : CStr)
  /-- `open` with `O_CREAT | O_TRUNC`. -/
  | create (name : CStr)
  | write (name : CStr) (bytes : List Char)
  | close (name : CStr)
  | rename (src dst : CStr)
  | unlink (name : CStr)
  /-- All that is in a file. -/
  | read (name : CStr)
deriving DecidableEq

/-- The names of the files that the call may create, change or remove. -/
@[simp] def Call.changes : Call → List CStr
  | .createExcl name => [name]
  | .create name => [name]
  | .write name _ => [name]
  | .rename src dst => [src, dst]
  | .unlink name => [name]
  | _ => []

/-- The names that the call is given. -/
@[simp] def Call.names : Call → List CStr
  | .mkdir name => [name]
  | .openRead name => [name]
  | .createExcl name => [name]
  | .create name => [name]
  | .write name _ => [name]
  | .close name => [name]
  | .rename src dst => [src, dst]
  | .unlink name => [name]
  | .read name => [name]

theorem Call.changes_subset_names (c : Call) : c.changes ⊆ c.names := by
  cases c with
  | mkdir | openRead | close | read => exact nil_subset _
  | _ => exact List.Subset.refl _

/-- An error, what was read, or the bytes that are left to write. -/
abbrev Reply := Except Errno (List Char)

inductive Outcome where
  | ok
  /-- A write of the given number of bytes and one more. -/
  | short (n : Nat)
  | fail (e : Errno)
deriving DecidableEq

@[simp] def Outcome.failed : Outcome → Bool
  | .fail _ => true
  | _ => false

/-- `EEXIST`. -/
abbrev eexist : Errno := .other 17

/-- What a call comes to. A call that fails changes nothing, and does not fail for a reason that the
store refutes. -/
def Call.exec (fs : FileStore) : Call → Outcome → Reply × FileStore
  | .createExcl name, .fail e => (.error (if fs name = none ∧ e = eexist then .eio else e), fs)
  | .read name, .fail e => (.error (if (fs name).isSome ∧ e = .enoent then .eio else e), fs)
  | _, .fail e => (.error e, fs)
  | .mkdir _, _ => (.ok [], fs)
  | .openRead name, _ => (if (fs name).isSome then .ok [] else .error .enoent, fs)
  | .createExcl name, _ =>
    if (fs name).isSome then (.error eexist, fs) else (.ok [], FileOp.apply fs (.create name))
  | .create name, _ => (.ok [], FileOp.apply fs (.create name))
  | .write name bytes, .short n => (.ok (bytes.drop (n + 1)), FileOp.apply fs (.append name (bytes.take (n + 1))))
  | .write name bytes, .ok => (.ok [], FileOp.apply fs (.append name bytes))
  | .close _, _ => (.ok [], fs)
  | .rename src dst, _ =>
    if (fs src).isSome then (.ok [], FileOp.apply fs (.rename src dst)) else (.error .enoent, fs)
  | .unlink name, _ => if (fs name).isSome then (.ok [], FileOp.apply fs (.unlink name)) else (.error .enoent, fs)
  | .read name, _ => (match fs name with | some text => .ok text | none => .error .enoent, fs)

/-! ## What a call can come to -/

namespace Call

variable {fs fs' : FileStore} {r : Reply} {o : Outcome} {name src dst : CStr} {bytes : List Char}

theorem exec_mkdir (h : (mkdir name).exec fs o = (r, fs')) : fs' = fs ∧ ∀ e, r = .error e → o.failed = true := by
  cases o with
  | fail e =>
    cases h
    exact ⟨rfl, fun _ _ => rfl⟩
  | _ =>
    cases h
    exact ⟨rfl, nofun⟩

theorem exec_openRead (h : (openRead name).exec fs o = (r, fs')) :
    fs' = fs ∧ ∀ text, r = .ok text → (fs name).isSome = true := by
  cases o with
  | ok | short =>
    cases h
    refine ⟨rfl, fun text htext => ?_⟩
    split_ifs at htext with hsome
    exact hsome
  | fail e =>
    cases h
    exact ⟨rfl, fun text htext => (nomatch htext)⟩

theorem exec_close (h : (close name).exec fs o = (r, fs')) : fs' = fs ∧ ∀ e, r = .error e → o.failed = true := by
  cases o with
  | fail e =>
    cases h
    exact ⟨rfl, fun _ _ => rfl⟩
  | _ =>
    cases h
    exact ⟨rfl, nofun⟩

/-- What is read is in the file. If nothing is read, the call has failed or there is no file, and
the error tells which if it is `ENOENT`. -/
theorem exec_read (h : (read name).exec fs o = (r, fs')) :
    fs' = fs ∧ ((∃ text, r = .ok text ∧ fs name = some text) ∨
      (∃ e, r = .error e ∧ (e = .enoent → fs name = none)) ∧ (o.failed = true ∨ fs name = none)) := by
  cases o with
  | ok | short =>
    cases h
    cases fs name with
    | none => exact ⟨rfl, .inr ⟨⟨_, rfl, fun _ => rfl⟩, .inr rfl⟩⟩
    | some text => exact ⟨rfl, .inl ⟨text, rfl, rfl⟩⟩
  | fail e =>
    cases h
    refine ⟨rfl, .inr ⟨⟨_, rfl, fun he => ?_⟩, .inl rfl⟩⟩
    split_ifs at he with hsome
    rw [not_and_or, Bool.not_eq_true, Option.isSome_eq_false_iff, Option.isNone_iff_eq_none] at hsome
    exact hsome.resolve_right fun hne => hne he

theorem exec_create (h : (create name).exec fs o = (r, fs')) :
    r = .ok [] ∧ fs' = FileOp.apply fs (.create name) ∨ (∃ e, r = .error e) ∧ fs' = fs ∧ o.failed = true := by
  cases o with
  | fail e =>
    cases h
    exact .inr ⟨⟨e, rfl⟩, rfl, rfl⟩
  | _ =>
    cases h
    exact .inl ⟨rfl, rfl⟩

theorem exec_createExcl (h : (createExcl name).exec fs o = (r, fs')) :
    r = .ok [] ∧ fs name = none ∧ fs' = FileOp.apply fs (.create name) ∨
      (∃ e, r = .error e) ∧ fs' = fs ∧ (o.failed = true ∨ (fs name).isSome = true) := by
  cases o with
  | ok | short =>
    simp only [exec] at h
    split_ifs at h with hsome
    · cases h
      exact .inr ⟨⟨_, rfl⟩, rfl, .inr hsome⟩
    · cases h
      exact .inl ⟨rfl, by simpa using hsome, rfl⟩
  | fail e =>
    cases h
    exact .inr ⟨⟨_, rfl⟩, rfl, .inl rfl⟩

theorem exec_write (hne : bytes ≠ []) (h : (write name bytes).exec fs o = (r, fs')) :
    (∃ taken rest, taken ≠ [] ∧ bytes = taken ++ rest ∧ r = .ok rest ∧ fs' = FileOp.apply fs (.append name taken)) ∨
      (∃ e, r = .error e) ∧ fs' = fs ∧ o.failed = true := by
  cases o with
  | ok =>
    cases h
    exact .inl ⟨bytes, [], hne, (append_nil _).symm, rfl, rfl⟩
  | short n =>
    cases h
    refine .inl ⟨bytes.take (n + 1), bytes.drop (n + 1), ?_, (take_append_drop _ _).symm, rfl, rfl⟩
    rw [Ne, take_eq_nil_iff]
    exact fun hc => hc.elim nofun hne
  | fail e =>
    cases h
    exact .inr ⟨⟨e, rfl⟩, rfl, rfl⟩

theorem exec_rename (h : (rename src dst).exec fs o = (r, fs')) :
    r = .ok [] ∧ fs' = FileOp.apply fs (.rename src dst) ∨
      (∃ e, r = .error e) ∧ fs' = fs ∧ (o.failed = true ∨ fs src = none) := by
  cases o with
  | ok | short =>
    simp only [exec] at h
    split_ifs at h with hsome
    · cases h
      exact .inl ⟨rfl, rfl⟩
    · cases h
      exact .inr ⟨⟨_, rfl⟩, rfl, .inr (by simpa using hsome)⟩
  | fail e =>
    cases h
    exact .inr ⟨⟨e, rfl⟩, rfl, .inl rfl⟩

theorem exec_unlink (h : (unlink name).exec fs o = (r, fs')) :
    fs' = FileOp.apply fs (.unlink name) ∨ fs' = fs ∧ (o.failed = true ∨ fs name = none) := by
  cases o with
  | ok | short =>
    simp only [exec] at h
    split_ifs at h with hsome
    · cases h
      exact .inl rfl
    · cases h
      exact .inr ⟨rfl, .inr (by simpa using hsome)⟩
  | fail e =>
    cases h
    exact .inr ⟨rfl, .inl rfl⟩

theorem exec_frame {c : Call} {f : CStr} (hf : f ∉ c.changes) (h : c.exec fs o = (r, fs')) : fs' f = fs f := by
  cases c with
  | mkdir name => rw [(exec_mkdir h).1]
  | openRead name => rw [(exec_openRead h).1]
  | close name => rw [(exec_close h).1]
  | read name => rw [(exec_read h).1]
  | createExcl name =>
    rcases exec_createExcl h with ⟨-, -, rfl⟩ | ⟨-, rfl, -⟩
    · exact FileOp.apply_frame hf
    · rfl
  | create name =>
    rcases exec_create h with ⟨-, rfl⟩ | ⟨-, rfl, -⟩
    · exact FileOp.apply_frame hf
    · rfl
  | write name bytes =>
    cases o with
    | fail e =>
      cases h
      rfl
    | _ =>
      cases h
      exact @FileOp.apply_frame fs (.append name _) f hf
  | rename src dst =>
    rcases exec_rename h with ⟨-, rfl⟩ | ⟨-, rfl, -⟩
    · exact FileOp.apply_frame hf
    · rfl
  | unlink name =>
    rcases exec_unlink h with rfl | ⟨rfl, -⟩
    · exact FileOp.apply_frame hf
    · rfl

end Call

inductive Prog (α : Type) where
  | ret (a : α)
  | call (c : Call) (k : Reply → Prog α)

namespace Prog

variable {α β σ : Type} {allowed : Call → Outcome → Prop}

def bind : Prog α → (α → Prog β) → Prog β
  | .ret a, f => f a
  | .call c k, f => .call c fun r => (k r).bind f

instance : Monad Prog where
  pure := ret
  bind := bind

/-- One call. -/
def perform (c : Call) : Prog Reply := .call c .ret

/-- The value of a program that has ended. -/
def value : Prog α → Option α
  | .ret a => some a
  | .call _ _ => none

theorem eq_ret_of_value {p : Prog α} {a : α} (h : p.value = some a) : p = .ret a := by
  cases p with
  | ret b => rw [Option.some.inj h]
  | call c k => cases h

/-- The call that comes next. -/
def nextCall : Prog α → Option Call
  | .ret _ => none
  | .call c _ => some c

/-! ## Runs -/

/-- What a run comes to. There is no value if the power has failed. -/
structure Result (α : Type) where
  value : Option α
  store : FileStore
  steps : List (Call × Outcome)

def run : Prog α → List Outcome → FileStore → Result α
  | .ret a, _, fs => ⟨some a, fs, []⟩
  | .call _ _, [], fs => ⟨none, fs, []⟩
  | .call c k, o :: os, fs =>
    let r := (k (c.exec fs o).1).run os (c.exec fs o).2
    { r with steps := (c, o) :: r.steps }

/-- A program ends if no call fails. -/
theorem exists_run (p : Prog α) (fs : FileStore) : ∃ n a, (p.run (replicate n .ok) fs).value = some a := by
  induction p generalizing fs with
  | ret a => exact ⟨0, a, rfl⟩
  | call c k ih =>
    obtain ⟨n, a, h⟩ := ih (c.exec fs .ok).1 (c.exec fs .ok).2
    exact ⟨n + 1, a, h⟩

theorem outcome_mem {p : Prog α} {os : List Outcome} {fs : FileStore} :
    ∀ step ∈ (p.run os fs).steps, step.2 ∈ os := by
  induction p generalizing os fs with
  | ret a => exact fun step hstep => (nomatch hstep)
  | call c k ih =>
    cases os with
    | nil => exact fun step hstep => (nomatch hstep)
    | cons o os =>
      exact forall_mem_cons.mpr ⟨mem_cons_self, fun step hstep => mem_cons_of_mem o (ih _ step hstep)⟩

/-! ## Weakest preconditions -/

/-- What calls a state allows, and the replies and states they can lead to. -/
structure World (σ : Type) where
  allows : σ → Call → Prop
  next : σ → Call → Reply → σ → Prop

def wp (w : World σ) : Prog α → (α → σ → Prop) → σ → Prop
  | .ret a, Q, s => Q a s
  | .call c k, Q, s => w.allows s c ∧ ∀ r s', w.next s c r s' → (k r).wp w Q s'

variable {w : World σ} {p : Prog α} {k : α → Prog β} {Q Q' : α → σ → Prop} {s : σ} {c : Call}

theorem wp_bind {Q : β → σ → Prop} (h : p.wp w (fun a s => (k a).wp w Q s) s) : (p >>= k).wp w Q s := by
  induction p generalizing s with
  | ret a => exact h
  | call c cont ih => exact ⟨h.1, fun r s' hnext => ih r (h.2 r s' hnext)⟩

theorem wp_mono (h : p.wp w Q s) (hQ : ∀ a s, Q a s → Q' a s) : p.wp w Q' s := by
  induction p generalizing s with
  | ret a => exact hQ a s h
  | call c cont ih => exact ⟨h.1, fun r s' hnext => ih r (h.2 r s' hnext)⟩

theorem wp_and (h : p.wp w Q s) (h' : p.wp w Q' s) : p.wp w (fun a s => Q a s ∧ Q' a s) s := by
  induction p generalizing s with
  | ret a => exact ⟨h, h'⟩
  | call c cont ih => exact ⟨h.1, fun r s' hnext => ih r (h.2 r s' hnext) (h'.2 r s' hnext)⟩

theorem wp_perform {Q : Reply → σ → Prop} (hallows : w.allows s c) (h : ∀ r s', w.next s c r s' → Q r s') :
    (perform c).wp w Q s :=
  ⟨hallows, h⟩

/-! ## Programs that can fail -/

/-- A program that returns an error number or a value. -/
abbrev Fallible (α : Type) : Type := ExceptT Errno Prog α

/-- The program, whose value is the result or the error. -/
abbrev Fallible.prog (x : Fallible α) : Prog (Except Errno α) := x

theorem wp_bind_fallible {x : Fallible α} {f : α → Fallible β} {Q : Except Errno β → σ → Prop}
    (h : wp w x.prog
      (fun r s => match r with
        | .ok a => wp w (f a).prog Q s
        | .error e => Q (.error e) s) s) :
    wp w (x >>= f : Fallible β) Q s := by
  refine wp_bind (wp_mono h fun r s hr => ?_)
  cases r with
  | ok | error => exact hr

def attempt (c : Call) : Fallible (List Char) := ExceptT.mk (perform c)

/-- A result without calls. -/
def known (r : Except Errno α) : Fallible α := ExceptT.mk (pure r)

theorem wp_known {r : Except Errno α} {Q : Except Errno α → σ → Prop} (h : Q r s) :
    wp w (known r).prog Q s := h

/-- Clean up after an error. -/
def onError (x : Fallible α) (cleanup : Prog Unit) : Fallible α := ExceptT.mk do
  match ← x.run with
  | .ok a => return .ok a
  | .error e =>
    cleanup
    return .error e

theorem wp_onError {x : Fallible α} {cleanup : Prog Unit} {Q : Except Errno α → σ → Prop}
    (h : wp w x.prog
      (fun r s => match r with
        | .ok a => Q (.ok a) s
        | .error e => wp w cleanup (fun _ => Q (.error e)) s) s) :
    wp w (onError x cleanup).prog Q s := by
  refine wp_bind (wp_mono h fun r s hr => ?_)
  cases r with
  | ok a => exact hr
  | error e => exact wp_bind hr

/-! ## The calls of a program -/

/-- All calls that the program can make, whatever the replies are. -/
def Calls (P : Call → Prop) : Prog α → Prop
  | .ret _ => True
  | .call c k => P c ∧ ∀ r, (k r).Calls P

section

variable {P : Call → Prop}

theorem Calls.bind (hp : p.Calls P) (hk : ∀ a, (k a).Calls P) : (p >>= k).Calls P := by
  induction p with
  | ret a => exact hk a
  | call c cont ih => exact ⟨hp.1, fun r => ih r (hp.2 r)⟩

theorem Calls.bind_fallible {x : Fallible α} {f : α → Fallible β} (hx : Calls P x.prog)
    (hf : ∀ a, Calls P (f a).prog) : Calls P (x >>= f : Fallible β) := by
  refine Calls.bind hx fun r => ?_
  cases r with
  | ok a => exact hf a
  | error e => trivial

theorem Calls.perform (h : P c) : (perform c).Calls P := ⟨h, fun _ => trivial⟩

theorem Calls.onError {x : Fallible α} {cleanup : Prog Unit} (hx : Calls P x.prog)
    (hcleanup : cleanup.Calls P) : Calls P (onError x cleanup).prog := by
  refine Calls.bind hx fun r => ?_
  cases r with
  | ok a => trivial
  | error e => exact hcleanup.bind fun _ => trivial

theorem wp_of_calls (hp : p.Calls P) (hP : ∀ c, P c → w.allows s c ∧ ∀ r s', w.next s c r s' → s' = s) :
    p.wp w (fun _ s' => s' = s) s := by
  induction p with
  | ret a => rfl
  | call c cont ih =>
    obtain ⟨hallows, hsame⟩ := hP c hp.1
    refine ⟨hallows, fun r s' hnext => ?_⟩
    cases hsame r s' hnext
    exact ih r (hp.2 r)

theorem wp_true_of_calls (hp : p.Calls P) (hP : ∀ s c, P c → w.allows s c) : p.wp w (fun _ _ => True) s := by
  induction p generalizing s with
  | ret a => trivial
  | call c cont ih => exact ⟨hP s c hp.1, fun r s' _ => ih r (hp.2 r)⟩

end

/-! ## The values of a program -/

/-- All values that the program can return, whatever the replies are. -/
def Returns (V : α → Prop) : Prog α → Prop
  | .ret a => V a
  | .call _ k => ∀ r, (k r).Returns V

theorem Returns.bind {V : β → Prop} (p : Prog α) (hk : ∀ a, (k a).Returns V) : (p >>= k).Returns V := by
  induction p with
  | ret a => exact hk a
  | call c cont ih => exact fun r => ih r

theorem Returns.bind_fallible {V : Except Errno β → Prop} (x : Fallible α) {f : α → Fallible β}
    (herror : ∀ e, V (.error e)) (hf : ∀ a, Returns V (f a).prog) : Returns V (x >>= f : Fallible β) := by
  refine Returns.bind _ fun r => ?_
  cases r with
  | ok a => exact hf a
  | error e => exact herror e

theorem wp_returns {V : α → Prop} (h : p.wp w Q s) (hV : p.Returns V) : p.wp w (fun a s => Q a s ∧ V a) s := by
  induction p generalizing s with
  | ret a => exact ⟨h, hV⟩
  | call c cont ih => exact ⟨h.1, fun r s' hnext => ih r (h.2 r s' hnext) (hV r)⟩

/-! ## Calls that are needed -/

/-- Every way to a value of the kind goes through a call of the kind. -/
def Must (P : Call → Prop) (V : α → Prop) : Prog α → Prop
  | .ret a => ¬ V a
  | .call c k => P c ∨ ∀ r, (k r).Must P V

section

variable {P : Call → Prop} {V : α → Prop}

theorem Must.bind {V' : β → Prop} (h : p.Must P V) (hk : ∀ a, ¬ V a → (k a).Must P V') : (p >>= k).Must P V' := by
  induction p with
  | ret a => exact hk a h
  | call c cont ih => exact h.imp_right fun h r => ih r (h r)

theorem Must.after {V' : β → Prop} (p : Prog α) (hk : ∀ a, (k a).Must P V') : (p >>= k).Must P V' := by
  induction p with
  | ret a => exact hk a
  | call c cont ih => exact .inr ih

/-- The program fails if it does not make such a call. -/
abbrev Needs (P : Call → Prop) (x : Fallible α) : Prop := Must P (fun r => r.isOk) x.prog

/-- What is run behind a function that fails without the call. -/
theorem Needs.run {x : Fallible α} {k : Except Errno α → Prog β} {V : β → Prop} (hx : Needs P x)
    (hk : ∀ e, (k (.error e)).Must P V) : (x.run >>= k).Must P V := by
  refine Must.bind hx fun r hr => ?_
  cases r with
  | ok a => exact absurd rfl hr
  | error e => exact hk e

theorem Needs.bind {x : Fallible α} (h : Needs P x) (f : α → Fallible β) : Needs P (x >>= f) :=
  Needs.run h fun _ => Bool.false_ne_true

theorem Needs.after (x : Fallible α) {f : α → Fallible β} (h : ∀ a, Needs P (f a)) : Needs P (x >>= f) := by
  refine Must.after _ fun r => ?_
  cases r with
  | ok a => exact h a
  | error e => nofun

end

/-! ## The world of the store -/

/-- The store with the outcomes that are allowed. -/
def storeWorld (allows : FileStore → Call → Prop) (allowed : Call → Outcome → Prop) : World FileStore where
  allows := allows
  next fs c r fs' := ∃ o, allowed c o ∧ c.exec fs o = (r, fs')

variable {fs : FileStore}

theorem wp_frame {S : CStr → Prop} {p : Prog α} (h : p.Calls fun c => ∀ f ∈ c.changes, S f) :
    p.wp (storeWorld (fun _ _ => True) allowed) (fun _ fs' => ∀ f, ¬ S f → fs' f = fs f) fs := by
  induction p generalizing fs with
  | ret a => exact fun f _ => rfl
  | call c cont ih =>
    refine ⟨trivial, ?_⟩
    rintro r fs' ⟨o, -, hexec⟩
    refine wp_mono (ih r (h.2 r)) fun _ fs'' hsame f hf => (hsame f hf).trans ?_
    exact Call.exec_frame (fun hc => hf (h.1 f hc)) hexec

theorem store_of_no_changes {p : Prog α} {os : List Outcome}
    (h : ∀ step ∈ (p.run os fs).steps, step.1.changes = []) : (p.run os fs).store = fs := by
  induction p generalizing fs os with
  | ret a => rfl
  | call c k ih =>
    cases os with
    | nil => rfl
    | cons o os =>
      obtain ⟨hc, hrest⟩ := forall_mem_cons.mp h
      have hsame : (c.exec fs o).2 = fs := funext fun f => Call.exec_frame (o := o) (hc ▸ not_mem_nil) rfl
      exact (ih _ hrest).trans hsame

/-- What holds by the weakest precondition holds of every run with allowed outcomes. -/
theorem run_of_wp {allows : FileStore → Call → Prop} {p : Prog α} {Q : α → FileStore → Prop}
    (h : p.wp (storeWorld allows allowed) Q fs) (os : List Outcome)
    (hos : ∀ step ∈ (p.run os fs).steps, allowed step.1 step.2) :
    ∀ a, (p.run os fs).value = some a → Q a (p.run os fs).store := by
  induction p generalizing fs os with
  | ret a =>
    intro b hb
    cases hb
    exact h
  | call c k ih =>
    cases os with
    | nil => exact fun a ha => (nomatch ha)
    | cons o os =>
      obtain ⟨ho, hrest⟩ := forall_mem_cons.mp hos
      exact ih _ (h.2 _ _ ⟨o, ho, rfl⟩) os hrest

/-- Without such a call there is no such value. -/
theorem wp_of_must {P : Call → Prop} {V : α → Prop} {p : Prog α} (h : p.Must P V) :
    p.wp (storeWorld (fun _ _ => True) fun c _ => ¬ P c) (fun a _ => ¬ V a) fs := by
  induction p generalizing fs with
  | ret a => exact h
  | call c k ih =>
    refine ⟨trivial, ?_⟩
    rintro r fs' ⟨o, hc, -⟩
    exact ih r (h.resolve_left hc r)

/-- What holds of all results without failures is the result of some run. -/
theorem exists_run_of_wp {p : Prog α} {Q : α → FileStore → Prop}
    (h : p.wp (storeWorld (fun _ _ => True) fun _ o => o = .ok) Q fs) :
    ∃ n a, (p.run (replicate n .ok) fs).value = some a ∧ Q a (p.run (replicate n .ok) fs).store := by
  obtain ⟨n, a, hvalue⟩ := exists_run p fs
  exact ⟨n, a, hvalue, run_of_wp h _ (fun step hstep => eq_of_mem_replicate (outcome_mem step hstep)) a hvalue⟩

/-- Every call of such a run is one that the world allows, if that depends on the call only. -/
theorem calls_of_wp {P : Call → Prop} {p : Prog α} {Q : α → FileStore → Prop}
    (h : p.wp (storeWorld (fun _ => P) allowed) Q fs) (os : List Outcome)
    (hos : ∀ step ∈ (p.run os fs).steps, allowed step.1 step.2) : ∀ step ∈ (p.run os fs).steps, P step.1 := by
  induction p generalizing fs os with
  | ret a => exact fun step hstep => (nomatch hstep)
  | call c k ih =>
    cases os with
    | nil => exact fun step hstep => (nomatch hstep)
    | cons o os =>
      obtain ⟨ho, hrest⟩ := forall_mem_cons.mp hos
      exact forall_mem_cons.mpr ⟨h.1, ih _ (h.2 _ _ ⟨o, ho, rfl⟩) os hrest⟩

end Prog

end FileProgram
