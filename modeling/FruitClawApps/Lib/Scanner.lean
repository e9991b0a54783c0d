-- SUMMARY: Scanners that take one item at a time and may be stopped behind any of them.
import Mathlib.Data.List.Basic

/-!
# Scanners

Each item of a list leads to an error, to the end of the scan, or to a state in which the scanner
waits for the next item. It also waits at the end of the list, so the next list is scanned from
there.
-/

namespace Scanner

variable {α σ ε : Type} {s s' : σ} {rest items : List α}

/-- The scan of a list: the state, whether the scan is at its end, and the items that were not
taken. -/
def run (act : α → σ → Except ε (σ × Bool)) : List α → σ → Except ε (σ × Bool × List α)
  | [], s => .ok (s, false, [])
  | a :: rest, s =>
    match act a s with
    | .error e => .error e
    | .ok (s', true) => .ok (s', true, rest)
    | .ok (s', false) => run act rest s'

/-- The states in which a scan takes an item. -/
def visited (act : α → σ → Except ε (σ × Bool)) : List α → σ → List σ
  | [], _ => []
  | a :: rest, s =>
    s ::
      match act a s with
      | .ok (s', false) => visited act rest s'
      | _ => []

variable {act : α → σ → Except ε (σ × Bool)}

theorem run_cons (a : α) (rest : List α) (s : σ) :
    run act (a :: rest) s =
      match act a s with
      | .error e => .error e
      | .ok (s', true) => .ok (s', true, rest)
      | .ok (s', false) => run act rest s' := rfl

/-- A change of the state that every item respects, the scan respects. -/
theorem run_map {f : σ → σ} (hf : ∀ a s, act a (f s) = (act a s).map fun r => (f r.1, r.2)) (items : List α) (s : σ) :
    run act items (f s) = (run act items s).map fun r => (f r.1, r.2) := by
  induction items generalizing s with
  | nil => rfl
  | cons a rest ih =>
    rw [run_cons, run_cons, hf]
    cases act a s with
    | error e => rfl
    | ok r =>
      obtain ⟨s', done⟩ := r
      cases done with
      | true => rfl
      | false => exact ih s'

theorem run_length {done : Bool} (h : run act items s = .ok (s', done, rest)) : rest.length ≤ items.length - 1 := by
  induction items generalizing s with
  | nil =>
    cases h
    exact Nat.le_refl _
  | cons a items ih =>
    rw [run_cons] at h
    split at h
    · cases h
    · cases h
      simp
    have := ih h
    rw [List.length_cons]
    omega

theorem run_error {e : ε} (h : run act items s = .error e) : ∃ a s', act a s' = .error e := by
  induction items generalizing s with
  | nil => cases h
  | cons a items ih =>
    rw [run_cons] at h
    split at h
    · rename_i hact
      cases h
      exact ⟨a, s, hact⟩
    · cases h
    · exact ih h

/-- What holds while the scan goes on, and what holds behind the item that ends it. -/
theorem run_post {P Q : σ → Prop} (hgo : ∀ a s s', P s → act a s = .ok (s', false) → P s')
    (hend : ∀ a s s', P s → act a s = .ok (s', true) → Q s') {done : Bool} (hs : P s)
    (h : run act items s = .ok (s', done, rest)) : P s' ∨ Q s' := by
  induction items generalizing s with
  | nil =>
    cases h
    exact .inl hs
  | cons a items ih =>
    rw [run_cons] at h
    split at h
    · cases h
    · rename_i hact
      cases h
      exact .inr (hend a s s' hs hact)
    · rename_i s₁ hact
      exact ih (hgo a s s₁ hs hact) h

theorem visited_cons_go {a : α} (h : act a s = .ok (s', false)) :
    visited act (a :: rest) s = s :: visited act rest s' := by
  rw [visited, h]

theorem visited_cons_stop {a : α} (h : ∀ s', act a s ≠ .ok (s', false)) (rest : List α) :
    visited act (a :: rest) s = [s] := by
  rw [visited]
  split
  · exact absurd ‹_› (h _)
  · rfl

/-- What holds while the scan goes on holds wherever it takes an item. -/
theorem visited_all {P : σ → Prop} (hgo : ∀ a s s', P s → act a s = .ok (s', false) → P s') (hs : P s) :
    ∀ t ∈ visited act items s, P t := by
  induction items generalizing s with
  | nil => exact fun _ ht => absurd ht List.not_mem_nil
  | cons a items ih =>
    intro t ht
    rw [visited, List.mem_cons] at ht
    rcases ht with rfl | ht
    · exact hs
    split at ht
    · exact ih (hgo a s _ hs ‹_›) t ht
    · exact absurd ht List.not_mem_nil

end Scanner
