-- SUMMARY: Threads that share a state, and how their assertions compose.
import FruitClawApps.Lib.Transition
import Mathlib.Logic.Function.Basic

/-!
# Threads over a shared state

A step belongs to one thread: it reads and writes the shared state and the local state of that
thread, and an assertion of a thread speaks about these two. All assertions hold along a run if each
thread keeps its own one and does not disturb those of the others.
-/

namespace Threads

variable {σ τ α : Type*}

structure System (σ τ : Type*) where
  shared : σ
  threads : Nat → τ

namespace System

variable {next : Nat → σ → τ → α → σ × τ} {P : Nat → σ → τ → Prop} {s : System σ τ} {t : Nat} {a : α}

/-- The step of a thread. -/
def step (next : Nat → σ → τ → α → σ × τ) (s : System σ τ) (l : Nat × α) : System σ τ where
  shared := (next l.1 s.shared (s.threads l.1) l.2).1
  threads := Function.update s.threads l.1 (next l.1 s.shared (s.threads l.1) l.2).2

@[simp] theorem step_shared :
    (s.step next (t, a)).shared = (next t s.shared (s.threads t) a).1 := rfl

@[simp] theorem step_self :
    (s.step next (t, a)).threads t = (next t s.shared (s.threads t) a).2 :=
  Function.update_self ..

theorem step_other {u : Nat} (h : u ≠ t) : (s.step next (t, a)).threads u = s.threads u :=
  Function.update_of_ne h ..

/-- Every thread meets its assertion. -/
def All (P : Nat → σ → τ → Prop) (s : System σ τ) : Prop := ∀ t, P t s.shared (s.threads t)

theorem all_step (h : s.All P)
    (hself : P t (next t s.shared (s.threads t) a).1 (next t s.shared (s.threads t) a).2)
    (hother : ∀ u, u ≠ t → P u s.shared (s.threads u) →
      P u (next t s.shared (s.threads t) a).1 (s.threads u)) :
    (s.step next (t, a)).All P := by
  intro u
  by_cases hu : u = t
  · subst hu
    rw [step_self]
    exact hself
  · rw [step_other hu]
    exact hother u hu (h u)

end System

end Threads
