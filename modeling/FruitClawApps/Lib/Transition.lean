-- SUMMARY: Runs of a step function, and the rules that lift step lemmas to runs.
import Mathlib.Data.List.Infix

/-!
# Transition systems

A component is a total step function. The label of a step fixes what the component does not decide:
which thread moves, what a system call returns, what a peer sends. A run is the fold over a list of
labels.
-/

namespace Transition

variable {σ ℓ : Type*} {step : σ → ℓ → σ} {s : σ} {l : ℓ} {ls ms : List ℓ} {P I : σ → Prop} {C : σ → ℓ → Prop}

/-- The state a run ends in. -/
def run (step : σ → ℓ → σ) (s : σ) (ls : List ℓ) : σ := ls.foldl step s

@[simp] theorem run_nil : run step s [] = s := rfl

@[simp] theorem run_cons : run step s (l :: ls) = run step (step s l) ls := rfl

theorem run_append : run step s (ls ++ ms) = run step (run step s ls) ms := List.foldl_append

/-- Every step of the run meets a condition on its label and on the state it
starts from. -/
def Meets (step : σ → ℓ → σ) (C : σ → ℓ → Prop) : σ → List ℓ → Prop
  | _, [] => True
  | s, l :: ls => C s l ∧ Meets step C (step s l) ls

instance Meets.decidable {C : σ → ℓ → Prop} [∀ s l, Decidable (C s l)] :
    (s : σ) → (ls : List ℓ) → Decidable (Meets step C s ls)
  | _, [] => isTrue trivial
  | s, l :: ls => @instDecidableAnd _ _ _ (Meets.decidable (step s l) ls)

/-- The property holds in every state the run passes through, the first and
the last included. -/
def Always (step : σ → ℓ → σ) (P : σ → Prop) : σ → List ℓ → Prop
  | s, [] => P s
  | s, l :: ls => P s ∧ Always step P (step s l) ls

instance Always.decidable {P : σ → Prop} [∀ s, Decidable (P s)] :
    (s : σ) → (ls : List ℓ) → Decidable (Always step P s ls)
  | s, [] => inferInstanceAs (Decidable (P s))
  | s, l :: ls => @instDecidableAnd _ _ _ (Always.decidable (step s l) ls)

theorem Always.head (h : Always step P s ls) : P s := by
  cases ls with
  | nil => exact h
  | cons l ls => exact h.1

theorem Always.last (h : Always step P s ls) : P (run step s ls) := by
  induction ls generalizing s with
  | nil => exact h
  | cons l ls ih => exact ih h.2

theorem Always.meets (h : Always step P s ls) : Meets step (fun s _ => P s) s ls := by
  induction ls generalizing s with
  | nil => trivial
  | cons l ls ih => exact ⟨h.1, ih h.2⟩

/-- A condition that looks at the label only can be checked label by label. -/
theorem Meets.of_labels {C : ℓ → Prop} (h : ∀ l ∈ ls, C l) :
    Meets step (fun _ l => C l) s ls := by
  induction ls generalizing s with
  | nil => trivial
  | cons l ls ih =>
    exact ⟨h l List.mem_cons_self, ih fun m hm => h m (List.mem_cons_of_mem _ hm)⟩

theorem meets_append : Meets step C s (ls ++ ms) ↔ Meets step C s ls ∧ Meets step C (run step s ls) ms := by
  induction ls generalizing s with
  | nil => simp [Meets]
  | cons l ls ih => simp [Meets, ih, and_assoc]

theorem Meets.append (hls : Meets step C s ls) (hms : Meets step C (run step s ls) ms) :
    Meets step C s (ls ++ ms) := meets_append.mpr ⟨hls, hms⟩

theorem Meets.and {D : σ → ℓ → Prop} (hC : Meets step C s ls) (hD : Meets step D s ls) :
    Meets step (fun s l => C s l ∧ D s l) s ls := by
  induction ls generalizing s with
  | nil => trivial
  | cons l ls ih => exact ⟨⟨hC.1, hD.1⟩, ih hC.2 hD.2⟩

/-- The invariant rule: what one step preserves when it meets the condition, a
run preserves whose steps all meet it. -/
theorem run_induct (hstep : ∀ s l, I s → C s l → I (step s l)) (hs : I s) (hC : Meets step C s ls) :
    I (run step s ls) := by
  induction ls generalizing s with
  | nil => exact hs
  | cons l ls ih => exact ih (hstep s l hs hC.1) hC.2

/-- The invariant rule for every state on the way. -/
theorem always_induct (hP : ∀ s, I s → P s) (hstep : ∀ s l, I s → C s l → I (step s l)) (hs : I s)
    (hC : Meets step C s ls) : Always step P s ls := by
  induction ls generalizing s with
  | nil => exact hP s hs
  | cons l ls ih => exact ⟨hP s hs, ih (hstep s l hs hC.1) hC.2⟩

/-- The invariant rule for a property of steps. -/
theorem meets_induct {Q : σ → ℓ → Prop} (hstep : ∀ s l, I s → C s l → I (step s l) ∧ Q s l) (hs : I s)
    (hC : Meets step C s ls) : Meets step Q s ls := by
  induction ls generalizing s with
  | nil => trivial
  | cons l ls ih =>
    obtain ⟨hnext, hQ⟩ := hstep s l hs hC.1
    exact ⟨hQ, ih hnext hC.2⟩

/-- The rule for an exact condition: if a step from a good state that meets the
condition leads to a good state, and one that does not leads to a state without
the property, then the property holds throughout exactly if every step meets the
condition. -/
theorem always_iff_meets (hP : ∀ s, I s → P s) (hstep : ∀ s l, I s → C s l → I (step s l))
    (hbreak : ∀ s l, I s → ¬ C s l → ¬ P (step s l)) (hs : I s) : Always step P s ls ↔ Meets step C s ls := by
  refine ⟨fun h => ?_, always_induct hP hstep hs⟩
  induction ls generalizing s with
  | nil => trivial
  | cons l ls ih =>
    have hC : C s l := by
      by_contra hno
      exact hbreak s l hs hno h.2.head
    exact ⟨hC, ih (hstep s l hs hC) h.2⟩

/-- The simulation rule: if steps with labels that correspond keep a relation between two
systems, runs keep it. -/
theorem run_related {τ m : Type*} {other : τ → m → τ} {f : ℓ → m} {R : σ → τ → Prop} {t : τ}
    (hstep : ∀ s t l, R s t → C s l → R (step s l) (other t (f l))) (hs : R s t) (hC : Meets step C s ls) :
    R (run step s ls) (run other t (ls.map f)) := by
  induction ls generalizing s t with
  | nil => exact hs
  | cons l ls ih => exact ih (hstep s t l hs hC.1) hC.2

theorem run_invariant (hstep : ∀ s l, I s → I (step s l)) (hs : I s) (ls : List ℓ) : I (run step s ls) := by
  induction ls generalizing s with
  | nil => exact hs
  | cons l ls ih => exact ih (hstep s l hs)

end Transition
