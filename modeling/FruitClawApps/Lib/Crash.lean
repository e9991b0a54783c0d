-- SUMMARY: Programs on a durable store that can lose power, and their weakest preconditions.
import FruitClawApps.Lib.Transition

/-!
# Programs that can lose power

A program works on a store that survives a loss of power, with atomic operations. `wpc` is the
weakest precondition for a postcondition and a crash condition, which holds wherever the power can
fail.
-/

namespace Crash

open List

/-- What a program comes to: its value, the store at the end, and the stores before each
operation. -/
structure Outcome (σ α : Type) where
  value : α
  final : σ
  passed : List σ

/-- A program on stores of type `σ`. -/
def Prog (σ α : Type) : Type := σ → Outcome σ α

variable {σ ℓ α β : Type}

instance : Monad (Prog σ) where
  pure a := fun s => ⟨a, s, []⟩
  bind m k := fun s =>
    let o := m s
    let o' := k o.value o.final
    ⟨o'.value, o'.final, o.passed ++ o'.passed⟩

/-- The store as it is. -/
def get : Prog σ σ := fun s => ⟨s, s, []⟩

/-- One operation on the store. -/
def modify (f : σ → σ) : Prog σ Unit := fun s => ⟨(), f s, [s]⟩

@[simp] theorem pure_apply (a : α) (s : σ) : (pure a : Prog σ α) s = ⟨a, s, []⟩ := rfl

@[simp] theorem bind_apply (m : Prog σ α) (k : α → Prog σ β) (s : σ) :
    (m >>= k) s =
      ⟨(k (m s).value (m s).final).value, (k (m s).value (m s).final).final,
        (m s).passed ++ (k (m s).value (m s).final).passed⟩ := rfl

@[simp] theorem get_apply (s : σ) : (get : Prog σ σ) s = ⟨s, s, []⟩ := rfl

@[simp] theorem modify_apply (f : σ → σ) (s : σ) : modify f s = ⟨(), f s, [s]⟩ := rfl

/-- The store that is left if the power fails before the operation of the given number, or if it
does not fail. -/
def Outcome.cut (o : Outcome σ α) : Option Nat → σ
  | none => o.final
  | some k => o.passed.getD k o.final

/-- A step of a system that runs one program after the other, each of them cut or not. -/
def step (prog : ℓ → Prog σ α) (s : σ) (l : ℓ × Option Nat) : σ := (prog l.1 s).cut l.2

/-! ## Weakest preconditions -/

def wpc (m : Prog σ α) (Q : α → σ → Prop) (C : σ → Prop) (s : σ) : Prop :=
  Q (m s).value (m s).final ∧ ∀ t ∈ (m s).passed, C t

section

variable {m : Prog σ α} {k : α → Prog σ β} {Q Q' : α → σ → Prop} {C C' : σ → Prop} {s : σ}

theorem wpc_pure {a : α} (h : Q a s) : wpc (pure a) Q C s := ⟨h, fun _ ht => absurd ht not_mem_nil⟩

theorem wpc_get {Q : σ → σ → Prop} (h : Q s s) : wpc get Q C s := ⟨h, fun _ ht => absurd ht not_mem_nil⟩

theorem wpc_modify {f : σ → σ} {Q : Unit → σ → Prop} (hC : C s) (h : Q () (f s)) : wpc (modify f) Q C s := by
  refine ⟨h, fun t ht => ?_⟩
  rw [eq_of_mem_singleton ht]
  exact hC

theorem wpc_bind {Q : β → σ → Prop} (h : wpc m (fun a t => wpc (k a) Q C t) C s) : wpc (m >>= k) Q C s := by
  obtain ⟨⟨hQ, hafter⟩, hbefore⟩ := h
  refine ⟨hQ, fun t ht => ?_⟩
  rcases mem_append.mp ht with ht | ht
  · exact hbefore t ht
  · exact hafter t ht

theorem wpc_mono (hQ : ∀ a t, Q a t → Q' a t) (hC : ∀ t, C t → C' t) (h : wpc m Q C s) : wpc m Q' C' s :=
  ⟨hQ _ _ h.1, fun t ht => hC t (h.2 t ht)⟩

/-- What holds at the end and wherever the power can fail holds of what is left. -/
theorem wpc.cut (h : wpc m Q C s) (hQ : ∀ a t, Q a t → C t) (cut : Option Nat) : C ((m s).cut cut) := by
  cases cut with
  | none => exact hQ _ _ h.1
  | some k =>
    rw [Outcome.cut, getD_eq_getElem?_getD]
    cases hk : (m s).passed[k]? with
    | none => exact hQ _ _ h.1
    | some t => exact h.2 t (mem_of_getElem? hk)

end

end Crash
