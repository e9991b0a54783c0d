-- SUMMARY: Computations that may stop, checked buffers, and counted loops.
import Mathlib.Logic.Function.Basic

/-!
# Checked memory

A computation over buffers ends with a value, an error, or a fault, the first access outside of a
buffer. `Ends E Q` says how it may stop and what holds of its value.
-/

namespace Checked

/-- Why a computation stops without a value. -/
inductive Stop (ε : Type) where
  | error (e : ε)
  | fault
deriving DecidableEq

/-- The computation stops only for reasons in `E`, and otherwise its value is in `Q`. -/
inductive Ends {ε α : Type} (E : ε → Prop) (Q : α → Prop) : Except ε α → Prop
  | ok {a : α} (h : Q a) : Ends E Q (.ok a)
  | error {e : ε} (h : E e) : Ends E Q (.error e)

/-- A check with the reason to stop if it fails. -/
def require {ε : Type} (c : Prop) [Decidable c] (stop : ε) : Except ε Unit := if c then .ok () else .error stop

section Rules

variable {ε α β σ : Type} {E : ε → Prop} {P Q : α → Prop} {R : β → Prop} {r : Except ε α} {s : σ} {I : Nat → σ → Prop}

theorem ends_ok_iff {a : α} : Ends E Q (.ok a) ↔ Q a := ⟨fun h => by cases h with | ok h => exact h, .ok⟩

theorem ends_error_iff {e : ε} : Ends E Q (.error e) ↔ E e := ⟨fun h => by cases h with | error h => exact h, .error⟩

theorem Ends.mono (h : Ends E P r) (hQ : ∀ a, P a → Q a) : Ends E Q r := by
  cases h with
  | ok h => exact .ok (hQ _ h)
  | error h => exact .error h

theorem Ends.bind {f : α → Except ε β} (h : Ends E P r) (hf : ∀ a, P a → Ends E R (f a)) : Ends E R (r >>= f) := by
  cases h with
  | ok h => exact hf _ h
  | error h => exact .error h

theorem Ends.require {c : Prop} [Decidable c] {stop : ε} (h : ¬ c → E stop) : Ends E (fun _ => c) (require c stop) := by
  rw [Checked.require]
  split
  · exact .ok ‹_›
  · exact .error (h ‹_›)

theorem Ends.exists_ok (h : Ends (fun _ => False) Q r) : ∃ a, r = .ok a ∧ Q a := by
  cases h with
  | ok h => exact ⟨_, rfl, h⟩
  | error h => exact h.elim

/-! ## Loops -/

/-- The turns `i`, `i + 1`, ... of a loop, `n` of them. -/
def turns (body : Nat → σ → Except ε σ) : Nat → Nat → σ → Except ε σ
  | 0, _, s => .ok s
  | n + 1, i, s => body i s >>= turns body n (i + 1)

/-- `for (i = 0; i < n; i++)`. -/
def upTo (n : Nat) (body : Nat → σ → Except ε σ) (s : σ) : Except ε σ := turns body n 0 s

theorem Ends.turns {body : Nat → σ → Except ε σ} {n i : Nat} (hs : I i s)
    (hstep : ∀ j, i ≤ j → j < i + n → ∀ s, I j s → Ends E (I (j + 1)) (body j s)) :
    Ends E (I (i + n)) (turns body n i s) := by
  induction n generalizing i s with
  | zero => exact .ok hs
  | succ n ih =>
    refine Ends.bind (hstep i (Nat.le_refl i) (by omega) s hs) fun s' hs' => ?_
    have hrest := ih hs' fun j hle hlt => hstep j (by omega) (by omega)
    rwa [Nat.add_right_comm] at hrest

/-- The invariant rule for a counted loop. -/
theorem Ends.upTo {body : Nat → σ → Except ε σ} {n : Nat} (hs : I 0 s)
    (hstep : ∀ i < n, ∀ s, I i s → Ends E (I (i + 1)) (body i s)) : Ends E (I n) (upTo n body s) := by
  have h := Ends.turns (n := n) hs fun j _ hlt => hstep j (by omega)
  rwa [Nat.zero_add] at h

theorem index_lt {h w y x : Nat} (hy : y < h) (hx : x < w) : y * w + x < h * w :=
  calc y * w + x < y * w + w := Nat.add_lt_add_left hx _
    _ = (y + 1) * w := (Nat.succ_mul y w).symm
    _ ≤ h * w := Nat.mul_le_mul_right w hy

/-- The invariant rule for two nested loops, over the number of turns of the inner one so far. -/
theorem Ends.upTo_upTo {body : Nat → Nat → σ → Except ε σ} {h w : Nat} (hs : I 0 s)
    (hstep : ∀ y < h, ∀ x < w, ∀ s, I (y * w + x) s → Ends E (I (y * w + x + 1)) (body y x s)) :
    Ends E (I (h * w)) (Checked.upTo h (fun y => Checked.upTo w (body y)) s) := by
  refine Ends.upTo (I := fun y => I (y * w)) (by rwa [Nat.zero_mul]) fun y hy s hs => ?_
  rw [Nat.succ_mul]
  exact Ends.upTo (I := fun x => I (y * w + x)) hs fun x hx s hs => hstep y hy x hx s hs

end Rules

/-! ## Buffers -/

/-- An allocated buffer. -/
structure Buf (α : Type) where
  size : Nat
  data : Nat → α

namespace Buf

variable {ε α : Type}

def read (b : Buf α) (i : Nat) : Except (Stop ε) α := if i < b.size then .ok (b.data i) else .error .fault

def write (b : Buf α) (i : Nat) (a : α) : Except (Stop ε) (Buf α) :=
  if i < b.size then .ok { b with data := Function.update b.data i a } else .error .fault

variable {E : Stop ε → Prop} {b : Buf α} {i : Nat}

theorem ends_read {Q : α → Prop} (h : i < b.size) (hQ : Q (b.data i)) : Ends E Q (b.read i) := by
  rw [read, if_pos h]
  exact .ok hQ

theorem ends_write {Q : Buf α → Prop} {a : α} (h : i < b.size) (hQ : Q { b with data := Function.update b.data i a }) :
    Ends E Q (b.write i a) := by
  rw [write, if_pos h]
  exact .ok hQ

end Buf

end Checked
