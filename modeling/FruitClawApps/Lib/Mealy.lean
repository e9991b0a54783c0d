-- SUMMARY: Machines that answer each input, and the rules for every answer.
import FruitClawApps.Lib.Transition

/-!
# Machines with outputs

A function that is called again and again is a machine: its input is what a call is given or finds,
its output is what the call returns. A statement about every call of every sequence is one about all
outputs of the machine.
-/

namespace Mealy

open Transition

variable {σ ι ω : Type*} {step : σ → ι → ω × σ} {s : σ} {i : ι} {is js : List ι}

/-- The state behind one input. -/
def next (step : σ → ι → ω × σ) (s : σ) (i : ι) : σ := (step s i).2

/-- The answers to the inputs, one by one. -/
def outputs (step : σ → ι → ω × σ) : σ → List ι → List ω
  | _, [] => []
  | s, i :: is => (step s i).1 :: outputs step (next step s i) is

@[simp] theorem outputs_nil : outputs step s [] = [] := rfl

@[simp] theorem outputs_cons : outputs step s (i :: is) = (step s i).1 :: outputs step (next step s i) is := rfl

end Mealy
