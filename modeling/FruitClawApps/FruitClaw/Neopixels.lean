-- SUMMARY: How long the LED effects run, and when their signed arithmetic overflows.
import Mathlib.Algebra.Order.Ring.Star
import Mathlib.Data.Int.Star
import Mathlib.Data.Nat.Cast.Order.Ring

/-!
# LED effects

The capability works out how many cycles of an effect take a given duration. It does so in signed
numbers of 32 bits, before the delay between two frames is cut to a second. Without a duration the
number of cycles is an argument.
-/

namespace FruitClaw.Neopixels

open List

inductive Effect where
  | off
  | fill
  | rainbow
  | chase
  | pulse
  /-- Any other name. -/
  | other
deriving DecidableEq

/-- The effects that have frames. -/
def Effect.moves : Effect → Bool
  | .rainbow | .chase | .pulse => true
  | .off | .fill | .other => false

/-- The cycles and frames of an effect, the delay behind each frame, and the values of the signed
computations. -/
structure Run where
  cycles : Int
  frames : Int
  delayMs : Int
  computed : List Int

/-- The value is one of an `int`. -/
def Fits (x : Int) : Prop := -2 ^ 31 ≤ x ∧ x < 2 ^ 31

instance (x : Int) : Decidable (Fits x) := inferInstanceAs (Decidable (_ ∧ _))

def someDelay (delayMs : Int) : Int := if delayMs < 1 then 20 else delayMs

section

-- `FC_NEOPIXEL_COUNT`
variable (count : Nat)

def framesPerCycle : Effect → Nat
  | .chase => count
  | .pulse => 33
  | _ => 64

/-- `fc_neopixels_effect_fd`, if all frames can be written. -/
def fcNeopixelsEffectFd (effect : Effect) (cycles delayMs : Int) : Run :=
  let cycles := min (max cycles 1) 64
  let delayMs := min (someDelay delayMs) 1000
  match effect with
  | .rainbow =>
    ⟨cycles, cycles * 64, delayMs, cycles * 64 :: (range (cycles * 64).toNat).flatMap fun (frame : Nat) =>
      (range count).flatMap fun (i : Nat) => [frame * 4, i * 36, frame * 4 + i * 36]⟩
  | .chase => ⟨cycles, cycles * count, delayMs, [cycles * count]⟩
  | .pulse => ⟨cycles, cycles * (17 + 16), delayMs, []⟩
  | _ => ⟨cycles, 0, delayMs, []⟩

/-- `fc_builtin_neopixels_set` for arguments that are integers. -/
def fcBuiltinNeopixelsSet (effect : Effect) (cycles delayMs durationMs : Int) : Run :=
  -- one frame without a delay, whatever the other arguments are
  if effect = .fill ∨ effect = .off then ⟨0, 0, 0, []⟩
  else if 0 < durationMs then
    let delayMs := someDelay delayMs
    let cycleMs := framesPerCycle count effect * delayMs
    if 0 < cycleMs then
      let run := fcNeopixelsEffectFd count effect ((durationMs + cycleMs - 1).tdiv cycleMs) delayMs
      { run with computed := [cycleMs, durationMs + cycleMs, durationMs + cycleMs - 1] ++ run.computed }
    else
      let run := fcNeopixelsEffectFd count effect cycles delayMs
      { run with computed := cycleMs :: run.computed }
  else fcNeopixelsEffectFd count effect cycles delayMs

/-- Nothing overflows, the numbers are not negative, and the effect is at most a cycle longer than
the duration. -/
structure Timed (effect : Effect) (durationMs : Int) (run : Run) : Prop where
  fits : ∀ x ∈ run.computed, Fits x
  cycles : 0 ≤ run.cycles
  frames : 0 ≤ run.frames
  total : run.frames * run.delayMs ≤ max durationMs 0 + framesPerCycle count effect * run.delayMs

end

variable {count : Nat} {effect : Effect}

theorem effectFd_spec (hcount : 64 * count < 2 ^ 31) (effect : Effect) (cycles delayMs : Int) :
    let run := fcNeopixelsEffectFd count effect cycles delayMs
    run.cycles = min (max cycles 1) 64 ∧ run.delayMs = min (someDelay delayMs) 1000 ∧
      run.frames = (if effect.moves then run.cycles * framesPerCycle count effect else 0) ∧
      ∀ x ∈ run.computed, Fits x := by
  obtain ⟨c, hc⟩ : ∃ c, c = min (max cycles 1) 64 := ⟨_, rfl⟩
  have hge : 0 ≤ c * count := Int.mul_nonneg (by omega) (Int.natCast_nonneg _)
  have hle : c * count ≤ 64 * count := Int.mul_le_mul_of_nonneg_right (by omega) (Int.natCast_nonneg _)
  cases effect with
  | rainbow =>
    simp only [fcNeopixelsEffectFd, framesPerCycle, ← hc, forall_mem_cons, mem_flatMap, mem_range]
    refine ⟨trivial, trivial, rfl, ⟨by omega, by omega⟩, ?_⟩
    rintro x ⟨frame, hframe, i, hi, hx⟩
    simp only [mem_cons, not_mem_nil, or_false] at hx
    exact ⟨by omega, by omega⟩
  | chase =>
    simp only [fcNeopixelsEffectFd, framesPerCycle, ← hc, forall_mem_singleton]
    exact ⟨trivial, trivial, rfl, by omega, by omega⟩
  | pulse | off | fill | other => exact ⟨rfl, rfl, rfl, nofun⟩

section

variable (hcount : 0 < count ∧ 64 * count < 2 ^ 31)
include hcount

theorem framesPerCycle_pos : 0 < (framesPerCycle count effect : Int) := by
  have := hcount.1
  cases effect <;> simp [framesPerCycle, this]

/-- An effect is at most a cycle too long if the cycles before the last one are not too long. -/
theorem timed_effectFd (effect : Effect) (cycles delayMs durationMs : Int) :
    Timed count effect durationMs (fcNeopixelsEffectFd count effect cycles delayMs) ↔
      (effect.moves = true → (min (max cycles 1) 64 - 1) *
        (framesPerCycle count effect * min (someDelay delayMs) 1000) ≤ max durationMs 0) := by
  obtain ⟨hcycles, hms, hframes, hfits⟩ := effectFd_spec hcount.2 effect cycles delayMs
  generalize fcNeopixelsEffectFd count effect cycles delayMs = run at *
  have hpos : 0 < framesPerCycle count effect * run.delayMs := by
    refine Int.mul_pos (framesPerCycle_pos hcount) ?_
    rw [hms, someDelay]
    omega
  rw [← hcycles, ← hms]
  cases hmoves : effect.moves with
  | false =>
    rw [hmoves] at hframes
    refine iff_of_true ⟨hfits, by omega, by simp [hframes], ?_⟩ nofun
    rw [hframes]
    simp only [Bool.false_eq_true, if_false]
    omega
  | true =>
    rw [hmoves, if_pos rfl] at hframes
    have htotal : run.frames * run.delayMs = (run.cycles - 1) * (framesPerCycle count effect * run.delayMs) +
        framesPerCycle count effect * run.delayMs := by
      rw [hframes, Int.sub_mul, Int.one_mul, Int.sub_add_cancel, Int.mul_assoc]
    constructor
    · intro h _
      have := h.total
      omega
    · intro h
      have := h rfl
      have hnonneg : 0 ≤ run.frames := hframes ▸ Int.mul_nonneg (by omega) (Int.natCast_nonneg _)
      exact ⟨hfits, by omega, hnonneg, by omega⟩

end

/-- The timing is right for an effect that moves exactly if its duration and a cycle fit a number
together, or if it has no duration and is for one cycle. Other effects only have to compute without
an overflow. -/
theorem neopixels_timing (hcount : 0 < count ∧ 64 * count < 2 ^ 31) (cycles delayMs durationMs : Int)
    (effect : Effect) :
    Timed count effect durationMs (fcBuiltinNeopixelsSet count effect cycles delayMs durationMs) ↔
      if 0 < durationMs then effect = .fill ∨ effect = .off ∨
        durationMs + framesPerCycle count effect * someDelay delayMs < 2 ^ 31
      else effect.moves = true → cycles ≤ 1 := by
  have hone : 1 ≤ someDelay delayMs := by grind [someDelay]
  have hsome : someDelay (someDelay delayMs) = someDelay delayMs := if_neg (by omega)
  have hpos : 0 < framesPerCycle count effect * someDelay delayMs :=
    Int.mul_pos (framesPerCycle_pos hcount) (by omega)
  have hcut : framesPerCycle count effect * min (someDelay delayMs) 1000 ≤
      framesPerCycle count effect * someDelay delayMs :=
    Int.mul_le_mul_of_nonneg_left (by omega) (Int.natCast_nonneg _)
  have hcutpos : 0 < framesPerCycle count effect * min (someDelay delayMs) 1000 :=
    Int.mul_pos (framesPerCycle_pos hcount) (by omega)
  by_cases hstill : effect = .fill ∨ effect = .off
  · refine iff_of_true ?_ ?_
    · rw [fcBuiltinNeopixelsSet, if_pos hstill]
      exact ⟨nofun, Int.le_refl _, Int.le_refl _, by simp only [Int.mul_zero]; omega⟩
    · split
      · exact hstill.imp_right .inl
      · rcases hstill with rfl | rfl <;> nofun
  rw [fcBuiltinNeopixelsSet, if_neg hstill]
  by_cases hduration : 0 < durationMs
  · rw [if_pos hduration, if_pos hduration]
    simp only [if_pos hpos, ← or_assoc, or_iff_right hstill]
    generalize framesPerCycle count effect * someDelay delayMs = cycleMs at *
    have hdiv : (durationMs + cycleMs - 1).tdiv cycleMs = (durationMs + cycleMs - 1) / cycleMs :=
      Int.tdiv_eq_ediv_of_nonneg (by omega)
    have hfirst : 1 ≤ (durationMs + cycleMs - 1) / cycleMs := (Int.le_ediv_iff_mul_le hpos).mpr (by omega)
    have hlast := Int.mul_ediv_self_le (x := durationMs + cycleMs - 1) (k := cycleMs) (by omega)
    have htimed := (timed_effectFd hcount effect ((durationMs + cycleMs - 1) / cycleMs)
      (someDelay delayMs) durationMs).mpr
    rw [hdiv]
    generalize (durationMs + cycleMs - 1) / cycleMs = q at *
    have htimed := htimed fun _ => by
      rw [hsome]
      calc (min (max q 1) 64 - 1) * (framesPerCycle count effect * min (someDelay delayMs) 1000)
          ≤ (q - 1) * cycleMs := Int.mul_le_mul (by omega) hcut (by omega) (by omega)
        _ ≤ max durationMs 0 := by
          rw [Int.sub_mul, Int.mul_comm q]
          omega
    constructor
    · intro h
      exact (h.fits (durationMs + cycleMs) (by simp)).2
    · intro h
      refine ⟨?_, htimed.cycles, htimed.frames, htimed.total⟩
      simp only [cons_append, nil_append, forall_mem_cons, Fits]
      exact ⟨by omega, by omega, by omega, htimed.fits⟩
  · rw [if_neg hduration, if_neg hduration, timed_effectFd hcount]
    refine imp_congr_right fun _ => ?_
    have hmax : max durationMs 0 = 0 := Int.max_eq_right (by omega)
    rw [hmax]
    constructor
    · intro h
      refine Int.not_lt.mp fun hmore => ?_
      have := Int.mul_pos (a := min (max cycles 1) 64 - 1) (by omega) hcutpos
      omega
    · intro h
      have hcycles : min (max cycles 1) 64 - 1 = 0 := by omega
      simp only [hcycles, Int.zero_mul, Int.le_refl]

/-- A chase over five LEDs for a second, which takes ten cycles. -/
theorem neopixels_timing_chase : Timed 5 .chase 990 (fcBuiltinNeopixelsSet 5 .chase 2 20 990) :=
  (neopixels_timing (by decide) 2 20 990 .chase).mpr (by decide)

/-- With a delay of six days, a cycle does not fit an `int`. -/
theorem not_neopixels_timing : ¬ ∀ x ∈ (fcBuiltinNeopixelsSet 5 .chase 2 (2 ^ 29) 1000).computed, Fits x := by
  decide +kernel

end FruitClaw.Neopixels
