-- SUMMARY: Decimal numbers as the C library prints them, and that they are scanned back.
import FruitClawApps.Lib.CLib

/-!
# Decimal numbers

What `%d` prints consists of digits and a minus sign, and `strtol` reads the number back.
-/

theorem formatInt_start (i : Int) : ∃ c t, formatInt i = c :: t ∧ (c = '-' ∨ c.isDigit = true) := by
  obtain ⟨c, t, hct⟩ := List.exists_cons_of_ne_nil (Nat.toDigits_ne_nil (b := 10) (n := i.natAbs))
  unfold formatInt
  split
  · exact ⟨'-', _, rfl, Or.inl rfl⟩
  · refine ⟨c, t, hct, Or.inr ?_⟩
    exact Nat.isDigit_of_mem_toDigits (b := 10) (n := i.natAbs) (by decide) (by decide) (by simp [hct])

theorem not_mem_formatInt {c : Char} (hdigit : c.isDigit = false) (hminus : c ≠ '-') (i : Int) :
    c ∉ formatInt i := by
  have hdigits : c ∉ Nat.toDigits 10 i.natAbs := by
    intro h
    rw [Nat.isDigit_of_mem_toDigits (by decide) (by decide) h] at hdigit
    cases hdigit
  unfold formatInt
  split
  · rw [List.mem_cons, not_or]
    exact ⟨hminus, hdigits⟩
  · exact hdigits

theorem digitValue_of_isDigit {c : Char} (h : c.isDigit = true) : digitValue 10 c = some (c.toNat - '0'.toNat) := by
  simp only [Char.isDigit, Bool.and_eq_true, decide_eq_true_eq] at h
  have hrange : '0' ≤ c ∧ c ≤ '9' := h
  have hle : c.toNat ≤ '9'.toNat := h.2
  rw [digitValue, if_pos hrange]
  simp only [Option.filter_some]
  rw [if_pos]
  have h9 : '9'.toNat = 57 := rfl
  have h0 : '0'.toNat = 48 := rfl
  simp only [decide_eq_true_eq]
  omega

/-- Digits are scanned as the number that they stand for. -/
theorem scanDigits_of_isDigit {s : CStr} (hs : ∀ c ∈ s, c.isDigit = true) (acc : Nat) :
    scanDigits 10 acc s = (Nat.ofDigitChars 10 s acc, []) := by
  induction s generalizing acc with
  | nil => rfl
  | cons c s ih =>
    rw [scanDigits, digitValue_of_isDigit (hs c List.mem_cons_self)]
    simp only
    rw [ih (fun c' hc' => hs c' (List.mem_cons_of_mem c hc')), Nat.ofDigitChars_cons, Nat.mul_comm]

theorem scanDigits_toDigits (n : Nat) : scanDigits 10 0 (Nat.toDigits 10 n) = (n, []) := by
  rw [scanDigits_of_isDigit fun c hc => Nat.isDigit_of_mem_toDigits (by decide) (by decide) hc,
    Nat.ofDigitChars_ten_toDigits]

theorem isSome_digitValue_toDigits {n : Nat} {c : Char} (hc : c ∈ Nat.toDigits 10 n) :
    (digitValue 10 c).isSome = true := by
  rw [digitValue_of_isDigit (Nat.isDigit_of_mem_toDigits (by decide) (by decide) hc)]
  rfl

theorem strtoSubject_formatInt (i : Int) : strtoSubject 10 (formatInt i) = some (decide (i < 0), i.natAbs, []) := by
  rw [formatInt]
  split_ifs with hneg
  · rw [strtoSubject_minus Nat.toDigits_ne_nil fun c hc => isSome_digitValue_toDigits hc, scanDigits_toDigits,
      decide_eq_true hneg]
  · rw [strtoSubject_digits Nat.toDigits_ne_nil fun c hc => isSome_digitValue_toDigits hc, scanDigits_toDigits,
      decide_eq_false hneg]

theorem strtol_formatInt {i : Int} (hmin : -2147483648 ≤ i) (hmax : i ≤ 2147483647) :
    strtol 10 (formatInt i) = (i, []) := by
  rw [strtol, strtoSubject_formatInt]
  by_cases hneg : i < 0
  · simp only [hneg, decide_true, if_true, Prod.mk.injEq, and_true]
    omega
  · simp only [hneg, decide_false, Bool.false_eq_true, if_false, Prod.mk.injEq, and_true]
    omega

theorem scanDigits_length_le (s : CStr) (acc : Nat) : (scanDigits 10 acc s).2.length ≤ s.length := by
  induction s generalizing acc with
  | nil => exact le_refl _
  | cons c s ih =>
    rw [scanDigits]
    cases digitValue 10 c with
    | none => exact le_refl _
    | some d => exact (ih _).trans (Nat.le_succ _)

theorem strtol_rest_ne {c : Char} (h : c.isDigit = true) (s : CStr) : (strtol 10 (c :: s)).2 ≠ c :: s := by
  intro heq
  have hscan : scanDigits 10 0 (c :: s) = scanDigits 10 (0 * 10 + (c.toNat - '0'.toNat)) s := by
    rw [scanDigits, digitValue_of_isDigit h]
  have hle := scanDigits_length_le s (0 * 10 + (c.toNat - '0'.toNat))
  have hc : (digitValue 10 c).isSome = true := by rw [digitValue_of_isDigit h]; rfl
  rw [strtol, strtoSubject_of_digit hc fun h => absurd h (by decide)] at heq
  have hlen := congrArg List.length heq
  simp only [hscan, List.length_cons] at hlen
  omega
