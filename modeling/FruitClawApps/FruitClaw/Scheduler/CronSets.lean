-- SUMMARY: The sets that cron fields denote, and exactly when they are matched.
import FruitClawApps.FruitClaw.Scheduler.Cron
import FruitClawApps.Lib.Decimal
import Mathlib.Data.Set.Basic

/-!
# What a cron field denotes

A field is a list of elements `*`, `n` or `a-b`, each with an optional step, and denotes the union
of their sets. What is a number is a parameter. The matcher reads numbers with `strtol`, which takes
blanks and signs and stops at the limits of a `long`, and copies the field to a buffer of 48 bytes.
So it decides the union for these numbers and fields that fit. The distance from the low end of an
element is an `int`, which is exact for bounds that are less than 2 ^ 31 apart.
-/

namespace FruitClaw

open List

/-! ## Numbers -/

/-- A number is a text of digits. -/
def cronNumber (s : CStr) : Option Int :=
  if s ≠ [] ∧ s.all Char.isDigit = true then some (Nat.ofDigitChars 10 s 0) else none

/-- The sign in front of a number, and what follows it. -/
def longSign : CStr → Bool × CStr
  | '-' :: rest => (true, rest)
  | '+' :: rest => (false, rest)
  | text => (false, text)

/-- What `strtol` takes for a number. -/
def longNumber (s : CStr) : Option Int :=
  let (neg, digits) := longSign (s.dropWhile isspace)
  (cronNumber digits).map fun n => if neg then max (-n) (-2147483648) else min n 2147483647

/-! ## Elements -/

/-- The forms of an element without its step, and the ends of its range. -/
inductive CronRange (number : CStr → Option Int) (minv maxv : Int) : CStr → Int → Int → Prop
  | star : CronRange number minv maxv ['*'] minv maxv
  | single {s : CStr} {n : Int} (hs : '-' ∉ s) (h : number s = some n) : CronRange number minv maxv s n n
  | range {a b : CStr} {low high : Int} (hs : '-' ∉ a) (ha : number a = some low) (hb : number b = some high) :
    CronRange number minv maxv (a ++ '-' :: b) low high

/-- The forms of an element, with the ends of its range and its step. -/
inductive CronElement (number : CStr → Option Int) (minv maxv : Int) : CStr → Int → Int → Int → Prop
  | plain {s : CStr} {low high : Int} (hs : '/' ∉ s) (h : CronRange number minv maxv s low high) :
    CronElement number minv maxv s low high 1
  | stepped {s t : CStr} {low high step : Int} (hs : '/' ∉ s) (h : CronRange number minv maxv s low high)
    (ht : number t = some step) (hpos : 0 < step) : CronElement number minv maxv (s ++ '/' :: t) low high step

/-- The set of an element. It is empty if the element is malformed or out of bounds. -/
def elementSet (number : CStr → Option Int) (minv maxv : Int) (tok : CStr) : Set Int :=
  {v | ∃ low high step, CronElement number minv maxv tok low high step ∧ minv ≤ low ∧ high ≤ maxv ∧ low ≤ high ∧
    low ≤ v ∧ v ≤ high ∧ step ∣ v - low}

/-- The set of a field. -/
def fieldSet (number : CStr → Option Int) (minv maxv : Int) (field : CStr) : Set Int :=
  {v | ∃ tok ∈ field.splitOn ',', v ∈ elementSet number minv maxv tok}

/-! ## Numbers that are read -/

theorem isDigit_of_digitValue {c : Char} (h : (digitValue 10 c).isSome = true) : c.isDigit = true := by
  rw [digitValue] at h
  split at h
  case isTrue hrange =>
    rw [Char.isDigit, Bool.and_eq_true, decide_eq_true_eq, decide_eq_true_eq]
    exact hrange
  case isFalse =>
    split at h
    · grind
    split at h
    · grind
    · cases h

theorem isDigit_of_scanDigits {s : CStr} {acc : Nat} (h : (scanDigits 10 acc s).2 = []) :
    ∀ c ∈ s, c.isDigit = true := by
  induction s generalizing acc with
  | nil => exact fun c hc => (nomatch hc)
  | cons c s ih =>
    rw [scanDigits] at h
    cases hd : digitValue 10 c with
    | none => simp [hd] at h
    | some d =>
      rw [hd] at h
      exact forall_mem_cons.mpr ⟨isDigit_of_digitValue (by rw [hd]; rfl), ih h⟩

/-- The digits behind blanks and a sign, as `strtol` scans them to the end of the text. -/
theorem cronNumber_eq (s : CStr) :
    cronNumber s = if (s.head?.any fun c => (digitValue 10 c).isSome) = true ∧ (scanDigits 10 0 s).2 = [] then
      some ((scanDigits 10 0 s).1 : Int) else none := by
  rw [cronNumber]
  by_cases hall : ∀ c ∈ s, c.isDigit = true
  · rw [scanDigits_of_isDigit hall, all_eq_true.mpr hall]
    cases s with
    | nil => rfl
    | cons c s => simp [digitValue_of_isDigit (hall c mem_cons_self)]
  · rw [if_neg fun h => hall (all_eq_true.mp h.2), if_neg fun h => hall (isDigit_of_scanDigits h.2)]

theorem strtoSubject_ten (s : CStr) : strtoSubject 10 s =
    if ((longSign (s.dropWhile isspace)).2.head?.any fun c => (digitValue 10 c).isSome) = true then
      some ((longSign (s.dropWhile isspace)).1, scanDigits 10 0 (longSign (s.dropWhile isspace)).2) else none := by
  rw [strtoSubject]
  fun_cases longSign (s.dropWhile isspace)
  case case1 rest => cases rest <;> grind
  case case2 rest => cases rest <;> grind
  case case3 text _ _ => cases text <;> grind

/-- What `strtol` reads is a number of its own grammar. -/
theorem fcParseUint_iff {s : CStr} {v : Int} : fcParseUint s = .ok v ↔ longNumber s = some v := by
  by_cases hs : s = []
  · subst hs
    simp [fcParseUint, longNumber, longSign, cronNumber]
  rw [fcParseUint, if_neg hs, strtol, longNumber, strtoSubject_ten]
  cases longSign (s.dropWhile isspace) with
  | mk neg digits =>
    simp only [cronNumber_eq]
    by_cases hdigit : (digits.head?.any fun c => (digitValue 10 c).isSome) = true
    · cases hscan : scanDigits 10 0 digits with
      | mk n rest => cases rest <;> simp [hdigit]
    · cases s <;> simp_all

/-! ## Elements that are read -/

theorem strchrCut_cases (c : Char) (s : CStr) :
    (c ∉ s ∧ strchrCut c s = (s, none)) ∨
      ∃ a b, c ∉ a ∧ s = a ++ c :: b ∧ strchrCut c s = (a, some b) := by
  by_cases hmem : c ∈ s
  · obtain ⟨a, b, hs, ha⟩ := eq_append_cons_of_mem hmem
    exact .inr ⟨a, b, ha, hs, by rw [hs, strchrCut_append ha]⟩
  · exact .inl ⟨hmem, strchrCut_of_not_mem hmem⟩

section Element

variable {minv maxv value low high step : Int} {s : CStr}

/-- What the matcher reads as a range. -/
theorem elementRange_iff :
    elementRange minv maxv s = .ok (low, high) ↔ CronRange longNumber minv maxv s low high := by
  constructor
  · intro h
    rw [elementRange] at h
    split at h
    case isTrue hstar =>
      cases h
      exact hstar ▸ .star
    rcases strchrCut_cases '-' s with ⟨hdash, hcut⟩ | ⟨a, b, ha, rfl, hcut⟩ <;>
      simp only [hcut, Except.bind_eq_ok_iff, fcParseUint_iff] at h
    · obtain ⟨n, hn, hpair⟩ := h
      cases hpair
      exact .single hdash hn
    · obtain ⟨l, hl, u, hu, hpair⟩ := h
      cases hpair
      exact .range ha hl hu
  · intro h
    have hnone : longNumber ['*'] = none := by decide
    have hstar {t : CStr} (ht : '-' ∈ t) : t ≠ ['*'] := by
      rintro rfl
      exact absurd ht (by decide)
    cases h with
    | star => rfl
    | single hs hn =>
      have hne : s ≠ ['*'] := by
        rintro rfl
        cases hnone ▸ hn
      rw [elementRange, if_neg hne, strchrCut_of_not_mem hs]
      simp only [fcParseUint_iff.mpr hn]
      rfl
    | range hs ha hb =>
      rw [elementRange, if_neg (hstar (mem_append_right _ mem_cons_self)), strchrCut_append hs]
      simp only [fcParseUint_iff.mpr ha, fcParseUint_iff.mpr hb]
      rfl

theorem elementStep_iff : elementStep (some s) = .ok step ↔ longNumber s = some step ∧ 0 < step := by
  rw [← fcParseUint_iff, elementStep]
  cases fcParseUint s with
  | error e => simp
  | ok w =>
    simp only [Except.ok.injEq]
    split
    · exact iff_of_false (by simp) (by omega)
    · rw [Except.ok.injEq]
      omega

/-- What the matcher reads as an element. -/
theorem elementRead_iff : elementStep (strchrCut '/' s).2 = .ok step ∧
    elementRange minv maxv (strchrCut '/' s).1 = .ok (low, high) ↔
      CronElement longNumber minv maxv s low high step := by
  constructor
  · rintro ⟨hstep, hrange⟩
    rw [elementRange_iff] at hrange
    rcases strchrCut_cases '/' s with ⟨hslash, hcut⟩ | ⟨a, b, ha, rfl, hcut⟩ <;> rw [hcut] at hstep hrange
    · cases hstep
      exact .plain hslash hrange
    · obtain ⟨hnum, hpos⟩ := elementStep_iff.mp hstep
      exact .stepped ha hrange hnum hpos
  · intro h
    cases h with
    | plain hs hrange =>
      rw [strchrCut_of_not_mem hs]
      exact ⟨rfl, elementRange_iff.mpr hrange⟩
    | stepped hs hrange ht hpos =>
      rw [strchrCut_append hs]
      exact ⟨elementStep_iff.mpr ⟨ht, hpos⟩, elementRange_iff.mpr hrange⟩

theorem elementMatch_iff : elementMatch minv maxv value s = true ↔ value ∈ elementSet longNumber minv maxv s := by
  change _ ↔ ∃ low high step, _
  simp only [← elementRead_iff, elementMatch]
  cases elementStep (strchrCut '/' s).2 with
  | error e => simp
  | ok step =>
    cases elementRange minv maxv (strchrCut '/' s).1 with
    | error e => simp
    | ok range =>
      obtain ⟨start, stop⟩ := range
      simp only [Bool.and_eq_true, Bool.not_eq_true', Bool.or_eq_false_iff, decide_eq_false_iff_not,
        decide_eq_true_eq, beq_iff_eq, Except.ok.injEq, Prod.mk.injEq]
      constructor
      · rintro ⟨⟨⟨h1, h2⟩, h3⟩, ⟨h4, h5⟩, h6⟩
        exact ⟨start, stop, step, ⟨rfl, rfl, rfl⟩, by omega, by omega, by omega, h4, h5,
          Int.dvd_of_emod_eq_zero h6⟩
      · rintro ⟨_, _, _, ⟨rfl, rfl, rfl⟩, h1, h2, h3, h4, h5, h6⟩
        exact ⟨⟨⟨by omega, by omega⟩, by omega⟩, ⟨h4, h5⟩, Int.emod_eq_zero_of_dvd h6⟩

end Element

/-! ## Fields -/

/-- An empty element denotes nothing, so it does not matter that `strtok_r` passes over it. -/
theorem any_strtok {p : CStr → Bool} (hempty : p [] = false) (s : CStr) :
    (strtok (· == ',') s).any p = true ↔ ∃ tok ∈ s.splitOn ',', p tok = true := by
  rw [any_eq_true]
  constructor
  · rintro ⟨tok, hmem, hp⟩
    exact ⟨tok, mem_of_mem_filter hmem, hp⟩
  rintro ⟨tok, hmem, hp⟩
  have hne : tok ≠ [] := by
    rintro rfl
    rw [hempty] at hp
    cases hp
  exact ⟨tok, mem_filter.mpr ⟨hmem, by simpa using hne⟩, hp⟩

/-- The matcher decides the set of a field that fits its buffer, with the numbers of `strtol`. -/
theorem fcFieldValueMatch_iff {field : CStr} {minv maxv value : Int} (hlow : minv ≤ value) (hhigh : value ≤ maxv) :
    fcFieldValueMatch field minv maxv value = true ↔
      field.length < 48 ∧ value ∈ fieldSet longNumber minv maxv field := by
  rw [fcFieldValueMatch]
  by_cases hstar : field = ['*']
  · rw [if_pos hstar, hstar]
    refine ⟨fun _ => ⟨by decide, ['*'], by decide, minv, maxv, 1, .plain (by decide) .star, ?_⟩, fun _ => rfl⟩
    exact ⟨Int.le_refl _, Int.le_refl _, by omega, hlow, hhigh, Int.one_dvd _⟩
  rw [if_neg hstar]
  by_cases hlen : field.length < 48
  · have hcopy : fcStrlcpy field 48 = .ok field := by simp [fcStrlcpy, hlen]
    have hempty : elementMatch minv maxv value [] = false := rfl
    simp only [hcopy, hlen, true_and, any_strtok hempty, elementMatch_iff]
    rfl
  · simp [fcStrlcpy, hlen]

/-- The matcher decides the set of a field exactly if the field fits its buffer and the numbers of
`strtol` give it no other set, or if it does not fit and its set is empty. An expression is the
conjunction of its first five fields. -/
theorem cron_semantics (field : CStr) (minv maxv : Int) (expr : CStr) (tmv : Calendar.Tm) :
    ((∀ value, minv ≤ value → value ≤ maxv →
      (fcFieldValueMatch field minv maxv value = true ↔ value ∈ fieldSet cronNumber minv maxv field)) ↔
        if field.length < 48 then fieldSet longNumber minv maxv field = fieldSet cronNumber minv maxv field
        else fieldSet cronNumber minv maxv field = ∅) ∧
    (fcCronMatches expr tmv = true ↔
      expr.length < 64 ∧ ∃ min hour mday mon wday rest,
        strtok (fun c => c == ' ' || c == '\t') expr = min :: hour :: mday :: mon :: wday :: rest ∧
        fcFieldValueMatch min 0 59 tmv.min = true ∧ fcFieldValueMatch hour 0 23 tmv.hour = true ∧
        fcFieldValueMatch mday 1 31 tmv.date.mday = true ∧ fcFieldValueMatch mon 1 12 (tmv.date.mon + 1) = true ∧
        fcFieldValueMatch wday 0 6 tmv.wday = true) := by
  refine ⟨?_, ?fields⟩
  case fields =>
    -- the copies to the buffers are the only limit, and fields behind the fifth are not read
    rw [fcCronMatches]
    by_cases hlen : expr.length < 64
    · have hcopy : fcStrlcpy expr 64 = .ok expr := by simp [fcStrlcpy, hlen]
      simp only [hcopy, hlen, true_and, fieldsMatch]
      rcases strtok (fun c => c == ' ' || c == '\t') expr with
        _ | ⟨min, _ | ⟨hour, _ | ⟨mday, _ | ⟨mon, _ | ⟨wday, rest⟩⟩⟩⟩⟩
      all_goals simp [and_assoc]
    · simp [fcStrlcpy, hlen]
  have hbounds {number : CStr → Option Int} {value : Int} (h : value ∈ fieldSet number minv maxv field) :
      minv ≤ value ∧ value ≤ maxv := by
    obtain ⟨tok, -, low, high, step, -, h1, h2, -, h3, h4, -⟩ := h
    omega
  split
  case isTrue hlen =>
    refine ⟨fun h => Set.ext fun value => ?_, fun h value hlow hhigh => ?_⟩
    · by_cases hin : minv ≤ value ∧ value ≤ maxv
      · rw [← h value hin.1 hin.2, fcFieldValueMatch_iff hin.1 hin.2]
        exact (and_iff_right hlen).symm
      · exact iff_of_false (fun hmem => hin (hbounds hmem)) fun hmem => hin (hbounds hmem)
    · rw [fcFieldValueMatch_iff hlow hhigh, h]
      exact and_iff_right hlen
  case isFalse hlen =>
    rw [Set.eq_empty_iff_forall_notMem]
    refine ⟨fun h value hmem => ?_, fun h value hlow hhigh => ?_⟩
    · have hin := hbounds hmem
      exact hlen ((fcFieldValueMatch_iff hin.1 hin.2).mp ((h value hin.1 hin.2).mpr hmem)).1
    · rw [fcFieldValueMatch_iff hlow hhigh]
      exact iff_of_false (fun hmatch => hlen hmatch.1) (h value)

/-- Zero, twenty-five times. -/
private def manyZeros : CStr := '0' :: (replicate 24 [',', '0']).flatten

/-- A number with a plus sign is accepted, and a field of 49 characters selects nothing. -/
theorem not_cron_semantics :
    (fcFieldValueMatch "+5".toList 0 59 5 = true ∧ (5 : Int) ∉ fieldSet cronNumber 0 59 "+5".toList) ∧
    (fcFieldValueMatch manyZeros 0 59 0 = false ∧ (0 : Int) ∈ fieldSet cronNumber 0 59 manyZeros) := by
  refine ⟨⟨by decide, ?_⟩, by decide, ['0'], by decide, 0, 0, 1,
    .plain (by decide) (.single (by decide) (by decide)), by decide⟩
  rintro ⟨tok, hmem, low, high, step, helement, -⟩
  have hsplit : ("+5".toList : CStr).splitOn ',' = ["+5".toList] := by decide
  have hnone : cronNumber "+5".toList = none := by decide
  rw [hsplit, mem_singleton] at hmem
  generalize htext : "+5".toList = text at hmem hnone
  subst hmem
  cases helement with
  | plain _ hrange =>
    cases hrange with
    | star => cases htext
    | single _ hn => cases hnone ▸ hn
    | range => exact absurd (htext ▸ mem_append_right _ mem_cons_self : '-' ∈ "+5".toList) (by decide)
  | stepped => exact absurd (htext ▸ mem_append_right _ mem_cons_self : '/' ∈ "+5".toList) (by decide)

end FruitClaw
