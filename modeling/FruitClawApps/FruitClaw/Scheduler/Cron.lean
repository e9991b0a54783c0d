-- SUMMARY: Cron expressions: the matcher with its bounded copies, and its meaning.
import FruitClawApps.FruitClaw.Config
import FruitClawApps.Lib.Calendar

/-!
# Cron expressions

The matcher copies an expression and each of its five fields into buffers of fixed size. What does
not fit matches nothing.
-/

namespace FruitClaw

open Calendar

/-! ## Fields -/

/-- `fc_parse_uint`. -/
def fcParseUint (s : CStr) : Except Errno Int :=
  if s = [] then .error .einval
  else
    match strtol 10 s with
    | (v, []) => .ok v
    | _ => .error .einval

/-- The step of an element: one, or the number behind the slash. -/
def elementStep : Option CStr → Except Errno Int
  | none => .ok 1
  | some slash =>
    match fcParseUint slash with
    | .error e => .error e
    | .ok step => if step ≤ 0 then .error .einval else .ok step

/-- The range of an element without its step. -/
def elementRange (minv maxv : Int) (tok : CStr) : Except Errno (Int × Int) :=
  if tok = ['*'] then .ok (minv, maxv)
  else
    match strchrCut '-' tok with
    | (low, some high) => do
      let start ← fcParseUint low
      let stop ← fcParseUint high
      pure (start, stop)
    | (_, none) => do
      let single ← fcParseUint tok
      pure (single, single)

/-- One turn of the loop of `fc_field_value_match`: does the element of the list
contain the value? -/
def elementMatch (minv maxv value : Int) (tok : CStr) : Bool :=
  let (tok, slash) := strchrCut '/' tok
  match elementStep slash, elementRange minv maxv tok with
  | .ok step, .ok (start, stop) =>
    !(start < minv || stop > maxv || start > stop) &&
      (value ≥ start && value ≤ stop && (value - start) % step == 0)
  | _, _ => false

def fcFieldValueMatch (field : CStr) (minv maxv value : Int) : Bool :=
  if field = ['*'] then true
  else
    match fcStrlcpy field 48 with
    | .error _ => false
    | .ok copy => (strtok (· == ',') copy).any (elementMatch minv maxv value)

/-! ## Expressions -/

/-- The conjunction of the five fields, with a matcher for one field. -/
def fieldsMatch (fieldMatch : CStr → Int → Int → Int → Bool) (expr : CStr) (tmv : Tm) : Bool :=
  match (strtok (fun c => c == ' ' || c == '\t') expr).take 5 with
  | [min, hour, mday, mon, wday] =>
    fieldMatch min 0 59 tmv.min && fieldMatch hour 0 23 tmv.hour &&
      fieldMatch mday 1 31 tmv.date.mday && fieldMatch mon 1 12 (tmv.date.mon + 1) &&
      fieldMatch wday 0 6 tmv.wday
  | _ => false

def fcCronMatches (expr : CStr) (tmv : Tm) : Bool :=
  match fcStrlcpy expr 64 with
  | .error _ => false
  | .ok copy => fieldsMatch fcFieldValueMatch copy tmv

/-- The minutes that a field selects, whatever its length. -/
def fieldSelects (field : CStr) (minv maxv value : Int) : Bool :=
  field = ['*'] || (strtok (· == ',') field).any (elementMatch minv maxv value)

/-- The meaning of an expression of any length: the minutes that it selects. -/
def CronSelects (expr : CStr) (tmv : Tm) : Prop := fieldsMatch fieldSelects expr tmv = true

instance (expr : CStr) (tmv : Tm) : Decidable (CronSelects expr tmv) := inferInstanceAs (Decidable (_ = _))

theorem fcFieldValueMatch_of_lt {field : CStr} (h : field.length < 48) (minv maxv value : Int) :
    fcFieldValueMatch field minv maxv value = fieldSelects field minv maxv value := by
  have hcopy : fcStrlcpy field 48 = .ok field := by simp [fcStrlcpy, h]
  rw [fcFieldValueMatch, fieldSelects, hcopy]
  by_cases hstar : field = ['*'] <;> simp [hstar]

theorem fieldsMatch_congr {f g : CStr → Int → Int → Int → Bool} {expr : CStr}
    (h : ∀ field ∈ strtok (fun c => c == ' ' || c == '\t') expr, f field = g field) (tmv : Tm) :
    fieldsMatch f expr tmv = fieldsMatch g expr tmv := by
  unfold fieldsMatch
  split
  · rename_i min hour mday mon wday hfields
    have hmem : ∀ field ∈ [min, hour, mday, mon, wday], f field = g field := by
      intro field hfield
      rw [← hfields] at hfield
      exact h field (List.mem_of_mem_take hfield)
    rw [hmem min (by simp), hmem hour (by simp), hmem mday (by simp), hmem mon (by simp), hmem wday (by simp)]
  · rfl

/-- The matcher decides the meaning of every expression whose fields fit their
buffer. -/
theorem fcCronMatches_iff {expr : CStr} (h : expr.length < 48) (tmv : Tm) :
    fcCronMatches expr tmv = true ↔ CronSelects expr tmv := by
  have hcopy : fcStrlcpy expr 64 = .ok expr := by
    have hlt : expr.length < 64 := by omega
    simp [fcStrlcpy, hlt]
  have hfields : fieldsMatch fcFieldValueMatch expr tmv = fieldsMatch fieldSelects expr tmv := by
    refine fieldsMatch_congr (fun field hfield => ?_) tmv
    have hle := strtok_length_le hfield
    funext minv maxv value
    exact fcFieldValueMatch_of_lt (by omega) minv maxv value
  rw [fcCronMatches, hcopy, CronSelects, ← hfields]

theorem fieldSelects_number {field : CStr} {v minv maxv value : Int} (hstar : field ≠ ['*'])
    (htok : strtok (· == ',') field = [field]) (hslash : strchrCut '/' field = (field, none))
    (hdash : strchrCut '-' field = (field, none)) (hnum : fcParseUint field = .ok v)
    (h : fieldSelects field minv maxv value = true) : value = v := by
  have hrange : elementRange minv maxv field = .ok (v, v) := by
    rw [elementRange, if_neg hstar, hdash, hnum]
    rfl
  simp only [fieldSelects, hstar, decide_false, Bool.false_or, htok, List.any_cons, List.any_nil, Bool.or_false,
    elementMatch, hslash, elementStep, hrange, Bool.and_eq_true, decide_eq_true_eq] at h
  omega

example : fcCronMatches "0,30 8-18/2 * 1 1-5".toList (gmtime 1767600000) = true ∧
    fcCronMatches "15 8-18/2 * 1 1-5".toList (gmtime 1767600000) = false := by decide

end FruitClaw
