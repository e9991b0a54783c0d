-- SUMMARY: JSON documents, the accessors of cJSON, and its printer and parser.
import FruitClawApps.Lib.CLib
import Mathlib.Data.Rat.Defs

/-!
# JSON documents

The accessors follow `cJSON.h`: members are looked up without regard to letter case, the first match
counts, and a missing or wrongly typed item yields nothing. cJSON itself is not part of the modelled
sources. Its printer and its parser enter as a `CJson`, which states what the programs rely on.
-/

inductive Json where
  | null
  | bool (b : Bool)
  | num (v : Rat)
  | str (s : CStr)
  | arr (items : List Json)
  | obj (members : List (CStr × Json))

namespace Json

/-! ## Accessors -/

variable (j : Json) (name : CStr) (i : Int)

/-- `cJSON_GetObjectItem`. -/
def getObjectItem : Option Json :=
  match j with
  | .obj members => (members.find? fun m => m.1.map tolower == name.map tolower).map (·.2)
  | _ => none

/-- `cJSON_GetObjectItemCaseSensitive`. -/
def getObjectItemCaseSensitive : Option Json :=
  match j with
  | .obj members => (members.find? fun m => m.1 == name).map (·.2)
  | _ => none

/-- `cJSON_GetStringValue`. -/
def getStringValue : Json → Option CStr
  | .str s => some s
  | _ => none

/-- `cJSON_IsNumber` together with `valuedouble`. -/
def getNumber : Json → Option Rat
  | .num v => some v
  | _ => none

/-- `cJSON_IsTrue`. -/
def isTrue : Json → Bool
  | .bool b => b
  | _ => false

/-- `cJSON_IsObject`. -/
def isObject : Json → Bool
  | .obj _ => true
  | _ => false

/-- `cJSON_IsArray`. -/
def isArray : Json → Bool
  | .arr _ => true
  | _ => false

/-- The items that `cJSON_ArrayForEach` visits: the children of an array, and
those of an object too. -/
def children : Json → List Json
  | .arr items => items
  | .obj members => members.map (·.2)
  | _ => []

/-- A string member. -/
def stringMember : Option CStr := (j.getObjectItem name).bind getStringValue

/-- A number member. -/
def numberMember : Option Rat := (j.getObjectItem name).bind getNumber

/-- The cast of a double to `int64_t`: the fraction goes, and a value out of
range is cut to the range. -/
def int64OfDouble (v : Rat) : Int := max (-2 ^ 63) (min (2 ^ 63 - 1) (v.num.tdiv v.den))

/-! ## Documents with whole numbers -/

/-- Whole numbers that a double represents exactly. -/
def IsDouble : Prop := ∃ q e : Nat, q ≤ 2 ^ 53 ∧ i.natAbs = q * 2 ^ e

/-- `m / 2 ^ e`, rounded to the nearest integer and to an even one on ties. -/
def roundShift (m e : Nat) : Nat :=
  let q := m / 2 ^ e
  let r := m % 2 ^ e
  if 2 ^ e < 2 * r ∨ (2 * r = 2 ^ e ∧ q % 2 = 1) then q + 1 else q

/-- The conversion of an integer to a double: the significand has 53 bits. -/
def doubleOfInt : Int :=
  -- zero for a number that needs no more than 53 bits
  let e := i.natAbs.log2 + 1 - 53
  i.sign * (roundShift i.natAbs e * 2 ^ e : Nat)

theorem isDouble_of_le {i : Int} (h : i.natAbs ≤ 2 ^ 53) : IsDouble i := ⟨i.natAbs, 0, h, by simp⟩

theorem roundShift_le {m e : Nat} (h : m < 2 ^ (e + 53)) : roundShift m e ≤ 2 ^ 53 := by
  have hq : m / 2 ^ e < 2 ^ 53 := by
    rw [Nat.div_lt_iff_lt_mul (Nat.two_pow_pos e), ← Nat.pow_add, Nat.add_comm]
    exact h
  simp only [roundShift]
  split <;> omega

theorem doubleOfInt_isDouble : IsDouble (doubleOfInt i) := by
  by_cases h0 : i = 0
  · subst h0
    exact isDouble_of_le (by decide)
  have hlt : i.natAbs < 2 ^ (i.natAbs.log2 + 1) := Nat.lt_log2_self
  have hsign : i.sign.natAbs = 1 := Int.natAbs_sign_of_ne_zero h0
  refine ⟨roundShift i.natAbs (i.natAbs.log2 + 1 - 53), i.natAbs.log2 + 1 - 53, ?_, ?_⟩
  · exact roundShift_le (hlt.trans_le (Nat.pow_le_pow_right (by decide) (by omega)))
  · simp only [doubleOfInt]
    rw [Int.natAbs_mul, hsign, Nat.one_mul, Int.natAbs_natCast]

mutual
/-- Every number in the document is a whole number. -/
def Whole : Json → Prop
  | .num v => v.den = 1 ∧ IsDouble v.num
  | .arr items => WholeItems items
  | .obj members => WholeMembers members
  | _ => True

def WholeItems : List Json → Prop
  | [] => True
  | j :: js => Whole j ∧ WholeItems js

def WholeMembers : List (CStr × Json) → Prop
  | [] => True
  | (_, j) :: ms => Whole j ∧ WholeMembers ms
end

theorem wholeItems_of_forall {js : List Json} (h : ∀ j ∈ js, j.Whole) : WholeItems js := by
  induction js with
  | nil => trivial
  | cons j js ih =>
    exact ⟨h j List.mem_cons_self, ih fun k hk => h k (List.mem_cons_of_mem _ hk)⟩

end Json

/-! ## Printer and parser -/

/-- The printer and the parser of cJSON, with what its users rely on. -/
structure CJson where
  /-- `cJSON_PrintUnformatted`. -/
  print : Json → CStr
  /-- `cJSON_Parse`. -/
  parse : CStr → Option Json
  /-- A printed text is a C string. -/
  print_no_nul : ∀ j, '\x00' ∉ print j
  /-- Parsing inverts printing. -/
  parse_print : ∀ j, j.Whole → parse (print j) = some j
  /-- A printed array that is cut short is not a JSON text. -/
  parse_cut : ∀ items text, (Json.arr items).Whole → text <+: print (.arr items) →
    text ≠ print (.arr items) → parse text = none

/-- `cJSON_PrintUnformatted` puts no white space in front of an object. -/
structure CJsonUnformatted extends CJson where
  print_obj : ∀ members, ∃ rest, print (.obj members) = '\x7b' :: rest
