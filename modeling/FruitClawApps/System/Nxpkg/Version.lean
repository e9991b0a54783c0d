-- SUMMARY: Package versions: when the comparison orders them, and the latest entry.
import FruitClawApps.Lib.Decimal
import FruitClawApps.Lib.StrCmp
import Mathlib.Order.MinMax

/-!
# Versions of packages

`pkg_metadata.c` compares versions part by part. Two parts that start with a number are compared as
numbers, all others as text, and so is the rest from the first part on that does not fit 16 bytes.
Both orders at once are none: `10` is behind `9` as a number and before it as text.
-/

namespace System.Nxpkg

open List

abbrev versionMax : Nat := 31

/-- `pkg_string_cmp`. -/
def stringCmp (lhs : CStr) (lhsSize : Nat) (rhs : CStr) (rhsSize : Nat) : Int :=
  let lhsLen := min lhs.length lhsSize
  let rhsLen := min rhs.length rhsSize
  let cmpLen := max lhsLen rhsLen
  if lhsLen ≥ lhsSize ∨ rhsLen ≥ rhsSize then strncmp cmpLen lhs rhs else strncmp (cmpLen + 1) lhs rhs

/-- `pkg_metadata_version_token_cmp`. -/
def versionTokenCmp (lhs rhs : CStr) : Int :=
  let left := strtol 10 lhs
  let right := strtol 10 rhs
  if left.2 ≠ lhs ∧ right.2 ≠ rhs then
    if left.1 < right.1 then -1 else if left.1 > right.1 then 1 else 0
  else
    let ret := stringCmp lhs (versionMax + 1) rhs (versionMax + 1)
    if ret < 0 then -1 else if ret > 0 then 1 else 0

/-- The part in front of the first dot. -/
def token (s : CStr) : CStr := s.takeWhile (· ≠ '.')

/-- What is behind the first dot. -/
def afterToken (s : CStr) : CStr := (s.dropWhile (· ≠ '.')).drop 1

/-- `sizeof(leftbuf)`. -/
abbrev tokenSize : Nat := 16

/-- The loop of `pkg_metadata_version_cmp`. -/
def versionCmpLoop : Nat → CStr → CStr → Int
  | 0, _, _ => 0
  | fuel + 1, lhs, rhs =>
    if lhs = [] ∧ rhs = [] then 0
    else if (token lhs).length ≥ tokenSize ∨ (token rhs).length ≥ tokenSize then
      stringCmp lhs (versionMax + 1) rhs (versionMax + 1)
    else
      let ret := versionTokenCmp (token lhs) (token rhs)
      if ret ≠ 0 then ret else versionCmpLoop fuel (afterToken lhs) (afterToken rhs)

/-- `pkg_metadata_version_cmp`. Each turn of the loop consumes a character. -/
def versionCmp (lhs rhs : CStr) : Int :=
  let lhs := CStr.ofMem lhs
  let rhs := CStr.ofMem rhs
  versionCmpLoop (lhs.length + rhs.length) lhs rhs

/-! ## All versions -/

theorem stringCmp_swap (l : CStr) (n : Nat) (r : CStr) : stringCmp r n l n = -stringCmp l n r n := by
  rw [stringCmp, stringCmp]
  simp only [max_comm (min r.length n), or_comm (a := min r.length n ≥ n)]
  split_ifs
  all_goals exact strncmp_swap _ _ _

theorem versionTokenCmp_swap (l r : CStr) : versionTokenCmp r l = -versionTokenCmp l r := by
  rw [versionTokenCmp, versionTokenCmp]
  simp only [stringCmp_swap l, and_comm (a := (strtol 10 r).2 ≠ r)]
  by_cases hnum : (strtol 10 l).2 ≠ l ∧ (strtol 10 r).2 ≠ r
  · split_ifs <;> omega
  · split_ifs <;> omega

theorem versionCmpLoop_swap (n : Nat) (l r : CStr) : versionCmpLoop n r l = -versionCmpLoop n l r := by
  induction n generalizing l r with
  | zero => rfl
  | succ n ih =>
    rw [versionCmpLoop, versionCmpLoop]
    simp only [and_comm (a := r = []), or_comm (a := (token r).length ≥ tokenSize), stringCmp_swap l,
      versionTokenCmp_swap (token l), ih (afterToken l)]
    split_ifs <;> omega

/-- The order of the arguments decides the sign only. -/
theorem versionCmp_swap (l r : CStr) : versionCmp r l = -versionCmp l r := by
  rw [versionCmp, versionCmp, Nat.add_comm]
  exact versionCmpLoop_swap _ _ _

theorem versionCmp_self (v : CStr) : versionCmp v v = 0 := by
  have h := versionCmp_swap v v
  omega

variable {s r l t m : CStr}

theorem length_afterToken (h : s ≠ []) : (afterToken s).length < s.length := by
  rw [afterToken, length_drop]
  have hle := (dropWhile_suffix (· ≠ '.') : s.dropWhile _ <:+ s).length_le
  have hpos := length_pos_iff.mpr h
  omega

theorem afterToken_length_le (s : CStr) : (afterToken s).length ≤ s.length := by
  by_cases h : s = []
  · rw [h]
    exact le_refl _
  · exact (length_afterToken h).le

theorem versionCmpLoop_fuel {n m : Nat} (hn : l.length + r.length ≤ n) (hm : l.length + r.length ≤ m) :
    versionCmpLoop n l r = versionCmpLoop m l r := by
  have hempty (k : Nat) : versionCmpLoop k [] [] = 0 := by
    cases k with
    | zero => rfl
    | succ k => rw [versionCmpLoop, if_pos ⟨rfl, rfl⟩]
  induction n generalizing m l r with
  | zero =>
    have hl : l = [] := length_eq_zero_iff.mp (by omega)
    have hr : r = [] := length_eq_zero_iff.mp (by omega)
    rw [hl, hr, hempty, hempty]
  | succ n ih =>
    by_cases hboth : l = [] ∧ r = []
    · rw [hboth.1, hboth.2, hempty, hempty]
    -- one of the strings becomes shorter
    have hless : (afterToken l).length + (afterToken r).length < l.length + r.length := by
      have hl := afterToken_length_le l
      have hr := afterToken_length_le r
      by_cases hnil : l = []
      · have hlt := length_afterToken fun h => hboth ⟨hnil, h⟩
        omega
      · have hlt := length_afterToken hnil
        omega
    cases m with
    | zero => omega
    | succ m =>
      rw [versionCmpLoop, versionCmpLoop, ih (by omega) (by omega : _ ≤ m)]

/-! ## Regular versions -/

/-- The part fits the buffer, and if it starts with a number for `strtol`, it does so with a
digit. -/
def RegularToken (t : CStr) : Prop :=
  t.length < tokenSize ∧ ((strtol 10 t).2 ≠ t → t.head?.any Char.isDigit)

instance (t : CStr) : Decidable (RegularToken t) := inferInstanceAs (Decidable (_ ∧ _))

/-- All parts are regular. -/
def Regular (v : CStr) : Prop := ∀ t ∈ (CStr.ofMem v).splitOn '.', RegularToken t

/-- Text before digits, digits, and text behind digits. -/
def tokenRank : CStr → Nat
  | [] => 0
  | c :: _ => if c.toNat < 48 then 0 else if c.toNat ≤ 57 then 1 else 2

theorem isDigit_iff_toNat {c : Char} : c.isDigit = true ↔ 48 ≤ c.toNat ∧ c.toNat ≤ 57 := by
  simp only [Char.isDigit, Bool.and_eq_true, decide_eq_true_eq, UInt32.le_iff_toNat_le, ge_iff_le]
  exact Iff.rfl

theorem tokenRank_eq_one : tokenRank t = 1 ↔ t.head?.any Char.isDigit = true := by
  cases t with
  | nil => simp [tokenRank]
  | cons c t =>
    rw [tokenRank, head?_cons, Option.any_some, isDigit_iff_toNat]
    split_ifs with hlow hhigh
    · exact iff_of_false (by decide) (by omega)
    · exact iff_of_true rfl (by omega)
    · exact iff_of_false (by decide) (by omega)

theorem strtol_of_rank (h : tokenRank t = 1) : (strtol 10 t).2 ≠ t := by
  cases t with
  | nil => cases h
  | cons c t =>
    rw [tokenRank_eq_one, head?_cons, Option.any_some] at h
    exact strtol_rest_ne h t

theorem number_iff_rank (h : RegularToken t) : (strtol 10 t).2 ≠ t ↔ tokenRank t = 1 :=
  ⟨fun hnum => tokenRank_eq_one.mpr (h.2 hnum), strtol_of_rank⟩

theorem strcmp_of_rank_lt (h : tokenRank l < tokenRank r) (hr : '\x00' ∉ r) : strcmp l r < 0 := by
  cases r with
  | nil => cases h
  | cons d r =>
    have hd := toNat_pos_of_ne_nul fun hc => hr (hc ▸ mem_cons_self)
    cases l with
    | nil =>
      rw [strcmp]
      omega
    | cons c l =>
      rw [tokenRank, tokenRank] at h
      have hlt : c.toNat < d.toNat := by
        split_ifs at h <;> omega
      rw [strcmp, if_pos (fun heq => by rw [heq] at hlt; omega)]
      omega

theorem stringCmp_eq_strcmp {n : Nat} (hl : l.length < n) (hr : r.length < n) : stringCmp l n r n = strcmp l r := by
  rw [stringCmp, min_eq_left hl.le, min_eq_left hr.le, if_neg (by omega), strncmp_eq_strcmp (Nat.lt_succ_self _)]

/-- Regular parts are ordered by rank, and within a rank as numbers or as text. -/
theorem versionTokenCmp_le_iff (hl : RegularToken l) (hr : RegularToken r) (hl' : '\x00' ∉ l) (hr' : '\x00' ∉ r) :
    versionTokenCmp l r ≤ 0 ↔
      tokenRank l < tokenRank r ∨
        tokenRank l = tokenRank r ∧
          (tokenRank l = 1 → (strtol 10 l).1 ≤ (strtol 10 r).1) ∧ (tokenRank l ≠ 1 → strcmp l r ≤ 0) := by
  have hsize (t : CStr) (ht : RegularToken t) : t.length < versionMax + 1 := lt_trans ht.1 (by decide)
  rw [versionTokenCmp, stringCmp_eq_strcmp (hsize l hl) (hsize r hr)]
  simp only [number_iff_rank hl, number_iff_rank hr]
  by_cases hnum : tokenRank l = 1 ∧ tokenRank r = 1
  · rw [if_pos hnum]
    split_ifs <;> omega
  rw [if_neg hnum]
  rcases Nat.lt_trichotomy (tokenRank l) (tokenRank r) with hlt | heq | hgt
  · have hneg := strcmp_of_rank_lt hlt hr'
    rw [if_pos hneg]
    omega
  · split_ifs <;> omega
  have hneg := strcmp_of_rank_lt hgt hl'
  have hswap := strcmp_swap l r
  omega

theorem versionTokenCmp_trans (hl : RegularToken l) (hm : RegularToken m) (hr : RegularToken r) (hl' : '\x00' ∉ l)
    (hm' : '\x00' ∉ m) (hr' : '\x00' ∉ r) (hlm : versionTokenCmp l m ≤ 0) (hmr : versionTokenCmp m r ≤ 0) :
    versionTokenCmp l r ≤ 0 := by
  rw [versionTokenCmp_le_iff hl hm hl' hm'] at hlm
  rw [versionTokenCmp_le_iff hm hr hm' hr'] at hmr
  rw [versionTokenCmp_le_iff hl hr hl' hr']
  rcases hlm with hlm | ⟨hlm, hnum, htext⟩
  · left
    rcases hmr with hmr | ⟨hmr, -⟩ <;> omega
  rcases hmr with hmr | ⟨hmr, hnum', htext'⟩
  · left
    omega
  refine .inr ⟨by omega, fun hone => ?_, fun hone => ?_⟩
  · exact le_trans (hnum hone) (hnum' (by omega))
  · exact strcmp_trans hl' hm' (htext hone) (htext' (by omega))

theorem eq_token_append (h : '.' ∈ s) : s = token s ++ '.' :: afterToken s := by
  have hne : s.dropWhile (· ≠ '.') ≠ [] := by
    intro hnil
    have hall := dropWhile_eq_nil_iff.mp hnil '.' h
    exact absurd hall (by decide)
  obtain ⟨c, rest, hdrop⟩ := exists_cons_of_ne_nil hne
  have hc : c = '.' := by
    have hhead := head_dropWhile_not (· ≠ '.') hne
    simp only [hdrop, head_cons] at hhead
    simpa using hhead
  have hsplit := takeWhile_append_dropWhile (p := (· ≠ '.')) (l := s)
  rw [hdrop, hc] at hsplit
  rw [token, afterToken, hdrop, drop_one, tail_cons]
  exact hsplit.symm

theorem not_mem_token (s : CStr) : '.' ∉ token s := fun h => by
  simpa using mem_takeWhile_imp h

theorem splitOn_dot (s : CStr) :
    s.splitOn '.' = [s] ∧ token s = s ∧ afterToken s = [] ∨
      s.splitOn '.' = token s :: (afterToken s).splitOn '.' := by
  by_cases h : '.' ∈ s
  · right
    conv_lhs => rw [eq_token_append h]
    rw [splitOn_append_cons_self, splitOn_eq_singleton (not_mem_token s), singleton_append]
  have hall : ∀ c ∈ s, decide (c ≠ '.') = true := fun c hc => decide_eq_true fun heq => h (heq ▸ hc)
  refine .inl ⟨splitOn_eq_singleton h, takeWhile_eq_self_iff.mpr hall, ?_⟩
  rw [afterToken, dropWhile_eq_nil_iff.mpr hall, drop_nil]

/-- What the loop can be at in a regular version. -/
structure Scanned (s : CStr) : Prop where
  regular : ∀ t ∈ s.splitOn '.', RegularToken t
  noNul : '\x00' ∉ s

theorem Scanned.token (h : Scanned s) : RegularToken (token s) ∧ '\x00' ∉ token s := by
  refine ⟨?_, fun hmem => h.noNul ((List.takeWhile_prefix _).subset hmem)⟩
  rcases splitOn_dot s with ⟨hsplit, htoken, -⟩ | hsplit
  · exact h.regular _ (by rw [hsplit, htoken]; exact mem_singleton_self s)
  · exact h.regular _ (by rw [hsplit]; exact mem_cons_self)

theorem Scanned.afterToken (h : Scanned s) : Scanned (afterToken s) := by
  refine ⟨?_, fun hmem => h.noNul ((dropWhile_suffix _).subset (mem_of_mem_drop hmem))⟩
  rcases splitOn_dot s with ⟨-, -, hnil⟩ | hsplit
  · rw [hnil]
    decide
  · intro t ht
    exact h.regular t (by rw [hsplit]; exact mem_cons_of_mem _ ht)

theorem Regular.scanned {v : CStr} (h : Regular v) : Scanned (CStr.ofMem v) :=
  ⟨h, fun hmem => by simpa using mem_takeWhile_imp hmem⟩

/-- One turn of the loop at regular parts. -/
theorem versionCmpLoop_succ (hl : Scanned l) (hr : Scanned r) (n : Nat) : versionCmpLoop (n + 1) l r =
      if versionTokenCmp (token l) (token r) ≠ 0 then versionTokenCmp (token l) (token r)
      else versionCmpLoop n (afterToken l) (afterToken r) := by
  have hlong : ¬ ((token l).length ≥ tokenSize ∨ (token r).length ≥ tokenSize) := by
    have h₁ := hl.token.1.1
    have h₂ := hr.token.1.1
    omega
  rw [versionCmpLoop, if_neg hlong]
  by_cases hboth : l = [] ∧ r = []
  · obtain ⟨rfl, rfl⟩ := hboth
    have hzero : versionTokenCmp (token []) (token []) = 0 := by
      have hswap := versionTokenCmp_swap (token []) (token [])
      omega
    cases n with
    | zero | succ => rfl
  · rw [if_neg hboth]

theorem versionCmpLoop_trans (n : Nat) (hl : Scanned l) (hm : Scanned m) (hr : Scanned r)
    (hlm : versionCmpLoop n l m ≤ 0) (hmr : versionCmpLoop n m r ≤ 0) : versionCmpLoop n l r ≤ 0 := by
  induction n generalizing l m r with
  | zero => exact le_refl 0
  | succ n ih =>
    rw [versionCmpLoop_succ hl hm] at hlm
    rw [versionCmpLoop_succ hm hr] at hmr
    rw [versionCmpLoop_succ hl hr]
    obtain ⟨htl, hnl⟩ := hl.token
    obtain ⟨htm, hnm⟩ := hm.token
    obtain ⟨htr, hnr⟩ := hr.token
    have hlm' : versionTokenCmp (token l) (token m) ≤ 0 := by
      split_ifs at hlm <;> omega
    have hmr' : versionTokenCmp (token m) (token r) ≤ 0 := by
      split_ifs at hmr <;> omega
    have hlr := versionTokenCmp_trans htl htm htr hnl hnm hnr hlm' hmr'
    by_cases hzero : versionTokenCmp (token l) (token r) = 0
    · -- the outer parts are equal, and with them the one in the middle
      have hrl : versionTokenCmp (token r) (token l) ≤ 0 := by
        rw [versionTokenCmp_swap]
        omega
      have hml := versionTokenCmp_trans htm htr htl hnm hnr hnl hmr' hrl
      have hrm := versionTokenCmp_trans htr htl htm hnr hnl hnm hrl hlm'
      rw [versionTokenCmp_swap] at hml hrm
      have hlm₀ : versionTokenCmp (token l) (token m) = 0 := by omega
      have hmr₀ : versionTokenCmp (token m) (token r) = 0 := by omega
      rw [if_neg (not_not.mpr hlm₀)] at hlm
      rw [if_neg (not_not.mpr hmr₀)] at hmr
      rw [if_neg (not_not.mpr hzero)]
      exact ih hl.afterToken hm.afterToken hr.afterToken hlm hmr
    · rw [if_pos hzero]
      exact hlr

theorem versionCmp_trans (hl : Regular l) (hm : Regular m) (hr : Regular r) (hlm : versionCmp l m ≤ 0)
    (hmr : versionCmp m r ≤ 0) : versionCmp l r ≤ 0 := by
  rw [versionCmp] at hlm hmr ⊢
  -- the three loops can be given the same number of turns
  generalize hsum : (CStr.ofMem l).length + (CStr.ofMem m).length + (CStr.ofMem r).length = n
  rw [versionCmpLoop_fuel (le_refl _) (by omega : _ ≤ n)] at hlm hmr ⊢
  exact versionCmpLoop_trans n hl.scanned hm.scanned hr.scanned hlm hmr

/-! ## The latest entry -/

/-- `enum pkg_payload_type_e`. -/
inductive PayloadType where
  | elf | sharedLib
deriving DecidableEq

/-- `struct pkg_manifest_s`. -/
structure Manifest where
  name : CStr
  version : CStr
  arch : CStr
  compat : CStr
  artifact : CStr
  sha256 : CStr
  type : PayloadType
deriving DecidableEq

abbrev nameMax : Nat := 63

abbrev archMax : Nat := 31

abbrev compatMax : Nat := 63

/-- `pkg_string_equal`. -/
def stringEqual (lhs : CStr) (lhsSize : Nat) (rhs : CStr) (rhsSize : Nat) : Bool :=
  lhs.length < lhsSize ∧ rhs.length < rhsSize ∧ lhs = rhs

/-- What `pkg_runtime_arch` and `pkg_runtime_compat` return. -/
structure Runtime where
  arch : CStr
  compat : CStr

variable (rt : Runtime) (name : CStr)

/-- The entry passes the tests of `pkg_metadata_find_latest`. -/
def Compatible (m : Manifest) : Bool :=
  stringEqual m.name (nameMax + 1) name (nameMax + 1) &&
    (stringEqual m.arch (archMax + 1) rt.arch (archMax + 1) &&
      stringEqual m.compat (compatMax + 1) rt.compat (compatMax + 1))

/-- One turn of the loop of `pkg_metadata_find_latest`. -/
def considerCandidate (best : Option Manifest) (candidate : Manifest) : Option Manifest :=
  if !Compatible rt name candidate then best
  else
    match best with
    | none => some candidate
    | some b => if versionCmp candidate.version b.version > 0 then some candidate else some b

/-- `pkg_metadata_find_latest`. -/
def findLatest (index : List Manifest) (name : CStr) : Option Manifest :=
  index.foldl (considerCandidate rt name) none

/-- The best of the entries that have been considered. -/
def Best (seen : List Manifest) : Option Manifest → Prop
  | none => ∀ m ∈ seen, Compatible rt name m = false
  | some b => b ∈ seen ∧ Compatible rt name b = true ∧
      ∀ m ∈ seen, Compatible rt name m = true → versionCmp m.version b.version ≤ 0

/-- Of three compatible entries, each before the next, the first is before the last. -/
def Ordered (entries : List Manifest) : Prop :=
  ∀ a ∈ entries, ∀ b ∈ entries, ∀ c ∈ entries, Compatible rt name a = true → Compatible rt name b = true →
    Compatible rt name c = true → versionCmp a.version b.version < 0 → versionCmp b.version c.version < 0 →
      versionCmp a.version c.version < 0

theorem ordered_of_regular {rt : Runtime} {name : CStr} {entries : List Manifest}
    (h : ∀ m ∈ entries, Compatible rt name m = true → Regular m.version) : Ordered rt name entries := by
  intro a ha b hb c hc hac hbc hcc hab hbc'
  by_contra hge
  have hca := versionCmp_swap a.version c.version
  have hcb := versionCmp_swap b.version c.version
  have htrans := versionCmp_trans (h c hc hcc) (h a ha hac) (h b hb hbc) (by omega) hab.le
  omega

theorem best_considerCandidate {rt : Runtime} {name : CStr} {seen : List Manifest} {best : Option Manifest}
    {candidate : Manifest} (hordered : Ordered rt name (seen ++ [candidate]))
    (h : Best rt name seen best) : Best rt name (seen ++ [candidate]) (considerCandidate rt name best candidate) := by
  have hold {m : Manifest} (hm : m ∈ seen) : m ∈ seen ++ [candidate] := mem_append_left _ hm
  have hnew : candidate ∈ seen ++ [candidate] := mem_append_right _ (mem_singleton_self _)
  unfold considerCandidate
  by_cases hc : Compatible rt name candidate = true
  · rw [hc, Bool.not_true, if_neg Bool.false_ne_true]
    cases best with
    | none =>
      refine ⟨hnew, hc, fun m hm hcompat => ?_⟩
      rcases mem_append.mp hm with hm | hm
      · exact absurd ((h m hm).symm.trans hcompat) Bool.false_ne_true
      · rw [mem_singleton.mp hm, versionCmp_self]
    | some b =>
      obtain ⟨hb, hbc, hmax⟩ := h
      simp only
      split_ifs with hgt
      · refine ⟨hnew, hc, fun m hm hcompat => ?_⟩
        rcases mem_append.mp hm with hm' | hm'
        · by_contra hexceeds
          have hswap := versionCmp_swap candidate.version b.version
          have hswap' := versionCmp_swap m.version candidate.version
          have hbm := hordered b (hold hb) candidate hnew m hm hbc hc hcompat (by omega) (by omega)
          have hmb := hmax m hm' hcompat
          rw [versionCmp_swap] at hbm
          omega
        · rw [mem_singleton.mp hm', versionCmp_self]
      · refine ⟨hold hb, hbc, fun m hm hcompat => ?_⟩
        rcases mem_append.mp hm with hm | hm
        · exact hmax m hm hcompat
        · rw [mem_singleton.mp hm]
          omega
  · rw [Bool.not_eq_true] at hc
    rw [hc, Bool.not_false, if_pos rfl]
    cases best with
    | none =>
      intro m hm
      rcases mem_append.mp hm with hm | hm
      · exact h m hm
      · rw [mem_singleton.mp hm, hc]
    | some b =>
      obtain ⟨hb, hbc, hmax⟩ := h
      refine ⟨hold hb, hbc, fun m hm hcompat => ?_⟩
      rcases mem_append.mp hm with hm | hm
      · exact hmax m hm hcompat
      · rw [mem_singleton.mp hm, hc] at hcompat
        cases hcompat

theorem best_foldl {rt : Runtime} {name : CStr} (seen rest : List Manifest) {best : Option Manifest}
    (hordered : Ordered rt name (seen ++ rest)) (h : Best rt name seen best) :
    Best rt name (seen ++ rest) (rest.foldl (considerCandidate rt name) best) := by
  induction rest generalizing seen best with
  | nil =>
    rw [append_nil]
    exact h
  | cons m rest ih =>
    have hsplit : seen ++ m :: rest = (seen ++ [m]) ++ rest := by rw [append_assoc, singleton_append]
    rw [hsplit] at hordered ⊢
    have hin {x : Manifest} (hx : x ∈ seen ++ [m]) : x ∈ (seen ++ [m]) ++ rest := mem_append_left _ hx
    refine ih (seen ++ [m]) hordered (best_considerCandidate (fun a ha b hb c hc => ?_) h)
    exact hordered a (hin ha) b (hin hb) c (hin hc)

/-- The entry that is found is not compared with the second one. -/
theorem findLatest_cycle {rt : Runtime} {name : CStr} {a b c : Manifest} (ha : Compatible rt name a = true)
    (hb : Compatible rt name b = true) (hc : Compatible rt name c = true) (hca : versionCmp c.version a.version ≤ 0)
    (hab : versionCmp a.version b.version < 0) : findLatest rt [a, c, b] name = some b := by
  have hba := versionCmp_swap a.version b.version
  have hnot : ¬ versionCmp c.version a.version > 0 := by omega
  have hgt : versionCmp b.version a.version > 0 := by omega
  simp [findLatest, considerCandidate, ha, hb, hc, hnot, hgt]

/-- The digest of the text `ELF`. -/
def sampleDigest : CStr := "706abe3c90152075e656b661079730facf323f3ebccda7547ee1935c90845a09".toList

/-- An entry for one package and one board. -/
def sampleManifest (version : String) : Manifest where
  name := "app".toList
  version := version.toList
  arch := "arm".toList
  compat := "board".toList
  artifact := "app.elf".toList
  sha256 := sampleDigest
  type := .elf

def sampleRuntime : Runtime := ⟨"arm".toList, "board".toList⟩

end System.Nxpkg
