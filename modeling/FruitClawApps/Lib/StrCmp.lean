-- SUMMARY: The order of C strings, a total preorder on strings without NUL.
import FruitClawApps.Lib.CLib

/-!
# Comparing strings

The functions return the difference of the first two bytes that differ, where the end of a string
counts as a zero byte.
-/

def strncmp : Nat → CStr → CStr → Int
  | 0, _, _ => 0
  | _ + 1, [], [] => 0
  | _ + 1, [], d :: _ => -d.toNat
  | _ + 1, c :: _, [] => c.toNat
  | n + 1, c :: l, d :: r => if c ≠ d then c.toNat - d.toNat else strncmp n l r

def strcmp : CStr → CStr → Int
  | [], [] => 0
  | [], d :: _ => -d.toNat
  | c :: _, [] => c.toNat
  | c :: l, d :: r => if c ≠ d then c.toNat - d.toNat else strcmp l r

theorem strncmp_swap (n : Nat) (l r : CStr) : strncmp n r l = -strncmp n l r := by
  induction n generalizing l r with
  | zero => rfl
  | succ n ih =>
    cases l with
    | nil =>
      cases r with
      | nil => rfl
      | cons d r => exact (Int.neg_neg _).symm
    | cons c l =>
      cases r with
      | nil => rfl
      | cons d r =>
        rw [strncmp, strncmp]
        by_cases h : c = d
        · rw [if_neg (not_not.mpr h.symm), if_neg (not_not.mpr h), ih]
        · rw [if_pos (Ne.symm h), if_pos h, Int.neg_sub]

/-- A bound behind the end of one of the strings does not matter. -/
theorem strncmp_eq_strcmp {n : Nat} {l r : CStr} (h : max l.length r.length < n) : strncmp n l r = strcmp l r := by
  induction n generalizing l r with
  | zero => omega
  | succ n ih =>
    cases l with
    | nil => cases r <;> rfl
    | cons c l =>
      cases r with
      | nil => rfl
      | cons d r =>
        rw [List.length_cons, List.length_cons] at h
        rw [strncmp, strcmp, ih (by omega)]

theorem strcmp_swap (l r : CStr) : strcmp r l = -strcmp l r := by
  rw [← strncmp_eq_strcmp (Nat.lt_succ_self _), ← strncmp_eq_strcmp (Nat.lt_succ_self _), max_comm, strncmp_swap]

theorem toNat_pos_of_ne_nul {c : Char} (h : c ≠ '\x00') : 0 < c.toNat := by
  refine Nat.pos_of_ne_zero fun hzero => h ?_
  exact Char.toNat_inj.mp hzero

theorem strcmp_trans {l m r : CStr} (hl : '\x00' ∉ l) (hm : '\x00' ∉ m) (hlm : strcmp l m ≤ 0) (hmr : strcmp m r ≤ 0) :
    strcmp l r ≤ 0 := by
  induction l generalizing m r with
  | nil =>
    cases r with
    | nil => exact le_refl 0
    | cons e r =>
      rw [strcmp]
      omega
  | cons c l ih =>
    rw [List.mem_cons, not_or] at hl
    have hc := toNat_pos_of_ne_nul (Ne.symm hl.1)
    cases m with
    | nil =>
      rw [strcmp] at hlm
      omega
    | cons d m =>
      rw [List.mem_cons, not_or] at hm
      have hd := toNat_pos_of_ne_nul (Ne.symm hm.1)
      cases r with
      | nil =>
        rw [strcmp] at hmr
        omega
      | cons e r =>
        rw [strcmp] at hlm hmr ⊢
        by_cases hcd : c = d
        · rw [if_neg (not_not.mpr hcd)] at hlm
          by_cases hde : d = e
          · rw [if_neg (not_not.mpr hde)] at hmr
            rw [if_neg (not_not.mpr (hcd.trans hde))]
            exact ih hl.2 hm.2 hlm hmr
          rw [if_pos hde] at hmr
          rw [if_pos (hcd ▸ hde), hcd]
          exact hmr
        rw [if_pos hcd] at hlm
        have hlt : c.toNat ≠ d.toNat := fun h => hcd (Char.toNat_inj.mp h)
        by_cases hde : d = e
        · rw [← hde, if_pos hcd]
          exact hlm
        rw [if_pos hde] at hmr
        by_cases hce : c = e
        · rw [hce] at hlm hlt
          omega
        · rw [if_pos hce]
          omega
