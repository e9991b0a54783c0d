-- SUMMARY: Forests given by parent links, and how paths to the root overlap.
import Mathlib.Data.List.Chain
import Mathlib.Data.List.Infix
import Mathlib.Data.List.Nodup
import Mathlib.Logic.Relation

/-!
# Forests

A forest is a parent function whose links go to nodes of smaller depth. The path of a node lists the
node and its ancestors, innermost first. The path of an ancestor is a suffix of it.
-/

/-- Parent links without cycles. -/
structure Forest (V : Type*) where
  parent : V → Option V
  depth : V → Nat
  depth_lt : ∀ {v p}, parent v = some p → depth p < depth v

namespace Forest

open List

variable {V : Type*} (F : Forest V) {u v w : V}

/-- The nodes a loop along the parent links visits, with a bound on its length. -/
def climb (parent : V → Option V) : Nat → V → List V
  | 0, v => [v]
  | n + 1, v => v :: match parent v with
    | none => []
    | some p => climb parent n p

/-- The node and its ancestors, innermost first. -/
def path (v : V) : List V := climb F.parent (F.depth v) v

/-- The path of a node that may be missing. -/
def above : Option V → List V
  | none => []
  | some v => F.path v

/-- `a` is a proper ancestor of `v`. -/
def Above (a v : V) : Prop := a ∈ F.path v ∧ a ≠ v

/-- The part of the path below `top`, or all of it. -/
def upTo [DecidableEq V] (top : Option V) (v : V) : List V := (F.path v).takeWhile (some · ≠ top)

/-! ## Paths -/

theorem climb_of_parent_none (h : F.parent v = none) (n : Nat) : climb F.parent n v = [v] := by
  cases n <;> simp [climb, h]

theorem climb_of_depth_le {n m : Nat} (hn : F.depth v ≤ n) (hm : F.depth v ≤ m) :
    climb F.parent n v = climb F.parent m v := by
  induction n generalizing v m with
  | zero =>
    cases hp : F.parent v with
    | none => rw [F.climb_of_parent_none hp, F.climb_of_parent_none hp]
    | some p =>
      have := F.depth_lt hp
      omega
  | succ n ih =>
    cases hp : F.parent v with
    | none => rw [F.climb_of_parent_none hp, F.climb_of_parent_none hp]
    | some p =>
      have hlt := F.depth_lt hp
      obtain ⟨k, rfl⟩ : ∃ k, m = k + 1 := ⟨m - 1, by omega⟩
      have hrest : climb F.parent n p = climb F.parent k p := ih (by omega) (by omega)
      simp only [climb, hp, hrest]

theorem path_eq (v : V) : F.path v = v :: F.above (F.parent v) := by
  cases hp : F.parent v with
  | none => rw [path, F.climb_of_parent_none hp]; rfl
  | some p =>
    have hlt := F.depth_lt hp
    obtain ⟨k, hk⟩ : ∃ k, F.depth v = k + 1 := ⟨F.depth v - 1, by omega⟩
    have hrest : climb F.parent k p = F.path p := F.climb_of_depth_le (by omega) (Nat.le_refl _)
    simp only [path, hk, climb, hp, above, hrest]

/-- Induction along the parent links. -/
theorem induct {motive : V → Prop} (h : ∀ v, (∀ p, F.parent v = some p → motive p) → motive v) (v : V) :
    motive v := by
  induction hd : F.depth v using Nat.strong_induction_on generalizing v with
  | _ d ih => exact h v fun p hp => ih (F.depth p) (hd ▸ F.depth_lt hp) p rfl

@[simp] theorem mem_path_self (v : V) : v ∈ F.path v := by
  rw [path_eq]
  exact mem_cons_self

theorem mem_path_iff : u ∈ F.path v ↔ u = v ∨ u ∈ F.above (F.parent v) := by
  rw [path_eq, mem_cons]

theorem path_suffix (h : u ∈ F.path v) : F.path u <:+ F.path v := by
  induction v using F.induct with
  | h v ih =>
    rcases F.mem_path_iff.mp h with rfl | hup
    · exact suffix_refl _
    cases hp : F.parent v with
    | none => simp [hp, above] at hup
    | some p =>
      rw [F.path_eq v, hp]
      rw [hp] at hup
      exact (ih p hp hup).trans (suffix_cons _ _)

theorem path_trans (hu : u ∈ F.path v) (hv : v ∈ F.path w) : u ∈ F.path w :=
  (F.path_suffix hv).subset hu

theorem depth_le_of_mem (h : u ∈ F.path v) : F.depth u ≤ F.depth v := by
  induction v using F.induct with
  | h v ih =>
    rcases F.mem_path_iff.mp h with rfl | hup
    · exact Nat.le_refl _
    cases hp : F.parent v with
    | none => simp [hp, above] at hup
    | some p =>
      rw [hp] at hup
      exact Nat.le_of_lt (Nat.lt_of_le_of_lt (ih p hp hup) (F.depth_lt hp))

theorem mem_path_of_parent (h : F.parent v = some u) : u ∈ F.path v :=
  F.mem_path_iff.mpr (.inr (by rw [h]; exact F.mem_path_self u))

theorem depth_lt_of_mem_above (h : u ∈ F.above (F.parent v)) : F.depth u < F.depth v := by
  cases hp : F.parent v with
  | none => simp [hp, above] at h
  | some p =>
    rw [hp] at h
    exact Nat.lt_of_le_of_lt (F.depth_le_of_mem h) (F.depth_lt hp)

theorem not_mem_above_parent : v ∉ F.above (F.parent v) := fun h =>
  Nat.lt_irrefl _ (F.depth_lt_of_mem_above h)

theorem above_iff : F.Above u v ↔ u ∈ F.above (F.parent v) := by
  constructor
  · rintro ⟨hmem, hne⟩
    exact (F.mem_path_iff.mp hmem).resolve_left hne
  · intro h
    exact ⟨F.mem_path_iff.mpr (.inr h), fun he => F.not_mem_above_parent (he ▸ h)⟩

theorem pairwise_path (v : V) : (F.path v).Pairwise fun a b => F.Above b a := by
  induction v using F.induct with
  | h v ih =>
    rw [path_eq]
    refine pairwise_cons.mpr ⟨fun b hb => F.above_iff.mpr hb, ?_⟩
    cases hp : F.parent v with
    | none => exact List.Pairwise.nil
    | some p => exact ih p hp

theorem nodup_path (v : V) : (F.path v).Nodup :=
  (F.pairwise_path v).imp fun h => h.2.symm

theorem path_total (hu : u ∈ F.path v) (hw : w ∈ F.path v) : u ∈ F.path w ∨ w ∈ F.path u := by
  rcases suffix_or_suffix_of_suffix (F.path_suffix hu) (F.path_suffix hw) with h | h
  · exact .inl (h.subset (F.mem_path_self u))
  · exact .inr (h.subset (F.mem_path_self w))

theorem parent_ne_of_above (h : F.Above u v) : F.parent u ≠ F.parent v := by
  intro he
  rw [above_iff, ← he] at h
  exact F.not_mem_above_parent h

theorem parent_inj (hu : u ∈ F.path v) (hw : w ∈ F.path v) (h : F.parent u = F.parent w) : u = w := by
  by_contra hne
  rcases F.path_total hu hw with hup | hup
  · exact F.parent_ne_of_above ⟨hup, hne⟩ h
  · exact F.parent_ne_of_above ⟨hup, fun he => hne he.symm⟩ h.symm

theorem isChain_path (v : V) : (F.path v).IsChain fun a b => F.parent a = some b := by
  induction v using F.induct with
  | h v ih =>
    rw [path_eq]
    cases hp : F.parent v with
    | none => exact .singleton v
    | some p =>
      have htail := ih p hp
      change (v :: F.path p).IsChain _
      rw [F.path_eq p] at htail ⊢
      exact isChain_cons_cons.mpr ⟨hp, htail⟩

/-- The first node of the path that meets a condition has every other such node on its path. -/
theorem mem_above_find {C : V → Bool} (hw : w ∈ F.path v) (hC : C w = true) :
    w ∈ F.above ((F.path v).find? C) := by
  induction v using F.induct with
  | h v ih =>
    rw [F.path_eq v, find?_cons]
    cases hv : C v with
    | true => exact hw
    | false =>
      have hne : w ≠ v := by
        rintro rfl
        simp [hv] at hC
      have hup := F.above_iff.mp ⟨hw, hne⟩
      cases hp : F.parent v with
      | none => simp [hp, above] at hup
      | some p =>
        rw [hp] at hup
        exact ih p hp hup

/-- `top` is missing or on the path of `v`. -/
def Covers (top : Option V) (v : V) : Prop := ∀ t ∈ top, t ∈ F.path v

theorem Covers.of_mem {top : Option V} (h : F.Covers top u) (hu : u ∈ F.path v) : F.Covers top v :=
  fun t ht => F.path_trans (h t ht) hu

/-! ## The part below a node -/

section Parts

variable [DecidableEq V] {top : Option V}

theorem upTo_prefix (top : Option V) (v : V) : F.upTo top v <+: F.path v := takeWhile_prefix _

theorem upTo_self (v : V) : F.upTo (some v) v = [] := by
  simp [upTo, F.path_eq v]

theorem upTo_of_ne (h : some v ≠ top) :
    F.upTo top v = v :: (F.above (F.parent v)).takeWhile (some · ≠ top) := by
  simp [upTo, F.path_eq v, h]

/-- The parts below and above `top` make up the path. -/
theorem upTo_append (h : F.Covers top v) : F.upTo top v ++ F.above top = F.path v := by
  induction v using F.induct with
  | h v ih =>
    by_cases hv : some v = top
    · rw [← hv, upTo_self]
      rfl
    rw [F.upTo_of_ne hv, F.path_eq v, cons_append]
    congr 1
    have hup : ∀ t ∈ top, t ∈ F.above (F.parent v) := fun t ht =>
      F.above_iff.mp ⟨h t ht, fun he => hv (by rw [← he]; exact ht.symm)⟩
    cases hp : F.parent v with
    | none =>
      cases top with
      | none => rfl
      | some t => simpa [hp, above] using hup t rfl
    | some p =>
      rw [hp] at hup
      exact ih p hp hup

/-- The last node below `top` is its child. -/
theorem exists_reverse_upTo (h : F.Covers top v) (hne : some v ≠ top) :
    ∃ c rest, (F.upTo top v).reverse = c :: rest ∧ F.parent c = top := by
  induction v using F.induct with
  | h v ih =>
    cases hp : F.parent v with
    | none =>
      have htop : top = none := by
        cases top with
        | none => rfl
        | some t =>
          have hup := F.above_iff.mp ⟨h t rfl, fun he => hne (by rw [he])⟩
          simp [hp, above] at hup
      refine ⟨v, [], ?_, hp.trans htop.symm⟩
      rw [F.upTo_of_ne hne, hp]
      rfl
    | some p =>
      have hup : F.Covers top p := fun t ht => by
        have hmem := F.above_iff.mp ⟨h t ht, fun he => hne (by rw [← he]; exact ht.symm)⟩
        rwa [hp] at hmem
      have hsplit : F.upTo top v = v :: F.upTo top p := by
        rw [F.upTo_of_ne hne, hp]
        rfl
      by_cases htop : some p = top
      · refine ⟨v, [], ?_, hp.trans htop⟩
        rw [hsplit, ← htop, upTo_self, reverse_singleton]
      · obtain ⟨c, rest, hrev, hc⟩ := ih p hp hup htop
        exact ⟨c, rest ++ [v], by rw [hsplit, reverse_cons, hrev, cons_append], hc⟩

end Parts

end Forest
