-- SUMMARY: Lexical paths, and when a path stays below a directory.
import Mathlib.Data.List.Infix

/-!
# Lexical paths

The components of a path are the pieces between slashes. Normalising walks them with a stack: empty
ones and `.` are skipped, `..` removes the last one. Nothing here looks at a file system.
-/

namespace LexicalPath

open List

abbrev Path := List Char

variable {xs ys : List (List Char)} (p : Path) {c : List Char}

def components : List (List Char) := p.splitOn '/'

/-- One step of the walk. -/
def push (stack : List (List Char)) (c : List Char) : List (List Char) :=
  if c = [] ∨ c = ['.'] then stack
  else if c = ['.', '.'] then stack.dropLast
  else stack ++ [c]

def normalise : List (List Char) := (components p).foldl push []

/-- `p` is the directory `dir`, given by its components, or lies below it. -/
def Below (dir : List (List Char)) (p : Path) : Prop := dir <+: normalise p

instance (dir : List (List Char)) (p : Path) : Decidable (Below dir p) :=
  inferInstanceAs (Decidable (_ <+: _))

/-! ## Components -/

theorem components_ne_nil : components p ≠ [] := splitOn_ne_nil _ _

theorem components_join (a b : Path) : components (a ++ '/' :: b) = components a ++ components b :=
  splitOn_append_cons_self a b

theorem components_of_not_mem {p : Path} (h : '/' ∉ p) : components p = [p] :=
  splitOn_eq_singleton h

@[simp] theorem components_slash : components ('/' :: p) = [] :: components p :=
  components_join [] p

theorem intercalate_components : ['/'].intercalate (components p) = p :=
  intercalate_splitOn '/'

private theorem intercalate_append {sep : List Char} (hxs : xs ≠ []) (hys : ys ≠ []) :
    sep.intercalate (xs ++ ys) = sep.intercalate xs ++ sep ++ sep.intercalate ys := by
  induction xs with
  | nil => exact absurd rfl hxs
  | cons x xs ih =>
    cases xs with
    | nil => simp [intercalate_cons_of_ne_nil hys]
    | cons y xs =>
      have hcons := ih (by simp)
      simp only [cons_append] at hcons ⊢
      simp [hcons]

theorem slash_infix_of_components {p : Path} (h : components p = xs ++ c :: ys) (hxs : xs ≠ []) : '/' :: c <:+: p := by
  rw [← intercalate_components p, h, intercalate_append hxs (by simp)]
  cases ys with
  | nil => exact ⟨['/'].intercalate xs, [], by simp⟩
  | cons y ys =>
    refine ⟨['/'].intercalate xs, '/' :: ['/'].intercalate (y :: ys), ?_⟩
    simp

theorem infix_slash_of_components {p : Path}
    (h : components p = xs ++ c :: ys) (hys : ys ≠ []) : c ++ ['/'] <:+: p := by
  have hsplit : xs ++ c :: ys = (xs ++ [c]) ++ ys := by simp
  rw [← intercalate_components p, h, hsplit, intercalate_append (by simp) hys]
  cases xs with
  | nil => exact ⟨[], ['/'].intercalate ys, by simp⟩
  | cons x xs =>
    rw [intercalate_append (by simp) (by simp)]
    exact ⟨['/'].intercalate (x :: xs) ++ ['/'], ['/'].intercalate ys, by simp⟩

theorem infix_of_components {p : Path} (h : components p = xs ++ c :: ys) (hxs : xs ≠ []) (hys : ys ≠ []) :
    '/' :: c ++ ['/'] <:+: p := by
  rw [← intercalate_components p, h, intercalate_append hxs (by simp),
    intercalate_cons_of_ne_nil hys]
  exact ⟨['/'].intercalate xs, ['/'].intercalate ys, by simp⟩

/-- The three ways a path can spell a parent reference as a component. -/
theorem parent_ref_of_mem {p : Path} (h : ['.', '.'] ∈ components p) :
    ['.', '.', '/'] <:+: p ∨ ['/', '.', '.'] <:+: p ∨ p = ['.', '.'] := by
  obtain ⟨xs, ys, hsplit⟩ := append_of_mem h
  by_cases hys : ys = []
  · by_cases hxs : xs = []
    · subst hxs hys
      have hp := intercalate_components p
      rw [hsplit] at hp
      exact .inr (.inr (by simpa using hp.symm))
    · exact .inr (.inl (slash_infix_of_components hsplit hxs))
  · exact .inl (infix_slash_of_components hsplit hys)

/-! ## Normalisation -/

theorem normalise_join (a b : Path) :
    normalise (a ++ '/' :: b) = (components b).foldl push (normalise a) := by
  rw [normalise, components_join, foldl_append]
  rfl

/-- An ordinary file name: a single component that the walk pushes. -/
def IsName (name : List Char) : Prop := '/' ∉ name ∧ name ≠ [] ∧ name ≠ ['.'] ∧ name ≠ ['.', '.']

instance (name : List Char) : Decidable (IsName name) := inferInstanceAs (Decidable (_ ∧ _ ∧ _ ∧ _))

theorem join_inj {a a' b b' : List Char} (ha : '/' ∉ a) (ha' : '/' ∉ a') (h : a ++ '/' :: b = a' ++ '/' :: b') :
    a = a' ∧ b = b' := by
  have hwhile {x : List Char} (hx : '/' ∉ x) (y : List Char) : (x ++ '/' :: y).takeWhile (· ≠ '/') = x := by
    rw [takeWhile_append_of_pos fun c hc => by simpa using fun heq : c = '/' => hx (heq ▸ hc)]
    simp
  have hname : a = a' := by rw [← hwhile ha b, h, hwhile ha']
  subst hname
  exact ⟨rfl, (List.cons.inj (append_cancel_left h)).2⟩

theorem normalise_join_name (a : Path) {name : List Char} (h : IsName name) :
    normalise (a ++ '/' :: name) = normalise a ++ [name] := by
  obtain ⟨hslash, hempty, hdot, hdots⟩ := h
  rw [normalise_join, components_of_not_mem hslash, foldl_cons, foldl_nil, push,
    if_neg (not_or.mpr ⟨hempty, hdot⟩), if_neg hdots]

@[simp] theorem normalise_slash : normalise ('/' :: p) = normalise p := by
  simp [normalise, push]

/-- Without a parent reference the walk only ever adds to the stack. -/
theorem prefix_foldl_push {cs : List (List Char)} (h : ['.', '.'] ∉ cs) (stack : List (List Char)) :
    stack <+: cs.foldl push stack := by
  induction cs generalizing stack with
  | nil => exact prefix_refl _
  | cons c cs ih =>
    have hc : c ≠ ['.', '.'] := fun heq => h (heq ▸ mem_cons_self)
    have hstep : stack <+: push stack c := by
      unfold push
      split
      · exact prefix_refl _
      · simp
    exact hstep.trans (ih (fun hmem => h (mem_cons_of_mem _ hmem)) _)

/-- A path that is extended without parent references stays below where it was. -/
theorem below_join {dir : List (List Char)} {a b : Path} (ha : Below dir a)
    (hb : ['.', '.'] ∉ components b) : Below dir (a ++ '/' :: b) := by
  have hpre := prefix_foldl_push hb (normalise a)
  rw [← normalise_join] at hpre
  exact ha.trans hpre

theorem below_self : Below (normalise p) p := prefix_refl _

/-- The walk keeps components in order and invents none. -/
theorem foldl_push_sublist (cs stack : List (List Char)) :
    List.Sublist (cs.foldl push stack) (stack ++ cs) := by
  induction cs generalizing stack with
  | nil => simp
  | cons c cs ih =>
    have hstep : List.Sublist (push stack c) (stack ++ [c]) := by
      unfold push
      split
      · simp
      split
      · exact (dropLast_sublist _).trans (by simp)
      · exact List.Sublist.refl _
    have hcs := (ih (push stack c)).trans (hstep.append_right cs)
    simpa using hcs

theorem normalise_sublist : List.Sublist (normalise p) (components p) := by
  simpa [normalise] using foldl_push_sublist (components p) []

/-- A component of the normal form of an absolute path that has something below
it stands between two slashes in the path itself. -/
theorem infix_of_normalise {p : Path} (h : normalise ('/' :: p) = xs ++ c :: ys) (hys : ys ≠ []) :
    '/' :: c ++ ['/'] <:+: '/' :: p := by
  have hsub := normalise_sublist p
  rw [← normalise_slash, h] at hsub
  -- The normal form picks its components from the path in order, so `c` is one of them, and it
  -- is followed there by whatever follows it here.
  obtain ⟨us, vs, hsplit, -, hvs⟩ := append_sublist_iff.mp hsub
  obtain ⟨ws, zs, hvsplit, hmem, hzs⟩ := cons_sublist_iff.mp hvs
  obtain ⟨w₁, w₂, hw⟩ := append_of_mem hmem
  refine @infix_of_components ([] :: (us ++ w₁)) (w₂ ++ zs) _ _ ?_ (by simp) ?_
  · simp [hsplit, hvsplit, hw]
  intro hnil
  have hzs_nil : zs = [] := (append_eq_nil_iff.mp hnil).2
  rw [hzs_nil] at hzs
  exact hys (sublist_nil.mp hzs)

/-! ## The parent directory -/

/-- The text before the last slash. -/
def parent : Path := ((p.reverse.dropWhile (· ≠ '/')).drop 1).reverse

theorem parent_join (a : Path) {b : Path} (h : '/' ∉ b) : parent (a ++ '/' :: b) = a := by
  have hdrop : (b.reverse ++ '/' :: a.reverse).dropWhile (· ≠ '/') = '/' :: a.reverse := by
    rw [dropWhile_append_of_pos]
    · simp
    intro c hc
    have hne : c ≠ '/' := fun heq => h (heq ▸ mem_reverse.mp hc)
    simpa using hne
  have hrev : (a ++ '/' :: b).reverse = b.reverse ++ '/' :: a.reverse := by simp
  rw [parent, hrev, hdrop]
  simp

theorem exists_split_parent {p : Path} (h : '/' ∈ p) :
    ∃ b, p = parent p ++ '/' :: b ∧ '/' ∉ b := by
  induction p with
  | nil => cases h
  | cons c p ih =>
    by_cases hp : '/' ∈ p
    · obtain ⟨b, hb, hnb⟩ := ih hp
      refine ⟨b, ?_, hnb⟩
      have hpar := parent_join (c :: parent p) hnb
      rw [cons_append, ← hb] at hpar
      rw [hpar, cons_append, ← hb]
    have hc : c = '/' := by
      rcases mem_cons.mp h with h | h
      · exact h.symm
      · exact absurd h hp
    subst hc
    exact ⟨p, by rw [show parent ('/' :: p) = [] from parent_join [] hp]; rfl, hp⟩

/-- Going down from `a` without parent references and dropping the last
component leads to `a` or below it. -/
theorem below_parent_join {dir : List (List Char)} {a b : Path} (ha : Below dir a)
    (hb : ['.', '.'] ∉ components b) : Below dir (parent (a ++ '/' :: b)) := by
  by_cases hslash : '/' ∈ b
  · obtain ⟨c, hsplit, hc⟩ := exists_split_parent hslash
    have hcomp := components_join (parent b) c
    rw [← hsplit] at hcomp
    have hpar : parent (a ++ '/' :: b) = a ++ '/' :: parent b := by
      have happ : a ++ '/' :: b = (a ++ '/' :: parent b) ++ '/' :: c := by
        rw [append_assoc, cons_append, ← hsplit]
      rw [happ, parent_join _ hc]
    rw [hpar]
    refine below_join ha fun hmem => hb ?_
    rw [hcomp]
    exact mem_append_left _ hmem
  · rw [parent_join a hslash]
    exact ha

end LexicalPath
