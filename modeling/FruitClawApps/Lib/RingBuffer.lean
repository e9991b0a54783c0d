-- SUMMARY: A bounded ring buffer over an array, and its first-in first-out list.
import Mathlib.Data.List.Infix

/-!
# Ring buffers

The used cells of an array start at `head`, wrap around and stop before `tail`. The fields carry the
relation between the indices and the count. `contents` is the list that the buffer stands for.
-/

structure RingBuffer (α : Type) where
  items : List α
  head : Nat
  tail : Nat
  count : Nat
  head_lt : head < items.length
  count_le : count ≤ items.length
  tail_eq : tail = (head + count) % items.length

namespace RingBuffer

open List

variable {α : Type} {q q' : RingBuffer α} {x : α}

def capacity (q : RingBuffer α) : Nat := q.items.length

theorem capacity_pos (q : RingBuffer α) : 0 < q.items.length := Nat.zero_lt_of_lt q.head_lt

/-- The cell that lies `i` places behind the head. -/
def cell (q : RingBuffer α) (i : Nat) : α :=
  q.items.get ⟨(q.head + i) % q.items.length, Nat.mod_lt _ q.capacity_pos⟩

/-- The elements in the buffer, oldest first. -/
def contents (q : RingBuffer α) : List α := (range q.count).map q.cell

@[simp] theorem contents_length (q : RingBuffer α) : q.contents.length = q.count := by
  simp [contents]

theorem contents_length_le (q : RingBuffer α) : q.contents.length ≤ q.capacity := by
  rw [contents_length]
  exact q.count_le

/-! ## Operations -/

/-- An empty buffer over a fresh array. -/
def empty (n : Nat) (fill : α) (h : 0 < n) : RingBuffer α where
  items := replicate n fill
  head := 0
  tail := 0
  count := 0
  head_lt := by simpa using h
  count_le := Nat.zero_le _
  tail_eq := by simp

/-- Stores an element behind the last one, unless the buffer is full. -/
def push (q : RingBuffer α) (x : α) : Option (RingBuffer α) :=
  if h : q.count ≥ q.items.length then none
  else some
    { items := q.items.set q.tail x
      head := q.head
      tail := (q.tail + 1) % q.items.length
      count := q.count + 1
      head_lt := by simpa using q.head_lt
      count_le := by rw [length_set]; omega
      tail_eq := by
        rw [length_set, q.tail_eq, Nat.mod_add_mod]
        rfl }

/-- Takes the oldest element out. -/
def pop (q : RingBuffer α) : Option (α × RingBuffer α) :=
  if h : q.count = 0 then none
  else some
    (q.items.get ⟨q.head, q.head_lt⟩,
      { items := q.items
        head := (q.head + 1) % q.items.length
        tail := q.tail
        count := q.count - 1
        head_lt := Nat.mod_lt _ q.capacity_pos
        count_le := by have := q.count_le; omega
        tail_eq := by
          have hsum : q.head + 1 + (q.count - 1) = q.head + q.count := by omega
          rw [q.tail_eq, Nat.mod_add_mod, hsum] })

/-! ## The list view -/

@[simp] theorem contents_empty (n : Nat) (fill : α) (h : 0 < n) : (empty n fill h).contents = [] := rfl

@[simp] theorem capacity_empty (n : Nat) (fill : α) (h : 0 < n) : (empty n fill h).capacity = n := by
  simp [capacity, empty]

theorem push_eq_none_iff : q.push x = none ↔ q.contents.length = q.capacity := by
  have hle := q.count_le
  rw [contents_length, capacity]
  unfold push
  split
  · simp only [true_iff]
    omega
  · simp only [reduceCtorEq, false_iff]
    omega

/-- Different places behind the head, less than the capacity apart, are different
cells. -/
private theorem cell_index_ne {n i j : Nat} (head : Nat) (hi : i < j) (hj : j < n) :
    (head + j) % n ≠ (head + i) % n := by
  intro h
  have hzero := Nat.sub_mod_eq_zero_of_mod_eq h
  have hsub : (head + j) - (head + i) = j - i := by omega
  rw [hsub, Nat.mod_eq_of_lt (by omega)] at hzero
  omega

theorem push_contents (h : q.push x = some q') : q'.contents = q.contents ++ [x] := by
  unfold push at h
  split at h
  · cases h
  rename_i hcount
  cases h
  simp only [contents, range_succ, map_append, map_cons, map_nil]
  congr 1
  · -- The cells in use keep their elements, since the tail is none of them.
    refine map_congr_left fun i hi => ?_
    have hi' := mem_range.mp hi
    have hne := cell_index_ne q.head hi' (by omega : q.count < q.items.length)
    rw [← q.tail_eq] at hne
    simp [cell, hne]
  · simp [cell, ← q.tail_eq]

theorem push_capacity (h : q.push x = some q') : q'.capacity = q.capacity := by
  unfold push at h
  split at h
  · cases h
  · cases h
    simp [capacity]

theorem pop_contents (h : q.pop = some (x, q')) : q.contents = x :: q'.contents := by
  unfold pop at h
  split at h
  · cases h
  rename_i hcount
  cases h
  obtain ⟨n, hn⟩ : ∃ n, q.count = n + 1 := ⟨q.count - 1, by omega⟩
  simp only [contents, hn, range_succ_eq_map, map_cons, map_map, Nat.add_sub_cancel]
  congr 1
  · simp [cell, Nat.mod_eq_of_lt q.head_lt]
  -- The head has moved on by one, so each place behind it is one less.
  · refine map_congr_left fun i _ => ?_
    have hidx : (q.head + (i + 1)) % q.items.length =
        ((q.head + 1) % q.items.length + i) % q.items.length := by
      rw [Nat.mod_add_mod]
      congr 1
      omega
    simp [cell, hidx]

theorem pop_capacity (h : q.pop = some (x, q')) : q'.capacity = q.capacity := by
  unfold pop at h
  split at h
  · cases h
  · cases h
    rfl

end RingBuffer
