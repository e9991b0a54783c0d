-- SUMMARY: A circular buffer without a count, and its list of unread elements.
import Mathlib.Data.List.Rotate
import FruitClawApps.Lib.Bytes

/-!
# Circular buffers without a count

The two indices are equal both if nothing is unread and if the array has been filled, and the buffer
is taken to be empty then. So what is written is lost if it fills the array.
-/

structure CircularBuffer (α : Type) where
  items : List α
  readp : Nat
  writep : Nat
  readp_lt : readp < items.length
  writep_lt : writep < items.length
deriving DecidableEq

namespace CircularBuffer

open Bytes List

variable {α : Type} (b : CircularBuffer α)

/-- The number of unread elements. -/
def length : Nat := if b.readp > b.writep then b.items.length - (b.readp - b.writep) else b.writep - b.readp

def free : Nat := if b.readp > b.writep then b.readp - b.writep else b.items.length - (b.writep - b.readp)

/-- The index behind another one. -/
def inc (p : Nat) : Nat := if p + 1 = b.items.length then 0 else p + 1

/-- The unread elements, oldest first. -/
def unread : List α := (b.items.rotate b.readp).take b.length

theorem items_pos : 0 < b.items.length := Nat.zero_lt_of_lt b.readp_lt

variable {p k : Nat} {xs : List α}

theorem inc_eq (hp : p < b.items.length) : b.inc p = (p + 1) % b.items.length := by
  rw [inc]
  split_ifs with h
  · rw [h, Nat.mod_self]
  · exact (Nat.mod_eq_of_lt (by omega)).symm

theorem length_lt : b.length < b.items.length := by
  have hw := b.writep_lt
  rw [length]
  split_ifs <;> omega

theorem length_add_free : b.length + b.free = b.items.length := by
  have hr := b.readp_lt
  have hw := b.writep_lt
  rw [length, free]
  split_ifs <;> omega

@[simp] theorem length_unread : b.unread.length = b.length := by
  rw [unread, length_take, length_rotate, Nat.min_eq_left (Nat.le_of_lt b.length_lt)]

theorem writep_eq : b.writep = (b.readp + b.length) % b.items.length := by
  have hr := b.readp_lt
  have hw := b.writep_lt
  rw [length]
  split_ifs with h
  · rw [show b.readp + (b.items.length - (b.readp - b.writep)) = b.writep + b.items.length by omega, Nat.add_mod_right,
      Nat.mod_eq_of_lt hw]
  · rw [Nat.add_sub_cancel' (by omega), Nat.mod_eq_of_lt hw]

theorem length_eq (hk : k < b.items.length) (h : b.writep = (b.readp + k) % b.items.length) : b.length = k := by
  have hr := b.readp_lt
  have hmod : (b.readp + k) % b.items.length =
      if b.readp + k < b.items.length then b.readp + k else b.readp + k - b.items.length := by
    split_ifs with hlt
    · exact Nat.mod_eq_of_lt hlt
    · rw [Nat.mod_eq_sub_mod (by omega), Nat.mod_eq_of_lt (by omega)]
  rw [hmod] at h
  rw [length]
  split_ifs at h ⊢ <;> omega

/-! ## Reading -/

/-- Moving the read index on. -/
def skip (k : Nat) : CircularBuffer α :=
  { b with readp := (b.readp + k) % b.items.length, readp_lt := Nat.mod_lt _ b.items_pos }

/-- Moving the read index to another one. -/
def seek (p : Nat) : CircularBuffer α :=
  { b with readp := p % b.items.length, readp_lt := Nat.mod_lt _ b.items_pos }

/-- Copying elements from an index on, across the end of the array if need be. -/
def fetch (p k : Nat) : List α :=
  if k > b.items.length - p then
    slice b.items p (b.items.length - p) ++ slice b.items 0 (k - (b.items.length - p))
  else slice b.items p k

variable {b}

theorem seek_eq_skip (h : p = (b.readp + k) % b.items.length) : b.seek p = b.skip k := by
  subst h
  simp only [seek, skip, Nat.mod_mod]

theorem length_skip (h : k ≤ b.length) : (b.skip k).length = b.length - k := by
  have hlt := b.length_lt
  refine length_eq _ ?_ ?_
  · change _ < b.items.length
    omega
  change b.writep = ((b.readp + k) % b.items.length + (b.length - k)) % b.items.length
  rw [Nat.mod_add_mod, Nat.add_assoc, Nat.add_sub_cancel' h]
  exact b.writep_eq

theorem unread_skip (h : k ≤ b.length) : (b.skip k).unread = b.unread.drop k := by
  have hlt := b.length_lt
  have hk : k ≤ (b.items.rotate b.readp).length := by
    rw [length_rotate]
    omega
  rw [unread, unread, length_skip h, drop_take]
  change (b.items.rotate ((b.readp + k) % b.items.length)).take _ = _
  rw [rotate_mod, ← rotate_rotate, rotate_eq_drop_append_take hk, take_append_of_le_length]
  rw [length_drop, length_rotate]
  omega

/-- An unread element is in the cell that is as far behind the read index. -/
theorem getElem?_unread (h : k < b.length) : b.unread[k]? = b.items[(b.readp + k) % b.items.length]? := by
  have hlt := b.length_lt
  rw [unread, getElem?_take_of_lt h, getElem?_rotate (by omega), Nat.add_comm]

theorem fetch_eq (hp : p < b.items.length) (hk : k ≤ b.items.length) : b.fetch p k = (b.items.rotate p).take k := by
  rw [fetch, rotate_eq_drop_append_take (Nat.le_of_lt hp), take_append, length_drop, take_take]
  split_ifs with h
  · have hend (n : Nat) (hn : b.items.length - p ≤ n) : (b.items.drop p).take n = b.items.drop p :=
      take_of_length_le (by rw [length_drop]; exact hn)
    rw [slice, slice, drop_zero, hend _ (Nat.le_refl _), hend k (by omega), Nat.min_eq_left (by omega)]
  · rw [slice, Nat.sub_eq_zero_of_le (by omega), Nat.zero_min, take_zero, append_nil]

theorem fetch_unread {j : Nat} (h : j + k ≤ b.length) :
    b.fetch ((b.readp + j) % b.items.length) k = slice b.unread j k := by
  have hlt := b.length_lt
  have hj : j ≤ (b.items.rotate b.readp).length := by
    rw [length_rotate]
    omega
  rw [fetch_eq (Nat.mod_lt _ b.items_pos) (by omega), rotate_mod, ← rotate_rotate,
    rotate_eq_drop_append_take hj, take_append_of_le_length, slice, unread, drop_take, take_take,
    Nat.min_eq_left (by omega)]
  rw [length_drop, length_rotate]
  omega

/-! ## Writing -/

variable (b)

/-- The array when elements have been stored from an index on, across the end of the array if need
be. -/
def store (p : Nat) (xs : List α) : List α :=
  if xs.length > b.items.length - p then
    splice (splice b.items p (xs.take (b.items.length - p))) 0 (xs.drop (b.items.length - p))
  else splice b.items p xs

variable {b}

theorem length_store (hp : p < b.items.length) (hxs : xs.length ≤ b.items.length) :
    (b.store p xs).length = b.items.length := by
  rw [store]
  split_ifs with h
  · have hfirst : (splice b.items p (xs.take (b.items.length - p))).length = b.items.length :=
      length_splice (by rw [length_take]; omega)
    rw [length_splice (by rw [length_drop, hfirst]; omega), hfirst]
  · exact length_splice (by omega)

theorem rotate_store (hp : p < b.items.length) (hxs : xs.length ≤ b.items.length) :
    (b.store p xs).rotate p = xs ++ (b.items.rotate p).drop xs.length := by
  have hlen := length_store hp hxs
  have hfront : (b.items.take p).length = p := length_take_of_le (Nat.le_of_lt hp)
  have hback : (b.items.drop p).length = b.items.length - p := length_drop
  rw [rotate_eq_drop_append_take (by omega), rotate_eq_drop_append_take (Nat.le_of_lt hp), store]
  split_ifs with h
  · have hfirst : (xs.take (b.items.length - p)).length = b.items.length - p := length_take_of_le (by omega)
    have hwrapped : splice (splice b.items p (xs.take (b.items.length - p))) 0 (xs.drop (b.items.length - p)) =
        (xs.drop (b.items.length - p) ++ (b.items.take p).drop (xs.drop (b.items.length - p)).length) ++
          xs.take (b.items.length - p) := by
      rw [splice, splice, hfirst, drop_eq_nil_of_le (by omega : b.items.length ≤ p + (b.items.length - p)),
        append_nil, take_zero, nil_append, Nat.zero_add, drop_append_of_le_length,
        append_assoc]
      rw [hfront, length_drop]
      omega
    have hp' : (xs.drop (b.items.length - p) ++
        (b.items.take p).drop (xs.drop (b.items.length - p)).length).length = p := by
      simp only [length_append, length_drop, hfront]
      omega
    rw [hwrapped, drop_left' hp', take_left' hp', ← append_assoc, take_append_drop,
      drop_append, drop_eq_nil_of_le (by omega : (b.items.drop p).length ≤ xs.length), nil_append,
      hback, length_drop]
  · rw [splice, append_assoc, drop_left' hfront, take_left' hfront,
      drop_append_of_le_length (by omega), drop_drop, append_assoc]

/-- Storing at the write index and moving it on. -/
def write (b : CircularBuffer α) (xs : List α) (h : xs.length ≤ b.items.length) : CircularBuffer α where
  items := b.store b.writep xs
  readp := b.readp
  writep := (b.writep + xs.length) % b.items.length
  readp_lt := by
    rw [length_store b.writep_lt h]
    exact b.readp_lt
  writep_lt := by
    rw [length_store b.writep_lt h]
    exact Nat.mod_lt _ b.items_pos

/-- What is written becomes unread behind what was unread before, unless the array is filled. -/
theorem unread_write (h : xs.length ≤ b.items.length) (hroom : b.length + xs.length < b.items.length) :
    (b.write xs h).unread = b.unread ++ xs := by
  have hsize : (b.write xs h).items.length = b.items.length := length_store b.writep_lt h
  have hlength : (b.write xs h).length = b.length + xs.length := by
    refine length_eq _ (by rw [hsize]; exact hroom) ?_
    rw [hsize]
    change (b.writep + xs.length) % b.items.length = (b.readp + (b.length + xs.length)) % b.items.length
    rw [b.writep_eq, Nat.mod_add_mod, Nat.add_assoc]
  have hrotated : (b.items.rotate b.readp).length = b.items.length := length_rotate _ _
  have hwritep : b.items.rotate b.writep =
      (b.items.rotate b.readp).drop b.length ++ (b.items.rotate b.readp).take b.length := by
    rw [b.writep_eq, rotate_mod, ← rotate_rotate, rotate_eq_drop_append_take (by omega)]
  -- the read index is as far behind the write index as there is room
  have hreadp : b.readp = (b.writep + (b.items.length - b.length)) % (b.write xs h).items.length := by
    rw [hsize, b.writep_eq, Nat.mod_add_mod, Nat.add_assoc, Nat.add_sub_cancel' (by omega), Nat.add_mod_right,
      Nat.mod_eq_of_lt b.readp_lt]
  have hbehind : (xs ++ (b.items.rotate b.readp).drop (b.length + xs.length)).length = b.items.length - b.length := by
    rw [length_append, length_drop, hrotated]
    omega
  have hcycle : (b.write xs h).items.rotate b.readp =
      (b.items.rotate b.readp).take b.length ++ (xs ++ (b.items.rotate b.readp).drop (b.length + xs.length)) := by
    rw [hreadp, rotate_mod, ← rotate_rotate]
    change ((b.store b.writep xs).rotate b.writep).rotate _ = _
    rw [rotate_store b.writep_lt h, hwritep, drop_append_of_le_length (by rw [length_drop, hrotated]; omega),
      drop_drop, ← append_assoc, rotate_eq_drop_append_take, drop_left' hbehind,
      take_left' hbehind, ← hreadp]
    rw [length_append, hbehind]
    omega
  rw [unread, hlength]
  change ((b.write xs h).items.rotate b.readp).take _ = _
  have hlast : ((b.items.rotate b.readp).take b.length ++ xs).length = b.length + xs.length := by
    rw [length_append, length_take_of_le (by omega)]
  rw [hcycle, ← append_assoc, take_left' hlast, unread]

/-- Filling the array loses everything. -/
theorem unread_write_full (h : xs.length ≤ b.items.length) (hfull : b.length + xs.length = b.items.length) :
    (b.write xs h).unread = [] := by
  have hsize : (b.write xs h).items.length = b.items.length := length_store b.writep_lt h
  have hlength : (b.write xs h).length = 0 := by
    refine length_eq _ (by rw [hsize]; exact b.items_pos) ?_
    rw [hsize]
    change (b.writep + xs.length) % b.items.length = (b.readp + 0) % b.items.length
    rw [b.writep_eq, Nat.mod_add_mod, Nat.add_assoc, hfull, Nat.add_mod_right, Nat.add_zero]
  rw [unread, hlength, take_zero]

end CircularBuffer
