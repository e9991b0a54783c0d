-- SUMMARY: Slices of byte arrays, copies over them, and numbers as bytes.
import Mathlib.Data.Nat.Digits.Lemmas

/-!
# Byte arrays

`overlay src dst m` is the array `dst` after its first `m` items were copied from `src`. A copy
that goes from the front to the back in pieces of any size passes through such arrays only.
-/

namespace Bytes

open List

variable {α : Type} {off n m : Nat} {l src dst : List α}

/-! ## Slices -/

def slice (l : List α) (off n : Nat) : List α := (l.drop off).take n

def splice (l : List α) (off : Nat) (data : List α) : List α := l.take off ++ data ++ l.drop (off + data.length)

def overlay (src dst : List α) (m : Nat) : List α := src.take m ++ dst.drop m

theorem length_slice (h : off + n ≤ l.length) : (slice l off n).length = n := by
  rw [slice, length_take, length_drop]
  omega

theorem length_splice {data : List α} (h : off + data.length ≤ l.length) : (splice l off data).length = l.length := by
  simp only [splice, length_append, length_take, length_drop]
  omega

theorem take_splice (h : off ≤ l.length) (data : List α) :
    (splice l off data).take (off + data.length) = l.take off ++ data := by
  have hlength : (l.take off ++ data).length = off + data.length := by
    rw [length_append, length_take_of_le h]
  rw [splice, take_append_of_le_length (Nat.le_of_eq hlength.symm), take_of_length_le (Nat.le_of_eq hlength)]

theorem take_overlay (src dst : List α) : (overlay src dst src.length).take src.length = src := by
  rw [overlay, take_length, take_append_of_le_length (Nat.le_refl _), take_length]

theorem length_overlay (hsrc : m ≤ src.length) (hdst : m ≤ dst.length) : (overlay src dst m).length = dst.length := by
  simp only [overlay, length_append, length_take, length_drop]
  omega

theorem slice_append_slice (l : List α) (off n k : Nat) :
    slice l off n ++ slice l (off + n) k = slice l off (n + k) := by
  rw [slice, slice, slice, ← drop_drop, take_add]

theorem splice_overlay (hsrc : m + n ≤ src.length) (dst : List α) :
    splice (overlay src dst m) m (slice src m n) = overlay src dst (m + n) := by
  have htake : (src.take m).length = m := length_take_of_le (by omega)
  rw [splice, length_slice hsrc]
  simp only [overlay]
  rw [take_append_of_le_length (by omega), take_of_length_le (by omega), drop_append,
    drop_eq_nil_of_le (by omega), nil_append, htake, drop_drop, Nat.add_sub_cancel_left, slice,
    ← take_add]

theorem slice_overlay (hm : off + n ≤ m) (hsrc : m ≤ src.length) :
    slice (overlay src dst m) off n = slice src off n := by
  rw [slice, overlay, drop_append_of_le_length (by rw [length_take]; omega), take_append_of_le_length, slice,
    drop_take, take_take, Nat.min_eq_left (by omega)]
  rw [length_drop, length_take]
  omega

/-- A slice does not depend on what is behind it. -/
theorem slice_append_of_le (h : off + n ≤ l.length) (rest : List α) : slice (l ++ rest) off n = slice l off n := by
  rw [slice, drop_append_of_le_length (by omega), take_append_of_le_length (by rw [length_drop]; omega),
    slice]

theorem slice_mid (front part rest : List α) : slice (front ++ (part ++ rest)) front.length part.length = part := by
  rw [slice, drop_left, take_left]

theorem getElem?_slice (l : List α) (off n i : Nat) : (slice l off n)[i]? = if i < n then l[off + i]? else none := by
  rw [slice, getElem?_take, getElem?_drop]

theorem getElem?_overlay (h : m ≤ src.length) (dst : List α) (i : Nat) :
    (overlay src dst m)[i]? = if i < m then src[i]? else dst[i]? := by
  rw [overlay, getElem?_append, length_take_of_le h]
  split_ifs with hi
  · exact getElem?_take_of_lt hi
  rw [getElem?_drop]
  congr 1
  omega

theorem slice_slice {k j : Nat} (h : k + j ≤ n) : slice (slice l off n) k j = slice l (off + k) j := by
  rw [slice, slice, drop_take, drop_drop, take_take, Nat.min_eq_left (by omega), slice]

/-- A copy over an array that agrees with the source in a part leaves this part as it is. -/
theorem slice_overlay_of_agree (hsrc : m ≤ src.length) (h : slice src off n = slice dst off n) :
    slice (overlay src dst m) off n = slice src off n := by
  apply ext_getElem?
  intro i
  have hi := congrArg (·[i]?) h
  simp only [getElem?_slice] at hi ⊢
  rw [getElem?_overlay hsrc]
  split_ifs with hn hm
  · rfl
  · rw [if_pos hn, if_pos hn] at hi
    exact hi.symm
  · rfl

/-! ## Numbers -/

/-- The little-endian number of some bytes. -/
def leNat (bytes : List UInt8) : Nat := Nat.ofDigits 256 (bytes.map UInt8.toNat)

/-- The four bytes of a number. -/
def le32 (n : Nat) : List UInt8 := [n, n / 256, n / 256 ^ 2, n / 256 ^ 3].map UInt8.ofNat

theorem leNat_le32 (h : n < 2 ^ 32) : leNat (le32 n) = n := by
  simp only [leNat, le32, map_cons, map_nil, Nat.ofDigits_cons, Nat.ofDigits_nil, UInt8.toNat_ofNat']
  omega

/-- The big-endian number of some bytes. -/
def beNat (bytes : List UInt8) : Nat := leNat bytes.reverse

/-- The four bytes of a number in network order. -/
def be32 (n : Nat) : List UInt8 := (le32 n).reverse

@[simp] theorem length_be32 (n : Nat) : (be32 n).length = 4 := rfl

theorem beNat_be32 (h : n < 2 ^ 32) : beNat (be32 n) = n := by
  rw [beNat, be32, reverse_reverse, leNat_le32 h]

end Bytes
