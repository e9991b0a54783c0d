-- SUMMARY: A socket that hands out what a peer sent in pieces, and receive loops.
import Mathlib.Data.List.Basic

/-!
# Receiving from a stream socket

A receive call returns a piece of the stream, at most as much as there is room for. A socket is
given by the pieces that arrive, so a statement about every way to split a stream is one about all
sockets with it.
-/

namespace Socket

open List

/-- What a receive call returns when the stream is used up. -/
inductive End where
  | closed | timeout | failed
deriving DecidableEq

structure Conn (α : Type) where
  /-- The pieces that have not been received. -/
  segments : List (List α)
  /-- What follows them. -/
  last : End
deriving DecidableEq

namespace Conn

variable {α : Type}

/-- The stream that has not been received. -/
def stream (c : Conn α) : List α := c.segments.flatten

/-- The next piece, cut to the room for it, and the pieces behind it. -/
def next (room : Nat) : List (List α) → Option (List α × List (List α))
  | [] => none
  | [] :: segments => next room segments
  | segment :: segments =>
    some (segment.take room, if segment.length ≤ room then segments else segment.drop room :: segments)

/-- One receive call. -/
def recv (c : Conn α) (room : Nat) : Except End (List α) × Conn α :=
  match next room c.segments with
  | none => (.error c.last, { c with segments := [] })
  | some (bytes, segments) => (.ok bytes, { c with segments := segments })

variable {c c' : Conn α} {room : Nat} {bytes : List α}

theorem next_some {segments rest : List (List α)} (hroom : 0 < room) (h : next room segments = some (bytes, rest)) :
    bytes ≠ [] ∧ bytes.length ≤ room ∧ segments.flatten = bytes ++ rest.flatten := by
  induction segments with
  | nil => cases h
  | cons segment segments ih =>
    cases segment with
    | nil => exact ih h
    | cons a segment =>
      obtain ⟨rfl, rfl⟩ := h
      refine ⟨?_, ?_, ?_⟩
      · simp [Nat.ne_of_gt hroom]
      · exact length_take_le _ _
      split
      · rw [take_of_length_le ‹_›, flatten_cons]
      · rw [flatten_cons, flatten_cons, ← append_assoc, take_append_drop]

theorem next_none {segments : List (List α)} (h : next room segments = none) : segments.flatten = [] := by
  induction segments with
  | nil => rfl
  | cons segment segments ih =>
    cases segment with
    | nil => exact ih h
    | cons a segment => cases h

theorem recv_ok (hroom : 0 < room) (h : c.recv room = (.ok bytes, c')) :
    bytes ≠ [] ∧ bytes.length ≤ room ∧ c.stream = bytes ++ c'.stream ∧ c'.last = c.last := by
  unfold recv at h
  split at h
  · cases h
  rename_i hnext
  cases h
  obtain ⟨hne, hle, hstream⟩ := next_some hroom hnext
  exact ⟨hne, hle, hstream, rfl⟩

theorem recv_error {e : End} (h : c.recv room = (.error e, c')) :
    c.stream = [] ∧ c'.stream = [] ∧ e = c.last ∧ c'.last = c.last := by
  unfold recv at h
  split at h
  · rename_i hnext
    cases h
    exact ⟨next_none hnext, rfl, rfl, rfl⟩
  · cases h

/-! ## Receiving a given number of items -/

/-- The loop that receives until `need` items are there. -/
def recvExact : Nat → Nat → Conn α → Except End (List α) × Conn α
  | 0, need, c => (if need = 0 then .ok [] else .error c.last, c)
  | fuel + 1, need, c =>
    if need = 0 then (.ok [], c)
    else
      match c.recv need with
      | (.error e, c) => (.error e, c)
      | (.ok bytes, c) =>
        match recvExact fuel (need - bytes.length) c with
        | (.error e, c) => (.error e, c)
        | (.ok more, c) => (.ok (bytes ++ more), c)

/-- What the loop receives comes from the front of the stream, which ends before it fails. -/
def Received (need : Nat) (c : Conn α) : Except End (List α) × Conn α → Prop
  | (.ok bytes, c') => bytes.length = need ∧ c.stream = bytes ++ c'.stream ∧ c'.last = c.last
  | (.error e, c') => c.stream.length < need ∧ c'.stream = [] ∧ e = c.last ∧ c'.last = c.last

theorem recvExact_received {fuel need : Nat} (hfuel : need ≤ fuel) (c : Conn α) :
    c.Received need (recvExact fuel need c) := by
  induction fuel generalizing need c with
  | zero =>
    obtain rfl : need = 0 := Nat.le_zero.mp hfuel
    exact ⟨rfl, rfl, rfl⟩
  | succ fuel ih =>
    rw [recvExact]
    split
    · exact ⟨Eq.symm ‹_›, rfl, rfl⟩
    rename_i hneed
    split
    · obtain ⟨hstream, hstream', he, hlast⟩ := recv_error ‹_›
      exact ⟨by rw [hstream]; exact Nat.pos_of_ne_zero hneed, hstream', he, hlast⟩
    rename_i bytes c₁ hrecv
    obtain ⟨hne, hle, hstream, hlast⟩ := recv_ok (Nat.pos_of_ne_zero hneed) hrecv
    have hpos := length_pos_of_ne_nil hne
    have hrest := @ih (need - bytes.length) (by omega) c₁
    split
    · rename_i hmore
      rw [hmore] at hrest
      obtain ⟨hshort, hstream', he, hlast'⟩ := hrest
      exact ⟨by rw [hstream, length_append]; omega, hstream', he.trans hlast, hlast'.trans hlast⟩
    rename_i hmore
    rw [hmore] at hrest
    obtain ⟨hlength, hstream', hlast'⟩ := hrest
    exact ⟨by rw [length_append, hlength]; omega, by rw [hstream, hstream', append_assoc], hlast'.trans hlast⟩

end Conn

end Socket
