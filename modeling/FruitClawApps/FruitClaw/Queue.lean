-- SUMMARY: Events and the bounded event queues, with a lemma for each operation.
import FruitClawApps.FruitClaw.Config
import FruitClawApps.Lib.RingBuffer

/-!
# Event queues

The main queue and the agent queue are ring buffers of events. Each operation
runs under the lock of its queue, so it is one function from the queue to its
result and the queue it leaves behind.
-/

namespace FruitClaw

/-! ## Events -/

/-- `fc_event_t`. -/
structure Event where
  id : CBuf 40
  source : CBuf 24
  type : CBuf 32
  channel : CBuf 24
  chatId : CBuf 48
  sessionId : CBuf 64
  ownerMode : Bool
  text : CBuf 1024
  payloadJson : CBuf 8192
  tsMs : Int
deriving DecidableEq

/-- A zeroed event. -/
def Event.zero : Event where
  id := .empty _
  source := .empty _
  type := .empty _
  channel := .empty _
  chatId := .empty _
  sessionId := .empty _
  ownerMode := false
  text := .empty _
  payloadJson := .empty _
  tsMs := 0

/-- `fc_make_id`. -/
def fcMakeId (start : CStr) (nowMs : Int) (seq : Nat) : CBuf 40 :=
  .copy 40 (start ++ '-' :: formatInt nowMs ++ '-' :: Nat.toDigits 10 seq)

/-! ## Queues -/

/-- `fc_queue_t`. It is `none` until `fc_queue_init` succeeds. -/
abbrev Queue := Option (RingBuffer Event)

namespace Queue

def contents : Queue → List Event
  | none => []
  | some ring => ring.contents

def capacity : Queue → Nat
  | none => 0
  | some ring => ring.capacity

/-- The queue takes another event. -/
def hasRoom (q : Queue) : Bool := decide (q.contents.length < q.capacity)

end Queue

/-- `fc_queue_init` for queues of `n` events. `alloc` is the answer of the
allocator and of the initialisation of the lock. -/
def fcQueueInit (n : Nat) (hn : 0 < n) (alloc : Ret) (q : Queue) : Ret × Queue :=
  match q, alloc with
  | some ring, _ => (.ok (), some ring)
  | none, .error e => (.error e, none)
  | none, .ok () => (.ok (), some (.empty n .zero hn))

def fcQueuePublish (q : Queue) (ev : Event) : Ret × Queue :=
  match q with
  | none => (.error .einval, none)
  | some ring =>
    match ring.push ev with
    | none => (.error .enospc, some ring)
    | some ring => (.ok (), some ring)

/-- `fc_queue_receive`. On an empty queue the wait ends with the error `wake`. -/
def fcQueueReceive (wake : Errno) (q : Queue) : Except Errno Event × Queue :=
  match q with
  | none => (.error .einval, none)
  | some ring =>
    match ring.pop with
    | none => (.error wake, some ring)
    | some (ev, ring) => (.ok ev, some ring)

/-- A queue of the default size without an event, and one without room. -/
def emptyQueue : Queue := some (.empty 16 .zero (by decide))

@[inherit_doc emptyQueue]
def fullQueue : Queue := some ⟨List.replicate 16 .zero, 0, 0, 16, by decide, by decide, by decide⟩

/-! ## Specifications -/

variable {q q' : Queue} {ev : Event}

theorem fcQueuePublish_ok (h : fcQueuePublish q ev = (.ok (), q')) :
    q'.contents = q.contents ++ [ev] ∧ q'.capacity = q.capacity := by
  unfold fcQueuePublish at h
  split at h
  · cases h
  split at h
  · cases h
  rename_i hpush
  cases h
  exact ⟨RingBuffer.push_contents hpush, RingBuffer.push_capacity hpush⟩

theorem fcQueuePublish_error {e : Errno} (h : fcQueuePublish q ev = (.error e, q')) :
    q' = q ∧ q.contents.length = q.capacity := by
  unfold fcQueuePublish at h
  split at h
  · cases h
    exact ⟨rfl, rfl⟩
  split at h
  · rename_i hpush
    cases h
    exact ⟨rfl, RingBuffer.push_eq_none_iff.mp hpush⟩
  · cases h

/-- A publish succeeds exactly if the queue has room. -/
theorem fcQueuePublish_ok_iff : (fcQueuePublish q ev).1 = .ok () ↔ q.hasRoom = true := by
  unfold Queue.hasRoom
  rw [decide_eq_true_eq]
  cases h : fcQueuePublish q ev with
  | mk ret q' =>
    cases ret with
    | error e =>
      have hfull := (fcQueuePublish_error h).2
      simp [hfull]
    | ok u =>
      obtain ⟨hcont, hcap⟩ := fcQueuePublish_ok h
      have hle : q'.contents.length ≤ q'.capacity := by
        cases q' with
        | none => exact le_rfl
        | some ring => exact ring.contents_length_le
      rw [hcont, hcap, List.length_append, List.length_singleton] at hle
      simp only [true_iff]
      omega

theorem fcQueueReceive_ok {wake : Errno} (h : fcQueueReceive wake q = (.ok ev, q')) :
    q.contents = ev :: q'.contents ∧ q'.capacity = q.capacity := by
  unfold fcQueueReceive at h
  split at h
  · cases h
  split at h
  · cases h
  rename_i hpop
  cases h
  exact ⟨RingBuffer.pop_contents hpop, RingBuffer.pop_capacity hpop⟩

theorem fcQueueReceive_error {wake e : Errno} (h : fcQueueReceive wake q = (.error e, q')) : q' = q := by
  unfold fcQueueReceive at h
  split at h
  · cases h
    rfl
  split at h
  · cases h
    rfl
  · cases h

end FruitClaw
