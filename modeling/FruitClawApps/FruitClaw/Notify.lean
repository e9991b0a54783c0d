-- SUMMARY: The owner notifications: queue, worker and counters, and what holds between them.
import FruitClawApps.FruitClaw.Router
import Mathlib.Data.List.Flatten

/-!
# Owner notifications

Any thread may queue a notification for the owner, and one worker sends batches of them as messages.
A step is one section under a lock, or the sending of a message in between. The accepted
notifications, the batches and the messages are recorded for specifications.
-/

namespace FruitClaw.Notify

open List

/-- `FC_TG_NOTIFY_SEND_LEN`. -/
def sendLen : Nat := 2048

/-- A queued notification. -/
abbrev Line := CBuf 192

/-- The sizes of the queue and of a batch. -/
structure Setup where
  queueLen : Nat
  batchMax : Nat
  queueLen_pos : 0 < queueLen

/-- A message, and the notifications that it is made of. -/
structure Message where
  chatId : CStr
  text : CStr
  batch : List Line

/-- The next section of the worker. -/
inductive Pc where
  /-- Until there is a notification. -/
  | waiting
  /-- At `fc_telegram_first_allowed_chat`. -/
  | woken
  /-- Before a batch is taken, with the chat. -/
  | chosen (chat : Except Errno CStr)
  | sending (chat : Except Errno CStr) (batch : List Line) (text : CStr)
  /-- At the first section of `fc_telegram_record_notify_result`. -/
  | recording (ret : Ret) (count : Nat)
  /-- Between its two sections. -/
  | settling (count : Nat)

structure State where
  queue : RingBuffer Line
  inflight : Nat
  enqueued : Nat
  dropped : Nat
  sent : Nat
  failed : Nat
  started : Bool
  worker : Pc
  accepted : List Line
  taken : List (List Line)
  outbox : List Message

inductive Label where
  /-- `fc_telegram_notify_owner_async`, with the answer of `pthread_create`. -/
  | notify (text : Option CStr) (created : Ret)
  | wake
  /-- The first allowed chat, and the answer of `fc_telegram_transport_ready`. -/
  | choose (chat : Except Errno CStr) (ready : Bool)
  | collect
  /-- The answer of `fc_telegram_send_message`. -/
  | send (answer : Ret)
  | record
  | settle

/-! ## Steps -/

/-- The text with another line. -/
def addLine (text line : CStr) : CStr := if text = [] then line else text ++ '\n' :: line

/-- The loop that takes a batch: the notifications, the text made of them, and the queue
that is left. -/
def collectFrom : Nat → RingBuffer Line → CStr → List Line × CStr × RingBuffer Line
  | 0, queue, text => ([], text, queue)
  | n + 1, queue, text =>
    match queue.pop with
    | none => ([], text, queue)
    | some (line, rest) =>
      if sendLen < (addLine text line.str).length + 1 then ([], text, queue)
      else
        let (batch, text, left) := collectFrom n rest (addLine text line.str)
        (line :: batch, text, left)

/-- `fc_telegram_notify_owner_async`. -/
def fcTelegramNotifyOwnerAsync (s : State) (text : Option CStr) (created : Ret) : Ret × State :=
  match text.getD [], s.started, created with
  | [], _, _ => (.error .einval, s)
  | _, false, .error e => (.error e, s)
  | text, _, _ =>
    let s := { s with started := true }
    match s.queue.push (.copy 192 text) with
    | none => (.error .enospc, { s with dropped := (s.dropped + 1) % ulongSize })
    | some queue =>
      (.ok (),
        { s with
          queue := queue
          enqueued := (s.enqueued + 1) % ulongSize
          accepted := s.accepted ++ [.copy 192 text] })

/-- A step. A label that does not fit the place of the worker does nothing. -/
def step (cfg : Setup) (s : State) : Label → State
  | .notify text created => (fcTelegramNotifyOwnerAsync s text created).2
  | .wake =>
    match s.worker with
    | .waiting => if s.started && s.queue.count != 0 then { s with worker := .woken } else s
    | _ => s
  | .choose chat ready =>
    match s.worker, chat with
    -- the transport is not ready, and the notifications stay where they are
    | .woken, .ok chat => { s with worker := if ready then .chosen (.ok chat) else .waiting }
    | .woken, .error e => { s with worker := .chosen (.error e) }
    | _, _ => s
  | .collect =>
    match s.worker with
    | .chosen chat =>
      let (batch, text, queue) := collectFrom cfg.batchMax s.queue []
      { s with
        queue := queue
        inflight := s.inflight + batch.length
        worker := .sending chat batch text
        taken := s.taken ++ [batch] }
    | _ => s
  | .send answer =>
    match s.worker with
    | .sending (.ok chat) batch text =>
      { s with worker := .recording answer batch.length, outbox := s.outbox ++ [⟨chat, text, batch⟩] }
    | .sending (.error e) batch _ => { s with worker := .recording (.error e) batch.length }
    | _ => s
  | .record =>
    match s.worker with
    | .recording (.ok ()) count => { s with sent := (s.sent + count) % ulongSize, worker := .settling count }
    | .recording (.error _) count => { s with failed := (s.failed + count) % ulongSize, worker := .settling count }
    | _ => s
  | .settle =>
    match s.worker with
    | .settling count =>
      { s with inflight := if count ≤ s.inflight then s.inflight - count else 0, worker := .waiting }
    | _ => s

/-- The queue is empty and the worker has not started. -/
def start (cfg : Setup) : State where
  queue := .empty cfg.queueLen (.empty 192) cfg.queueLen_pos
  inflight := 0
  enqueued := 0
  dropped := 0
  sent := 0
  failed := 0
  started := false
  worker := .waiting
  accepted := []
  taken := []
  outbox := []

/-! ## What the counters say -/

/-- The notifications that are taken and not yet counted as sent or failed. -/
def Pc.unrecorded : Pc → Nat
  | .sending _ batch _ => batch.length
  | .recording _ count => count
  | _ => 0

/-- The notifications that are counted as sent or failed and still as in flight. -/
def Pc.recorded : Pc → Nat
  | .settling count => count
  | _ => 0

/-- The batch that is to be sent next, if there is one. -/
def Pc.pending : Pc → List (List Line)
  | .sending _ batch _ => [batch]
  | _ => []

/-- The notifications in flight, in the text that they are sent in. -/
def joined (batch : List Line) : CStr := ['\n'].intercalate (batch.map CBuf.str)

/-- What holds at every state. The counters are `unsigned long`. -/
structure Delivery (cfg : Setup) (s : State) : Prop where
  /-- The messages hold accepted notifications, in their order and none of them twice. -/
  order : (s.outbox.map Message.batch).flatten.Sublist s.accepted
  text : ∀ m ∈ s.outbox, m.text = joined m.batch
  /-- An accepted notification is sent, failed, in flight or queued. A batch whose result is
  being recorded is counted twice between the two sections. -/
  balance : (s.sent + s.failed + s.inflight + s.queue.count) % ulongSize =
    (s.accepted.length + s.worker.recorded) % ulongSize
  accepted : s.enqueued = s.accepted.length % ulongSize
  bounded : s.queue.count ≤ cfg.queueLen

/-! ## Batches -/

/-- What a batch is: the front of the queue, and its lines put together. -/
structure Collected (queue : RingBuffer Line) (text : CStr) (result : List Line × CStr × RingBuffer Line) : Prop where
  contents : queue.contents = result.1 ++ result.2.2.contents
  capacity : result.2.2.capacity = queue.capacity
  text : result.2.1 = result.1.foldl (fun text line => addLine text line.str) text

theorem collectFrom_collected (n : Nat) (queue : RingBuffer Line) (text : CStr) :
    Collected queue text (collectFrom n queue text) := by
  induction n generalizing queue text with
  | zero => exact ⟨rfl, rfl, rfl⟩
  | succ n ih =>
    unfold collectFrom
    split
    · exact ⟨rfl, rfl, rfl⟩
    rename_i line rest hpop
    split
    · exact ⟨rfl, rfl, rfl⟩
    obtain ⟨hcontents, hcapacity, htext⟩ := ih rest (addLine text line.str)
    refine ⟨?_, hcapacity.trans (RingBuffer.pop_capacity hpop), htext⟩
    rw [RingBuffer.pop_contents hpop, hcontents]
    rfl

theorem foldl_addLine {batch : List Line} (h : ∀ line ∈ batch, line.str ≠ []) {text : CStr} (htext : text ≠ []) :
    batch.foldl (fun text line => addLine text line.str) text =
      ['\n'].intercalate (text :: batch.map CBuf.str) := by
  induction batch generalizing text with
  | nil => simp
  | cons line batch ih =>
    rw [forall_mem_cons] at h
    have hadd : addLine text line.str = text ++ '\n' :: line.str := if_neg htext
    rw [foldl_cons, hadd, ih h.2 (by simp)]
    cases batch <;> simp [List.intercalate]

theorem foldl_addLine_nil {batch : List Line} (h : ∀ line ∈ batch, line.str ≠ []) :
    batch.foldl (fun text line => addLine text line.str) [] = joined batch := by
  cases batch with
  | nil => rfl
  | cons line batch =>
    rw [forall_mem_cons] at h
    exact foldl_addLine h.2 h.1

/-! ## The invariant -/

structure Inv (cfg : Setup) (s : State) : Prop where
  flow : s.taken.flatten ++ s.queue.contents = s.accepted
  outbox : (s.outbox.map Message.batch ++ s.worker.pending).Sublist s.taken
  text : ∀ m ∈ s.outbox, m.text = joined m.batch
  pending : ∀ chat batch text, s.worker = .sending chat batch text → text = joined batch
  lines : ∀ line ∈ s.accepted, line.str ≠ []
  counted : (s.sent + s.failed + s.worker.unrecorded) % ulongSize = s.taken.flatten.length % ulongSize
  inflight : s.inflight = s.worker.unrecorded + s.worker.recorded
  enqueued : s.enqueued = s.accepted.length % ulongSize
  capacity : s.queue.capacity = cfg.queueLen

section

variable {cfg : Setup} {s : State}

theorem inv_start : Inv cfg (start cfg) where
  flow := by simp [start]
  outbox := .slnil
  text := nofun
  pending := nofun
  lines := nofun
  counted := rfl
  inflight := rfl
  enqueued := rfl
  capacity := RingBuffer.capacity_empty _ _ cfg.queueLen_pos

theorem Inv.delivers (h : Inv cfg s) : Delivery cfg s where
  order := by
    have htaken : (s.outbox.map Message.batch).Sublist s.taken :=
      (sublist_append_left _ _).trans h.outbox
    rw [← h.flow]
    exact htaken.flatten.trans (sublist_append_left _ _)
  text := h.text
  balance := by
    have hlength := congrArg List.length h.flow
    rw [length_append, RingBuffer.contents_length] at hlength
    have hcounted := h.counted
    rw [h.inflight]
    unfold ulongSize at hcounted ⊢
    omega
  accepted := h.enqueued
  bounded := by
    rw [← h.capacity]
    exact s.queue.count_le

/-! ## Steps -/

theorem Inv.moves (h : Inv cfg s) {pc : Pc} (hpending : pc.pending = [])
    (hunrecorded : pc.unrecorded = s.worker.unrecorded) (hrecorded : pc.recorded = s.worker.recorded) :
    Inv cfg { s with worker := pc } where
  flow := h.flow
  outbox := by
    rw [hpending, append_nil]
    exact (sublist_append_left _ _).trans h.outbox
  text := h.text
  pending := by
    rintro chat batch text rfl
    cases hpending
  lines := h.lines
  counted := by rw [hunrecorded]; exact h.counted
  inflight := by rw [hunrecorded, hrecorded]; exact h.inflight
  enqueued := h.enqueued
  capacity := h.capacity

theorem inv_notify (h : Inv cfg s) (text : Option CStr) (created : Ret) :
    Inv cfg (step cfg s (.notify text created)) := by
  simp only [step, fcTelegramNotifyOwnerAsync]
  split
  · exact h
  · exact h
  rename_i hempty _
  split
  · exact ⟨h.flow, h.outbox, h.text, h.pending, h.lines, h.counted, h.inflight, h.enqueued, h.capacity⟩
  rename_i queue hpush
  refine ⟨?_, h.outbox, h.text, h.pending, ?_, h.counted, h.inflight, ?_,
    (RingBuffer.push_capacity hpush).trans h.capacity⟩
  · rw [RingBuffer.push_contents hpush, ← append_assoc, h.flow]
  · intro line hline
    rcases mem_append.mp hline with hline | hline
    · exact h.lines line hline
    rw [mem_singleton.mp hline, CBuf.copy_str]
    cases htext : text.getD [] with
    | nil => exact absurd htext hempty
    | cons c rest => exact cons_ne_nil _ _
  · rw [h.enqueued, length_append, Nat.mod_add_mod]
    rfl

theorem inv_collect (h : Inv cfg s) : Inv cfg (step cfg s .collect) := by
  unfold step
  dsimp only
  split
  · rename_i chat hworker
    obtain ⟨hcontents, hcapacity, htext⟩ := collectFrom_collected cfg.batchMax s.queue []
    have hunrecorded : s.worker.unrecorded = 0 := by rw [hworker]; rfl
    have hrecorded : s.worker.recorded = 0 := by rw [hworker]; rfl
    have hflow := h.flow
    have houtbox := h.outbox
    have hcounted := h.counted
    have hinflight := h.inflight
    rw [hcontents] at hflow
    rw [hworker] at houtbox
    -- The lines of the batch come from the queue, so none of them is empty.
    have hlines : ∀ line ∈ (collectFrom cfg.batchMax s.queue []).1, line.str ≠ [] := by
      intro line hline
      refine h.lines line ?_
      rw [← hflow, mem_append, mem_append]
      exact Or.inr (Or.inl hline)
    refine ⟨?_, ?_, h.text, ?_, h.lines, ?_, ?_, h.enqueued, hcapacity.trans h.capacity⟩
    · rw [flatten_concat, append_assoc]
      exact hflow
    · exact List.Sublist.append (by simpa [Pc.pending] using houtbox) (List.Sublist.refl _)
    · rintro chat' batch' text' heq
      cases heq
      rw [htext, foldl_addLine_nil hlines]
    · dsimp only [Pc.unrecorded]
      rw [flatten_concat, length_append]
      unfold ulongSize at hcounted ⊢
      omega
    · dsimp only [Pc.unrecorded, Pc.recorded]
      omega
  · exact h

theorem inv_send (h : Inv cfg s) (answer : Ret) : Inv cfg (step cfg s (.send answer)) := by
  unfold step
  dsimp only
  split
  · rename_i chat batch text hworker
    have houtbox := h.outbox
    have hcounted := h.counted
    have hinflight := h.inflight
    rw [hworker] at houtbox hcounted hinflight
    refine ⟨h.flow, ?_, ?_, nofun, h.lines, hcounted, hinflight, h.enqueued, h.capacity⟩
    · dsimp only [Pc.pending]
      rw [map_append, append_nil]
      exact houtbox
    intro m hm
    rcases mem_append.mp hm with hm | hm
    · exact h.text m hm
    · rw [mem_singleton.mp hm]
      exact h.pending _ batch text hworker
  · rename_i hworker
    exact h.moves rfl (by rw [hworker]; rfl) (by rw [hworker]; rfl)
  · exact h

theorem inv_record (h : Inv cfg s) : Inv cfg (step cfg s .record) := by
  have houtbox : (s.outbox.map Message.batch ++ []).Sublist s.taken := by
    rw [append_nil]
    exact (sublist_append_left _ _).trans h.outbox
  have hcounted := h.counted
  have hinflight := h.inflight
  unfold ulongSize at hcounted
  unfold step
  dsimp only
  split
  case h_3 => exact h
  all_goals
    rename_i hworker
    rw [hworker] at hcounted hinflight
    dsimp only [Pc.unrecorded, Pc.recorded] at hcounted hinflight
    refine ⟨h.flow, houtbox, h.text, nofun, h.lines, ?_, ?_, h.enqueued, h.capacity⟩
    · dsimp only [Pc.unrecorded]
      unfold ulongSize
      omega
    · dsimp only [Pc.unrecorded, Pc.recorded]
      omega

theorem inv_settle (h : Inv cfg s) : Inv cfg (step cfg s .settle) := by
  unfold step
  dsimp only
  split
  · rename_i count hworker
    have houtbox := h.outbox
    have hcounted := h.counted
    have hinflight := h.inflight
    rw [hworker] at houtbox hcounted hinflight
    dsimp only [Pc.unrecorded, Pc.recorded] at hcounted hinflight
    refine ⟨h.flow, houtbox, h.text, nofun, h.lines, hcounted, ?_, h.enqueued, h.capacity⟩
    dsimp only [Pc.unrecorded, Pc.recorded]
    rw [if_pos (by omega)]
    omega
  · exact h

theorem inv_step (s : State) (l : Label) (h : Inv cfg s) : Inv cfg (step cfg s l) := by
  cases l with
  | notify text created => exact inv_notify h text created
  | wake =>
    unfold step
    dsimp only
    split
    · rename_i hworker
      split
      · exact h.moves rfl (by rw [hworker]; rfl) (by rw [hworker]; rfl)
      · exact h
    · exact h
  | choose chat ready =>
    unfold step
    dsimp only
    split
    · rename_i hworker
      cases ready <;> exact h.moves rfl (by rw [hworker]; rfl) (by rw [hworker]; rfl)
    · rename_i hworker
      exact h.moves rfl (by rw [hworker]; rfl) (by rw [hworker]; rfl)
    · exact h
  | collect => exact inv_collect h
  | send answer => exact inv_send h answer
  | record => exact inv_record h
  | settle => exact inv_settle h

end

/-- At every state of every interleaving of producers and the worker, the messages hold the
notifications in the order in which they were accepted and none of them twice, and the
counters add up, except that a batch whose result is being recorded is counted twice
between the two sections of `fc_telegram_record_notify_result`. -/
theorem notify_delivery (cfg : Setup) (ls : List Label) :
    Transition.Always (step cfg) (Delivery cfg) (start cfg) ls := by
  refine Transition.always_induct (C := fun _ _ => True) (fun _ hI => hI.delivers)
    (fun s l hI _ => inv_step s l hI) inv_start (Transition.Meets.of_labels fun _ _ => trivial)

/-- The default sizes. -/
def defaultSetup : Setup := ⟨32, 6, by decide⟩

/-- One notification, up to the section in which it is counted as sent. -/
def oneNotification : List Label :=
  [.notify (some "hello".toList) (.ok ()), .wake, .choose (.ok "1".toList) true, .collect, .send (.ok ()), .record]

/-- The notification is sent and still in flight: one was accepted and two are counted. -/
theorem oneNotification_counted_twice :
    let s := Transition.run (step defaultSetup) (start defaultSetup) oneNotification
    s.accepted.length = 1 ∧ s.enqueued = 1 ∧ s.sent + s.failed + s.inflight + s.queue.count = 2 := by
  decide

end FruitClaw.Notify
