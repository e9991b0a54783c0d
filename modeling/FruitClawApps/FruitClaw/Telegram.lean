-- SUMMARY: The Telegram poller, and exactly when no undelivered message is acknowledged.
import FruitClawApps.FruitClaw.Queue
import FruitClawApps.Lib.JsonText
import FruitClawApps.Lib.Transition
import Mathlib.Data.List.Nodup

/-!
# Polling Telegram

Each poll asks for the updates from `g_update_offset` on. One with a text from an allowed chat is
published, and acknowledged if the queue took it; every other one is acknowledged at once. To
acknowledge an update is to raise the offset past its id, which acknowledges every update before it
as well.
-/

namespace FruitClaw

open Json List

/-! ## Handling one update -/

/-- What handling an update takes from its surroundings. -/
structure TelegramEnv where
  idMs : Int
  seq : Nat
  tsMs : Int
  ownerMode : Bool

variable (root : DataRoot) (fs : FileStore) (env : TelegramEnv)

/-- The event that `fc_telegram_publish_message` builds. -/
def fcTelegramEvent (chatId text payload : CStr) : Event where
  id := fcMakeId "tg".toList env.idMs env.seq
  source := .copy 24 "telegram".toList
  type := .copy 32 "message.in".toList
  channel := .copy 24 "telegram".toList
  chatId := .copy 48 chatId
  sessionId := .copy 64 ("telegram:".toList ++ chatId)
  ownerMode := env.ownerMode
  text := .copy 1024 text
  payloadJson := .copy 8192 payload
  tsMs := env.tsMs

/-- `fc_telegram_publish_message`. -/
def fcTelegramPublishMessage (q : Queue) (chatId text payload : CStr) : Ret × Queue :=
  fcQueuePublish q (fcTelegramEvent env chatId text payload)

/-- `fc_telegram_chat_allowed`. -/
def fcTelegramChatAllowed (chatId : CStr) : Bool :=
  chatId ≠ [] && fileLists root fs "telegram_allowed_chats.txt".toList 79 chatId

def fcTelegramAckOffset (offset nextOffset : Int) : Int :=
  if nextOffset > offset then nextOffset else offset

def fcTelegramShouldAckOffset (ignorable : Bool) (publishRet : Ret) : Bool :=
  ignorable || publishRet.isOk

/-- `fc_telegram_finish_update`, as far as the offset is concerned. -/
def fcTelegramFinishUpdate (offset nextOffset : Int) (ignorable : Bool) (publishRet : Ret) : Int :=
  if fcTelegramShouldAckOffset ignorable publishRet then fcTelegramAckOffset offset nextOffset
  else offset

/-- What one call of `fc_telegram_handle_update` does. -/
structure Handled where
  offset : Int
  /-- The answer of `fc_queue_publish`, if it was called. -/
  publish : Option Ret
  queue : Queue

/-- `fc_telegram_handle_update` of `net/fc_telegram.c`. -/
def fcTelegramHandleUpdate (q : Queue) (offset : Int) (update : Json) : Handled :=
  let nextOffset :=
    match update.numberMember "update_id".toList with
    | some v => int64OfDouble v + 1
    | none => offset
  let ignore : Handled := ⟨fcTelegramFinishUpdate offset nextOffset true (.ok ()), none, q⟩
  match update.getObjectItem "message".toList with
  | none => ignore
  | some msg =>
    match msg.stringMember "text".toList with
    | none => ignore
    | some text =>
      match (msg.getObjectItem "chat".toList).bind (·.numberMember "id".toList) with
      | none => ignore
      | some v =>
        let chatId := (formatInt (int64OfDouble v)).take 47
        if !fcTelegramChatAllowed root fs chatId then ignore
        else
          let payload := ("\x7b\"chat_id\":\"".toList ++ chatId ++ "\"\x7d".toList).take 191
          let (ret, q) := fcTelegramPublishMessage env q chatId text payload
          ⟨fcTelegramFinishUpdate offset nextOffset false ret, some ret, q⟩

/-- The update carries a text message from an allowed chat. -/
def carriesAllowedText (update : Json) : Bool :=
  match update.getObjectItem "message".toList with
  | none => false
  | some msg =>
    (msg.stringMember "text".toList).isSome &&
      match (msg.getObjectItem "chat".toList).bind (·.numberMember "id".toList) with
      | none => false
      | some v => fcTelegramChatAllowed root fs ((formatInt (int64OfDouble v)).take 47)

/-- The id of an update. -/
def updateId (update : Json) : Int :=
  match update.numberMember "update_id".toList with
  | some v => int64OfDouble v
  | none => 0

section

variable {root : DataRoot} {fs : FileStore} {env : TelegramEnv} {q : Queue} {offset : Int} {u : Json}

theorem ackOffset_eq_max (offset next : Int) : fcTelegramAckOffset offset next = max offset next := by
  unfold fcTelegramAckOffset
  split <;> omega

theorem updateId_eq (hid : (u.numberMember "update_id".toList).isSome = true) (offset : Int) :
    (match u.numberMember "update_id".toList with
      | some v => int64OfDouble v + 1
      | none => offset) = updateId u + 1 := by
  obtain ⟨v, hv⟩ := Option.isSome_iff_exists.mp hid
  simp only [updateId, hv]

theorem handle_ignored (hid : (u.numberMember "update_id".toList).isSome = true)
    (h : carriesAllowedText root fs u = false) :
    fcTelegramHandleUpdate root fs env q offset u = ⟨max offset (updateId u + 1), none, q⟩ := by
  have hignore : fcTelegramFinishUpdate offset (updateId u + 1) true (.ok ()) =
      max offset (updateId u + 1) := ackOffset_eq_max _ _
  unfold fcTelegramHandleUpdate
  unfold carriesAllowedText at h
  simp only [updateId_eq hid, hignore]
  split
  · rfl
  rename_i msg hmsg
  simp only [hmsg] at h
  split
  · rfl
  rename_i text htext
  simp only [htext, Option.isSome_some, Bool.true_and] at h
  split
  · rfl
  rename_i v hv
  simp only [hv] at h
  simp [h]

variable (env offset) (hid : (u.numberMember "update_id".toList).isSome = true)
  (h : carriesAllowedText root fs u = true)
include hid h

variable (q) in
theorem handle_text : ∃ ev,
      (fcTelegramHandleUpdate root fs env q offset u).publish = some (fcQueuePublish q ev).1 ∧
      (fcTelegramHandleUpdate root fs env q offset u).offset =
        if (fcQueuePublish q ev).1.isOk then max offset (updateId u + 1) else offset := by
  unfold carriesAllowedText at h
  unfold fcTelegramHandleUpdate
  simp only [updateId_eq hid]
  split at h
  · cases h
  rename_i msg hmsg
  rw [Bool.and_eq_true] at h
  obtain ⟨text, htext⟩ := Option.isSome_iff_exists.mp h.1
  replace h := h.2
  simp only [htext]
  split at h
  · cases h
  rename_i v hv
  simp only [h, Bool.not_true, Bool.false_eq_true, if_false, fcTelegramPublishMessage,
    fcTelegramFinishUpdate, fcTelegramShouldAckOffset, Bool.false_or, ackOffset_eq_max]
  exact ⟨_, rfl, rfl⟩

theorem handle_accepted (hroom : q.hasRoom = true) :
    (fcTelegramHandleUpdate root fs env q offset u).publish = some (.ok ()) ∧
      (fcTelegramHandleUpdate root fs env q offset u).offset = max offset (updateId u + 1) := by
  obtain ⟨ev, hpublish, hoffset⟩ := handle_text env q offset hid h
  have hok : (fcQueuePublish q ev).1 = .ok () := fcQueuePublish_ok_iff.mpr hroom
  rw [hok] at hpublish hoffset
  exact ⟨hpublish, hoffset⟩

theorem handle_refused (hroom : q.hasRoom = false) :
    (∃ e, (fcTelegramHandleUpdate root fs env q offset u).publish = some (.error e)) ∧
      (fcTelegramHandleUpdate root fs env q offset u).offset = offset := by
  obtain ⟨ev, hpublish, hoffset⟩ := handle_text env q offset hid h
  cases hret : (fcQueuePublish q ev).1 with
  | ok x =>
    rw [fcQueuePublish_ok_iff.mp hret] at hroom
    cases hroom
  | error e =>
    rw [hret] at hpublish hoffset
    exact ⟨⟨e, hpublish⟩, hoffset⟩

end

/-! ## The poller -/

/-- `fc_telegram_load_offset`. -/
def fcTelegramLoadOffset (root : DataRoot) (fs : FileStore) : Int :=
  match fcDataPath root "telegram_offset".toList fcPathLen with
  | .error _ => 0
  | .ok path =>
    match fcReadTextFile none (fs path) 48 true with
    | .error _ => 0
    | .ok buf => strtoll buf

namespace Telegram

/-- The updates that the server has for the bot, in the order of their ids, and
the files that the bot starts with. Updates that were acknowledged before are not
among them. -/
structure Setup where
  root : DataRoot
  fs : FileStore
  updates : List Json
  numbered : ∀ u ∈ updates, (u.numberMember "update_id".toList).isSome = true
  increasing : updates.Pairwise fun u v => updateId u < updateId v
  fresh : ∀ u ∈ updates, 0 ≤ updateId u ∧ fcTelegramLoadOffset root fs ≤ updateId u

structure State where
  /-- `g_update_offset`. -/
  offset : Int
  /-- The updates of the current poll that are not handled yet. -/
  batch : List Json
  /-- A publish of the current poll failed. -/
  blocked : Bool
  /-- The ids of the updates for which `fc_queue_publish` returned 0. -/
  published : List Int

def start : State := ⟨-1, [], false, []⟩

inductive Label where
  /-- `fc_telegram_poll_once` up to the reply. Without a token it stops at once.
  A reply has the first `m` updates from the offset on. -/
  | poll (token : Bool) (reply : Option Nat)
  /-- `fc_telegram_handle_update` for the next update, with the main queue as it
  is then. -/
  | handle (env : TelegramEnv) (q : Queue)

variable (cfg : Setup)

/-- The updates that a poll with the given offset can return. -/
def Setup.pending (offset : Int) : List Json :=
  cfg.updates.filter (offset ≤ updateId ·)

def step (s : State) : Label → State
  | .poll token reply =>
    if s.batch ≠ [] ∨ token = false then s
    else
      -- Nothing was acknowledged while the offset is negative, so the file is
      -- still the one that the bot started with.
      let offset := if s.offset < 0 then fcTelegramLoadOffset cfg.root cfg.fs else s.offset
      match reply with
      | none => { s with offset := offset }
      | some m => { s with offset := offset, batch := (cfg.pending offset).take m, blocked := false }
  | .handle env q =>
    match s.batch with
    | [] => s
    | u :: rest =>
      let handled := fcTelegramHandleUpdate cfg.root cfg.fs env q s.offset u
      match handled.publish with
      | none => { s with offset := handled.offset, batch := rest }
      | some (.ok ()) =>
        { s with offset := handled.offset, batch := rest, published := s.published ++ [updateId u] }
      | some (.error _) => { s with offset := handled.offset, batch := rest, blocked := true }

/-- Every allowed text message that the offset has passed was accepted by the
main queue exactly once. -/
def Acknowledged (s : State) : Prop :=
  ∀ u ∈ cfg.updates, carriesAllowedText cfg.root cfg.fs u = true → updateId u < s.offset →
    s.published.count (updateId u) = 1

/-- After a failed publish, every later update of the same poll is an allowed
text message too and meets a full queue. -/
def Holds (s : State) : Label → Prop
  | .poll _ _ => True
  | .handle _ q =>
    ∀ u rest, s.batch = u :: rest → s.blocked = true →
      carriesAllowedText cfg.root cfg.fs u = true ∧ q.hasRoom = false

/-! ## The invariant -/

/-- The current batch is a piece of the updates. As long as no publish of the
poll failed, everything before it is settled. -/
structure Slice (cfg : Setup) (s : State) (before after : List Json) : Prop where
  split : cfg.updates = before ++ s.batch ++ after
  settled : s.blocked = false →
    (∀ v ∈ before, carriesAllowedText cfg.root cfg.fs v = true → updateId v ∈ s.published) ∧
      ∀ u ∈ s.batch, s.offset ≤ updateId u
  stuck : s.blocked = true →
    ∃ v ∈ before, carriesAllowedText cfg.root cfg.fs v = true ∧ updateId v ∉ s.published

structure Inv (cfg : Setup) (s : State) : Prop where
  acked : ∀ u ∈ cfg.updates, carriesAllowedText cfg.root cfg.fs u = true → updateId u < s.offset →
    updateId u ∈ s.published
  below : ∀ i ∈ s.published, 0 ≤ i ∧ i < s.offset
  nodup : s.published.Nodup
  slice : ∃ before after, Slice cfg s before after

variable {cfg : Setup} {s : State} {after rest before : List Json}

theorem inv_start : Inv cfg start where
  acked := by
    intro u hu _ hlt
    have := (cfg.fresh u hu).1
    simp only [start] at hlt
    omega
  below := by simp [start]
  nodup := nodup_nil
  slice := by
    refine ⟨[], cfg.updates, by simp [start], ?_, ?_⟩
    all_goals simp [start]

theorem Inv.acknowledged (h : Inv cfg s) : Acknowledged cfg s := fun u hu htext hlt =>
  count_eq_one_of_mem h.nodup (h.acked u hu htext hlt)

variable {u : Json}

theorem ids_around (h : cfg.updates = before ++ u :: rest ++ after) :
    (∀ v ∈ before, updateId v < updateId u) ∧ ∀ w ∈ rest ++ after, updateId u < updateId w := by
  have hinc := cfg.increasing
  rw [h, append_assoc, pairwise_append] at hinc
  obtain ⟨-, htail, hcross⟩ := hinc
  rw [cons_append, pairwise_cons] at htail
  exact ⟨fun v hv => hcross v hv u (by simp), htail.1⟩

theorem pending_split (cfg : Setup) (offset : Int) :
    cfg.updates = cfg.updates.filter (updateId · < offset) ++ cfg.pending offset := by
  unfold Setup.pending
  have hinc := cfg.increasing
  generalize cfg.updates = us at hinc
  induction us with
  | nil => rfl
  | cons u us ih =>
    rw [pairwise_cons] at hinc
    by_cases hu : updateId u < offset
    · have hnot : ¬ offset ≤ updateId u := by omega
      simp only [filter_cons, hu, hnot, decide_true, decide_false, if_true, Bool.false_eq_true, if_false,
        cons_append]
      rw [← ih hinc.2]
    -- From here on no id is below the offset.
    have hle : offset ≤ updateId u := by omega
    have hrest : us.filter (updateId · < offset) = [] := by
      rw [filter_eq_nil_iff]
      intro w hw
      have := hinc.1 w hw
      simp only [decide_eq_true_eq]
      omega
    have hih := ih hinc.2
    rw [hrest, nil_append] at hih
    simp only [filter_cons, hu, hle, decide_true, decide_false, if_true, Bool.false_eq_true, if_false,
      hrest, nil_append]
    rw [← hih]

theorem inv_poll (h : Inv cfg s) (token : Bool) (reply : Option Nat) :
    Inv cfg (step cfg s (.poll token reply)) := by
  simp only [step]
  split
  · exact h
  rename_i hidle
  have hbatch : s.batch = [] := by
    by_contra hne
    exact hidle (Or.inl hne)
  obtain ⟨before, after, hslice⟩ := h.slice
  generalize hoff : (if s.offset < 0 then fcTelegramLoadOffset cfg.root cfg.fs else s.offset) = offset
  have hbelow : ∀ i ∈ s.published, 0 ≤ i ∧ i < offset := by
    intro i hi
    have := h.below i hi
    omega
  have hacked : ∀ u ∈ cfg.updates, carriesAllowedText cfg.root cfg.fs u = true → updateId u < offset →
      updateId u ∈ s.published := by
    intro u hu htext hlt
    -- A bot that has just started reads the saved offset, which is not above any of the ids.
    split at hoff
    · have := (cfg.fresh u hu).2
      omega
    · exact h.acked u hu htext (hoff ▸ hlt)
  cases reply with
  | none =>
    refine ⟨hacked, hbelow, h.nodup, before, after, hslice.split, fun hfree => ?_, hslice.stuck⟩
    refine ⟨(hslice.settled hfree).1, ?_⟩
    simp [hbatch]
  | some m =>
    refine ⟨hacked, hbelow, h.nodup, cfg.updates.filter (updateId · < offset), (cfg.pending offset).drop m,
      ?_, fun _ => ⟨?_, ?_⟩, fun hstuck => by cases hstuck⟩
    · rw [append_assoc, take_append_drop]
      exact pending_split cfg offset
    · intro v hv htext
      obtain ⟨hmem, hlt⟩ := mem_filter.mp hv
      exact hacked v hmem htext (by simpa using hlt)
    · intro u hu
      have hmem := mem_of_mem_take hu
      simpa [Setup.pending] using (mem_filter.mp hmem).2

/-- Passing an update that is settled keeps everything before the rest of the
batch settled. -/
theorem inv_pass {published : List Int} (h : Inv cfg s) (hbatch : s.batch = u :: rest)
    (hslice : Slice cfg s before after) (hfree : s.blocked = false) (hsub : ∀ i ∈ s.published, i ∈ published)
    (hnew : ∀ i ∈ published, i ∈ s.published ∨ i = updateId u) (hnodup : published.Nodup)
    (hu : carriesAllowedText cfg.root cfg.fs u = true → updateId u ∈ published) :
    Inv cfg ⟨max s.offset (updateId u + 1), rest, s.blocked, published⟩ := by
  have hsplit := hslice.split
  rw [hbatch] at hsplit
  obtain ⟨hbefore, hafter⟩ := ids_around hsplit
  obtain ⟨hsettled, hfrom⟩ := hslice.settled hfree
  have huoff : s.offset ≤ updateId u := hfrom u (by simp [hbatch])
  have humem : u ∈ cfg.updates := by simp [hsplit]
  refine ⟨?_, ?_, hnodup, before ++ [u], after, ?_, fun _ => ⟨?_, ?_⟩, fun hstuck => ?_⟩
  · intro v hv htext hlt
    rw [hsplit, append_assoc, mem_append, cons_append, mem_cons] at hv
    rcases hv with hv | rfl | hv
    · exact hsub _ (hsettled v hv htext)
    · exact hu htext
    have := hafter v hv
    simp only at hlt
    omega
  · intro i hi
    rcases hnew i hi with hi | rfl
    · have := h.below i hi
      simp only
      omega
    have := (cfg.fresh u humem).1
    simp only
    omega
  · simp [hsplit]
  · intro v hv htext
    rw [mem_append, mem_singleton] at hv
    rcases hv with hv | rfl
    · exact hsub _ (hsettled v hv htext)
    · exact hu htext
  · intro w hw
    have := hafter w (mem_append_left _ hw)
    simp only
    omega
  · rw [hfree] at hstuck
    cases hstuck

/-- A refused message blocks the poll, and the offset stays in front of it. -/
theorem inv_refuse (h : Inv cfg s) (hbatch : s.batch = u :: rest) (hslice : Slice cfg s before after)
    (htext : carriesAllowedText cfg.root cfg.fs u = true) : Inv cfg ⟨s.offset, rest, true, s.published⟩ := by
  have hsplit := hslice.split
  rw [hbatch] at hsplit
  refine ⟨h.acked, h.below, h.nodup, before ++ [u], after, by simp [hsplit], (fun hfree => by cases hfree),
    fun _ => ?_⟩
  -- The witness of the blocked poll is an earlier refused message, or else this one.
  cases hblocked : s.blocked with
  | true =>
    obtain ⟨v, hv, hvtext, hvpub⟩ := hslice.stuck hblocked
    exact ⟨v, mem_append_left _ hv, hvtext, hvpub⟩
  | false =>
    have hfrom := (hslice.settled hblocked).2 u (by simp [hbatch])
    refine ⟨u, mem_append_right _ (mem_singleton_self u), htext, fun hmem => ?_⟩
    have := (h.below _ hmem).2
    omega

theorem Holds.not_blocked {env : TelegramEnv} {q : Queue} (hC : Holds cfg s (.handle env q))
    (hbatch : s.batch = u :: rest) (hpass : carriesAllowedText cfg.root cfg.fs u = false ∨ q.hasRoom = true) :
    s.blocked = false := by
  by_contra hblocked
  obtain ⟨htext, hfull⟩ := hC u rest hbatch (by simpa using hblocked)
  rw [htext, hfull] at hpass
  rcases hpass with h | h <;> cases h

theorem inv_handle (h : Inv cfg s) (env : TelegramEnv) (q : Queue) (hC : Holds cfg s (.handle env q)) :
    Inv cfg (step cfg s (.handle env q)) := by
  simp only [step]
  split
  · exact h
  rename_i u rest hbatch
  obtain ⟨before, after, hslice⟩ := h.slice
  have humem : u ∈ cfg.updates := by simp [hslice.split, hbatch]
  have hid := cfg.numbered u humem
  cases htext : carriesAllowedText cfg.root cfg.fs u with
  | false =>
    have hfree := hC.not_blocked hbatch (.inl htext)
    rw [handle_ignored hid htext]
    exact inv_pass h hbatch hslice hfree (fun i hi => hi) (fun i hi => Or.inl hi) h.nodup
      (by simp [htext])
  | true =>
    cases hroom : q.hasRoom with
    | true =>
      have hfree := hC.not_blocked hbatch (.inr hroom)
      obtain ⟨hpublish, hoffset⟩ := handle_accepted env s.offset hid htext hroom
      rw [hpublish, hoffset]
      refine inv_pass h hbatch hslice hfree (fun i hi => mem_append_left _ hi) ?_ ?_ ?_
      · intro i hi
        rwa [mem_append, mem_singleton] at hi
      · -- The ids accepted before are below the offset, and this one is not.
        have hfrom := (hslice.settled hfree).2 u (by simp [hbatch])
        rw [nodup_append]
        refine ⟨h.nodup, nodup_singleton _, fun i hi j hj => ?_⟩
        have := (h.below i hi).2
        rw [mem_singleton.mp hj]
        omega
      · exact fun _ => mem_append_right _ (mem_singleton_self _)
    | false =>
      obtain ⟨⟨e, hpublish⟩, hoffset⟩ := handle_refused env s.offset hid htext hroom
      rw [hpublish, hoffset]
      exact inv_refuse h hbatch hslice htext

theorem inv_step (l : Label) (h : Inv cfg s) (hC : Holds cfg s l) : Inv cfg (step cfg s l) := by
  cases l with
  | poll token reply => exact inv_poll h token reply
  | handle env q => exact inv_handle h env q hC

/-- An acknowledgement behind a failed publish passes the message that was not
accepted. -/
theorem not_acknowledged (l : Label) (h : Inv cfg s) (hC : ¬ Holds cfg s l) :
    ¬ Acknowledged cfg (step cfg s l) := by
  cases l with
  | poll token reply => exact absurd trivial hC
  | handle env q =>
    simp only [Holds, not_forall] at hC
    obtain ⟨u, rest, hbatch, hblocked, hno⟩ := hC
    obtain ⟨before, after, hslice⟩ := h.slice
    have hsplit := hslice.split
    rw [hbatch] at hsplit
    have hid := cfg.numbered u (by simp [hsplit])
    -- An earlier message `v` of the poll was refused. The step raises the offset past `u`, and so past `v`.
    obtain ⟨v, hv, hvtext, hvpub⟩ := hslice.stuck hblocked
    have hvu := (ids_around hsplit).1 v hv
    have hvmem : v ∈ cfg.updates := by simp [hsplit, hv]
    intro hack
    have hcount := hack v hvmem hvtext
    simp only [step, hbatch] at hcount
    cases htext : carriesAllowedText cfg.root cfg.fs u with
    | false =>
      rw [handle_ignored hid htext] at hcount
      have hone := hcount (by simp only; omega)
      rw [count_eq_zero_of_not_mem hvpub] at hone
      cases hone
    | true =>
      have hroom : q.hasRoom = true := by
        by_contra hfull
        exact hno ⟨htext, by simpa using hfull⟩
      obtain ⟨hpublish, hoffset⟩ := handle_accepted env s.offset hid htext hroom
      rw [hpublish, hoffset] at hcount
      have hone := hcount (by simp only; omega)
      have hnot : updateId v ∉ s.published ++ [updateId u] := by
        rw [mem_append, mem_singleton, not_or]
        exact ⟨hvpub, by omega⟩
      rw [count_eq_zero_of_not_mem hnot] at hone
      cases hone

/-- Along a run of polls, the offset never passes a message that was not accepted
exactly once if and only if, after a failed publish, the rest of the same poll is
refused as well. -/
theorem acknowledged_iff (cfg : Setup) (ls : List Label) :
    Transition.Always (step cfg) (Acknowledged cfg) start ls ↔
      Transition.Meets (step cfg) (Holds cfg) start ls :=
  Transition.always_iff_meets (fun _ h => h.acknowledged) (fun _ l h hC => inv_step l h hC)
    (fun _ l h hC => not_acknowledged l h hC) inv_start

/-- A text message from chat 7. -/
def textUpdate (id : Int) : Json :=
  .obj [("update_id".toList, .num id),
    ("message".toList, .obj [("text".toList, .str "hi".toList),
      ("chat".toList, .obj [("id".toList, .num 7)])])]

/-- Two messages from the allowed chat, on a device that has no offset saved. -/
def twoMessages : Setup where
  root := fcDataDir false
  fs := fun path =>
    if path = "/data/fruitclaw/telegram_allowed_chats.txt".toList then some "7\n".toList else none
  updates := [textUpdate 5, textUpdate 6]
  numbered := by
    intro u hu
    rcases mem_pair.mp hu with rfl | rfl <;> decide
  increasing := pairwise_pair.mpr (by decide)
  fresh := by
    intro u hu
    rcases mem_pair.mp hu with rfl | rfl <;> decide

def someEnv : TelegramEnv := ⟨0, 1, 0, true⟩

/-- The queue is full for the first message and has room for the second. The
first one is lost. -/
theorem acknowledged_skips : ¬ Transition.Always (step twoMessages) (Acknowledged twoMessages) start
    [.poll true (some 2), .handle someEnv fullQueue, .handle someEnv emptyQueue] := by
  rintro ⟨-, -, -, hlast⟩
  have hone := hlast (textUpdate 5) mem_cons_self (by decide) (by decide)
  exact absurd hone (by decide)

end Telegram

end FruitClaw
