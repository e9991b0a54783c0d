-- SUMMARY: Every action of an accepted event runs once, if none gets in front.
import FruitClawApps.System.Nxinit.Action
import Mathlib.Algebra.BigOperators.Group.List.Basic
import Mathlib.Algebra.Order.BigOperators.Group.Finset

/-!
# Events run their actions once

The actions that were ever queued are those of events that are gone from the slots, and those of the
first waiting event up to the cursor. The log is what they have run so far. An event that is put in
front of the first waiting one, while the cursor stands in the list, takes the cursor over.
-/

namespace System.Nxinit

open List

open Transition (run Meets)

variable {actions : List Action}

/-! ## The cursor -/

/-- The waiting events, in the order in which they are scanned. -/
def pendingOf (events : List (Option CStr)) : List CStr := events.filterMap id

/-- `queue` lists the actions that the cursor has passed. -/
structure Linked (actions : List Action) (accepted pending : List CStr) (current : Option Nat) (queue : List Nat) :
    Prop where
  pending_nodup : pending.Nodup
  pending_accepted : ∀ e ∈ pending, e ∈ accepted
  cursor : ∀ c ∈ current, ∃ e, pending.head? = some e ∧ trigger actions c = some e
  queued : ∀ a, a ∈ queue ↔ ∃ e, trigger actions a = some e ∧ e ∈ accepted ∧
    (e ∉ pending ∨ pending.head? = some e ∧ ∃ c ∈ current, a ≤ c)
  nodup : queue.Nodup
  order : queue.Pairwise fun a b => trigger actions a = trigger actions b → a < b

theorem lt_length_of_trigger {a : Nat} {e : CStr} (h : trigger actions a = some e) : a < actions.length := by
  by_contra hle
  simp [trigger, getElem?_eq_none (Nat.le_of_not_lt hle)] at h

theorem scan_eq_some {current : Option Nat} {e : CStr} {a : Nat} (h : scan actions current e = some a) :
    trigger actions a = some e ∧ (∀ c ∈ current, c < a) ∧
      ∀ b, trigger actions b = some e → b < a → ∃ c ∈ current, b ≤ c := by
  obtain ⟨htrigger, hmem, hfirst⟩ := find?_range'_eq_some.mp h
  rw [mem_range'_1] at hmem
  refine ⟨by simpa using htrigger, fun c hc => ?_, fun b hb hlt => ?_⟩
  · obtain rfl := hc
    simp only [Option.elim_some] at hmem
    omega
  cases current with
  | none => simpa [hb] using hfirst b (Nat.zero_le b) hlt
  | some c =>
    refine ⟨c, rfl, Nat.le_of_not_lt fun hcb => ?_⟩
    simpa [hb] using hfirst b hcb hlt

theorem scan_eq_none {current : Option Nat} {e : CStr} (h : scan actions current e = none) {b : Nat}
    (hb : trigger actions b = some e) : ∃ c ∈ current, b ≤ c := by
  have hlt := lt_length_of_trigger hb
  by_contra hno
  have hmem : b ∈ List.range' (current.elim 0 (· + 1)) (actions.length - current.elim 0 (· + 1)) := by
    rw [mem_range'_1]
    cases current with
    | none => simpa using hlt
    | some c =>
      have : ¬ b ≤ c := fun hle => hno ⟨c, rfl, hle⟩
      simp only [Option.elim_some]
      omega
  simpa [hb] using find?_eq_none.mp h b hmem

variable {accepted pending rest : List CStr} {current : Option Nat} {queue : List Nat} {e : CStr}

theorem Linked.found (h : Linked actions accepted (e :: rest) current queue) {a : Nat}
    (hscan : scan actions current e = some a) :
    Linked actions accepted (e :: rest) (some a) (queue ++ [a]) ∧ a ∉ queue := by
  obtain ⟨htrigger, hafter, hfirst⟩ := scan_eq_some hscan
  -- of this event the queue has the actions up to the old cursor
  have hold : ∀ b, trigger actions b = some e → b ∈ queue → b < a := by
    intro b hb hmem
    obtain ⟨e', he', -, hpassed⟩ := (h.queued b).mp hmem
    obtain rfl : e = e' := Option.some.inj (hb.symm.trans he')
    obtain ⟨-, c, hc, hle⟩ := hpassed.resolve_left fun hnot => hnot mem_cons_self
    exact Nat.lt_of_le_of_lt hle (hafter c hc)
  have hnot : a ∉ queue := fun hmem => Nat.lt_irrefl a (hold a htrigger hmem)
  refine ⟨⟨h.pending_nodup, h.pending_accepted, ?_, fun b => ?_, ?_, ?_⟩, hnot⟩
  · rintro c ⟨⟩
    exact ⟨e, rfl, htrigger⟩
  · rw [mem_append, h.queued b, mem_singleton]
    constructor
    · rintro (⟨e', he', hacc, hpassed⟩ | rfl)
      · refine ⟨e', he', hacc, hpassed.imp id fun ⟨hhead, c, hc, hle⟩ => ⟨hhead, a, rfl, ?_⟩⟩
        exact Nat.le_of_lt (Nat.lt_of_le_of_lt hle (hafter c hc))
      · exact ⟨e, htrigger, h.pending_accepted e mem_cons_self, .inr ⟨rfl, b, rfl, Nat.le_refl b⟩⟩
    rintro ⟨e', he', hacc, hpassed⟩
    rcases hpassed with hgone | ⟨hhead, c, ⟨⟩, hle⟩
    · exact .inl ⟨e', he', hacc, .inl hgone⟩
    obtain rfl : e = e' := Option.some.inj hhead
    rcases Nat.lt_or_eq_of_le hle with hlt | rfl
    · exact .inl ⟨e, he', hacc, .inr ⟨rfl, hfirst b he' hlt⟩⟩
    · exact .inr rfl
  · exact nodup_append.mpr ⟨h.nodup, nodup_singleton a, fun b hb c hc =>
      mem_singleton.mp hc ▸ fun heq => hnot (heq ▸ hb)⟩
  · refine pairwise_append.mpr ⟨h.order, pairwise_singleton _ a, fun b hb c hc heq => ?_⟩
    obtain rfl := mem_singleton.mp hc
    exact hold b (heq.trans htrigger) hb

theorem Linked.dropped (h : Linked actions accepted (e :: rest) current queue) (hscan : scan actions current e = none) :
    Linked actions accepted rest none queue := by
  have hnot : e ∉ rest := (nodup_cons.mp h.pending_nodup).1
  refine ⟨(nodup_cons.mp h.pending_nodup).2, fun e' he' => h.pending_accepted e' (mem_cons_of_mem e he'),
    fun c hc => (by cases hc), fun b => ?_, h.nodup, h.order⟩
  rw [h.queued b]
  constructor
  · rintro ⟨e', he', hacc, hpassed⟩
    refine ⟨e', he', hacc, .inl ?_⟩
    rcases hpassed with hgone | ⟨hhead, -⟩
    · exact fun hmem => hgone (mem_cons_of_mem e hmem)
    · exact Option.some.inj hhead ▸ hnot
  rintro ⟨e', he', hacc, hpassed⟩
  refine ⟨e', he', hacc, ?_⟩
  have hgone : e' ∉ rest := hpassed.resolve_right fun ⟨_, c, hc, _⟩ => by cases hc
  by_cases heq : e' = e
  · subst heq
    exact .inr ⟨rfl, scan_eq_none hscan he'⟩
  · exact .inl fun hmem => (mem_cons.mp hmem).elim heq hgone

/-- A new event that does not come in front of the one being scanned. -/
theorem Linked.added {front back : List CStr} (h : Linked actions accepted (front ++ back) current queue)
    (hnew : e ∉ accepted) (hfront : current = none ∨ front ≠ []) :
    Linked actions (accepted ++ [e]) (front ++ e :: back) current queue := by
  have hpending : ∀ {e'}, e' ∈ front ++ e :: back ↔ e' = e ∨ e' ∈ front ++ back := by
    intro e'
    simp only [mem_append, mem_cons]
    tauto
  have hhead : ∀ c ∈ current, (front ++ e :: back).head? = (front ++ back).head? := by
    intro c hc
    cases front with
    | nil => exact absurd rfl (hfront.resolve_left (by rintro rfl; cases hc))
    | cons x front => rfl
  have hnew' : e ∉ front ++ back := fun hmem => hnew (h.pending_accepted e hmem)
  refine ⟨?_, ?_, ?_, fun b => ?_, h.nodup, h.order⟩
  · exact (perm_middle.nodup_iff).mpr (nodup_cons.mpr ⟨hnew', h.pending_nodup⟩)
  · intro e' he'
    rcases hpending.mp he' with rfl | hold
    · exact mem_append_right _ (mem_singleton_self _)
    · exact mem_append_left _ (h.pending_accepted e' hold)
  · intro c hc
    rw [hhead c hc]
    exact h.cursor c hc
  rw [h.queued b]
  constructor
  · rintro ⟨e', he', hacc, hpassed⟩
    refine ⟨e', he', mem_append_left _ hacc, ?_⟩
    rcases hpassed with hgone | ⟨hfirst, c, hc, hle⟩
    · refine .inl fun hmem => ?_
      rcases hpending.mp hmem with rfl | hold
      · exact hnew hacc
      · exact hgone hold
    · exact .inr ⟨(hhead c hc).trans hfirst, c, hc, hle⟩
  rintro ⟨e', he', hacc, hpassed⟩
  have hne : e' ≠ e := by
    rintro rfl
    rcases hpassed with hgone | ⟨hfirst, c, hc, -⟩
    · exact hgone (hpending.mpr (.inl rfl))
    · rw [hhead c hc] at hfirst
      exact hnew' (mem_of_mem_head? hfirst)
  have hold : e' ∈ accepted := by simpa [hne] using hacc
  refine ⟨e', he', hold, ?_⟩
  rcases hpassed with hgone | ⟨hfirst, c, hc, hle⟩
  · exact .inl fun hmem => hgone (hpending.mpr (.inr hmem))
  · exact .inr ⟨(hhead c hc).symm.trans hfirst, c, hc, hle⟩

/-- One pass over the slots. -/
theorem Linked.pass (events : List (Option CStr))
    (h : Linked actions accepted (pendingOf events) current queue) :
    Linked actions accepted (pendingOf (updateSlots actions events current).1) (updateSlots actions events current).2.1
        (queue ++ (updateSlots actions events current).2.2.toList) ∧
      (∀ a ∈ (updateSlots actions events current).2.2, a ∉ queue) ∧
      ((updateSlots actions events current).2.2 = none → pendingOf (updateSlots actions events current).1 = []) := by
  induction events generalizing current with
  | nil =>
    simp only [updateSlots, Option.toList_none, append_nil]
    exact ⟨h, fun a ha => (by cases ha), fun _ => rfl⟩
  | cons slot events ih =>
    cases slot with
    | none => exact ih h
    | some e =>
      simp only [updateSlots]
      cases hscan : scan actions current e with
      | some a =>
        obtain ⟨hlinked, hnot⟩ := h.found hscan
        exact ⟨hlinked, fun b hb => Option.some.inj hb ▸ hnot, fun hnone => by cases hnone⟩
      | none => exact ih (h.dropped hscan)

/-- Where a new event gets among the waiting ones. -/
theorem fillSlot_eq_some {events events' : List (Option CStr)} (h : fillSlot e events = some events') :
    ∃ front back, pendingOf events = front ++ back ∧ pendingOf events' = front ++ e :: back ∧
      (events.head? ≠ some none → front ≠ []) := by
  induction events generalizing events' with
  | nil => cases h
  | cons slot events ih =>
    cases slot with
    | none =>
      obtain rfl := Option.some.inj h
      exact ⟨[], pendingOf events, rfl, rfl, fun hhead => absurd rfl hhead⟩
    | some x =>
      obtain ⟨more, hmore, rfl⟩ := Option.map_eq_some_iff.mp h
      obtain ⟨front, back, hold, hnew, -⟩ := ih hmore
      refine ⟨x :: front, back, ?_, ?_, fun _ => cons_ne_nil x front⟩
      · exact congrArg (x :: ·) hold
      · exact congrArg (x :: ·) hnew

/-! ## The log -/

/-- The first commands of an action, one after the other. -/
def ranFirst (a n : Nat) : List Entry := (range n).flatMap fun c => [.start a c, .finish a c]

/-- All commands of an action. -/
def ranAll (actions : List Action) (a : Nat) : List Entry := ranFirst a (cmdCount actions a)

theorem ranFirst_succ (a n : Nat) : ranFirst a (n + 1) = ranFirst a n ++ [.start a n, .finish a n] := by
  simp [ranFirst, range_succ]

/-- The queued actions have been run in order, up to a command that is due or, if `started`, under
way. -/
structure Logged (actions : List Action) (started : Bool) (queue : List Nat) (m : Manager) : Prop where
  split : ∃ finished, queue = finished ++ m.ready ∧
    m.log = finished.flatMap (ranAll actions) ++ m.ready.head?.elim [] fun a =>
      ranFirst a (m.running.getD 0) ++ if started then [.start a (m.running.getD 0)] else []
  due : ∀ a ∈ m.ready.head?, m.running.getD 0 < cmdCount actions a
  idle : m.ready = [] → m.running = none ∧ started = false

theorem cmdCount_pos {a : Nat} (h : trigger actions a = some e) : 0 < cmdCount actions a := by
  have hlt := lt_length_of_trigger h
  unfold cmdCount
  rw [getElem?_eq_getElem hlt]
  exact length_pos_iff.mpr actions[a].cmds_ne

theorem Linked.cmdCount_pos (h : Linked actions accepted pending current queue) {a : Nat} (ha : a ∈ queue) :
    0 < cmdCount actions a := by
  obtain ⟨e, he, -⟩ := (h.queued a).mp ha
  exact System.Nxinit.cmdCount_pos he

variable {m : Manager} {started : Bool}

theorem Logged.congr {m' : Manager} (h : Logged actions started queue m) (hready : m'.ready = m.ready)
    (hrunning : m'.running = m.running) (hlog : m'.log = m.log) : Logged actions started queue m' := by
  refine ⟨?_, ?_, ?_⟩
  · rw [hready, hrunning, hlog]
    exact h.split
  · rw [hready, hrunning]
    exact h.due
  · rw [hready, hrunning]
    exact h.idle

theorem Logged.enqueue {m' : Manager} {a : Nat} (h : Logged actions false queue m) (ha : 0 < cmdCount actions a)
    (hready : m'.ready = m.ready ++ [a]) (hrunning : m'.running = m.running) (hlog : m'.log = m.log) :
    Logged actions false (queue ++ [a]) m' := by
  obtain ⟨finished, hqueue, hran⟩ := h.split
  refine ⟨⟨finished, by rw [hqueue, hready, append_assoc], ?_⟩, ?_, fun hnil => by simp [hready] at hnil⟩
  · rw [hlog, hran, hready, hrunning]
    cases hr : m.ready with
    | nil => simp [(h.idle hr).1, ranFirst]
    | cons b rest => rfl
  rw [hready, hrunning]
  cases hr : m.ready with
  | nil =>
    rw [(h.idle hr).1]
    rintro b ⟨⟩
    exact ha
  | cons b rest =>
    have hdue := h.due
    rw [hr] at hdue
    exact hdue

theorem Logged.start {a : Nat} {rest : List Nat} (h : Logged actions false queue m) (hready : m.ready = a :: rest) :
    Logged actions true queue
      { m with running := some (m.running.getD 0), log := m.log ++ [.start a (m.running.getD 0)] } := by
  obtain ⟨finished, hqueue, hran⟩ := h.split
  refine ⟨⟨finished, hqueue, ?_⟩, h.due, fun hnil => absurd (hready.symm.trans hnil) (cons_ne_nil a rest)⟩
  simp [hran, hready]

theorem Logged.reap (h : Logged actions true queue m) (hpos : ∀ a ∈ queue, 0 < cmdCount actions a) :
    Logged actions false queue (initActionReapCommand actions m) := by
  obtain ⟨finished, hqueue, hran⟩ := h.split
  unfold initActionReapCommand
  cases hready : m.ready with
  | nil => exact absurd (h.idle hready).2 (by simp)
  | cons a rest =>
    simp only
    have hdue : m.running.getD 0 < cmdCount actions a := h.due a (by simp [hready])
    have hlog : m.log ++ [.finish a (m.running.getD 0)] =
        finished.flatMap (ranAll actions) ++ ranFirst a (m.running.getD 0 + 1) := by
      simp [hran, hready, ranFirst_succ]
    split
    case isTrue hlast =>
      refine ⟨⟨finished ++ [a], by simp [hqueue, hready], ?_⟩, ?_, fun _ => ⟨rfl, rfl⟩⟩
      · rw [hlog, hlast]
        cases rest with
        | nil => simp [ranAll]
        | cons b rest => simp [ranAll, ranFirst]
      intro b hb
      refine hpos b ?_
      rw [hqueue, hready]
      exact mem_append_right _ (mem_cons_of_mem a (mem_of_mem_head? hb))
    case isFalse hmore =>
      refine ⟨⟨finished, by rw [hqueue, hready], ?_⟩, ?_, fun hnil => absurd hnil (cons_ne_nil a rest)⟩
      · simpa using hlog
      intro b hb
      obtain rfl : a = b := by simpa using hb
      simp only [Option.getD_some]
      omega

/-! ## Turns of the manager -/

/-- An event is new, and no event is being scanned or the first slot is taken. -/
def Undisturbing (m : Manager) (event : CStr) (alloc : Bool) : Prop :=
  alloc = true → (fillSlot event m.events).isSome = true →
    event ∉ m.accepted ∧ (m.current = none ∨ m.events.head? ≠ some none)

instance (m : Manager) (event : CStr) (alloc : Bool) : Decidable (Undisturbing m event alloc) :=
  inferInstanceAs (Decidable (_ → _ → _))

/-- The event that the next command will add. -/
def dueEvent (actions : List Action) (m : Manager) : Option CStr :=
  m.ready.head?.bind fun a =>
    triggered (command actions a (m.running.getD 0)).length (command actions a (m.running.getD 0))

/-- Events that are accepted have new names and do not get in front of an event that is being
scanned. -/
def Undisturbed (actions : List Action) (m : Manager) : Turn → Prop
  | .event name alloc => Undisturbing m name alloc
  | .run o => m.waiting = false →
    ∀ event ∈ dueEvent actions (updateReady actions m), Undisturbing (updateReady actions m) event o.alloc
  | .reap => True

instance (actions : List Action) (m : Manager) : (t : Turn) → Decidable (Undisturbed actions m t)
  | .event name alloc => inferInstanceAs (Decidable (Undisturbing m name alloc))
  | .run o => inferInstanceAs (Decidable (m.waiting = false →
      ∀ event ∈ dueEvent actions (updateReady actions m), Undisturbing (updateReady actions m) event o.alloc))
  | .reap => isTrue trivial

/-- What holds of the manager between and within turns. -/
structure Held (actions : List Action) (started : Bool) (queue : List Nat) (m : Manager) : Prop where
  linked : Linked actions m.accepted (pendingOf m.events) m.current queue
  logged : Logged actions started queue m

theorem Held.addEvent {event : CStr} {alloc : Bool} (h : Held actions started queue m)
    (hnew : Undisturbing m event alloc) : Held actions started queue (initActionAddEvent event alloc m) := by
  unfold initActionAddEvent
  cases hfill : fillSlot event m.events with
  | none => exact h
  | some events =>
    cases halloc : alloc with
    | false => exact h
    | true =>
      obtain ⟨hfresh, hfront⟩ := hnew halloc (by simp [hfill])
      obtain ⟨front, back, hold, hpending, hne⟩ := fillSlot_eq_some hfill
      refine ⟨?_, h.logged.congr rfl rfl rfl⟩
      have hlinked := h.linked
      rw [hold] at hlinked
      have hadded := hlinked.added hfresh (hfront.imp id hne)
      rw [← hpending] at hadded
      exact hadded

theorem Held.update (h : Held actions false queue m) :
    ∃ queue', Held actions false queue' (updateReady actions m) ∧
      ((updateReady actions m).ready = [] → pendingOf (updateReady actions m).events = []) := by
  obtain ⟨hlinked, hnew, hnone⟩ := h.linked.pass m.events
  refine ⟨_, ⟨hlinked, ?_⟩, ?_⟩
  · cases hfound : (updateSlots actions m.events m.current).2.2 with
    | none =>
      rw [Option.toList_none, append_nil]
      exact h.logged.congr (by simp [updateReady, hfound]) rfl rfl
    | some a =>
      have hnot : a ∉ m.ready := fun hmem => hnew a hfound (by
        obtain ⟨finished, hqueue, -⟩ := h.logged.split
        rw [hqueue]
        exact mem_append_right finished hmem)
      have hpos : 0 < cmdCount actions a := hlinked.cmdCount_pos (by simp [hfound])
      exact h.logged.enqueue hpos (by simp [updateReady, hfound, addReady, hnot]) rfl rfl
  · intro hready
    refine hnone ?_
    cases hfound : (updateSlots actions m.events m.current).2.2 with
    | none => rfl
    | some a =>
      simp only [updateReady, hfound, Option.elim_some, addReady] at hready
      split at hready
      · rename_i hmem
        simp [hready] at hmem
      · simp at hready

theorem Held.reap (h : Held actions true queue m) : Held actions false queue (initActionReapCommand actions m) := by
  refine ⟨?_, h.logged.reap fun a ha => h.linked.cmdCount_pos ha⟩
  have hsame : (initActionReapCommand actions m).accepted = m.accepted ∧
      (initActionReapCommand actions m).events = m.events ∧ (initActionReapCommand actions m).current = m.current := by
    unfold initActionReapCommand
    split
    · exact ⟨rfl, rfl, rfl⟩
    · simp only
      split <;> exact ⟨rfl, rfl, rfl⟩
  rw [hsame.1, hsame.2.1, hsame.2.2]
  exact h.linked

theorem reap_waiting (m : Manager) : (initActionReapCommand actions m).waiting = false := by
  unfold initActionReapCommand
  split
  · rfl
  · simp only
    split <;> rfl

theorem Held.begin {o : Outcome} (h : Held actions false queue m) (hwait : m.waiting = false)
    (hnew : ∀ event ∈ dueEvent actions m, Undisturbing m event o.alloc) :
    Held actions (startCommand actions o m).waiting queue (startCommand actions o m) := by
  unfold startCommand
  cases hready : m.ready with
  | nil =>
    simp only [hwait]
    exact h
  | cons a rest =>
    have hstarted : Held actions true queue
        { m with running := some (m.running.getD 0), log := m.log ++ [.start a (m.running.getD 0)] } :=
      ⟨h.linked, h.logged.start hready⟩
    rw [hready] at hstarted
    simp only
    cases htrigger : triggered (command actions a (m.running.getD 0)).length (command actions a (m.running.getD 0)) with
    | some event =>
      have hdue : Undisturbing m event o.alloc := hnew event (by simp [dueEvent, hready, htrigger])
      simp only [reap_waiting]
      exact (hstarted.addEvent hdue).reap
    | none =>
      simp only
      split
      · exact ⟨hstarted.linked, hstarted.logged.congr rfl rfl rfl⟩
      · rw [reap_waiting]
        exact hstarted.reap

/-- One turn keeps what holds. -/
theorem Held.after (h : Held actions m.waiting queue m) {t : Turn} (ht : Undisturbed actions m t) :
    ∃ queue', Held actions (turn actions m t).waiting queue' (turn actions m t) := by
  cases t with
  | event name alloc =>
    have hwait : (initActionAddEvent name alloc m).waiting = m.waiting := by
      unfold initActionAddEvent
      split
      · rfl
      · split <;> rfl
    refine ⟨queue, ?_⟩
    change Held actions (initActionAddEvent name alloc m).waiting queue (initActionAddEvent name alloc m)
    rw [hwait]
    exact h.addEvent ht
  | run o =>
    cases hwait : m.waiting with
    | true =>
      have hsame : turn actions m (.run o) = m := by simp [turn, initActionRunCommand, hwait]
      rw [hsame]
      exact ⟨queue, h⟩
    | false =>
      rw [hwait] at h
      obtain ⟨queue', hupdated, -⟩ := h.update
      have hturn : turn actions m (.run o) = startCommand actions o (updateReady actions m) := by
        simp [turn, initActionRunCommand, hwait]
      rw [hturn]
      exact ⟨queue', hupdated.begin hwait (ht hwait)⟩
  | reap =>
    cases hwait : m.waiting with
    | true =>
      rw [hwait] at h
      have hturn : turn actions m .reap = initActionReapCommand actions m := by
        simp [turn, hwait]
      rw [hturn, reap_waiting]
      exact ⟨queue, h.reap⟩
    | false =>
      have hsame : turn actions m .reap = m := by simp [turn, hwait]
      rw [hsame]
      exact ⟨queue, h⟩

theorem held_start (slots : Nat) : Held actions (Manager.start slots).waiting [] (Manager.start slots) := by
  have hpending : pendingOf (Manager.start slots).events = [] := by
    simp [pendingOf, Manager.start]
  refine ⟨?_, ⟨⟨[], rfl, rfl⟩, fun a ha => (by cases ha), fun _ => ⟨rfl, rfl⟩⟩⟩
  rw [hpending]
  refine ⟨nodup_nil, fun e he => absurd he not_mem_nil, fun c hc => (by cases hc), fun a => ?_,
    nodup_nil, List.Pairwise.nil⟩
  simp [Manager.start]

/-! ## The end of the work -/

/-- No event waits and no action is queued. -/
structure Idle (m : Manager) : Prop where
  events : pendingOf m.events = []
  ready : m.ready = []
  waiting : m.waiting = false

/-- An iteration of the main loop, in which the process of a command may end. -/
def loopOnce (o : Outcome) : List Turn := [.run o, .reap]

def totalCommands (actions : List Action) : Nat := ((range actions.length).map (cmdCount actions)).sum

theorem length_ranAll (a : Nat) : (ranAll actions a).length = 2 * cmdCount actions a := by
  simp [ranAll, ranFirst, Nat.mul_comm]

theorem length_flatMap_ranAll (l : List Nat) :
    (l.flatMap (ranAll actions)).length = 2 * (l.map (cmdCount actions)).sum := by
  induction l with
  | nil => rfl
  | cons a l ih =>
    rw [flatMap_cons, length_append, ih, length_ranAll, map_cons, sum_cons]
    omega

/-- The log is never longer than all commands together. -/
theorem Held.length_log_le (h : Held actions started queue m) : m.log.length ≤ 2 * totalCommands actions := by
  obtain ⟨finished, hqueue, hran⟩ := h.logged.split
  -- what the first ready action has run is a part of its commands
  have hlog : m.log.length ≤ (queue.flatMap (ranAll actions)).length := by
    rw [hran, hqueue, flatMap_append, length_append, length_append]
    refine Nat.add_le_add_left ?_ _
    cases hready : m.ready with
    | nil => simp
    | cons a rest =>
      have hdue := h.logged.due a (by simp [hready])
      have hstart : (if started then [Entry.start a (m.running.getD 0)] else []).length ≤ 1 := by
        split <;> simp
      have hfirst : (ranFirst a (m.running.getD 0)).length = 2 * m.running.getD 0 := by
        simp [ranFirst, Nat.mul_comm]
      rw [flatMap_cons, length_append, length_ranAll, head?_cons, Option.elim_some, length_append,
        hfirst]
      omega
  have hsum : (queue.map (cmdCount actions)).sum ≤ totalCommands actions := by
    rw [totalCommands, ← sum_toFinset _ h.linked.nodup, ← sum_toFinset _ nodup_range]
    refine Finset.sum_le_sum_of_subset fun a ha => ?_
    obtain ⟨e, he, -⟩ := (h.linked.queued a).mp (mem_toFinset.mp ha)
    exact mem_toFinset.mpr (mem_range.mpr (lt_length_of_trigger he))
  rw [length_flatMap_ranAll] at hlog
  omega

theorem updateSlots_of_pending_nil (actions : List Action) {events : List (Option CStr)} (h : pendingOf events = [])
    (current : Option Nat) :
    (updateSlots actions events current).2.2 = none ∧ pendingOf (updateSlots actions events current).1 = [] := by
  induction events generalizing current with
  | nil => exact ⟨rfl, rfl⟩
  | cons slot events ih =>
    cases slot with
    | none => exact ih h current
    | some e => cases h

theorem length_log_reap (h : m.ready ≠ []) :
    (initActionReapCommand actions m).log.length = m.log.length + 1 := by
  unfold initActionReapCommand
  cases hready : m.ready with
  | nil => exact absurd hready h
  | cons a rest =>
    simp only
    split <;> simp

theorem length_log_startCommand {o : Outcome} (h : m.ready ≠ []) :
    m.log.length < (startCommand actions o m).log.length := by
  unfold startCommand
  cases hready : m.ready with
  | nil => exact absurd hready h
  | cons a rest =>
    simp only
    have hevent : ∀ event (m' : Manager), (initActionAddEvent event o.alloc m').log = m'.log ∧
        (initActionAddEvent event o.alloc m').ready = m'.ready := by
      intro event m'
      unfold initActionAddEvent
      split
      · exact ⟨rfl, rfl⟩
      · split <;> exact ⟨rfl, rfl⟩
    split
    case h_1 event _ =>
      rw [length_log_reap (by rw [(hevent event _).2]; exact cons_ne_nil a rest), (hevent event _).1]
      simp only [length_append]
      omega
    case h_2 =>
      split
      · simp
      rw [length_log_reap (cons_ne_nil a rest)]
      simp only [length_append]
      omega

theorem length_log_le_reap (m : Manager) : m.log.length ≤ (turn actions m .reap).log.length := by
  simp only [turn]
  split
  · by_cases h : m.ready = []
    · simp [initActionReapCommand, h]
    · rw [length_log_reap h]
      omega
  · exact Nat.le_refl _

/-- An iteration finishes a command, or there is nothing left to do. -/
theorem Held.iterate (h : Held actions m.waiting queue m) (o : Outcome) :
    Idle (run (turn actions) m (loopOnce o)) ∨ m.log.length < (run (turn actions) m (loopOnce o)).log.length := by
  change Idle (turn actions (turn actions m (.run o)) .reap) ∨
    m.log.length < (turn actions (turn actions m (.run o)) .reap).log.length
  cases hwait : m.waiting with
  | true =>
    rw [hwait] at h
    have hready : m.ready ≠ [] := fun hnil => absurd (h.logged.idle hnil).2 (by simp)
    have hsame : turn actions m (.run o) = m := by simp [turn, initActionRunCommand, hwait]
    refine .inr ?_
    rw [hsame, turn, if_pos hwait, length_log_reap hready]
    omega
  | false =>
    rw [hwait] at h
    obtain ⟨queue', -, hend⟩ := h.update
    have hturn : turn actions m (.run o) = startCommand actions o (updateReady actions m) := by
      simp [turn, initActionRunCommand, hwait]
    rw [hturn]
    by_cases hready : (updateReady actions m).ready = []
    · have hsame : startCommand actions o (updateReady actions m) = updateReady actions m := by
        simp [startCommand, hready]
      have hwait' : (updateReady actions m).waiting = false := hwait
      rw [hsame, turn, if_neg (by simp [hwait'])]
      exact .inl ⟨hend hready, hready, hwait'⟩
    · have hlog : (updateReady actions m).log = m.log := rfl
      rw [← hlog]
      exact .inr (Nat.lt_of_lt_of_le (length_log_startCommand hready) (length_log_le_reap _))

theorem Idle.iterate (h : Idle m) (o : Outcome) : Idle (run (turn actions) m (loopOnce o)) := by
  obtain ⟨hfound, hpending⟩ := updateSlots_of_pending_nil actions h.events m.current
  have hready : (updateReady actions m).ready = [] := by simp [updateReady, hfound, h.ready]
  have hrun : turn actions m (.run o) = updateReady actions m := by
    simp [turn, initActionRunCommand, h.waiting, startCommand, hready]
  have hwait : (updateReady actions m).waiting = false := h.waiting
  have hreap : turn actions (updateReady actions m) .reap = updateReady actions m := by simp [turn, hwait]
  change Idle (turn actions (turn actions m (.run o)) .reap)
  rw [hrun, hreap]
  exact ⟨hpending, hready, hwait⟩

theorem Idle.iterations (h : Idle m) (outs : List Outcome) : Idle (run (turn actions) m (outs.flatMap loopOnce)) := by
  induction outs generalizing m with
  | nil => exact h
  | cons o outs ih =>
    exact ih (h.iterate o)

/-- Iterations without end would run more commands than there are. -/
theorem Held.loops {outs : List Outcome} (h : Held actions m.waiting queue m)
    (hmeets : Meets (turn actions) (Undisturbed actions) m (outs.flatMap loopOnce)) :
    Idle (run (turn actions) m (outs.flatMap loopOnce)) ∨
      m.log.length + outs.length ≤ (run (turn actions) m (outs.flatMap loopOnce)).log.length := by
  induction outs generalizing m queue with
  | nil => exact .inr (Nat.le_refl _)
  | cons o outs ih =>
    obtain ⟨hrun, hreap, hrest⟩ := hmeets
    obtain ⟨queue₁, h₁⟩ := h.after hrun
    obtain ⟨queue₂, h₂⟩ := h₁.after hreap
    rw [flatMap_cons, Transition.run_append]
    rcases h.iterate o with hidle | hlonger
    · exact .inl (hidle.iterations outs)
    refine (ih h₂ hrest).imp id fun hle => ?_
    rw [length_cons]
    have hstep : run (turn actions) m (loopOnce o) = turn actions (turn actions m (.run o)) .reap := rfl
    rw [hstep] at hlonger ⊢
    omega

/-- After any turns in which no accepted event has an old name or gets in front of the event being
scanned, the main loop ends up idle, and then the actions of the accepted events have run: each
once, those of one event in the order of the file, and their commands one after the other. -/
theorem events_run_once {slots : Nat} {turns : List Turn} {outs : List Outcome}
    (hmeets : Meets (turn actions) (Undisturbed actions) (Manager.start slots) (turns ++ outs.flatMap loopOnce))
    (hlong : 2 * totalCommands actions < outs.length) :
    let m := run (turn actions) (Manager.start slots) (turns ++ outs.flatMap loopOnce)
    ∃ queue : List Nat, queue.Nodup ∧
      (∀ a, a ∈ queue ↔ ∃ e ∈ m.accepted, trigger actions a = some e) ∧
      queue.Pairwise (fun a b => trigger actions a = trigger actions b → a < b) ∧
      m.log = queue.flatMap (ranAll actions) := by
  intro m
  obtain ⟨hturns, hloops⟩ := Transition.meets_append.mp hmeets
  have hheld : ∃ queue, Held actions (run (turn actions) (Manager.start slots) turns).waiting queue
      (run (turn actions) (Manager.start slots) turns) :=
    Transition.run_induct (I := fun m => ∃ queue, Held actions m.waiting queue m)
      (fun _ _ ⟨_, h⟩ ht => h.after ht) ⟨[], held_start slots⟩ hturns
  obtain ⟨queue, hend⟩ : ∃ queue, Held actions m.waiting queue m :=
    Transition.run_induct (I := fun m => ∃ queue, Held actions m.waiting queue m)
      (fun _ _ ⟨_, h⟩ ht => h.after ht) ⟨[], held_start slots⟩ hmeets
  obtain ⟨queue₀, h₀⟩ := hheld
  have hidle : Idle m := by
    rcases h₀.loops hloops with hidle | hlong'
    · rwa [← Transition.run_append] at hidle
    rw [← Transition.run_append] at hlong'
    have hle : m.log.length ≤ 2 * totalCommands actions := hend.length_log_le
    simp only [m] at hle
    omega
  refine ⟨queue, hend.linked.nodup, fun a => ?_, hend.linked.order, ?_⟩
  · rw [hend.linked.queued a, hidle.events]
    simp [and_comm]
  obtain ⟨finished, hqueue, hran⟩ := hend.logged.split
  rw [hidle.ready] at hqueue hran
  rw [hran, hqueue]
  simp

/-! ## A sample -/

/-- Two actions of `init`, the second of which triggers `foo`. -/
def initFile : List Action :=
  [⟨some "foo".toList, [["f".toList]], by simp⟩,
   ⟨some "init".toList, [["a".toList]], by simp⟩,
   ⟨some "init".toList, [["trigger".toList, "foo".toList], ["b".toList], ["c".toList]], by simp⟩]

theorem events_run_once_init :
    let turns := [Turn.event "init".toList true]
    let outs := replicate 11 (Outcome.mk true true)
    let m := run (turn initFile) (Manager.start 4) (turns ++ outs.flatMap loopOnce)
    m.accepted = ["init".toList, "foo".toList] ∧ ∃ queue : List Nat, queue.Nodup ∧
      (∀ a, a ∈ queue ↔ ∃ e ∈ m.accepted, trigger initFile a = some e) ∧
      m.log = queue.flatMap (ranAll initFile) := by
  intro turns outs m
  obtain ⟨queue, hnodup, hall, -, hlog⟩ := @events_run_once initFile 4 turns outs (by decide) (by decide)
  exact ⟨by decide, queue, hnodup, hall, hlog⟩

/-- With `boot` in the first slot, `foo` gets that slot while `init` is being scanned: the action of
`foo` never runs, and an action of `init` runs twice. -/
theorem not_events_run_once :
    let turns := [Turn.event "boot".toList true, Turn.event "init".toList true]
    let m := run (turn initFile) (Manager.start 4) (turns ++ (replicate 11 ⟨true, true⟩).flatMap loopOnce)
    m.accepted = ["boot".toList, "init".toList, "foo".toList] ∧ pendingOf m.events = [] ∧ m.ready = [] ∧
      trigger initFile 0 = some "foo".toList ∧ Entry.start 0 0 ∉ m.log ∧ m.log.count (.start 1 0) = 2 := by
  decide

end System.Nxinit
