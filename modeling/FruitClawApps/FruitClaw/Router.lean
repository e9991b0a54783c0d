-- SUMMARY: The router between the queues, and where every accepted event is.
import FruitClawApps.FruitClaw.Queue
import FruitClawApps.Lib.Transition

/-!
# The event router

Publishers put events into the main queue, the router forwards them to the agent queue, and the
agent takes them from there. Each operation is atomic under the lock of its queue, so a run is a
list of operations. A ledger, which is not part of the program, gives each accepted event its place
in the order as a ticket.
-/

namespace FruitClaw

open List

/-! ## The router -/

/-- The counters of the router are `unsigned long`. -/
def ulongSize : Nat := 2 ^ 32

/-- The status that `fc_router_record` keeps. -/
structure RouterStatus where
  routedCount : Nat
  droppedCount : Nat
  failedCount : Nat
  lastMs : Int
  lastRet : Ret
  lastSource : CBuf 24
  lastType : CBuf 32

def RouterStatus.zero : RouterStatus := ⟨0, 0, 0, 0, .ok (), .empty _, .empty _⟩

def fcRouterRecord (st : RouterStatus) (now : Int) (ev : Event) (ret : Ret) (routed : Bool) :
    RouterStatus :=
  let st :=
    match routed, ret with
    | true, .ok () => { st with routedCount := (st.routedCount + 1) % ulongSize }
    | true, .error _ => { st with failedCount := (st.failedCount + 1) % ulongSize }
    | false, _ => { st with droppedCount := (st.droppedCount + 1) % ulongSize }
  { st with lastMs := now, lastRet := ret, lastSource := ev.source, lastType := ev.type }

/-- The events that `fc_router_route_event` forwards. -/
def fcRouterRoutes (ev : Event) : Bool :=
  (ev.source.str == "telegram".toList && ev.type.str == "message.in".toList) ||
  (ev.source.str == "scheduler".toList && ev.type.str == "timer.fire".toList) ||
  (ev.source.str == "cli".toList && ev.type.str == "message.in".toList)

/-- `fc_router_route_event` of `core/fc_router.c`. -/
def fcRouterRouteEvent (agent : Queue) (st : RouterStatus) (now : Int) (ev : Event) :
    Ret × Queue × RouterStatus :=
  if fcRouterRoutes ev then
    let (ret, agent) := fcQueuePublish agent ev
    (ret, agent, fcRouterRecord st now ev ret true)
  else (.ok (), agent, fcRouterRecord st now ev (.ok ()) false)

/-! ## The ledger -/

/-- Where the accepted events are. -/
structure Ledger where
  /-- The events that the main queue accepted, oldest first. -/
  accepted : List Event
  main : List Nat
  held : Option Nat
  agent : List Nat
  received : List Nat
  /-- Events that are not routable. -/
  skipped : List Nat
  /-- Events that the router could not forward, each with the agent queue as it
  was then. -/
  discarded : List (Nat × Queue)

namespace Ledger

def empty : Ledger := ⟨[], [], none, [], [], [], []⟩

variable (l : Ledger)

/-- The event of a ticket. -/
def event (t : Nat) : Option Event := l.accepted[t]?

/-- The tickets on the way, the ones that are furthest first. -/
def flow : List Nat := l.received ++ l.agent ++ l.held.toList ++ l.main

def accept (ev : Event) : Ledger :=
  { l with accepted := l.accepted ++ [ev], main := l.main ++ [l.accepted.length] }

def take : Ledger := { l with held := l.main.head?, main := l.main.tail }

def forward : Ledger := { l with agent := l.agent ++ l.held.toList, held := none }

def skip : Ledger := { l with skipped := l.skipped ++ l.held.toList, held := none }

def discard (q : Queue) : Ledger :=
  { l with discarded := l.discarded ++ l.held.toList.map (·, q), held := none }

def receive : Ledger :=
  { l with received := l.received ++ l.agent.head?.toList, agent := l.agent.tail }

/-- The entry that a call of `fc_router_route_event` makes in the ledger. -/
def route (agent : Queue) (ev : Event) (ret : Ret) : Ledger :=
  match fcRouterRoutes ev, ret with
  | false, _ => l.skip
  | true, .ok () => l.forward
  | true, .error _ => l.discard agent

end Ledger

/-! ## Sound ledgers -/

namespace Ledger

variable {l l' : Ledger} {t : Nat}

/-- The tickets are in order and none is missing. -/
structure Sound (l : Ledger) : Prop where
  increasing : l.flow.Pairwise (· < ·)
  known : ∀ t ∈ l.flow, t < l.accepted.length
  covered : ∀ t < l.accepted.length, t ∈ l.flow ∨ t ∈ l.skipped ∨ t ∈ l.discarded.map (·.1)
  skipped : ∀ t ∈ l.skipped, ∃ ev, l.event t = some ev ∧ fcRouterRoutes ev = false

theorem sound_empty : empty.Sound where
  increasing := List.Pairwise.nil
  known := by simp [flow, empty]
  covered := by simp [empty]
  skipped := by simp [empty]

theorem lt_of_event {ev : Event} (h : l.event t = some ev) : t < l.accepted.length :=
  (List.getElem?_eq_some_iff.mp h).1

theorem event_accept (ht : t < l.accepted.length) (ev : Event) :
    (l.accept ev).event t = l.event t := getElem?_append_left ht

theorem map_event_accept {ts : List Nat} (hts : ∀ t ∈ ts, t < l.accepted.length) (ev : Event) :
    ts.map (l.accept ev).event = ts.map l.event :=
  map_congr_left fun t ht => event_accept (hts t ht) ev

theorem event_accept_last (l : Ledger) (ev : Event) : (l.accept ev).event l.accepted.length = some ev := by
  simp [event, accept]

theorem flow_accept (l : Ledger) (ev : Event) : (l.accept ev).flow = l.flow ++ [l.accepted.length] := by
  simp [flow, accept]

theorem length_accept (l : Ledger) (ev : Event) :
    (l.accept ev).accepted.length = l.accepted.length + 1 := by
  simp [accept]

theorem Sound.accept (h : l.Sound) (ev : Event) : (l.accept ev).Sound where
  increasing := by
    rw [flow_accept, pairwise_append]
    refine ⟨h.increasing, pairwise_singleton _ _, fun t ht u hu => ?_⟩
    rw [mem_singleton.mp hu]
    exact h.known t ht
  known := by
    intro t ht
    rw [flow_accept, mem_append, mem_singleton] at ht
    rw [length_accept]
    rcases ht with ht | rfl
    · have := h.known t ht
      omega
    · omega
  covered := by
    intro t ht
    rw [length_accept] at ht
    rw [flow_accept, mem_append, mem_singleton]
    rcases Nat.lt_succ_iff_lt_or_eq.mp ht with ht | rfl
    · rcases h.covered t ht with hflow | hrest
      · exact Or.inl (Or.inl hflow)
      · exact Or.inr hrest
    · exact Or.inl (Or.inr rfl)
  skipped := by
    intro t ht
    obtain ⟨ev', hev, hroute⟩ := h.skipped t ht
    exact ⟨ev', by rw [event_accept (lt_of_event hev), hev], hroute⟩

theorem Sound.of_flow (h : l.Sound) (hacc : l'.accepted = l.accepted) (hflow : l'.flow = l.flow)
    (hskip : l'.skipped = l.skipped) (hdisc : l'.discarded = l.discarded) : l'.Sound where
  increasing := by rw [hflow]; exact h.increasing
  known := by rw [hflow, hacc]; exact h.known
  covered := by rw [hflow, hacc, hskip, hdisc]; exact h.covered
  skipped := by
    rw [hskip]
    simp only [event, hacc]
    exact h.skipped

theorem flow_take (h : l.held = none) : l.take.flow = l.flow := by
  cases hmain : l.main <;> simp [flow, take, h, hmain]

theorem flow_forward (l : Ledger) : l.forward.flow = l.flow := by simp [flow, forward]

theorem flow_receive (l : Ledger) : l.receive.flow = l.flow := by
  cases hagent : l.agent <;> simp [flow, receive, hagent]

/-- Taking the held ticket out of the flow is sound if it is accounted for. -/
theorem Sound.of_release (h : l.Sound) (hheld : l.held = some t) (hacc : l'.accepted = l.accepted)
    (hflow : l'.flow = l.received ++ l.agent ++ l.main)
    (hcov : ∀ u, u ∈ l.skipped ∨ u ∈ l.discarded.map (·.1) ∨ u = t →
      u ∈ l'.skipped ∨ u ∈ l'.discarded.map (·.1))
    (hskip : ∀ u ∈ l'.skipped, ∃ ev, l'.event u = some ev ∧ fcRouterRoutes ev = false) : l'.Sound where
  increasing := by
    rw [hflow]
    refine h.increasing.sublist ?_
    simp [flow, hheld]
  known := by
    intro u hu
    rw [hflow] at hu
    rw [hacc]
    refine h.known u ?_
    simp only [flow, mem_append] at hu ⊢
    tauto
  covered := by
    intro u hu
    rw [hacc] at hu
    rw [hflow]
    rcases h.covered u hu with hflow' | hrest
    · simp only [flow, hheld, Option.toList_some, mem_append, mem_singleton] at hflow' ⊢
      rcases hflow' with (h1 | rfl) | h1
      · exact Or.inl (Or.inl h1)
      · exact Or.inr (hcov u (Or.inr (Or.inr rfl)))
      · exact Or.inl (Or.inr h1)
    · exact Or.inr (hcov u (by tauto))
  skipped := hskip

theorem Sound.skip {ev : Event} (h : l.Sound) (hheld : l.held = some t) (hev : l.event t = some ev)
    (hroutes : fcRouterRoutes ev = false) : l.skip.Sound := by
  have hskipped : l.skip.skipped = l.skipped ++ [t] := by rw [Ledger.skip, hheld, Option.toList_some]
  refine h.of_release hheld rfl (by simp [flow, Ledger.skip]) ?_ ?_
  · intro u hu
    rw [hskipped, mem_append, mem_singleton]
    rcases hu with hu | hu | hu
    · exact Or.inl (Or.inl hu)
    · exact Or.inr hu
    · exact Or.inl (Or.inr hu)
  · intro u hu
    rw [hskipped, mem_append, mem_singleton] at hu
    rcases hu with hu | rfl
    · exact h.skipped u hu
    · exact ⟨ev, hev, hroutes⟩

theorem discarded_discard (hheld : l.held = some t) (q : Queue) :
    (l.discard q).discarded = l.discarded ++ [(t, q)] := by
  rw [Ledger.discard, hheld, Option.toList_some, map_singleton]

theorem Sound.discard (h : l.Sound) (hheld : l.held = some t) (q : Queue) : (l.discard q).Sound := by
  refine h.of_release hheld rfl (by simp [flow, Ledger.discard]) ?_ h.skipped
  intro u hu
  rw [discarded_discard hheld, map_append, map_singleton, mem_append, mem_singleton]
  exact hu

end Ledger

/-! ## The system -/

namespace Router

structure State where
  main : Queue
  agent : Queue
  /-- The event in the hands of the router thread. -/
  held : Option Event
  status : RouterStatus
  /-- The events that the agent thread received, oldest first. -/
  delivered : List Event
  ledger : Ledger

inductive Label where
  /-- Some publisher calls `fc_queue_publish` on the main queue. -/
  | publish (ev : Event)
  /-- The router thread calls `fc_queue_receive`. -/
  | routerReceive (wake : Errno)
  /-- The router thread calls `fc_router_route_event`. -/
  | routerRoute (now : Int)
  /-- The agent thread calls `fc_queue_receive`. -/
  | agentReceive (wake : Errno)

def step (s : State) : Label → State
  | .publish ev =>
    match fcQueuePublish s.main ev with
    | (.ok (), main) => { s with main := main, ledger := s.ledger.accept ev }
    | (.error _, main) => { s with main := main }
  | .routerReceive wake =>
    -- The thread asks for the next event only when it has none in hand.
    match s.held with
    | some _ => s
    | none =>
      match fcQueueReceive wake s.main with
      | (.ok ev, main) => { s with main := main, held := some ev, ledger := s.ledger.take }
      | (.error _, main) => { s with main := main }
  | .routerRoute now =>
    match s.held with
    | none => s
    | some ev =>
      let (ret, agent, status) := fcRouterRouteEvent s.agent s.status now ev
      { s with
        agent := agent
        status := status
        held := none
        ledger := s.ledger.route s.agent ev ret }
  | .agentReceive wake =>
    match fcQueueReceive wake s.agent with
    | (.ok ev, agent) =>
      { s with agent := agent, delivered := s.delivered ++ [ev], ledger := s.ledger.receive }
    | (.error _, agent) => { s with agent := agent }

/-- Both queues are initialised and empty. -/
def start (n : Nat) (hn : 0 < n) : State where
  main := (fcQueueInit n hn (.ok ()) none).2
  agent := (fcQueueInit n hn (.ok ()) none).2
  held := none
  status := .zero
  delivered := []
  ledger := .empty

/-! ## The invariant -/

/-- The ledger is in step with the program. -/
structure Tracks (s : State) : Prop where
  main : s.ledger.main.map s.ledger.event = s.main.contents.map some
  held : s.ledger.held.map s.ledger.event = s.held.map some
  agent : s.ledger.agent.map s.ledger.event = s.agent.contents.map some
  received : s.ledger.received.map s.ledger.event = s.delivered.map some

structure Inv (n : Nat) (s : State) : Prop where
  sound : s.ledger.Sound
  tracks : Tracks s
  capacity : s.agent.capacity = n
  full : ∀ d ∈ s.ledger.discarded, d.2.contents.length = n
  failed : s.status.failedCount = s.ledger.discarded.length % ulongSize

theorem inv_start (n : Nat) (hn : 0 < n) : Inv n (start n hn) where
  sound := Ledger.sound_empty
  tracks := ⟨rfl, rfl, rfl, rfl⟩
  capacity := RingBuffer.capacity_empty n _ hn
  full := by simp [start, Ledger.empty]
  failed := rfl

variable {s : State} {n : Nat}

theorem Tracks.accept (h : Tracks s) (hs : s.ledger.Sound) {main : Queue} {ev : Event}
    (hmain : main.contents = s.main.contents ++ [ev]) :
    Tracks { s with main := main, ledger := s.ledger.accept ev } := by
  have hkeep : ∀ ts : List Nat, (∀ t ∈ ts, t ∈ s.ledger.flow) →
      ts.map (s.ledger.accept ev).event = ts.map s.ledger.event := fun ts hts =>
    Ledger.map_event_accept (fun t ht => hs.known t (hts t ht)) ev
  refine ⟨?_, ?_, ?_, ?_⟩
  · have hlast : [s.ledger.accepted.length].map (s.ledger.accept ev).event = [some ev] := by
      rw [map_singleton, Ledger.event_accept_last]
    change (s.ledger.main ++ [s.ledger.accepted.length]).map (s.ledger.accept ev).event =
      main.contents.map some
    rw [map_append, hlast, hkeep _ (by simp +contextual [Ledger.flow]), h.main, hmain, map_append]
    rfl
  · change s.ledger.held.map (s.ledger.accept ev).event = s.held.map some
    rw [← h.held]
    refine Option.map_congr fun t ht => Ledger.event_accept (hs.known t ?_) ev
    simp [Ledger.flow, ht]
  · exact (hkeep s.ledger.agent (by simp +contextual [Ledger.flow])).trans h.agent
  · exact (hkeep s.ledger.received (by simp +contextual [Ledger.flow])).trans h.received

theorem inv_publish (h : Inv n s) (ev : Event) : Inv n (step s (.publish ev)) := by
  simp only [step]
  cases hpub : fcQueuePublish s.main ev with
  | mk ret main =>
    cases ret with
    | error e =>
      obtain ⟨rfl, -⟩ := fcQueuePublish_error hpub
      exact h
    | ok u =>
      exact ⟨h.sound.accept ev, h.tracks.accept h.sound (fcQueuePublish_ok hpub).1, h.capacity, h.full,
        h.failed⟩

theorem tickets_cons {l : Ledger} {ts : List Nat} {ev : Event} {evs : List Event}
    (h : ts.map l.event = (ev :: evs).map some) :
    ∃ t us, ts = t :: us ∧ l.event t = some ev ∧ us.map l.event = evs.map some := by
  cases ts with
  | nil => cases h
  | cons t us =>
    exact ⟨t, us, rfl, (List.cons.inj h).1, (List.cons.inj h).2⟩

theorem inv_routerReceive (h : Inv n s) (wake : Errno) : Inv n (step s (.routerReceive wake)) := by
  simp only [step]
  split
  · exact h
  rename_i hheld
  cases hrecv : fcQueueReceive wake s.main with
  | mk ret main =>
    cases ret with
    | error e =>
      cases fcQueueReceive_error hrecv
      exact h
    | ok ev =>
      have hcont := (fcQueueReceive_ok hrecv).1
      have hnone : s.ledger.held = none := by
        have htrack := h.tracks.held
        rw [hheld] at htrack
        simpa using htrack
      have hmain := h.tracks.main
      rw [hcont] at hmain
      obtain ⟨t, us, hts, hev, hus⟩ := tickets_cons hmain
      refine ⟨h.sound.of_flow rfl (Ledger.flow_take hnone) rfl rfl,
        ⟨?_, ?_, h.tracks.agent, h.tracks.received⟩, h.capacity, h.full, h.failed⟩
      · simp only [Ledger.take, hts, tail_cons]
        exact hus
      · simp only [Ledger.take, hts, head?_cons, Option.map_some]
        exact congrArg some hev

theorem inv_agentReceive (h : Inv n s) (wake : Errno) : Inv n (step s (.agentReceive wake)) := by
  simp only [step]
  cases hrecv : fcQueueReceive wake s.agent with
  | mk ret agent =>
    cases ret with
    | error e =>
      cases fcQueueReceive_error hrecv
      exact h
    | ok ev =>
      obtain ⟨hcont, hcap⟩ := fcQueueReceive_ok hrecv
      have hagent := h.tracks.agent
      rw [hcont] at hagent
      obtain ⟨t, us, hts, hev, hus⟩ := tickets_cons hagent
      refine ⟨h.sound.of_flow rfl (Ledger.flow_receive _) rfl rfl,
        ⟨h.tracks.main, h.tracks.held, ?_, ?_⟩, hcap.trans h.capacity, h.full, h.failed⟩
      · simp only [Ledger.receive, hts, tail_cons]
        exact hus
      simp only [Ledger.receive, hts, head?_cons, Option.toList_some, map_append,
        map_cons, map_nil]
      rw [← h.tracks.received]
      exact congrArg (_ ++ [·]) hev

theorem inv_routerRoute (h : Inv n s) (now : Int) : Inv n (step s (.routerRoute now)) := by
  simp only [step]
  split
  · exact h
  rename_i ev hheld
  obtain ⟨t, ht, hev⟩ : ∃ t, s.ledger.held = some t ∧ s.ledger.event t = some ev := by
    have htrack := h.tracks.held
    rw [hheld] at htrack
    simpa using htrack
  cases hroutes : fcRouterRoutes ev with
  | false =>
    simp only [fcRouterRouteEvent, hroutes, Ledger.route, Bool.false_eq_true, if_false]
    exact ⟨h.sound.skip ht hev hroutes, ⟨h.tracks.main, rfl, h.tracks.agent, h.tracks.received⟩,
      h.capacity, h.full, h.failed⟩
  | true =>
    simp only [fcRouterRouteEvent, hroutes, if_true]
    cases hpub : fcQueuePublish s.agent ev with
    | mk ret agent =>
      cases ret with
      | ok u =>
        obtain ⟨hcont, hcap⟩ := fcQueuePublish_ok hpub
        simp only [Ledger.route, hroutes]
        refine ⟨h.sound.of_flow rfl (Ledger.flow_forward _) rfl rfl,
          ⟨h.tracks.main, rfl, ?_, h.tracks.received⟩, hcap.trans h.capacity, h.full, h.failed⟩
        simp only [Ledger.forward, ht, Option.toList_some, map_append,
          map_cons, map_nil, hcont]
        rw [← h.tracks.agent]
        exact congrArg (_ ++ [·]) hev
      | error e =>
        -- The queue of the agent was full, and the event is gone.
        obtain ⟨rfl, hfull⟩ := fcQueuePublish_error hpub
        simp only [Ledger.route, hroutes]
        refine ⟨h.sound.discard ht s.agent, ⟨h.tracks.main, rfl, h.tracks.agent, h.tracks.received⟩,
          h.capacity, ?_, ?_⟩
        · intro d hd
          rw [Ledger.discarded_discard ht, mem_append, mem_singleton] at hd
          rcases hd with hd | rfl
          · exact h.full d hd
          · exact hfull.trans h.capacity
        · rw [Ledger.discarded_discard ht, length_append, length_singleton]
          simp only [fcRouterRecord]
          rw [h.failed, Nat.mod_add_mod]

theorem inv_step (s : State) (l : Label) (h : Inv n s) : Inv n (step s l) := by
  cases l with
  | publish ev => exact inv_publish h ev
  | routerReceive wake => exact inv_routerReceive h wake
  | routerRoute now => exact inv_routerRoute h now
  | agentReceive wake => exact inv_agentReceive h wake

theorem inv_run (hn : 0 < n) (ls : List Label) : Inv n (Transition.run step (start n hn) ls) :=
  Transition.run_invariant inv_step (inv_start n hn) ls

/-! ## Delivery -/

/-- The event of the ticket is in a queue, in the hands of the router, or with
the agent. -/
def OnItsWay (s : State) (t : Nat) : Prop :=
  t ∈ s.ledger.main ∨ s.ledger.held = some t ∨ t ∈ s.ledger.agent ∨ t ∈ s.ledger.received

instance (s : State) (t : Nat) : Decidable (OnItsWay s t) := inferInstanceAs (Decidable (_ ∨ _))

/-- No accepted event that is routable is ever lost. -/
def NeverDiscarded (s : State) : Prop :=
  ∀ t ev, s.ledger.event t = some ev → fcRouterRoutes ev = true → OnItsWay s t

/-- What the two queues of `n` events and the router guarantee in a state. -/
structure Delivery (n : Nat) (s : State) : Prop where
  /-- The places in the ledger are the places in the program. -/
  tracks : Tracks s
  /-- Events are received at most once and in the order of acceptance. -/
  once : s.ledger.received.Pairwise (· < ·)
  /-- An accepted event that is routable is lost only if the router found the
  agent queue full. -/
  placed : ∀ t ev, s.ledger.event t = some ev → fcRouterRoutes ev = true →
    OnItsWay s t ∨ ∃ q, (t, q) ∈ s.ledger.discarded ∧ q.contents.length = n
  /-- The router counts what it loses. -/
  counted : s.status.failedCount = s.ledger.discarded.length % ulongSize

/-- Under every interleaving of publishers, router and agent, the accepted events
are delivered at most once and in order, and a routable one is lost only when the
router finds the agent queue full, which it counts. -/
theorem delivery (n : Nat) (hn : 0 < n) (ls : List Label) :
    Delivery n (Transition.run step (start n hn) ls) := by
  have hinv := inv_run hn ls
  refine ⟨hinv.tracks, ?_, ?_, hinv.failed⟩
  · refine hinv.sound.increasing.sublist ?_
    simp only [Ledger.flow, append_assoc]
    exact sublist_append_left _ _
  intro t ev hev hroutes
  rcases hinv.sound.covered t (Ledger.lt_of_event hev) with hflow | hskip | hdisc
  · left
    simp only [Ledger.flow, mem_append, Option.mem_toList] at hflow
    -- The flow is the agent thread, the agent queue, the router thread and the main queue.
    unfold OnItsWay
    tauto
  -- Only events that are not routable are skipped.
  · obtain ⟨ev', hev', hno⟩ := hinv.sound.skipped t hskip
    rw [hev] at hev'
    cases hev'
    rw [hroutes] at hno
    cases hno
  · obtain ⟨⟨u, q⟩, hd, rfl⟩ := mem_map.mp hdisc
    exact Or.inr ⟨q, hd, hinv.full _ hd⟩

/-- A message from the command line. -/
def cliMessage : Event :=
  { Event.zero with source := .copy 24 "cli".toList, type := .copy 32 "message.in".toList }

/-- Two messages through both queues, the second one of which is accepted while the first one is
routed. -/
theorem delivery_two_messages :
    0 < 16 ∧ Delivery 16 (Transition.run step (start 16 (by decide))
      [.publish cliMessage, .routerReceive .etimedout, .publish cliMessage, .routerRoute 0, .agentReceive .etimedout,
        .routerReceive .etimedout, .routerRoute 0, .agentReceive .etimedout]) :=
  ⟨by decide, delivery 16 (by decide) _⟩

/-- Seventeen messages that are forwarded before the agent takes the first. -/
def floodedRun : List Label :=
  (replicate 17 [.publish cliMessage, .routerReceive .etimedout, .routerRoute 0]).flatten

/-- The last of them is lost. -/
theorem neverDiscarded_flooded :
    ¬ NeverDiscarded (Transition.run step (start 16 (by decide)) floodedRun) := by
  intro h
  have hway := h 16 cliMessage (by decide) (by decide)
  exact absurd hway (by decide)

end Router

end FruitClaw
