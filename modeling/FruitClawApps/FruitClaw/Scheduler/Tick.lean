-- SUMMARY: The scheduler thread: what a tick does to the table and to one slot.
import FruitClawApps.FruitClaw.Queue
import FruitClawApps.FruitClaw.Scheduler.Cron
import FruitClawApps.FruitClaw.Scheduler.Persist

/-!
# The scheduler thread

Once a second the thread walks over the slots. A job that is due is copied, its slot is changed, and
an event is published from the copy without the lock. The events and the answers of the queue, which
the thread ignores, are recorded.
-/

namespace FruitClaw.Scheduler

open Calendar List

/-! ## What the thread meets -/

/-- What the work on one slot meets: the readings of the clock, the id of the
event, the main queue as the publish finds it, and the save. -/
structure SlotEnv where
  /-- The clock when a job without a due time gets one. -/
  firstMs : Int64
  /-- The clock when the next due time of a job is set. -/
  againMs : Int64
  idMs : Int
  seq : Nat
  tsMs : Int
  queue : Queue
  save : SaveEnv

/-- What a tick meets: its reading of the clock, and what happens at each slot. -/
structure TickEnv where
  nowMs : Int64
  slot : Nat → SlotEnv

variable (nowMs : Int64) (env : SlotEnv) (job : Job)

/-- `now_s`. -/
def secondOf : Int := nowMs.toInt.tdiv 1000

/-- The UTC minute of a reading of the clock. -/
def minuteOf : Int := secondOf nowMs / 60

/-! ## Publishing -/

/-- An event that was published for a slot: the clock of the tick, which is absent
for a boot job, and the answer of the queue. -/
structure Emission where
  slot : Nat
  tickMs : Option Int64
  event : Event
  ret : Ret
deriving DecidableEq

/-- The event that `fc_emit_schedule` builds. -/
def scheduleEvent : Event where
  id := fcMakeId "sched".toList env.idMs env.seq
  source := .copy 24 "scheduler".toList
  type := .copy 32 "timer.fire".toList
  channel := if job.channel.str = [] then .copy 24 "internal".toList else job.channel
  chatId := job.chatId
  sessionId := if job.sessionId.str = [] then .copy 64 "schedule".toList else job.sessionId
  ownerMode := job.ownerMode
  text := job.prompt
  payloadJson := .copy 8192 ("\x7b\"job_id\":\"".toList ++ job.id.str ++ "\"\x7d".toList)
  tsMs := env.tsMs

/-- `fc_emit_schedule`. -/
def fcEmitSchedule (slot : Nat) (tickMs : Option Int64) (env : SlotEnv) (job : Job) : Emission where
  slot := slot
  tickMs := tickMs
  event := scheduleEvent env job
  ret := (fcQueuePublish env.queue (scheduleEvent env job)).1

/-- The event of a job is accepted exactly if the queue has room. -/
theorem fcEmitSchedule_ret {slot : Nat} {tickMs : Option Int64} {env : SlotEnv} {job : Job} :
    (fcEmitSchedule slot tickMs env job).ret = .ok () ↔ env.queue.hasRoom = true :=
  fcQueuePublish_ok_iff

/-! ## One slot -/

/-- `minute_key`. -/
def minuteKey (tmv : Tm) : Int := tmv.date.yday * 24 * 60 + tmv.hour * 60 + tmv.min

/-- The work of a tick on the job of a slot: the job it leaves there, and the copy
it publishes if the job is due. -/
def tickJob : Job × Option Job :=
  if !job.used || !job.enabled then (job, none)
  else
    match job.type with
    | .interval =>
      -- a job without a due time gets one first
      let job := if job.nextMs = 0 then fcScheduleNextInterval env.firstMs job else job
      if nowMs ≥ job.nextMs then (fcScheduleNextInterval env.againMs job, some job) else (job, none)
    | .once =>
      if job.atEpoch > 0 ∧ secondOf nowMs ≥ job.atEpoch.toInt then ({ job with enabled := false }, some job)
      else (job, none)
    | .cron =>
      let tmv := gmtime (secondOf nowMs)
      if minuteKey tmv ≠ job.lastMinuteKey ∧ fcCronMatches job.expr.str tmv = true then
        ({ job with lastMinuteKey := minuteKey tmv }, some job)
      else (job, none)
    | .boot => (job, none)

theorem tickJob_type :
    (tickJob nowMs env job).1.type = job.type ∧
      ∀ copy, (tickJob nowMs env job).2 = some copy → copy.type = job.type := by
  unfold tickJob
  split
  · simp
  split
  · dsimp only
    split_ifs <;> simp_all [fcScheduleNextInterval]
  · split_ifs <;> simp_all
  · dsimp only
    split_ifs <;> simp_all
  · simp_all

theorem tickJob_cron {job : Job} (hused : job.used = true) (henabled : job.enabled = true)
    (htype : job.type = .cron) (nowMs : Int64) (env : SlotEnv) :
    tickJob nowMs env job =
      if minuteKey (gmtime (secondOf nowMs)) ≠ job.lastMinuteKey ∧
          fcCronMatches job.expr.str (gmtime (secondOf nowMs)) = true then
        ({ job with lastMinuteKey := minuteKey (gmtime (secondOf nowMs)) }, some job)
      else (job, none) := by
  unfold tickJob
  rw [hused, henabled, htype]
  simp

/-- A one-shot job is due: it has not fired, and its time has come. -/
def OnceDue : Prop :=
  job.used = true ∧ job.enabled = true ∧ job.type = .once ∧
    job.atEpoch > 0 ∧ secondOf nowMs ≥ job.atEpoch.toInt

instance (nowMs : Int64) (job : Job) : Decidable (OnceDue nowMs job) := inferInstanceAs (Decidable (_ ∧ _))

theorem tickJob_once {job : Job} (htype : job.type = .once) (nowMs : Int64) (env : SlotEnv) :
    tickJob nowMs env job =
      if OnceDue nowMs job then ({ job with enabled := false }, some job) else (job, none) := by
  by_cases hdue : OnceDue nowMs job
  · obtain ⟨hused, henabled, -, hat, hnow⟩ := hdue
    rw [if_pos ⟨hused, henabled, htype, hat, hnow⟩]
    simp [tickJob, hused, henabled, htype, hat, hnow]
  rw [if_neg hdue, tickJob, htype]
  split
  · rfl
  rename_i hon
  simp only [Bool.or_eq_true, Bool.not_eq_true', not_or, Bool.not_eq_false] at hon
  exact if_neg fun h => hdue ⟨hon.1, hon.2, htype, h.1, h.2⟩

/-! ## The thread -/

/-- The state of the scheduler. The table that the last successful save wrote and
the published events are recorded for the specification only. -/
structure State where
  table : JobTable
  emitted : List Emission
  saved : Option JobTable
  files : FileStore

def State.start (table : JobTable) (files : FileStore) : State := ⟨table, [], none, files⟩

/-- What a tick meets when it comes to a slot. -/
structure Label where
  nowMs : Int64
  slot : Nat
  env : SlotEnv

section

variable (cj : CJson) (root : DataRoot)

def saveTable (env : SaveEnv) (s : State) : State :=
  match fcSchedulerSave cj root env s.table with
  | (.ok (), ops) => { s with files := FileStore.run s.files ops, saved := some s.table }
  | (.error _, ops) => { s with files := FileStore.run s.files ops }

/-- One turn of the loop in `fc_scheduler_thread_main`. -/
def step (s : State) (l : Label) : State :=
  match s.table.slots[l.slot]? with
  | none => s
  | some job =>
    let (job, copy) := tickJob l.nowMs l.env job
    let s := { s with table := s.table.put l.slot job }
    match copy with
    | none => s
    | some copy =>
      let s := { s with emitted := s.emitted ++ [fcEmitSchedule l.slot (some l.nowMs) l.env copy] }
      -- only a one-shot job is saved, since only its slot changes for good
      if copy.type = .once then saveTable cj root l.env.save s else s

/-- The turns of the loop in one tick. -/
def sweep (tick : TickEnv) : List Label :=
  (range fcMaxSchedules).map fun i => ⟨tick.nowMs, i, tick.slot i⟩

/-- The scheduler after a number of ticks. -/
def ticked (s : State) (ticks : List TickEnv) : State := Transition.run (step cj root) s (ticks.flatMap sweep)

end

/-- `fc_scheduler_emit_boot_jobs`, which runs before the first tick. -/
def fcSchedulerEmitBootJobs (lock : Ret) (slot : Nat → SlotEnv) (s : State) : State :=
  match lock with
  | .error _ => s
  | .ok () =>
    let boot (i : Nat) : Option Emission :=
      match s.table.slots[i]? with
      | none => none
      | some job =>
        if job.used && job.enabled && job.type == .boot then some (fcEmitSchedule i none (slot i) job) else none
    { s with emitted := s.emitted ++ (range fcMaxSchedules).filterMap boot }

/-! ## One slot of the table -/

/-- The events that were published for a slot. -/
def State.log (s : State) (i : Nat) : List Emission := s.emitted.filter (·.slot == i)

section

variable {cj : CJson} {root : DataRoot} {s : State} {l : Label} {job : Job} {i : Nat}

@[simp] theorem saveTable_table (env : SaveEnv) : (saveTable cj root env s).table = s.table := by
  unfold saveTable
  split <;> rfl

@[simp] theorem saveTable_log (env : SaveEnv) : (saveTable cj root env s).log i = s.log i := by
  unfold saveTable
  split <;> rfl

/-- The events that a turn publishes. -/
def emissions (l : Label) (job : Job) : List Emission :=
  match (tickJob l.nowMs l.env job).2 with
  | none => []
  | some copy => [fcEmitSchedule l.slot (some l.nowMs) l.env copy]

theorem step_table (h : s.table.Has l.slot job) :
    (step cj root s l).table = s.table.put l.slot (tickJob l.nowMs l.env job).1 := by
  unfold step
  rw [h]
  dsimp only
  split
  · rfl
  · split <;> simp

theorem log_publish (t : JobTable) (e : Emission) :
    ({ s with table := t, emitted := s.emitted ++ [e] } : State).log i = s.log i ++ if e.slot = i then [e] else [] := by
  by_cases hi : e.slot = i <;> simp [State.log, hi]

theorem step_emitted (h : s.table.Has l.slot job) :
    (step cj root s l).log i = s.log i ++ if l.slot = i then emissions l job else [] := by
  unfold step emissions
  rw [h]
  dsimp only
  split
  · simp [State.log]
  split
  · rw [saveTable_log, log_publish]
    rfl
  · rw [log_publish]
    rfl

variable (cj root) in
theorem step_other (h : l.slot ≠ i) :
    (step cj root s l).table.slots[i]? = s.table.slots[i]? ∧ (step cj root s l).log i = s.log i := by
  cases hslot : s.table.slots[l.slot]? with
  | none =>
    unfold step
    rw [hslot]
    exact ⟨rfl, rfl⟩
  | some job =>
    rw [step_table hslot, step_emitted hslot, if_neg h, append_nil]
    exact ⟨by simp [JobTable.put, h], rfl⟩

variable (cj root s) in
theorem run_others {ls : List Label} (h : ∀ l ∈ ls, l.slot ≠ i) :
    (Transition.run (step cj root) s ls).table.slots[i]? = s.table.slots[i]? ∧
      (Transition.run (step cj root) s ls).log i = s.log i := by
  refine Transition.run_induct
    (C := fun _ (l : Label) => l.slot ≠ i)
    (I := fun (s' : State) => s'.table.slots[i]? = s.table.slots[i]? ∧ s'.log i = s.log i)
    (fun s' l hI hne => ?_) ⟨rfl, rfl⟩ (Transition.Meets.of_labels h)
  obtain ⟨htable, hlog⟩ := step_other cj root hne
  exact ⟨htable.trans hI.1, hlog.trans hI.2⟩

variable (cj root) in
/-- A tick does with a slot what its turn for that slot does. -/
theorem run_sweep (tick : TickEnv) (h : s.table.Has i job) :
    (Transition.run (step cj root) s (sweep tick)).table.Has i (tickJob tick.nowMs (tick.slot i) job).1 ∧
      (Transition.run (step cj root) s (sweep tick)).log i =
        s.log i ++ emissions ⟨tick.nowMs, i, tick.slot i⟩ job := by
  -- The slot has one turn. The turns before and after it are for other slots.
  obtain ⟨before, after, hsplit⟩ := append_of_mem (mem_range.mpr h.lt)
  have hnodup := @nodup_range fcMaxSchedules
  rw [hsplit, nodup_append, nodup_cons] at hnodup
  obtain ⟨-, ⟨hafter, -⟩, hbefore⟩ := hnodup
  have hslots (is : List Nat) (hi : i ∉ is) :
      ∀ l ∈ is.map (fun k => (⟨tick.nowMs, k, tick.slot k⟩ : Label)), l.slot ≠ i := by
    intro l hl heq
    obtain ⟨k, hk, rfl⟩ := mem_map.mp hl
    exact hi (heq ▸ hk)
  rw [sweep, hsplit, map_append, map_cons, Transition.run_append, Transition.run_cons]
  obtain ⟨htable, hlog⟩ := run_others cj root s
    (hslots before fun hi => hbefore i hi i mem_cons_self rfl)
  have hhas : (Transition.run (step cj root) s _).table.Has i job := htable.trans h
  obtain ⟨htable', hlog'⟩ := run_others cj root
    (step cj root (Transition.run (step cj root) s _) ⟨tick.nowMs, i, tick.slot i⟩) (hslots after hafter)
  rw [step_emitted hhas, if_pos rfl, hlog] at hlog'
  rw [step_table hhas] at htable'
  exact ⟨htable'.trans (JobTable.has_put_self h.lt), hlog'⟩

/-- A slot that does not hold a boot job publishes nothing before the first tick. -/
theorem fcSchedulerEmitBootJobs_log (lock : Ret) (slot : Nat → SlotEnv) (h : s.table.Has i job)
    (htype : job.type ≠ .boot) : (fcSchedulerEmitBootJobs lock slot s).log i = s.log i := by
  cases lock with
  | error e => rfl
  | ok u =>
    simp only [fcSchedulerEmitBootJobs, State.log, filter_append]
    refine append_right_eq_self.mpr (filter_eq_nil_iff.mpr fun e he => ?_)
    obtain ⟨k, -, hk⟩ := mem_filterMap.mp he
    split at hk
    · cases hk
    rename_i other hother
    split at hk
    · rename_i hboot
      cases hk
      simp only [fcEmitSchedule, beq_iff_eq]
      rintro rfl
      rw [JobTable.Has.unique hother h] at hboot
      simp [htype] at hboot
    · cases hk

end

/-- The thread when it comes to its first tick. -/
def started (lock : Ret) (boot : Nat → SlotEnv) (table : JobTable) (files : FileStore) : State :=
  fcSchedulerEmitBootJobs lock boot (.start table files)

section

variable (lock : Ret) (boot : Nat → SlotEnv) {table : JobTable} (files : FileStore)

@[simp] theorem started_table : (started lock boot table files).table = table := by
  cases lock <;> rfl

@[simp] theorem started_saved : (started lock boot table files).saved = none := by
  cases lock <;> rfl

theorem started_log {i : Nat} {job : Job} (h : table.Has i job) (htype : job.type ≠ .boot) :
    (started lock boot table files).log i = [] :=
  @fcSchedulerEmitBootJobs_log (.start table files) job i lock boot h htype

end

/-- Nothing happens at a slot but what the job itself does. -/
def idleSlot : SlotEnv := ⟨0, 0, 0, 0, 0, emptyQueue, ⟨.ok (), .success⟩⟩

end FruitClaw.Scheduler
