-- SUMMARY: The job table: lookup, allocation, and the ways to fill in a job.
import FruitClawApps.FruitClaw.Config
import Mathlib.Data.List.Nodup

/-!
# The job table

The scheduler keeps its jobs in an array of fixed size. A job is looked up by its stored id, which
is cut to a field of 48 bytes.
-/

namespace FruitClaw

open List

/-! ## Jobs -/

/-- `fc_schedule_type_t`. -/
inductive ScheduleType where
  | interval | once | cron | boot
deriving DecidableEq

/-- `fc_schedule_t`. -/
structure Job where
  used : Bool
  enabled : Bool
  type : ScheduleType
  id : CBuf 48
  expr : CBuf 48
  prompt : CBuf 1024
  channel : CBuf 24
  chatId : CBuf 48
  sessionId : CBuf 64
  ownerMode : Bool
  everySec : UInt32
  atEpoch : Int64
  createdMs : Int64
  nextMs : Int64
  lastMinuteKey : Int
deriving DecidableEq

namespace Job

/-- A zeroed job. -/
def zero : Job where
  used := false
  enabled := false
  type := .interval
  id := .empty _
  expr := .empty _
  prompt := .empty _
  channel := .empty _
  chatId := .empty _
  sessionId := .empty _
  ownerMode := false
  everySec := 0
  atEpoch := 0
  createdMs := 0
  nextMs := 0
  lastMinuteKey := 0

/-- A job as `fc_alloc_job` hands it out. -/
def fresh : Job := { zero with used := true, enabled := true, lastMinuteKey := -1 }

end Job

/-- `fc_tool_context_t`, as far as a schedule keeps it. -/
structure ToolContext where
  channel : CBuf 24
  chatId : CBuf 48
  sessionId : CBuf 64
  ownerMode : Bool

/-- `fc_schedule_set_context`. -/
def fcScheduleSetContext (ctx : Option ToolContext) (nowMs : Int64) (job : Job) : Job :=
  let job :=
    match ctx with
    | some ctx =>
      { job with
        channel := if ctx.channel.str = [] then .copy 24 "internal".toList else ctx.channel
        chatId := ctx.chatId
        sessionId := if ctx.sessionId.str = [] then .copy 64 job.id.str else ctx.sessionId
        ownerMode := ctx.ownerMode }
    | none =>
      { job with
        channel := .copy 24 "internal".toList
        chatId := .empty _
        sessionId := .copy 64 ("schedule:".toList ++ job.id.str)
        ownerMode := false }
  if job.createdMs = 0 then { job with createdMs := nowMs } else job

/-- `fc_schedule_next_interval`. -/
def fcScheduleNextInterval (nowMs : Int64) (job : Job) : Job :=
  { job with nextMs := nowMs + Int64.ofInt job.everySec.toNat * 1000 }

/-! ## The table -/

/-- `FC_MAX_SCHEDULES`. -/
def fcMaxSchedules : Nat := 12

/-- `g_jobs`. -/
structure JobTable where
  slots : List Job
  size : slots.length = fcMaxSchedules
deriving DecidableEq

namespace JobTable

/-- The zeroed table. -/
def empty : JobTable := ⟨replicate fcMaxSchedules .zero, rfl⟩

/-- The slot at an index holds the job. -/
def Has (t : JobTable) (i : Nat) (job : Job) : Prop := t.slots[i]? = some job

instance (t : JobTable) (i : Nat) (job : Job) : Decidable (t.Has i job) :=
  inferInstanceAs (Decidable (_ = _))

def put (t : JobTable) (i : Nat) (job : Job) : JobTable := ⟨t.slots.set i job, by simp [t.size]⟩

/-- The jobs in use, in the order of the slots. -/
def jobs (t : JobTable) : List Job := t.slots.filter (·.used)

end JobTable

variable (t : JobTable)

/-- `fc_find_job`: the index of the first used slot with this id. -/
def fcFindJob (id : CStr) : Option Nat :=
  t.slots.findIdx? fun job => job.used && job.id.str == id

/-- `fc_alloc_job`: the slot of the job with this id, or else the first free slot,
cleared. -/
def fcAllocJob (id : CStr) : Option (Nat × Job) :=
  match fcFindJob t id with
  -- a job that is found is handed out with the fields it has
  | some i => t.slots[i]?.map (i, ·)
  | none => (t.slots.findIdx? (!·.used)).map (·, .fresh)

/-- What the four add operations do with the table while they hold the lock:
they allocate the job, store the id and the prompt, fill in what belongs to the
type, and keep the context. -/
def addJob (id prompt : CStr) (ctx : Option ToolContext) (nowMs : Int64) (fill : Job → Job) : Except Errno JobTable :=
  match fcAllocJob t id with
  | none => .error .enospc
  | some (i, job) =>
    let job := { job with id := .copy 48 id, prompt := .copy 1024 prompt }
    let job := { fill job with enabled := true }
    .ok (t.put i (fcScheduleSetContext ctx nowMs job))

def fillInterval (seconds : UInt32) (nowMs : Int64) (job : Job) : Job :=
  fcScheduleNextInterval nowMs { job with type := .interval, everySec := seconds }

def fillCron (expr : CStr) (job : Job) : Job :=
  { job with type := .cron, expr := .copy 48 expr, lastMinuteKey := -1 }

def fillOnce (epoch : Int64) (job : Job) : Job := { job with type := .once, atEpoch := epoch }

def fillBoot (job : Job) : Job := { job with type := .boot, lastMinuteKey := -1 }

/-- What `fc_scheduler_remove` does with the table while it holds the lock. -/
def removeJob (id : Option CStr) : Except Errno JobTable :=
  match id.bind (fcFindJob t) with
  | none => .error .enoent
  | some i => .ok (t.put i .zero)

/-! ## Lookup and allocation -/

namespace JobTable

variable {t : JobTable} {i j : Nat} {job other : Job}

theorem Has.lt (h : t.Has i job) : i < fcMaxSchedules := by
  rw [← t.size]
  exact (List.getElem?_eq_some_iff.mp h).1

theorem exists_has (t : JobTable) (hi : i < fcMaxSchedules) : ∃ job, t.Has i job :=
  ⟨_, getElem?_eq_getElem (by rw [t.size]; exact hi)⟩

theorem Has.unique (h : t.Has i job) (h' : t.Has i other) : job = other :=
  Option.some.inj (h.symm.trans h')

theorem has_put_self (hi : i < fcMaxSchedules) : (t.put i job).Has i job := by
  have hlt : i < t.slots.length := by rw [t.size]; exact hi
  simp [Has, put, hlt]

theorem has_put_ne (hij : i ≠ j) : (t.put i job).Has j other ↔ t.Has j other := by
  simp [Has, put, hij]

theorem has_put_iff (hi : i < fcMaxSchedules) :
    (t.put i job).Has j other ↔ (i = j ∧ other = job) ∨ (i ≠ j ∧ t.Has j other) := by
  by_cases hij : i = j
  · subst hij
    constructor
    · intro h
      exact Or.inl ⟨rfl, h.unique (has_put_self hi)⟩
    rintro (⟨-, rfl⟩ | ⟨hne, -⟩)
    · exact has_put_self hi
    · exact absurd rfl hne
  · rw [has_put_ne hij]
    simp [hij]

end JobTable

section

variable {t : JobTable} {id : CStr} {i : Nat} {job : Job}

theorem fcFindJob_some (h : fcFindJob t id = some i) :
    ∃ job, t.Has i job ∧ job.used = true ∧ job.id.str = id := by
  obtain ⟨hlt, hfound, -⟩ := findIdx?_eq_some_iff_getElem.mp h
  rw [Bool.and_eq_true, beq_iff_eq] at hfound
  exact ⟨t.slots[i], getElem?_eq_getElem hlt, hfound.1, hfound.2⟩

theorem fcFindJob_none (h : fcFindJob t id = none) (hjob : t.Has i job) (hused : job.used = true) :
    job.id.str ≠ id := by
  intro hid
  have hno := findIdx?_eq_none_iff.mp h job (mem_of_getElem? hjob)
  simp [hused, hid] at hno

theorem fcFindJob_isSome (hjob : t.Has i job) (hused : job.used = true) (hid : job.id.str = id) :
    ∃ k, fcFindJob t id = some k := by
  cases hfind : fcFindJob t id with
  | none => exact absurd hid (fcFindJob_none hfind hjob hused)
  | some k => exact ⟨k, rfl⟩

theorem fcAllocJob_some (h : fcAllocJob t id = some (i, job)) :
    i < fcMaxSchedules ∧ job.used = true ∧
      ((t.Has i job ∧ job.id.str = id) ∨
        (fcFindJob t id = none ∧ job = .fresh ∧ ∃ old, t.Has i old ∧ old.used = false)) := by
  unfold fcAllocJob at h
  split at h
  · rename_i k hfind
    obtain ⟨found, hhas, hused, hid⟩ := fcFindJob_some hfind
    rw [hhas] at h
    cases h
    exact ⟨hhas.lt, hused, Or.inl ⟨hhas, hid⟩⟩
  rename_i hfind
  obtain ⟨k, hk, heq⟩ := Option.map_eq_some_iff.mp h
  cases heq
  obtain ⟨hlt, hfree, -⟩ := findIdx?_eq_some_iff_getElem.mp hk
  refine ⟨by rw [← t.size]; exact hlt, rfl, Or.inr ⟨hfind, rfl, t.slots[i], getElem?_eq_getElem hlt, ?_⟩⟩
  simpa using hfree

end

/-! ## Distinct ids -/

/-- The jobs in use have pairwise distinct ids. -/
def DistinctIds (t : JobTable) : Prop := (t.jobs.map (·.id)).Nodup

instance (t : JobTable) : Decidable (DistinctIds t) := inferInstanceAs (Decidable (List.Nodup _))

theorem distinctIds_iff {t : JobTable} :
    DistinctIds t ↔ ∀ i j a b, t.Has i a → t.Has j b → a.used = true → b.used = true → a.id = b.id → i = j := by
  rw [DistinctIds, JobTable.jobs, List.Nodup, pairwise_map, pairwise_filter,
    pairwise_iff_getElem]
  constructor
  · intro h i j a b ha hb hua hub hid
    obtain ⟨hi, rfl⟩ := List.getElem?_eq_some_iff.mp ha
    obtain ⟨hj, rfl⟩ := List.getElem?_eq_some_iff.mp hb
    rcases Nat.lt_trichotomy i j with hlt | heq | hgt
    · exact absurd hid (h i j hi hj hlt hua hub)
    · exact heq
    · exact absurd hid.symm (h j i hj hi hgt hub hua)
  · intro h i j hi hj hlt hua hub hid
    have := h i j _ _ (getElem?_eq_getElem hi) (getElem?_eq_getElem hj) hua hub hid
    omega

theorem distinctIds_empty : DistinctIds .empty := by
  have hnone : JobTable.empty.jobs = [] := rfl
  exact nodup_nil

section

variable {t : JobTable} {id : CStr} {i : Nat} {job new : Job}

theorem distinctIds_put (h : DistinctIds t) (hi : i < fcMaxSchedules)
    (hnew : ∀ j b, i ≠ j → t.Has j b → b.used = true → new.used = true → b.id ≠ new.id) :
    DistinctIds (t.put i new) := by
  rw [distinctIds_iff] at h ⊢
  intro j k a b ha hb hua hub hid
  rw [JobTable.has_put_iff hi] at ha hb
  rcases ha with ⟨rfl, rfl⟩ | ⟨hj, ha⟩ <;> rcases hb with ⟨rfl, rfl⟩ | ⟨hk, hb⟩
  · rfl
  · exact absurd hid.symm (hnew k b hk hb hub hua)
  · exact absurd hid (hnew j a hj ha hua hub)
  · exact h j k a b ha hb hua hub hid

/-- No other slot has the id for which a slot was allocated. -/
theorem fcAllocJob_others (h : DistinctIds t) (halloc : fcAllocJob t id = some (i, job)) {j : Nat} {b : Job}
    (hij : i ≠ j) (hb : t.Has j b) (hused : b.used = true) : b.id.str ≠ id := by
  intro hid
  obtain ⟨-, hu, ⟨hhas, hjid⟩ | ⟨hnone, -, -⟩⟩ := fcAllocJob_some halloc
  · have heq : job.id = b.id := CBuf.ext (hjid.trans hid.symm)
    exact hij (distinctIds_iff.mp h i j job b hhas hb hu hused heq)
  · exact fcFindJob_none hnone hb hused hid

/-- Storing a job under the id that its slot was allocated for keeps the ids
distinct, if the id is not cut. -/
theorem distinctIds_alloc (h : DistinctIds t) (halloc : fcAllocJob t id = some (i, job))
    (hid : new.used = true → new.id.str = id) : DistinctIds (t.put i new) := by
  refine distinctIds_put h (fcAllocJob_some halloc).1 fun j b hij hb hu hnu heq => ?_
  exact fcAllocJob_others h halloc hij hb hu (by rw [heq, hid hnu])

end

end FruitClaw
