-- SUMMARY: The schedule file: the text that is saved and the table that is loaded.
import FruitClawApps.FruitClaw.Scheduler.Table
import FruitClawApps.Lib.Json
import FruitClawApps.Lib.Transition

/-!
# The schedule file

Jobs are kept in `schedules.json` as an array of objects. The reader takes a text of limited size,
and allocates a slot for each object by the id that it names.
-/

namespace FruitClaw

open Json

/-- `CONFIG_FRUITCLAW_MAX_JSON`, the size of the buffer that the reader uses. -/
def fcMaxJson : Nat := 8192

def fcSchedulesPath (root : DataRoot) : Except Errno CStr :=
  fcDataPath root "schedules.json".toList fcPathLen

/-! ## Saving -/

/-- The members that depend on the type of the job. -/
def typeMembers (job : Job) : List (CStr × Json) :=
  match job.type with
  | .interval =>
    [("type".toList, .str "interval".toList), ("every_sec".toList, .num (job.everySec.toNat : Int))]
  | .once =>
    [("type".toList, .str "once".toList), ("at_epoch".toList, .num (doubleOfInt job.atEpoch.toInt))]
  | .cron => [("type".toList, .str "cron".toList), ("expr".toList, .str job.expr.str)]
  | .boot => [("type".toList, .str "boot".toList)]

/-- The object that `fc_scheduler_save` builds for a job. -/
def jobJson (job : Job) : Json :=
  .obj ([
    ("id".toList, .str job.id.str),
    ("enabled".toList, .bool job.enabled),
    ("prompt".toList, .str job.prompt.str),
    ("channel".toList, .str job.channel.str),
    ("chat_id".toList, .str job.chatId.str),
    ("session_id".toList, .str job.sessionId.str),
    ("owner_mode".toList, .bool job.ownerMode),
    ("created_ms".toList, .num (doubleOfInt job.createdMs.toInt))] ++ typeMembers job)

/-- The document that `fc_scheduler_save` prints. -/
def savedDoc (t : JobTable) : Json := .arr (t.jobs.map jobJson)

/-- What a save meets: the scheduler lock, and the system calls of the write. -/
structure SaveEnv where
  lock : Ret
  write : WriteOutcome

/-- `fc_scheduler_save` of `sched/fc_scheduler.c`. -/
def fcSchedulerSave (cj : CJson) (root : DataRoot) (env : SaveEnv) (t : JobTable) : Ret × List FileOp :=
  match fcSchedulesPath root with
  | .error e => (.error e, [])
  | .ok path =>
    match env.lock with
    | .error e => (.error e, [])
    | .ok () => fcWriteTextFileAtomic env.write path (cj.print (savedDoc t))

variable {t : JobTable} {nowMs : Int64} (item : Json)

theorem fcSchedulerSave_ok {cj : CJson} {root : DataRoot} {env : SaveEnv}
    (h : (fcSchedulerSave cj root env t).1 = .ok ()) (fs : FileStore) :
    ∃ path, fcSchedulesPath root = .ok path ∧
      FileStore.run fs (fcSchedulerSave cj root env t).2 path = some (cj.print (savedDoc t)) := by
  unfold fcSchedulerSave at h ⊢
  split at h
  · cases h
  rename_i path hpath
  split at h
  · cases h
  refine ⟨path, hpath, ?_⟩
  exact fcWriteTextFileAtomic_ok (Prod.ext h rfl) fs

theorem fcSchedulerSave_error {cj : CJson} {root : DataRoot} {env : SaveEnv} {path : CStr}
    (hpath : fcSchedulesPath root = .ok path) (h : (fcSchedulerSave cj root env t).1 ≠ .ok ()) (fs : FileStore) :
    FileStore.run fs (fcSchedulerSave cj root env t).2 path = fs path := by
  unfold fcSchedulerSave at h ⊢
  rw [hpath] at h ⊢
  dsimp only at h ⊢
  split at h
  · rfl
  cases hret : (fcWriteTextFileAtomic env.write path (cj.print (savedDoc t))).1 with
  | error e => exact fcWriteTextFileAtomic_error (Prod.ext hret rfl) fs
  | ok u => exact absurd hret h

/-! ## Loading -/

/-- The cast of a double to `uint32_t`. -/
def uint32OfDouble (v : Rat) : UInt32 := UInt32.ofNat (max 0 (min (2 ^ 32 - 1) (v.num.tdiv v.den))).toNat

/-- The fields that `fc_scheduler_load` sets for every type. -/
def loadCommon (id prompt : CStr) (job : Job) : Job :=
  { job with
    id := .copy 48 id
    prompt := .copy 1024 prompt
    channel := .copy 24 ((item.stringMember "channel".toList).getD "internal".toList)
    chatId := .copy 48 ((item.stringMember "chat_id".toList).getD [])
    sessionId := .copy 64 ((item.stringMember "session_id".toList).getD ("schedule:".toList ++ id))
    enabled := ((item.getObjectItem "enabled".toList).map isTrue).getD true
    ownerMode := ((item.getObjectItem "owner_mode".toList).map isTrue).getD false
    createdMs := .ofInt (((item.numberMember "created_ms".toList).map int64OfDouble).getD 0) }

/-- The fields that `fc_scheduler_load` sets for one type. An unknown type clears
the slot. -/
def loadTyped (nowMs : Int64) (type : CStr) (job : Job) : Job :=
  if type = "interval".toList then
    fcScheduleNextInterval nowMs
      { job with
        type := .interval
        everySec := ((item.numberMember "every_sec".toList).map uint32OfDouble).getD 0 }
  else if type = "once".toList then
    { job with
      type := .once
      atEpoch := .ofInt (((item.numberMember "at_epoch".toList).map int64OfDouble).getD 0) }
  else if type = "cron".toList then
    { job with
      type := .cron
      expr := .copy 48 ((item.stringMember "expr".toList).getD "* * * * *".toList)
      lastMinuteKey := -1 }
  else if type = "boot".toList then { job with type := .boot }
  else .zero

/-- One turn of the loop of `fc_scheduler_load`. -/
def loadItem (nowMs : Int64) (t : JobTable) (item : Json) : JobTable :=
  match item.stringMember "id".toList, item.stringMember "type".toList, item.stringMember "prompt".toList with
  | some id, some type, some prompt =>
    match fcAllocJob t id with
    -- there is no room, and the item is skipped
    | none => t
    | some (i, job) => t.put i (loadTyped item nowMs type (loadCommon item id prompt job))
  | _, _, _ => t

/-- The first half of `fc_scheduler_load`: the parsed schedule file, if there is
one. -/
def readSchedules (cj : CJson) (root : DataRoot) (fault : Option Errno) (fs : FileStore) :
    Except Errno (Option Json) :=
  match fcSchedulesPath root with
  | .error e => .error e
  | .ok path =>
    match fcReadTextFile fault (fs path) fcMaxJson false with
    | .error .enoent => .ok none
    | .error e => .error e
    | .ok buf =>
      match cj.parse buf with
      | none => .error .einval
      | some doc => .ok (some doc)

/-- `fc_scheduler_load` of `sched/fc_scheduler.c`. A missing file leaves the table
as it is. -/
def fcSchedulerLoad (cj : CJson) (root : DataRoot) (fault : Option Errno) (nowMs : Int64) (fs : FileStore)
    (t : JobTable) : Ret × JobTable :=
  match readSchedules cj root fault fs with
  | .error e => (.error e, t)
  | .ok none => (.ok (), t)
  | .ok (some doc) => (.ok (), doc.children.foldl (loadItem nowMs) .empty)

/-! ## Loading keeps the ids distinct -/

/-- The id that an item of a schedule file names fits the id field. -/
def ShortId : Prop := ∀ id, item.stringMember "id".toList = some id → id.length < 48

theorem loadTyped_id {item : Json} {type : CStr} {job : Job}
    (h : (loadTyped item nowMs type job).used = true) : (loadTyped item nowMs type job).id = job.id := by
  unfold loadTyped at h ⊢
  split_ifs at h ⊢
  · rfl
  · rfl
  · rfl
  · rfl
  · cases h

theorem distinctIds_loadItem {item : Json} (h : DistinctIds t)
    (hshort : ShortId item) : DistinctIds (loadItem nowMs t item) := by
  unfold loadItem
  split
  · rename_i id type prompt hid htype hprompt
    split
    · exact h
    rename_i i job halloc
    refine distinctIds_alloc h halloc fun hused => ?_
    rw [loadTyped_id hused]
    exact CBuf.copy_str_of_lt (hshort id hid)
  · exact h

theorem distinctIds_loadItems {items : List Json} (hshort : ∀ item ∈ items, ShortId item) (h : DistinctIds t) :
    DistinctIds (items.foldl (loadItem nowMs) t) :=
  Transition.run_induct (fun _ _ hids hitem => distinctIds_loadItem hids hitem) h (Transition.Meets.of_labels hshort)

end FruitClaw
