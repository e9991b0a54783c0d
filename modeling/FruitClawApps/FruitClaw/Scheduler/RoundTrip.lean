-- SUMMARY: Exactly which job tables come back from save and load.
import FruitClawApps.FruitClaw.Scheduler.Operations

/-!
# Saving and loading

A save that returns zero has put the printed table into the schedule file. The load reads a bounded
part of it, so a long text is cut and does not parse. A text that fits comes back as the same
document.
-/

namespace FruitClaw

open Json List

/-! ## What a job keeps -/

/-- The fields of a job that a restart must not change. -/
structure JobRecord where
  id : CBuf 48
  type : ScheduleType
  expr : CBuf 48
  everySec : UInt32
  atEpoch : Int64
  prompt : CBuf 1024
  enabled : Bool
  channel : CBuf 24
  chatId : CBuf 48
  sessionId : CBuf 64
  ownerMode : Bool
deriving DecidableEq

def Job.record (job : Job) : JobRecord where
  id := job.id
  type := job.type
  expr := job.expr
  everySec := job.everySec
  atEpoch := job.atEpoch
  prompt := job.prompt
  enabled := job.enabled
  channel := job.channel
  chatId := job.chatId
  sessionId := job.sessionId
  ownerMode := job.ownerMode

/-- A load from the store succeeds and yields the same jobs in the same order. -/
def Survives (cj : CJson) (root : DataRoot) (nowMs : Int64) (fs : FileStore) (old t : JobTable) : Prop :=
  ∃ t', fcSchedulerLoad cj root none nowMs fs old = (.ok (), t') ∧
    t'.jobs.map Job.record = t.jobs.map Job.record

/-- The epoch survives the conversion to a double and back. -/
def EpochExact (at_ : Int64) : Prop := int64OfDouble (doubleOfInt at_.toInt) = at_.toInt

/-- Fields that do not belong to the type of the job have their initial value, and
the epoch of a one-shot job is exact. -/
structure PlainJob (job : Job) : Prop where
  every : job.type ≠ .interval → job.everySec = 0
  epoch : job.type ≠ .once → job.atEpoch = 0
  exact : job.type = .once → EpochExact job.atEpoch
  expr : job.type ≠ .cron → job.expr = .empty _

/-- The tables that a restart preserves. -/
structure Restorable (cj : CJson) (t : JobTable) : Prop where
  distinct : DistinctIds t
  fits : (cj.print (savedDoc t)).length < fcMaxJson
  plain : ∀ job ∈ t.jobs, PlainJob job

/-! ## The file -/

theorem whole_num {i : Int} (h : IsDouble i) : (Json.num i).Whole := by
  refine ⟨by simp, ?_⟩
  simpa using h

theorem jobJson_whole (job : Job) : (jobJson job).Whole := by
  have hcreated := whole_num (doubleOfInt_isDouble job.createdMs.toInt)
  have hat := whole_num (doubleOfInt_isDouble job.atEpoch.toInt)
  have hevery : (Json.num (job.everySec.toNat : Int)).Whole := by
    have hlt := job.everySec.toNat_lt
    exact whole_num (isDouble_of_le (by simp; omega))
  cases htype : job.type <;> simp_all [jobJson, typeMembers, Json.Whole, Json.WholeMembers]

theorem savedDoc_whole (t : JobTable) : (savedDoc t).Whole := by
  refine wholeItems_of_forall fun j hj => ?_
  obtain ⟨job, -, rfl⟩ := mem_map.mp hj
  exact jobJson_whole job

variable {t : JobTable} {js : List Job}

/-- What the load sees of a saved table: the document if its text fits the buffer,
and an error otherwise. -/
theorem readSchedules_saved {cj : CJson} {root : DataRoot} {fs : FileStore} {path : CStr}
    (hpath : fcSchedulesPath root = .ok path) (hfile : fs path = some (cj.print (savedDoc t))) :
    readSchedules cj root none fs =
      if (cj.print (savedDoc t)).length < fcMaxJson then .ok (some (savedDoc t)) else .error .einval := by
  have hnul := cj.print_no_nul (savedDoc t)
  have hlen : fcMaxJson ≠ 0 := by decide
  simp only [readSchedules, hpath, hfile, fcReadTextFile, if_neg hlen, Bool.false_eq_true, if_false]
  split_ifs with hfits
  · rw [take_of_length_le (by omega), CStr.ofMem_eq_self hnul, cj.parse_print _ (savedDoc_whole t)]
  -- The reader gets a proper initial part of the text, which is no JSON document.
  · have hcutText := take_prefix (fcMaxJson - 1) (cj.print (savedDoc t))
    have hcut : (cj.print (savedDoc t)).take (fcMaxJson - 1) ≠ cj.print (savedDoc t) := by
      intro heq
      have hl := congrArg List.length heq
      rw [length_take] at hl
      omega
    rw [CStr.ofMem_eq_self fun hmem => hnul (hcutText.mem hmem)]
    rw [cj.parse_cut _ _ (savedDoc_whole t) hcutText hcut]

/-! ## One job -/

/-- The name of a type in the schedule file. -/
def typeName : ScheduleType → CStr
  | .interval => "interval".toList
  | .once => "once".toList
  | .cron => "cron".toList
  | .boot => "boot".toList

variable (nowMs : Int64) (job : Job)

theorem jobJson_id : (jobJson job).stringMember "id".toList = some job.id.str := rfl

theorem jobJson_prompt : (jobJson job).stringMember "prompt".toList = some job.prompt.str := rfl

theorem jobJson_type : (jobJson job).stringMember "type".toList = some (typeName job.type) := by
  unfold jobJson typeMembers
  cases job.type <;> rfl

/-- The job that the load builds from the object of a job. -/
def restored : Job :=
  loadTyped (jobJson job) nowMs (typeName job.type) (loadCommon (jobJson job) job.id.str job.prompt.str .fresh)

theorem loadCommon_saved (job fresh : Job) :
    loadCommon (jobJson job) job.id.str job.prompt.str fresh =
      { fresh with
        id := job.id
        prompt := job.prompt
        channel := job.channel
        chatId := job.chatId
        sessionId := job.sessionId
        enabled := job.enabled
        ownerMode := job.ownerMode
        createdMs := .ofInt (int64OfDouble (doubleOfInt job.createdMs.toInt)) } := by
  have hchannel : (jobJson job).stringMember "channel".toList = some job.channel.str := rfl
  have hchat : (jobJson job).stringMember "chat_id".toList = some job.chatId.str := rfl
  have hsession : (jobJson job).stringMember "session_id".toList = some job.sessionId.str := rfl
  have henabled : (jobJson job).getObjectItem "enabled".toList = some (.bool job.enabled) := rfl
  have howner : (jobJson job).getObjectItem "owner_mode".toList = some (.bool job.ownerMode) := rfl
  have hcreated : (jobJson job).numberMember "created_ms".toList =
      some (doubleOfInt job.createdMs.toInt : Rat) := rfl
  unfold loadCommon
  rw [hchannel, hchat, hsession, henabled, howner, hcreated]
  simp [Json.isTrue]

theorem uint32OfDouble_toNat (n : UInt32) : uint32OfDouble ((n.toNat : Int) : Rat) = n := by
  have hlt := n.toNat_lt
  have hdiv : (((n.toNat : Int) : Rat).num.tdiv ((((n.toNat : Int) : Rat).den : Nat) : Int)) = n.toNat := by
    simp
  rw [uint32OfDouble, hdiv]
  have hclamp : (max 0 (min (2 ^ 32 - 1) (n.toNat : Int))).toNat = n.toNat := by omega
  rw [hclamp, UInt32.ofNat_toNat]

/-- What the load sets for the name of each type. -/
theorem loadTyped_typeName (item : Json) (nowMs : Int64) (type : ScheduleType) (job : Job) :
    loadTyped item nowMs (typeName type) job =
      match type with
      | .interval =>
        fcScheduleNextInterval nowMs
          { job with
            type := .interval
            everySec := ((item.numberMember "every_sec".toList).map uint32OfDouble).getD 0 }
      | .once =>
        { job with
          type := .once
          atEpoch := .ofInt (((item.numberMember "at_epoch".toList).map int64OfDouble).getD 0) }
      | .cron =>
        { job with
          type := .cron
          expr := .copy 48 ((item.stringMember "expr".toList).getD "* * * * *".toList)
          lastMinuteKey := -1 }
      | .boot => { job with type := .boot } := by
  cases type <;> rfl

/-- The fields of a restored job: those of the job itself, with the fields of other
types at their initial value and the epoch rounded. -/
theorem restored_record :
    (restored nowMs job).record =
      { job.record with
        expr := if job.type = .cron then job.expr else .empty _
        everySec := if job.type = .interval then job.everySec else 0
        atEpoch := if job.type = .once then .ofInt (int64OfDouble (doubleOfInt job.atEpoch.toInt)) else 0 } := by
  unfold restored
  rw [loadCommon_saved, loadTyped_typeName]
  cases htype : job.type with
  | interval =>
    have hevery : (jobJson job).numberMember "every_sec".toList = some ((job.everySec.toNat : Int) : Rat) := by
      unfold jobJson typeMembers
      rw [htype]
      rfl
    rw [hevery, Option.map_some, Option.getD_some, uint32OfDouble_toNat]
    simp [Job.record, fcScheduleNextInterval, htype, Job.fresh, Job.zero]
  | once =>
    have hat : (jobJson job).numberMember "at_epoch".toList = some (doubleOfInt job.atEpoch.toInt : Rat) := by
      unfold jobJson typeMembers
      rw [htype]
      rfl
    rw [hat, Option.map_some, Option.getD_some]
    simp [Job.record, htype, Job.fresh, Job.zero]
  | cron =>
    have hexpr : (jobJson job).stringMember "expr".toList = some job.expr.str := by
      unfold jobJson typeMembers
      rw [htype]
      rfl
    rw [hexpr, Option.getD_some]
    simp [Job.record, htype, Job.fresh, Job.zero]
  | boot => simp [Job.record, htype, Job.fresh, Job.zero]

theorem restored_used : (restored nowMs job).used = true := by
  unfold restored
  cases job.type <;> rfl

theorem restored_id : (restored nowMs job).id = job.id :=
  congrArg JobRecord.id (restored_record nowMs job)

theorem epochExact_iff (epoch : Int64) :
    Int64.ofInt (int64OfDouble (doubleOfInt epoch.toInt)) = epoch ↔ EpochExact epoch := by
  have hrange : ∀ v : Rat, -2 ^ 63 ≤ int64OfDouble v ∧ int64OfDouble v < 2 ^ 63 := by
    intro v
    unfold int64OfDouble
    omega
  constructor
  · intro h
    have htoInt := congrArg Int64.toInt h
    rwa [Int64.toInt_ofInt_of_le (hrange _).1 (hrange _).2] at htoInt
  · intro h
    rw [h, Int64.ofInt_toInt]

/-- A job comes back as it was exactly if it is plain. -/
theorem restored_record_iff :
    (restored nowMs job).record = job.record ↔ PlainJob job := by
  rw [restored_record]
  constructor
  · intro h
    have hexpr := congrArg JobRecord.expr h
    have hevery := congrArg JobRecord.everySec h
    have hat := congrArg JobRecord.atEpoch h
    refine ⟨fun hne => ?_, fun hne => ?_, fun heq => ?_, fun hne => ?_⟩
    · rw [if_neg hne] at hevery
      exact hevery.symm
    · rw [if_neg hne] at hat
      exact hat.symm
    · rw [if_pos heq] at hat
      exact (epochExact_iff _).mp hat
    · rw [if_neg hne] at hexpr
      exact hexpr.symm
  intro h
  have hexpr : (if job.type = .cron then job.expr else .empty _) = job.expr := by
    split
    · rfl
    · exact (h.expr ‹_›).symm
  have hevery : (if job.type = .interval then job.everySec else 0) = job.everySec := by
    split
    · rfl
    · exact (h.every ‹_›).symm
  have hat : (if job.type = .once then Int64.ofInt (int64OfDouble (doubleOfInt job.atEpoch.toInt)) else 0) =
      job.atEpoch := by
    split
    · exact (epochExact_iff _).mpr (h.exact ‹_›)
    · exact (h.epoch ‹_›).symm
  rw [hexpr, hevery, hat]
  rfl

/-! ## The table -/

/-- The slots of a table whose used slots come first. -/
def packed (js : List Job) : List Job := js ++ replicate (fcMaxSchedules - js.length) .zero

theorem packed_jobs (h : t.slots = packed js) (hused : ∀ job ∈ js, job.used = true) : t.jobs = js := by
  have hzero : (replicate (fcMaxSchedules - js.length) Job.zero).filter (·.used) = [] := by
    rw [filter_eq_nil_iff]
    intro job hjob
    rw [eq_of_mem_replicate hjob]
    decide
  rw [JobTable.jobs, h, packed, filter_append, hzero, append_nil, filter_eq_self.mpr hused]

/-- An id that is not in a packed table is given the first slot behind the used
ones. -/
theorem fcAllocJob_packed {id : CStr} (h : t.slots = packed js) (hused : ∀ job ∈ js, job.used = true)
    (hlen : js.length < fcMaxSchedules) (hid : ∀ job ∈ js, job.id.str ≠ id) :
    fcAllocJob t id = some (js.length, .fresh) := by
  have hfind : fcFindJob t id = none := by
    refine findIdx?_eq_none_iff.mpr fun job hjob => ?_
    rw [h, packed, mem_append] at hjob
    rcases hjob with hjob | hjob
    · simp [hused job hjob, hid job hjob]
    · rw [eq_of_mem_replicate hjob]
      rfl
  have hfree : t.slots.findIdx? (!·.used) = some js.length := by
    obtain ⟨n, hn⟩ : ∃ n, fcMaxSchedules - js.length = n + 1 := ⟨fcMaxSchedules - js.length - 1, by omega⟩
    have hnone : js.findIdx? (!·.used) = none :=
      findIdx?_eq_none_iff.mpr fun job hjob => by simp [hused job hjob]
    have hzero : (!Job.zero.used) = true := rfl
    rw [h, packed, hn, replicate_succ, findIdx?_append, hnone, findIdx?_cons, hzero]
    simp
  rw [fcAllocJob, hfind]
  rw [hfree]
  rfl

theorem put_packed (h : t.slots = packed js) (hlen : js.length < fcMaxSchedules) (job : Job) :
    (t.put js.length job).slots = packed (js ++ [job]) := by
  obtain ⟨n, hn⟩ : ∃ n, fcMaxSchedules - js.length = n + 1 := ⟨fcMaxSchedules - js.length - 1, by omega⟩
  have hrest : fcMaxSchedules - (js ++ [job]).length = n := by
    rw [length_append, length_singleton]
    omega
  rw [packed, hrest]
  simp [JobTable.put, h, packed, hn, replicate_succ]

theorem loadItem_saved {nowMs : Int64} {done : List Job} {job : Job} (h : t.slots = packed (done.map (restored nowMs)))
    (hlen : done.length < fcMaxSchedules) (hid : job.id ∉ done.map (·.id)) :
    (loadItem nowMs t (jobJson job)).slots = packed ((done ++ [job]).map (restored nowMs)) := by
  have hused : ∀ r ∈ done.map (restored nowMs), r.used = true := by
    intro r hr
    obtain ⟨d, -, rfl⟩ := mem_map.mp hr
    exact restored_used nowMs d
  have hids : ∀ r ∈ done.map (restored nowMs), r.id.str ≠ job.id.str := by
    intro r hr heq
    obtain ⟨d, hd, rfl⟩ := mem_map.mp hr
    rw [restored_id] at heq
    exact hid (mem_map.mpr ⟨d, hd, CBuf.ext heq⟩)
  have hlen' : (done.map (restored nowMs)).length < fcMaxSchedules := by rwa [length_map]
  have halloc := fcAllocJob_packed h hused hlen' hids
  unfold loadItem
  rw [jobJson_id, jobJson_type, jobJson_prompt]
  dsimp only
  rw [halloc]
  rw [map_append, map_singleton]
  exact put_packed h hlen' (restored nowMs job)

theorem loadItems_saved {nowMs : Int64} {todo : List Job} {done : List Job}
    (h : t.slots = packed (done.map (restored nowMs))) (hlen : (done ++ todo).length ≤ fcMaxSchedules)
    (hids : ((done ++ todo).map (·.id)).Nodup) :
    ((todo.map jobJson).foldl (loadItem nowMs) t).slots = packed ((done ++ todo).map (restored nowMs)) := by
  induction todo generalizing t done with
  | nil => simpa using h
  | cons job todo ih =>
    have hassoc : done ++ job :: todo = (done ++ [job]) ++ todo := by simp
    have hid : job.id ∉ done.map (·.id) := by
      rw [map_append, nodup_append] at hids
      intro hmem
      exact hids.2.2 _ hmem _ (mem_map_of_mem mem_cons_self) rfl
    have hlt : done.length < fcMaxSchedules := by
      simp only [length_append, length_cons] at hlen
      omega
    rw [hassoc] at hlen hids ⊢
    exact ih (loadItem_saved h hlt hid) hlen hids

/-- Loading the document of a table with distinct ids restores every job in order. -/
theorem load_saved (h : DistinctIds t) :
    ((savedDoc t).children.foldl (loadItem nowMs) .empty).jobs = t.jobs.map (restored nowMs) := by
  have hlen : t.jobs.length ≤ fcMaxSchedules := by
    rw [← t.size]
    exact length_filter_le _ _
  have hempty : JobTable.empty.slots = packed (([] : List Job).map (restored nowMs)) := rfl
  refine packed_jobs (loadItems_saved hempty hlen h) fun r hr => ?_
  obtain ⟨d, -, rfl⟩ := mem_map.mp hr
  exact restored_used nowMs d

theorem shortId_jobJson : ShortId (jobJson job) := by
  intro id hid
  cases hid
  exact job.id.fits

/-- A restart preserves exactly the restorable tables: after a save that returned
zero, the load yields the same jobs in the same order if and only if the ids are
distinct, the text fits the buffer of the reader, and every job is plain. -/
theorem survives_iff (cj : CJson) (root : DataRoot) (env : SaveEnv) (t old : JobTable) (fs : FileStore)
    (nowMs : Int64) (hsave : (fcSchedulerSave cj root env t).1 = .ok ()) :
    Survives cj root nowMs (FileStore.run fs (fcSchedulerSave cj root env t).2) old t ↔ Restorable cj t := by
  obtain ⟨path, hpath, hfile⟩ := fcSchedulerSave_ok hsave fs
  have hread := readSchedules_saved hpath hfile
  unfold Survives
  by_cases hfits : (cj.print (savedDoc t)).length < fcMaxJson
  · rw [if_pos hfits] at hread
    simp only [fcSchedulerLoad, hread, Prod.mk.injEq, true_and, exists_eq_left']
    constructor
    · intro hsame
      -- A load never yields two jobs with one id, so the table it reproduces has none either.
      have hids : DistinctIds t := by
        have hloaded := @distinctIds_loadItems _ nowMs (savedDoc t).children
          (by
            intro item hitem
            obtain ⟨job, -, rfl⟩ := mem_map.mp hitem
            exact shortId_jobJson job) distinctIds_empty
        have hmap := congrArg (List.map JobRecord.id) hsame
        rw [map_map, map_map] at hmap
        unfold DistinctIds at hloaded ⊢
        exact (show t.jobs.map (·.id) = _ from hmap.symm) ▸ hloaded
      refine ⟨hids, hfits, fun job hjob => ?_⟩
      rw [load_saved nowMs hids, map_map, map_inj_left] at hsame
      exact (restored_record_iff nowMs job).mp (hsame job hjob)
    · intro h
      rw [load_saved nowMs h.distinct, map_map, map_inj_left]
      exact fun job hjob => (restored_record_iff nowMs job).mpr (h.plain job hjob)
  · rw [if_neg hfits] at hread
    simp only [fcSchedulerLoad, hread, Prod.mk.injEq, reduceCtorEq, false_and, exists_false, false_iff]
    exact fun h => hfits h.fits

/-- A save in which every call succeeds. -/
def fineSave : SaveEnv := ⟨.ok (), .success⟩

theorem fineSave_ok (cj : CJson) (t : JobTable) : (fcSchedulerSave cj (fcDataDir false) fineSave t).1 = .ok () := by
  have hpath : fcSchedulesPath (fcDataDir false) = .ok "/data/fruitclaw/schedules.json".toList := rfl
  have hlen : ¬ ("/data/fruitclaw/schedules.json".toList ++ ".tmp".toList).length ≥ fcPathLen + 8 := by decide
  unfold fcSchedulerSave
  rw [hpath]
  simp only [fineSave, WriteOutcome.success, fcWriteTextFileAtomic, if_neg hlen, ne_eq, not_true, if_false]

/-- The table after one short job was added. -/
def smallTable : JobTable :=
  Transition.run (Op.step JsonText.reference (fcDataDir false)) .empty [addBootJob "a".toList]

theorem survives_iff_small :
    (fcSchedulerSave JsonText.reference (fcDataDir false) fineSave smallTable).1 = .ok () ∧
      (Survives JsonText.reference (fcDataDir false) 0
        (FileStore.run (fun _ => none)
          (fcSchedulerSave JsonText.reference (fcDataDir false) fineSave smallTable).2) .empty smallTable ↔
        Restorable JsonText.reference smallTable) :=
  ⟨fineSave_ok _ _, survives_iff _ _ _ _ _ _ _ (fineSave_ok _ _)⟩

/-- A boot job whose prompt takes six bytes in the file for each of its own. -/
def addEscapedJob (id : CStr) : OpEnv × Op :=
  (fineEnv, .addBoot (some id) (some (replicate 1023 '\x01')) none)

/-- The table after two such jobs were added. -/
def largeTable : JobTable :=
  Transition.run (Op.step JsonText.reference (fcDataDir false)) .empty
    [addEscapedJob "a".toList, addEscapedJob "b".toList]

/-- The table is saved, and the load of what was saved fails. -/
theorem survives_large :
    (fcSchedulerSave JsonText.reference (fcDataDir false) fineSave largeTable).1 = .ok () ∧
      ¬ Survives JsonText.reference (fcDataDir false) 0
        (FileStore.run (fun _ => none)
          (fcSchedulerSave JsonText.reference (fcDataDir false) fineSave largeTable).2) .empty largeTable := by
  have hsave := fineSave_ok JsonText.reference largeTable
  have hlong : ¬ (JsonText.reference.print (savedDoc largeTable)).length < fcMaxJson := by
    decide +kernel
  obtain ⟨path, hpath, hfile⟩ := fcSchedulerSave_ok hsave fun _ => none
  have hread := readSchedules_saved hpath hfile
  rw [if_neg hlong] at hread
  refine ⟨hsave, ?_⟩
  rintro ⟨t', hload, -⟩
  rw [fcSchedulerLoad, hread] at hload
  cases hload

end FruitClaw
