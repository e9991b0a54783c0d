-- SUMMARY: The life of a job from the call that stores it to its events.
import FruitClawApps.FruitClaw.Scheduler.RoundTrip
import FruitClawApps.FruitClaw.Scheduler.Tick

/-!
# The life of a job

A job is kept in the table and in the schedule file, comes back after a reset, and is copied into an
event when it fires. All of this leaves its prompt and owner flag alone. So a property of these that
holds for the jobs stored under an id holds for all of their events.
-/

namespace FruitClaw

/-! ## Storing a job -/

/-- The slot for the id takes a job with the id, the prompt and the owner flag. -/
def Stores (t t' : JobTable) (id prompt : CStr) (ownerMode : Bool) : Prop :=
  ∃ i old new, fcAllocJob t id = some (i, old) ∧ t' = t.put i new ∧ new.used = true ∧ new.id = .copy 48 id ∧
    new.prompt = .copy 1024 prompt ∧ new.ownerMode = ownerMode

theorem setContext_cargo (ctx : Option ToolContext) (nowMs : Int64) (job : Job) :
    (fcScheduleSetContext ctx nowMs job).prompt = job.prompt ∧
      (fcScheduleSetContext ctx nowMs job).ownerMode = ctx.any (·.ownerMode) := by
  unfold fcScheduleSetContext
  cases ctx <;> dsimp only <;> split <;> exact ⟨rfl, rfl⟩

section

variable {cj : CJson} {root : DataRoot} {env : OpEnv} {t : JobTable}

theorem addJob_stores {id prompt : CStr} {ctx : Option ToolContext} {nowMs : Int64} {fill : Job → Job}
    (hfill : Fills fill) (hprompt : ∀ job, (fill job).prompt = job.prompt) {t' : JobTable}
    (h : addJob t id prompt ctx nowMs fill = .ok t') : Stores t t' id prompt (ctx.any (·.ownerMode)) := by
  unfold addJob at h
  split at h
  · cases h
  rename_i i old halloc
  cases h
  obtain ⟨-, hused, -⟩ := fcAllocJob_some halloc
  refine ⟨i, old, _, halloc, rfl, ?_, ?_, ?_, ?_⟩
  · rw [(setContext_id _ _ _).2]
    exact (hfill.used _).trans hused
  · rw [(setContext_id _ _ _).1]
    exact hfill.id _
  · rw [(setContext_cargo _ _ _).1]
    exact hprompt _
  · exact (setContext_cargo _ _ _).2

/-- The schedule file holds the table after the operations. -/
def Written (cj : CJson) (root : DataRoot) (t : JobTable) (ops : List FileOp) : Prop :=
  ∃ path, fcSchedulesPath root = .ok path ∧
    ∀ fs, FileStore.run fs ops path = some (cj.print (savedDoc t))

theorem changeAndSave_ok {change : JobTable → Except Errno JobTable}
    (h : (changeAndSave cj root env t change).ret = .ok ()) :
    change t = .ok (changeAndSave cj root env t change).table ∧
      Written cj root (changeAndSave cj root env t change).table (changeAndSave cj root env t change).ops := by
  unfold changeAndSave at h ⊢
  split at h
  · cases h
  split at h
  · cases h
  rename_i t' ht'
  obtain ⟨path, hpath, -⟩ := fcSchedulerSave_ok h fun _ => none
  refine ⟨ht', path, hpath, fun fs => ?_⟩
  obtain ⟨path', hpath', hfile⟩ := fcSchedulerSave_ok h fs
  cases hpath.symm.trans hpath'
  exact hfile

/-- A call that adds a job and returns zero has stored it in the table and in the file. -/
theorem exec_stores {op : Op} {id : CStr} (hid : op.added = some id) (hok : (op.exec cj root env t).ret = .ok ()) :
    (∃ prompt, op.prompt = some prompt ∧ Stores t (op.exec cj root env t).table id prompt op.ownerMode) ∧
      Written cj root (op.exec cj root env t).table (op.exec cj root env t).ops := by
  rcases exec_adds cj root env t hid with ⟨e, herr⟩ | ⟨prompt, ctx, fill, hfill, hkept, hprompt, howner, hexec⟩
  · rw [herr] at hok
    cases hok
  rw [hexec] at hok ⊢
  obtain ⟨hchange, hwritten⟩ := changeAndSave_ok hok
  rw [howner]
  exact ⟨⟨prompt, hprompt, addJob_stores hfill hkept hchange⟩, hwritten⟩

end

namespace Scheduler

open Json List

/-! ## What happens to the scheduler -/

inductive Happening where
  /-- A turn of the loop of the scheduler thread. -/
  | turn (l : Label)
  | call (env : OpEnv) (op : Op)
  /-- The board starts again, with its memory cleared. -/
  | reset
  | load (fault : Option Errno) (nowMs : Int64)
  | boot (lock : Ret) (slot : Nat → SlotEnv)

def happen (cj : CJson) (root : DataRoot) (s : State) : Happening → State
  | .turn l => step cj root s l
  | .call env op =>
    let r := op.exec cj root env s.table
    { s with
      table := r.table
      files := FileStore.run s.files r.ops
      saved := if r.ret = .ok () then some r.table else s.saved }
  | .reset => { s with table := .empty }
  | .load fault nowMs => { s with table := (fcSchedulerLoad cj root fault nowMs s.files s.table).2 }
  | .boot lock slot => fcSchedulerEmitBootJobs lock slot s

/-- No call stores a job under the id, and no table is loaded from another file. -/
def Happening.Elsewhere (id : CBuf 48) : Happening → Prop
  | .call _ (.load _ _) => False
  | .call _ op => op.added.map (CBuf.copy 48) ≠ some id
  | _ => True

/-- The payload of the events of a job. -/
def jobPayload (id : CBuf 48) : CStr := "\x7b\"job_id\":\"".toList ++ id.str ++ "\"\x7d".toList

theorem jobPayload_length (id : CBuf 48) : (jobPayload id).length = id.str.length + 13 := by
  have hopen : "\x7b\"job_id\":\"".toList.length = 11 := by decide
  have hclose : "\"\x7d".toList.length = 2 := by decide
  unfold jobPayload
  simp only [length_append, hopen, hclose]
  omega

/-- The event names the job as its origin. -/
def Emission.Names (e : Emission) (id : CBuf 48) : Prop := e.event.payloadJson.str = jobPayload id

instance (e : Emission) (id : CBuf 48) : Decidable (e.Names id) := inferInstanceAs (Decidable (_ = _))

theorem names_iff {e : Emission} {env : SlotEnv} {job : Job} (he : e.event = scheduleEvent env job) {id : CBuf 48} :
    e.Names id ↔ job.id = id := by
  have hlen : (jobPayload job.id).length < 8192 := by
    have hid := job.id.fits
    rw [jobPayload_length]
    omega
  have hpayload : (scheduleEvent env job).payloadJson.str = jobPayload job.id := CBuf.copy_str_of_lt hlen
  rw [Emission.Names, he, hpayload]
  constructor
  · intro h
    exact CBuf.ext (append_cancel_left (append_cancel_right h))
  · intro h
    rw [h]

/-! ## What the jobs stored under an id carry -/

section

variable (P : CBuf 1024 → Bool → Prop) (id : CBuf 48)

def TableCarries (t : JobTable) : Prop :=
  ∀ i job, t.Has i job → job.used = true → job.id = id → P job.prompt job.ownerMode

/-- The same for an item of the schedule file, as the load reads it. -/
def ItemCarries (item : Json) : Prop :=
  ∀ given prompt, item.stringMember "id".toList = some given → item.stringMember "prompt".toList = some prompt →
    CBuf.copy 48 given = id →
    P (.copy 1024 prompt) (((item.getObjectItem "owner_mode".toList).map isTrue).getD false)

def FileCarries (cj : CJson) (root : DataRoot) (fs : FileStore) : Prop :=
  ∀ fault doc, readSchedules cj root fault fs = .ok (some doc) → ∀ item ∈ doc.children, ItemCarries P id item

structure Carries (cj : CJson) (root : DataRoot) (s : State) : Prop where
  memory : TableCarries P id s.table
  file : FileCarries P id cj root s.files
  events : ∀ e ∈ s.emitted, ∃ env job, e.event = scheduleEvent env job ∧ (job.id = id → P job.prompt job.ownerMode)

end

section

variable {P : CBuf 1024 → Bool → Prop} {id : CBuf 48} {t t' : JobTable} {i : Nat} {nowMs : Int64} {s : State}

theorem tableCarries_put (h : TableCarries P id t) (hi : i < fcMaxSchedules) {new : Job}
    (hnew : new.used = true → new.id = id → P new.prompt new.ownerMode) : TableCarries P id (t.put i new) := by
  intro j job hjob hused hid
  rcases (JobTable.has_put_iff hi).mp hjob with ⟨-, rfl⟩ | ⟨-, hold⟩
  · exact hnew hused hid
  · exact h j job hold hused hid

theorem tableCarries_empty : TableCarries P id .empty := by
  intro i job hjob hused
  have hzero : job = .zero := eq_of_mem_replicate (mem_of_getElem? hjob)
  rw [hzero] at hused
  cases hused

/-! ## Ticks -/

/-- What a job carries: all that its events are made from. -/
structure SameCargo (a b : Job) : Prop where
  used : a.used = b.used
  id : a.id = b.id
  prompt : a.prompt = b.prompt
  ownerMode : a.ownerMode = b.ownerMode

theorem SameCargo.refl (job : Job) : SameCargo job job := ⟨rfl, rfl, rfl, rfl⟩

/-- A tick leaves the cargo of a job alone, and publishes it. -/
theorem tickJob_cargo (nowMs : Int64) (env : SlotEnv) (job : Job) :
    SameCargo (tickJob nowMs env job).1 job ∧
      ∀ copy, (tickJob nowMs env job).2 = some copy → SameCargo copy job := by
  have hquiet : SameCargo job job ∧ ∀ copy, none = some copy → SameCargo copy job := ⟨.refl job, nofun⟩
  unfold tickJob
  split
  · exact hquiet
  split
  · dsimp only
    split_ifs
    all_goals
      refine ⟨⟨rfl, rfl, rfl, rfl⟩, fun copy hcopy => ?_⟩
      cases hcopy
      try exact ⟨rfl, rfl, rfl, rfl⟩
  · split
    · refine ⟨⟨rfl, rfl, rfl, rfl⟩, fun copy hcopy => ?_⟩
      cases hcopy
      exact .refl job
    · exact hquiet
  · dsimp only
    split
    · refine ⟨⟨rfl, rfl, rfl, rfl⟩, fun copy hcopy => ?_⟩
      cases hcopy
      exact .refl job
    · exact hquiet
  · exact hquiet

/-! ## The schedule file -/

theorem itemCarries_jobJson {job : Job} (h : job.id = id → P job.prompt job.ownerMode) :
    ItemCarries P id (jobJson job) := by
  intro given prompt hgiven hprompt hid
  cases hgiven.symm.trans (jobJson_id job)
  cases hprompt.symm.trans (jobJson_prompt job)
  rw [CBuf.copy_self] at hid
  have howner : (jobJson job).getObjectItem "owner_mode".toList = some (.bool job.ownerMode) := rfl
  rw [howner, CBuf.copy_self]
  exact h hid

variable {cj : CJson} {root : DataRoot} {fs fs' : FileStore}

theorem readSchedules_congr {path : CStr} (hpath : fcSchedulesPath root = .ok path) (h : fs' path = fs path)
    (fault : Option Errno) : readSchedules cj root fault fs' = readSchedules cj root fault fs := by
  unfold readSchedules
  rw [hpath]
  dsimp only
  rw [h]

theorem fileCarries_saved {path : CStr} (hpath : fcSchedulesPath root = .ok path)
    (hfile : fs path = some (cj.print (savedDoc t))) (h : TableCarries P id t) : FileCarries P id cj root fs := by
  intro fault doc hdoc item hitem
  cases fault with
  | some e =>
    -- The read fails, so no document comes from it.
    simp only [readSchedules, hpath, hfile, fcReadTextFile] at hdoc
    split_ifs at hdoc
    split at hdoc
    · cases hdoc
    · cases hdoc
    · rename_i hread
      cases hread
  | none =>
    rw [readSchedules_saved hpath hfile] at hdoc
    split_ifs at hdoc
    cases hdoc
    obtain ⟨job, hjob, rfl⟩ := mem_map.mp hitem
    obtain ⟨hmem, hused⟩ := mem_filter.mp hjob
    obtain ⟨i, hi⟩ := getElem?_of_mem hmem
    exact itemCarries_jobJson fun hid => h i job hi hused hid

/-- A save that fails leaves the file as it was, and one that succeeds writes the table. -/
theorem fileCarries_save (h : TableCarries P id t) (hfile : FileCarries P id cj root fs) (env : SaveEnv) :
    FileCarries P id cj root (FileStore.run fs (fcSchedulerSave cj root env t).2) := by
  by_cases hok : (fcSchedulerSave cj root env t).1 = .ok ()
  · obtain ⟨path, hpath, hsaved⟩ := fcSchedulerSave_ok hok fs
    exact fileCarries_saved hpath hsaved h
  cases hpath : fcSchedulesPath root with
  | error e =>
    intro fault doc hdoc
    simp only [readSchedules, hpath] at hdoc
    cases hdoc
  | ok path =>
    intro fault doc hdoc
    rw [readSchedules_congr hpath (fcSchedulerSave_error hpath hok fs)] at hdoc
    exact hfile fault doc hdoc

theorem loadTyped_cargo {item : Json} {type : CStr} {job : Job} (h : (loadTyped item nowMs type job).used = true) :
    (loadTyped item nowMs type job).id = job.id ∧ (loadTyped item nowMs type job).prompt = job.prompt ∧
      (loadTyped item nowMs type job).ownerMode = job.ownerMode := by
  unfold loadTyped at h ⊢
  split_ifs at h ⊢
  · exact ⟨rfl, rfl, rfl⟩
  · exact ⟨rfl, rfl, rfl⟩
  · exact ⟨rfl, rfl, rfl⟩
  · exact ⟨rfl, rfl, rfl⟩
  · cases h

section

variable (h : TableCarries P id t)
include h

theorem tableCarries_loadItem {item : Json} (hitem : ItemCarries P id item) :
    TableCarries P id (loadItem nowMs t item) := by
  unfold loadItem
  split
  · rename_i given type prompt hgiven htype hprompt
    split
    · exact h
    rename_i i job halloc
    refine tableCarries_put h (fcAllocJob_some halloc).1 fun hused hid => ?_
    obtain ⟨hsame, hp, ho⟩ := loadTyped_cargo hused
    rw [hp, ho]
    exact hitem given prompt hgiven hprompt (hsame.symm.trans hid)
  · exact h

theorem tableCarries_load (hfile : FileCarries P id cj root fs) (fault : Option Errno)
    (nowMs : Int64) : TableCarries P id (fcSchedulerLoad cj root fault nowMs fs t).2 := by
  unfold fcSchedulerLoad
  split
  · exact h
  · exact h
  rename_i doc hdoc
  exact Transition.run_induct (C := fun _ item => ItemCarries P id item)
    (fun _ _ ht hitem => tableCarries_loadItem ht hitem) tableCarries_empty
    (Transition.Meets.of_labels (hfile fault doc hdoc))

/-! ## Calls -/

theorem changeAndSave_carries (hfile : FileCarries P id cj root fs) {env : OpEnv}
    {change : JobTable → Except Errno JobTable} (hchange : ∀ t', change t = .ok t' → TableCarries P id t') :
    TableCarries P id (changeAndSave cj root env t change).table ∧
      FileCarries P id cj root (FileStore.run fs (changeAndSave cj root env t change).ops) := by
  unfold changeAndSave
  split
  · exact ⟨h, hfile⟩
  split
  · exact ⟨h, hfile⟩
  · rename_i t' ht'
    exact ⟨hchange t' ht', fileCarries_save (hchange t' ht') hfile _⟩

theorem addJob_elsewhere {given prompt : CStr} (hgiven : CBuf.copy 48 given ≠ id)
    {ctx : Option ToolContext} {fill : Job → Job} (hfill : Fills fill)
    (ht' : addJob t given prompt ctx nowMs fill = .ok t') : TableCarries P id t' := by
  obtain ⟨i, old, new, halloc, rfl, -, hid⟩ := addJob_ok hfill ht'
  exact tableCarries_put h (fcAllocJob_some halloc).1 fun _ hsame => absurd (hid.symm.trans hsame) hgiven

theorem removeJob_carries {given : Option CStr} (ht' : removeJob t given = .ok t') :
    TableCarries P id t' := by
  unfold removeJob at ht'
  split at ht'
  · cases ht'
  rename_i i hfind
  cases ht'
  obtain ⟨given, -, hfound⟩ := Option.bind_eq_some_iff.mp hfind
  obtain ⟨job, hjob, -⟩ := fcFindJob_some hfound
  exact tableCarries_put h hjob.lt nofun

/-- A call that stores nothing under the id does not change what is stored under it. -/
theorem exec_carries (hfile : FileCarries P id cj root fs) {env : OpEnv} {op : Op}
    (helse : (Happening.call env op).Elsewhere id) :
    TableCarries P id (op.exec cj root env t).table ∧
      FileCarries P id cj root (FileStore.run fs (op.exec cj root env t).ops) := by
  cases hid : op.added with
  | some given =>
    rcases exec_adds cj root env t hid with ⟨e, herr⟩ | ⟨prompt, ctx, fill, hfill, -, -, -, hexec⟩
    · rw [herr]
      exact ⟨h, hfile⟩
    have hgiven : CBuf.copy 48 given ≠ id := by
      intro heq
      cases op with
      | addInterval | addCron | addOnce | addBoot => exact helse (by rw [hid]; exact congrArg some heq)
      | remove | load => cases hid
    rw [hexec]
    exact changeAndSave_carries h hfile fun t' ht' => addJob_elsewhere h hgiven hfill ht'
  | none =>
    cases op with
    | addInterval | addCron | addOnce | addBoot =>
      cases hid
      exact ⟨h, hfile⟩
    | remove given => exact changeAndSave_carries h hfile fun t' ht' => removeJob_carries h ht'
    | load fault fs' => exact helse.elim

end

/-! ## The step and the run -/

section

variable (h : Carries P id cj root s)
include h

theorem saveTable_carries (env : SaveEnv) :
    Carries P id cj root (saveTable cj root env s) := by
  have hfile := fileCarries_save h.memory h.file env
  unfold saveTable
  split
  · rename_i ops hsave
    rw [hsave] at hfile
    exact ⟨h.memory, hfile, h.events⟩
  rename_i e ops hsave
  rw [hsave] at hfile
  exact ⟨h.memory, hfile, h.events⟩

theorem step_carries (l : Label) : Carries P id cj root (step cj root s l) := by
  unfold step
  split
  · exact h
  rename_i job hjob
  obtain ⟨hleft, hcopy⟩ := tickJob_cargo l.nowMs l.env job
  have hmemory : TableCarries P id (s.table.put l.slot (tickJob l.nowMs l.env job).1) := by
    refine tableCarries_put h.memory (JobTable.Has.lt hjob) fun hused hid => ?_
    rw [hleft.prompt, hleft.ownerMode]
    exact h.memory l.slot job hjob (hleft.used.symm.trans hused) (hleft.id.symm.trans hid)
  dsimp only
  split
  · exact ⟨hmemory, h.file, h.events⟩
  rename_i copy htick
  -- Only a job in use is published.
  have hused : job.used = true := by
    cases hno : job.used with
    | true => rfl
    | false => simp [tickJob, hno] at htick
  have hevents : ∀ e ∈ s.emitted ++ [fcEmitSchedule l.slot (some l.nowMs) l.env copy],
      ∃ env job, e.event = scheduleEvent env job ∧ (job.id = id → P job.prompt job.ownerMode) := by
    intro e he
    rcases mem_append.mp he with hold | hnew
    · exact h.events e hold
    rw [mem_singleton] at hnew
    subst hnew
    obtain ⟨-, hid, hprompt, howner⟩ := hcopy copy htick
    refine ⟨l.env, copy, rfl, fun hnames => ?_⟩
    rw [hprompt, howner]
    exact h.memory l.slot job hjob hused (hid.symm.trans hnames)
  have hnext : Carries P id cj root
      { s with
        table := s.table.put l.slot (tickJob l.nowMs l.env job).1
        emitted := s.emitted ++ [fcEmitSchedule l.slot (some l.nowMs) l.env copy] } :=
    ⟨hmemory, h.file, hevents⟩
  split
  · exact saveTable_carries hnext _
  · exact hnext

theorem boot_carries (lock : Ret) (slot : Nat → SlotEnv) :
    Carries P id cj root (fcSchedulerEmitBootJobs lock slot s) := by
  unfold fcSchedulerEmitBootJobs
  split
  · exact h
  refine ⟨h.memory, h.file, fun e he => ?_⟩
  rcases mem_append.mp he with hold | hnew
  · exact h.events e hold
  obtain ⟨i, -, hi⟩ := mem_filterMap.mp hnew
  split at hi
  · cases hi
  rename_i job hjob
  split at hi
  · rename_i hboot
    cases hi
    simp only [Bool.and_eq_true] at hboot
    exact ⟨slot i, job, rfl, h.memory i job hjob hboot.1.1⟩
  · cases hi

theorem happen_carries {l : Happening} (hl : l.Elsewhere id) :
    Carries P id cj root (happen cj root s l) := by
  cases l with
  | turn l => exact step_carries h l
  | call env op =>
    obtain ⟨hmemory, hfile⟩ := exec_carries h.memory h.file hl
    exact ⟨hmemory, hfile, h.events⟩
  | reset => exact ⟨tableCarries_empty, h.file, h.events⟩
  | load fault nowMs => exact ⟨tableCarries_load h.memory h.file fault nowMs, h.file, h.events⟩
  | boot lock slot => exact boot_carries h lock slot

/-- What the jobs stored under an id carry, their events carry over every run. -/
theorem run_carries {ls : List Happening} (hls : ∀ l ∈ ls, l.Elsewhere id) :
    Carries P id cj root (Transition.run (happen cj root) s ls) :=
  Transition.run_induct (fun _ _ hs hl => happen_carries hs hl) h (Transition.Meets.of_labels hls)

end

/-! ## The events of a job -/

/-- The event comes from a job that the call left in its slot although it is stored under the same
id. There is one only if the id is cut to fit the id field, or if two jobs had one id before, which
takes a cut id as well. -/
def FromElder (t t' : JobTable) (given : CStr) (e : Emission) : Prop :=
  (48 ≤ given.length ∨ ¬ DistinctIds t) ∧ ∃ i job, t.Has i job ∧ t'.Has i job ∧ job.used = true ∧
    job.id = .copy 48 given ∧ e.event.text = job.prompt ∧ e.event.ownerMode = job.ownerMode

/-- Every later event that names the job is built by `fc_emit_schedule` and carries the
prompt and the owner flag that the call stored, unless an elder job has the same id. -/
theorem events_of_stored {given prompt : CStr} {ownerMode : Bool} (hstores : Stores t t' given prompt ownerMode)
    {ops : List FileOp} (hwritten : Written cj root t' ops) (files : FileStore) {ls : List Happening}
    (hls : ∀ l ∈ ls, l.Elsewhere (.copy 48 given)) {e : Emission}
    (he : e ∈ (Transition.run (happen cj root) (.start t' (FileStore.run files ops)) ls).emitted)
    (hnames : e.Names (.copy 48 given)) :
    (∃ env job, e.event = scheduleEvent env job ∧ job.prompt = .copy 1024 prompt ∧ job.ownerMode = ownerMode) ∨
      FromElder t t' given e := by
  obtain ⟨i, old, new, halloc, rfl, -, -, hprompt, howner⟩ := hstores
  obtain ⟨path, hpath, hfile⟩ := hwritten
  let P (text : CBuf 1024) (owner : Bool) : Prop :=
    (text = .copy 1024 prompt ∧ owner = ownerMode) ∨
      (48 ≤ given.length ∨ ¬ DistinctIds t) ∧ ∃ j job, t.Has j job ∧ (t.put i new).Has j job ∧ job.used = true ∧
        job.id = .copy 48 given ∧
        text = job.prompt ∧ owner = job.ownerMode
  have hmemory : TableCarries P (.copy 48 given) (t.put i new) := by
    intro j job hjob hused hid
    rcases (JobTable.has_put_iff (fcAllocJob_some halloc).1).mp hjob with ⟨-, rfl⟩ | ⟨hj, hold⟩
    · exact .inl ⟨hprompt, howner⟩
    refine .inr ⟨?_, j, job, hold, hjob, hused, hid, rfl, rfl⟩
    by_contra hshort
    rw [not_or, Nat.not_le, not_not] at hshort
    refine fcAllocJob_others hshort.2 halloc hj hold hused ?_
    rw [hid]
    exact CBuf.copy_str_of_lt hshort.1
  have hstart : Carries P (.copy 48 given) cj root (.start (t.put i new) (FileStore.run files ops)) :=
    ⟨hmemory, fileCarries_saved hpath (hfile files) hmemory, nofun⟩
  obtain ⟨env, job, hevent, hjob⟩ := (run_carries hstart hls).events e he
  rcases hjob ((names_iff hevent).mp hnames) with ⟨hp, ho⟩ | ⟨hcut, j, elder, hold, hleft, hused, hid, hp, ho⟩
  · exact .inl ⟨env, job, hevent, hp, ho⟩
  refine .inr ⟨hcut, j, elder, hold, hleft, hused, hid, ?_, ?_⟩
  · rw [hevent]
    exact hp
  · rw [hevent]
    exact ho

end

end Scheduler

end FruitClaw
