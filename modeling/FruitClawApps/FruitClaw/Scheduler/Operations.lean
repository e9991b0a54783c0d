-- SUMMARY: Adding, removing and loading jobs, and when the table is keyed by id.
import FruitClawApps.FruitClaw.Scheduler.Persist
import FruitClawApps.Lib.JsonText

/-!
# Operations on the job table

Four functions add a job, one for each type. Each of them, and `fc_scheduler_remove`, saves the
table when it has changed it.
-/

namespace FruitClaw

/-! ## The operations -/

/-- What an operation meets: the scheduler lock, the clock, and the save. -/
structure OpEnv where
  lock : Ret
  nowMs : Int64
  save : SaveEnv

/-- What an operation returns, the table it leaves, and the files it writes. -/
structure OpResult where
  ret : Ret
  table : JobTable
  ops : List FileOp

section

variable (cj : CJson) (root : DataRoot) (env : OpEnv) (t : JobTable)

/-- The change of the table under the lock, and the save that follows it. -/
def changeAndSave (change : JobTable → Except Errno JobTable) : OpResult :=
  match env.lock with
  | .error e => ⟨.error e, t, []⟩
  | .ok () =>
    match change t with
    | .error e => ⟨.error e, t, []⟩
    | .ok t' =>
      let (ret, ops) := fcSchedulerSave cj root env.save t'
      ⟨ret, t', ops⟩

variable (id : Option CStr)

def fcSchedulerAddIntervalCtx (seconds : UInt32) (prompt : Option CStr) (ctx : Option ToolContext) : OpResult :=
  match id, prompt with
  | some id, some prompt =>
    if seconds = 0 then ⟨.error .einval, t, []⟩
    else changeAndSave cj root env t (addJob · id prompt ctx env.nowMs (fillInterval seconds env.nowMs))
  | _, _ => ⟨.error .einval, t, []⟩

def fcSchedulerAddCronCtx (id expr prompt : Option CStr) (ctx : Option ToolContext) : OpResult :=
  match id, expr, prompt with
  | some id, some expr, some prompt =>
    changeAndSave cj root env t (addJob · id prompt ctx env.nowMs (fillCron expr))
  | _, _, _ => ⟨.error .einval, t, []⟩

def fcSchedulerAddOnceCtx (epoch : Int64) (prompt : Option CStr) (ctx : Option ToolContext) : OpResult :=
  match id, prompt with
  | some id, some prompt =>
    if epoch ≤ 0 then ⟨.error .einval, t, []⟩
    else changeAndSave cj root env t (addJob · id prompt ctx env.nowMs (fillOnce epoch))
  | _, _ => ⟨.error .einval, t, []⟩

def fcSchedulerAddBootCtx (id prompt : Option CStr) (ctx : Option ToolContext) : OpResult :=
  match id, prompt with
  | some id, some prompt =>
    changeAndSave cj root env t (addJob · id prompt ctx env.nowMs fillBoot)
  | _, _ => ⟨.error .einval, t, []⟩

def fcSchedulerRemove : OpResult :=
  changeAndSave cj root env t (removeJob · id)

end

/-- A call into the scheduler. -/
inductive Op where
  | addInterval (id : Option CStr) (seconds : UInt32) (prompt : Option CStr) (ctx : Option ToolContext)
  | addCron (id expr prompt : Option CStr) (ctx : Option ToolContext)
  | addOnce (id : Option CStr) (epoch : Int64) (prompt : Option CStr) (ctx : Option ToolContext)
  | addBoot (id prompt : Option CStr) (ctx : Option ToolContext)
  | remove (id : Option CStr)
  /-- A load from a file system with any contents. -/
  | load (fault : Option Errno) (fs : FileStore)

namespace Op

/-- The id for which an operation adds a job. -/
def added : Op → Option CStr
  | .addInterval id _ _ _ => id
  | .addCron id _ _ _ => id
  | .addOnce id _ _ _ => id
  | .addBoot id _ _ => id
  | .remove _ => none
  | .load _ _ => none

/-- The prompt of the job that an operation adds. -/
def prompt : Op → Option CStr
  | .addInterval _ _ prompt _ => prompt
  | .addCron _ _ prompt _ => prompt
  | .addOnce _ _ prompt _ => prompt
  | .addBoot _ prompt _ => prompt
  | .remove _ => none
  | .load _ _ => none

/-- The owner flag of the job that an operation adds. A call without a context has none. -/
def ownerMode : Op → Bool
  | .addInterval _ _ _ ctx => ctx.any (·.ownerMode)
  | .addCron _ _ _ ctx => ctx.any (·.ownerMode)
  | .addOnce _ _ _ ctx => ctx.any (·.ownerMode)
  | .addBoot _ _ ctx => ctx.any (·.ownerMode)
  | .remove _ => false
  | .load _ _ => false

def exec (cj : CJson) (root : DataRoot) (env : OpEnv) (t : JobTable) : Op → OpResult
  | .addInterval id seconds prompt ctx => fcSchedulerAddIntervalCtx cj root env t id seconds prompt ctx
  | .addCron id expr prompt ctx => fcSchedulerAddCronCtx cj root env t id expr prompt ctx
  | .addOnce id epoch prompt ctx => fcSchedulerAddOnceCtx cj root env t id epoch prompt ctx
  | .addBoot id prompt ctx => fcSchedulerAddBootCtx cj root env t id prompt ctx
  | .remove id => fcSchedulerRemove cj root env t id
  | .load fault fs =>
    let (ret, t') := fcSchedulerLoad cj root fault env.nowMs fs t
    ⟨ret, t', []⟩

/-- One call in a run. -/
def step (cj : CJson) (root : DataRoot) (t : JobTable) (l : OpEnv × Op) : JobTable :=
  (l.2.exec cj root l.1 t).table

end Op

/-! ## What each operation can do to the table -/

section

variable (cj : CJson) (root : DataRoot) (env : OpEnv) (t : JobTable)

/-- A fill function leaves the id alone and keeps the job in use. -/
structure Fills (fill : Job → Job) : Prop where
  id : ∀ job, (fill job).id = job.id
  used : ∀ job, (fill job).used = job.used

theorem fills_interval (seconds : UInt32) (nowMs : Int64) : Fills (fillInterval seconds nowMs) :=
  ⟨fun _ => rfl, fun _ => rfl⟩

theorem fills_cron (expr : CStr) : Fills (fillCron expr) := ⟨fun _ => rfl, fun _ => rfl⟩

theorem fills_once (epoch : Int64) : Fills (fillOnce epoch) := ⟨fun _ => rfl, fun _ => rfl⟩

theorem fills_boot : Fills fillBoot := ⟨fun _ => rfl, fun _ => rfl⟩

theorem setContext_id (ctx : Option ToolContext) (nowMs : Int64) (job : Job) :
    (fcScheduleSetContext ctx nowMs job).id = job.id ∧ (fcScheduleSetContext ctx nowMs job).used = job.used := by
  unfold fcScheduleSetContext
  cases ctx <;> dsimp only <;> split <;> exact ⟨rfl, rfl⟩

theorem addJob_ok {t t' : JobTable} {id prompt : CStr} {ctx : Option ToolContext} {nowMs : Int64} {fill : Job → Job}
    (hfill : Fills fill) (h : addJob t id prompt ctx nowMs fill = .ok t') :
    ∃ i old new, fcAllocJob t id = some (i, old) ∧ t' = t.put i new ∧ new.used = true ∧
      new.id = .copy 48 id := by
  unfold addJob at h
  split at h
  · cases h
  rename_i i old halloc
  cases h
  have hused := (fcAllocJob_some halloc).2.1
  refine ⟨i, old, _, halloc, rfl, ?_, ?_⟩
  · rw [(setContext_id _ _ _).2]
    exact (hfill.used _).trans hused
  · rw [(setContext_id _ _ _).1]
    exact hfill.id _

theorem changeAndSave_cases (change : JobTable → Except Errno JobTable) :
    (∃ e, changeAndSave cj root env t change = ⟨.error e, t, []⟩) ∨
      change t = .ok (changeAndSave cj root env t change).table := by
  unfold changeAndSave
  cases env.lock with
  | error e => exact Or.inl ⟨e, rfl⟩
  | ok u =>
    cases hchange : change t with
    | error e => exact Or.inl ⟨e, rfl⟩
    | ok t' => exact Or.inr rfl

/-- A call that adds a job is refused, or it changes the table as the four functions share it. -/
theorem exec_adds {op : Op} {id : CStr} (hid : op.added = some id) :
    (∃ e, op.exec cj root env t = ⟨.error e, t, []⟩) ∨
      ∃ prompt ctx fill, Fills fill ∧ (∀ job, (fill job).prompt = job.prompt) ∧ op.prompt = some prompt ∧
        op.ownerMode = ctx.any (·.ownerMode) ∧
        op.exec cj root env t = changeAndSave cj root env t (addJob · id prompt ctx env.nowMs fill) := by
  cases op with
  | addInterval id' seconds prompt ctx =>
    cases hid
    simp only [Op.exec, fcSchedulerAddIntervalCtx]
    cases prompt with
    | none => exact Or.inl ⟨_, rfl⟩
    | some prompt =>
      dsimp only
      split
      · exact Or.inl ⟨_, rfl⟩
      · exact Or.inr ⟨prompt, ctx, _, fills_interval _ _, fun _ => rfl, rfl, rfl, rfl⟩
  | addCron id' expr prompt ctx =>
    cases hid
    cases expr with
    | none => exact Or.inl ⟨_, rfl⟩
    | some expr =>
      cases prompt with
      | none => exact Or.inl ⟨_, rfl⟩
      | some prompt => exact Or.inr ⟨prompt, ctx, _, fills_cron expr, fun _ => rfl, rfl, rfl, rfl⟩
  | addOnce id' epoch prompt ctx =>
    cases hid
    simp only [Op.exec, fcSchedulerAddOnceCtx]
    cases prompt with
    | none => exact Or.inl ⟨_, rfl⟩
    | some prompt =>
      dsimp only
      split
      · exact Or.inl ⟨_, rfl⟩
      · exact Or.inr ⟨prompt, ctx, _, fills_once _, fun _ => rfl, rfl, rfl, rfl⟩
  | addBoot id' prompt ctx =>
    cases hid
    cases prompt with
    | none => exact Or.inl ⟨_, rfl⟩
    | some prompt => exact Or.inr ⟨prompt, ctx, _, fills_boot, fun _ => rfl, rfl, rfl, rfl⟩
  | remove | load => cases hid

/-- It fails and leaves the table alone, or it stores one job under the id. -/
theorem exec_added {op : Op} {id : CStr} (hid : op.added = some id) :
    (∃ e, op.exec cj root env t = ⟨.error e, t, []⟩) ∨
      ∃ i old new, fcAllocJob t id = some (i, old) ∧ (op.exec cj root env t).table = t.put i new ∧
        new.used = true ∧ new.id = .copy 48 id := by
  rcases exec_adds cj root env t hid with herr | ⟨prompt, ctx, fill, hfill, -, -, -, hexec⟩
  · exact Or.inl herr
  rw [hexec]
  rcases changeAndSave_cases cj root env t (addJob · id prompt ctx env.nowMs fill) with herr | hok
  · exact Or.inl herr
  · exact Or.inr (addJob_ok hfill hok)

/-- A call that adds no job leaves the table alone, clears a slot, or rebuilds the
table from the schedule file. -/
theorem exec_not_added {op : Op} (hid : op.added = none) :
    (op.exec cj root env t).table = t ∨
      (∃ i < fcMaxSchedules, (op.exec cj root env t).table = t.put i .zero) ∨
      ∃ fault fs doc, op = .load fault fs ∧ readSchedules cj root fault fs = .ok (some doc) ∧
        (op.exec cj root env t).table = doc.children.foldl (loadItem env.nowMs) .empty := by
  cases op with
  | addInterval | addCron | addOnce | addBoot => cases hid; exact Or.inl rfl
  | remove id =>
    simp only [Op.exec, fcSchedulerRemove]
    rcases changeAndSave_cases cj root env t (removeJob · id) with
      ⟨e, herr⟩ | hok
    · rw [herr]
      exact Or.inl rfl
    right; left
    unfold removeJob at hok ⊢
    split at hok
    · cases hok
    rename_i i hfind
    obtain ⟨x, -, hx⟩ := Option.bind_eq_some_iff.mp hfind
    obtain ⟨job, hhas, -⟩ := fcFindJob_some hx
    exact ⟨i, hhas.lt, (Except.ok.inj hok).symm⟩
  | load fault fs =>
    simp only [Op.exec, fcSchedulerLoad]
    split
    · exact Or.inl rfl
    · exact Or.inl rfl
    · rename_i doc hdoc
      exact Or.inr (Or.inr ⟨fault, fs, doc, rfl, hdoc, rfl⟩)

end

/-! ## The table is keyed by id -/

/-- Exactly one job in use has the id, and the lookup of `fc_scheduler_remove`
finds it. -/
def FoundOnce (t : JobTable) (id : CStr) : Prop :=
  ∃ i job, t.Has i job ∧ job.used = true ∧ job.id.str = id ∧ fcFindJob t id = some i ∧
    ∀ j b, t.Has j b → b.used = true → b.id.str = id → j = i

/-- The job that was stored for the id before is replaced: the new one is in its
slot, and no other slot has changed. -/
def Replaced (t t' : JobTable) (id : CStr) : Prop :=
  ∀ i job, t.Has i job → job.used = true → job.id = .copy 48 id →
    (∃ new, t'.Has i new ∧ new.used = true ∧ new.id = job.id) ∧ ∀ j, i ≠ j → t'.slots[j]? = t.slots[j]?

/-- What a call must do for the table to be keyed by id. -/
structure Keyed (cj : CJson) (root : DataRoot) (t : JobTable) (l : OpEnv × Op) : Prop where
  distinct : DistinctIds (Op.step cj root t l)
  found : ∀ id, l.2.added = some id → (l.2.exec cj root l.1 t).ret = .ok () →
    FoundOnce (Op.step cj root t l) id
  replaced : ∀ id, l.2.added = some id → (l.2.exec cj root l.1 t).ret = .ok () →
    Replaced t (Op.step cj root t l) id

/-- The ids that a call brings in fit the id field. -/
structure ShortIds (cj : CJson) (root : DataRoot) (l : OpEnv × Op) : Prop where
  added : ∀ id, l.2.added = some id → id.length < 48
  loaded : ∀ fault fs doc, l.2 = .load fault fs → readSchedules cj root fault fs = .ok (some doc) →
    ∀ item ∈ doc.children, ShortId item

section

variable {cj : CJson} {root : DataRoot} {t : JobTable} {l : OpEnv × Op}

theorem distinctIds_step (h : DistinctIds t) (hshort : ShortIds cj root l) :
    DistinctIds (Op.step cj root t l) := by
  unfold Op.step
  cases hid : l.2.added with
  | some id =>
    rcases exec_added cj root l.1 t hid with
      ⟨e, herr⟩ | ⟨i, old, new, halloc, htable, -, hnew⟩
    · rw [herr]
      exact h
    rw [htable]
    refine distinctIds_alloc h halloc fun _ => ?_
    rw [hnew]
    exact CBuf.copy_str_of_lt (hshort.added id hid)
  | none =>
    rcases exec_not_added cj root l.1 t hid with
      hsame | ⟨i, hi, hput⟩ | ⟨fault, fs, doc, hop, hdoc, hload⟩
    · rw [hsame]
      exact h
    · rw [hput]
      exact distinctIds_put h hi fun j b _ _ _ hused => by cases hused
    · rw [hload]
      exact distinctIds_loadItems (hshort.loaded fault fs doc hop hdoc) distinctIds_empty

theorem foundOnce_put {i : Nat} {old new : Job} {id : CStr} (h : DistinctIds t)
    (halloc : fcAllocJob t id = some (i, old)) (hused : new.used = true) (hstr : new.id.str = id) :
    FoundOnce (t.put i new) id := by
  have hself : (t.put i new).Has i new := JobTable.has_put_self (fcAllocJob_some halloc).1
  have hothers : ∀ j b, (t.put i new).Has j b → b.used = true → b.id.str = id → j = i := by
    intro j b hb hub hbid
    by_contra hne
    rw [JobTable.has_put_ne (Ne.symm hne)] at hb
    exact fcAllocJob_others h halloc (Ne.symm hne) hb hub hbid
  obtain ⟨k, hk⟩ := fcFindJob_isSome hself hused hstr
  obtain ⟨job, hjob, hju, hjid⟩ := fcFindJob_some hk
  have hki := hothers k job hjob hju hjid
  subst hki
  exact ⟨k, new, hself, hused, hstr, hk, hothers⟩

theorem replaced_put {i : Nat} {old new : Job} {id : CStr} (h : DistinctIds t) (hlen : id.length < 48)
    (halloc : fcAllocJob t id = some (i, old)) (hused : new.used = true) (hnew : new.id = .copy 48 id) :
    Replaced t (t.put i new) id := by
  intro j job hjob hju hjid
  -- A job with the id is the one whose slot the allocation has reused.
  have hji : i = j := by
    by_contra hne
    refine fcAllocJob_others h halloc hne hjob hju ?_
    rw [hjid]
    exact CBuf.copy_str_of_lt hlen
  subst hji
  refine ⟨⟨new, JobTable.has_put_self (fcAllocJob_some halloc).1, hused, hnew.trans hjid.symm⟩, fun j hj => ?_⟩
  simp [JobTable.put, hj]

theorem keyed_step (h : DistinctIds t) (hshort : ShortIds cj root l) : Keyed cj root t l := by
  have hadded : ∀ id, l.2.added = some id → (l.2.exec cj root l.1 t).ret = .ok () →
      FoundOnce (Op.step cj root t l) id ∧ Replaced t (Op.step cj root t l) id := by
    intro id hid hok
    have hlen := hshort.added id hid
    rcases exec_added cj root l.1 t hid with
      ⟨e, herr⟩ | ⟨i, old, new, halloc, htable, hused, hnew⟩
    · rw [herr] at hok
      cases hok
    have hstr : new.id.str = id := by
      rw [hnew]
      exact CBuf.copy_str_of_lt hlen
    rw [Op.step, htable]
    exact ⟨foundOnce_put h halloc hused hstr, replaced_put h hlen halloc hused hnew⟩
  exact ⟨distinctIds_step h hshort, fun id hid hok => (hadded id hid hok).1,
    fun id hid hok => (hadded id hid hok).2⟩

/-- In every run of operations whose ids all fit the id field, the table is keyed by
id at every step. -/
theorem keyed_run (ls : List (OpEnv × Op))
    (hshort : Transition.Meets (Op.step cj root) (fun _ l => ShortIds cj root l) .empty ls) :
    Transition.Meets (Op.step cj root) (Keyed cj root) .empty ls :=
  Transition.meets_induct (fun _ _ h hs => ⟨distinctIds_step h hs, keyed_step h hs⟩) distinctIds_empty hshort

end

/-- An environment in which every call succeeds. -/
def fineEnv : OpEnv := ⟨.ok (), 0, ⟨.ok (), .success⟩⟩

/-- A boot job with the given id. -/
def addBootJob (id : CStr) : OpEnv × Op := (fineEnv, .addBoot (some id) (some "hi".toList) none)

/-- Adding a job twice under a short id. -/
theorem keyed_run_twice :
    Transition.Meets (Op.step JsonText.reference (fcDataDir false)) (Keyed JsonText.reference (fcDataDir false))
      .empty [addBootJob "a".toList, addBootJob "a".toList] := by
  have hshort : ShortIds JsonText.reference (fcDataDir false) (addBootJob "a".toList) := by
    refine ⟨fun id hid => ?_, fun fault fs doc hop => ?_⟩
    · cases hid
      decide
    · cases hop
  exact keyed_run _ ⟨hshort, hshort, trivial⟩

/-- An id that is one byte too long for the id field. -/
def longId : CStr := List.replicate 48 'x'

/-- Adding a job twice under that id stores two jobs with the same id. -/
theorem keyed_long_twice :
    ¬ Transition.Meets (Op.step JsonText.reference (fcDataDir false)) (Keyed JsonText.reference (fcDataDir false))
      .empty [addBootJob longId, addBootJob longId] := by
  rintro ⟨-, hsecond, -⟩
  exact absurd hsecond.distinct (by decide +kernel)

end FruitClaw
