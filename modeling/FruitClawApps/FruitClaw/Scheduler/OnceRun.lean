-- SUMMARY: One-shot jobs: when disabling one means that its event was accepted.
import FruitClawApps.FruitClaw.Scheduler.Operations
import FruitClawApps.FruitClaw.Scheduler.Tick

/-!
# One-shot jobs over a run

A tick disables a one-shot job that is due, publishes its event and saves the table, in this order,
and ignores the answer of the queue. So a job whose event finds the queue full is lost.
-/

namespace FruitClaw.Scheduler

/-! ## Specification -/

/-- How many events of a slot the main queue has accepted. -/
def accepted (s : State) (i : Nat) : Nat := (s.log i).countP fun e => e.ret == .ok ()

/-- The schedule file holds the table that the last successful save wrote. -/
def FileHolds (cj : CJson) (root : DataRoot) (s : State) : Prop :=
  ∀ kept, s.saved = some kept →
    ∃ path, fcSchedulesPath root = .ok path ∧ s.files path = some (cj.print (savedDoc kept))

/-- No one-shot job that was enabled in the table `t` is lost: it is disabled in
memory or in the file only if its event was accepted, and only one event was. -/
structure NotLost (cj : CJson) (root : DataRoot) (t : JobTable) (s : State) : Prop where
  memory : ∀ i job, t.Has i job → job.used = true → job.enabled = true → job.type = .once →
    ∀ now, s.table.Has i now → now.enabled = false → 0 < accepted s i
  holds : FileHolds cj root s
  file : ∀ i job, t.Has i job → job.used = true → job.enabled = true → job.type = .once →
    ∀ kept now, s.saved = some kept → kept.Has i now → now.enabled = false → 0 < accepted s i
  once : ∀ i job, t.Has i job → job.used = true → job.enabled = true → job.type = .once → accepted s i ≤ 1

/-- If the turn comes to a one-shot job that is due, the main queue has room. -/
def Room (s : State) (l : Label) : Prop :=
  ∀ job, s.table.Has l.slot job → OnceDue l.nowMs job → l.env.queue.hasRoom = true

/-! ## The schedule file -/

section

variable {cj : CJson} {root : DataRoot} {s : State} {l : Label} {i : Nat} {job : Job}

theorem fileHolds_saveTable (h : FileHolds cj root s) (env : SaveEnv) :
    FileHolds cj root (saveTable cj root env s) ∧
      ((saveTable cj root env s).saved = s.saved ∨ (saveTable cj root env s).saved = some s.table) := by
  unfold saveTable
  split
  · rename_i ops hsave
    refine ⟨fun kept hkept => ?_, .inr rfl⟩
    cases hkept
    -- The file now holds the table that was saved.
    have hok := fcSchedulerSave_ok (congrArg Prod.fst hsave) s.files
    rw [hsave] at hok
    exact hok
  rename_i e ops hsave
  refine ⟨fun kept hkept => ?_, .inl rfl⟩
  -- A failed save leaves the file as it was.
  obtain ⟨path, hpath, hfile⟩ := h kept hkept
  have hsame := fcSchedulerSave_error hpath (by rw [hsave]; exact nofun) s.files
  rw [hsave] at hsame
  exact ⟨path, hpath, hsame.trans hfile⟩

/-- A turn keeps the file in line with the last saved table, which is an earlier one
or the one that the turn leaves. -/
theorem fileHolds_step (h : FileHolds cj root s) :
    FileHolds cj root (step cj root s l) ∧
      ((step cj root s l).saved = s.saved ∨ (step cj root s l).saved = some (step cj root s l).table) := by
  cases hslot : s.table.slots[l.slot]? with
  | none =>
    unfold step
    rw [hslot]
    exact ⟨h, .inl rfl⟩
  | some job =>
    unfold step
    rw [hslot]
    dsimp only
    split
    · exact ⟨h, .inl rfl⟩
    split
    · obtain ⟨hholds, hsaved⟩ := @fileHolds_saveTable cj root
        { s with
          table := s.table.put l.slot (tickJob l.nowMs l.env job).1
          emitted := s.emitted ++ [fcEmitSchedule l.slot (some l.nowMs) l.env _] } h l.env.save
      rw [saveTable_table]
      exact ⟨hholds, hsaved⟩
    · exact ⟨h, .inl rfl⟩

/-! ## One turn -/

theorem accepted_step (h : s.table.Has l.slot job) :
    accepted (step cj root s l) i =
      accepted s i + if l.slot = i then (emissions l job).countP fun e => e.ret == .ok () else 0 := by
  rw [accepted, step_emitted h, List.countP_append, accepted]
  split <;> rfl

variable (cj root s l i) in
theorem accepted_mono : accepted s i ≤ accepted (step cj root s l) i := by
  cases hslot : s.table.slots[l.slot]? with
  | none =>
    unfold step
    rw [hslot]
  | some job =>
    rw [accepted_step hslot]
    omega

theorem step_due (h : s.table.Has l.slot job) (hdue : OnceDue l.nowMs job) :
    (step cj root s l).table.Has l.slot { job with enabled := false } ∧
      accepted (step cj root s l) l.slot = accepted s l.slot + if l.env.queue.hasRoom then 1 else 0 := by
  have htick := tickJob_once hdue.2.2.1 l.nowMs l.env
  rw [if_pos hdue] at htick
  refine ⟨?_, ?_⟩
  · rw [step_table h, htick]
    exact JobTable.has_put_self h.lt
  · rw [accepted_step h, if_pos rfl, emissions, htick]
    simp only [List.countP_cons, List.countP_nil, Nat.zero_add, beq_iff_eq, fcEmitSchedule_ret]

theorem step_not_due (h : s.table.Has l.slot job) (htype : job.type = .once) (hdue : ¬ OnceDue l.nowMs job) :
    (step cj root s l).table.Has l.slot job ∧ accepted (step cj root s l) l.slot = accepted s l.slot := by
  have htick := tickJob_once htype l.nowMs l.env
  rw [if_neg hdue] at htick
  refine ⟨?_, ?_⟩
  · rw [step_table h, htick]
    exact JobTable.has_put_self h.lt
  · rw [accepted_step h, if_pos rfl, emissions, htick]
    rfl

/-! ## The invariant -/

/-- A one-shot job of the table `t` is as it was and has no accepted event, or it is
disabled and has one. The saved table is one of the tables before. -/
structure OnceInv (cj : CJson) (root : DataRoot) (t : JobTable) (s : State) : Prop where
  types : ∀ i a b, t.Has i a → s.table.Has i b → b.type = a.type
  slots : ∀ i job, t.Has i job → job.type = .once →
    (s.table.Has i job ∧ accepted s i = 0) ∨ (s.table.Has i { job with enabled := false } ∧ accepted s i = 1)
  holds : FileHolds cj root s
  file : ∀ i job kept, t.Has i job → job.type = .once → s.saved = some kept →
    kept.Has i job ∨ (kept.Has i { job with enabled := false } ∧ 0 < accepted s i)

variable {t : JobTable}

section

variable (h : OnceInv cj root t s)
include h

theorem OnceInv.notLost : NotLost cj root t s where
  memory := by
    intro i job hjob _ henabled htype now hnow hoff
    rcases h.slots i job hjob htype with ⟨hhas, -⟩ | ⟨-, hone⟩
    · rw [hnow.unique hhas, henabled] at hoff
      cases hoff
    · omega
  holds := h.holds
  file := by
    intro i job hjob _ henabled htype kept now hkept hnow hoff
    rcases h.file i job kept hjob htype hkept with hhas | ⟨-, hpos⟩
    · rw [hnow.unique hhas, henabled] at hoff
      cases hoff
    · exact hpos
  once := by
    intro i job hjob _ _ htype
    rcases h.slots i job hjob htype with ⟨-, hzero⟩ | ⟨-, hone⟩ <;> omega

/-- A turn that meets the condition keeps the stage of every one-shot job right. -/
theorem OnceInv.slots_step (hroom : Room s l) (hjob : t.Has i job)
    (htype : job.type = .once) :
    ((step cj root s l).table.Has i job ∧ accepted (step cj root s l) i = 0) ∨
      ((step cj root s l).table.Has i { job with enabled := false } ∧ accepted (step cj root s l) i = 1) := by
  have hstage := h.slots i job hjob htype
  by_cases hi : l.slot = i
  · subst hi
    rcases hstage with ⟨hhas, hzero⟩ | ⟨hhas, hone⟩
    · by_cases hdue : OnceDue l.nowMs job
      · obtain ⟨hoff, hacc⟩ := @step_due cj root s l job hhas hdue
        rw [hroom job hhas hdue, if_pos rfl, hzero] at hacc
        exact .inr ⟨hoff, hacc⟩
      · obtain ⟨hsame, hacc⟩ := @step_not_due cj root s l job hhas htype hdue
        exact .inl ⟨hsame, hacc.trans hzero⟩
    · have hnot : ¬ OnceDue l.nowMs { job with enabled := false } := fun hdue => by cases hdue.2.1
      obtain ⟨hsame, hacc⟩ := @step_not_due cj root s l _ hhas htype hnot
      exact .inr ⟨hsame, hacc.trans hone⟩
  · obtain ⟨htable, hlog⟩ := @step_other cj root s l i hi
    simpa only [JobTable.Has, accepted, htable, hlog] using hstage

theorem OnceInv.types_step {a b : Job} (ha : t.Has i a)
    (hb : (step cj root s l).table.Has i b) : b.type = a.type := by
  by_cases hi : l.slot = i
  · subst hi
    obtain ⟨old, hold⟩ := s.table.exists_has ha.lt
    rw [step_table hold] at hb
    rw [hb.unique (JobTable.has_put_self ha.lt), (tickJob_type l.nowMs l.env old).1]
    exact h.types l.slot a old ha hold
  · have hsame := (@step_other cj root s l i hi).1
    exact h.types i a b ha (hsame.symm.trans hb)

theorem OnceInv.step (hroom : Room s l) : OnceInv cj root t (step cj root s l) where
  types i _ _ ha hb := h.types_step ha hb
  slots i job hjob htype := h.slots_step hroom hjob htype
  holds := (fileHolds_step h.holds).1
  file := by
    intro i job kept hjob htype hkept
    rcases (fileHolds_step h.holds).2 with hold | hnew
    · rcases h.file i job kept hjob htype (hold ▸ hkept) with hhas | ⟨hoff, hpos⟩
      · exact .inl hhas
      · exact .inr ⟨hoff, Nat.lt_of_lt_of_le hpos (accepted_mono cj root s l i)⟩
    cases hnew.symm.trans hkept
    rcases h.slots_step hroom hjob htype with ⟨hhas, -⟩ | ⟨hoff, hone⟩
    · exact .inl hhas
    · exact .inr ⟨hoff, by omega⟩

/-- A turn that does not meet the condition loses a job. -/
theorem OnceInv.lost (hroom : ¬ Room s l) :
    ¬ NotLost cj root t (Scheduler.step cj root s l) := by
  intro hkept
  unfold Room at hroom
  push Not at hroom
  obtain ⟨job, hhas, hdue, hfull⟩ := hroom
  obtain ⟨orig, horig⟩ := t.exists_has hhas.lt
  have htype : orig.type = .once := (h.types l.slot orig job horig hhas).symm.trans hdue.2.2.1
  obtain ⟨hoff, hacc⟩ := @step_due cj root s l job hhas hdue
  rcases h.slots l.slot orig horig htype with ⟨hsame, hzero⟩ | ⟨hsame, -⟩
  · obtain rfl := hhas.unique hsame
    have hpos := hkept.memory l.slot job horig hdue.1 hdue.2.1 htype _ hoff rfl
    rw [hacc, hzero, if_neg hfull] at hpos
    omega
  -- A job that has fired is disabled, so it is not due.
  · have hon := hdue.2.1
    rw [hhas.unique hsame] at hon
    cases hon

end

theorem onceInv_started (cj : CJson) (root : DataRoot) (lock : Ret) (boot : Nat → SlotEnv) (t : JobTable)
    (files : FileStore) : OnceInv cj root t (started lock boot t files) where
  types i a b ha hb := by
    rw [started_table] at hb
    rw [hb.unique ha]
  slots i job hjob htype := by
    have hlog := started_log lock boot files hjob (by simp [htype])
    exact .inl ⟨by simpa using hjob, by simp [accepted, hlog]⟩
  holds kept hkept := by
    rw [started_saved] at hkept
    cases hkept
  file i job kept _ _ hkept := by
    rw [started_saved] at hkept
    cases hkept

end

/-- Over any run of ticks, no one-shot job is lost if and only if the main queue has
room whenever a tick comes to a one-shot job that is due. -/
theorem notLost_iff (cj : CJson) (root : DataRoot) (lock : Ret) (boot : Nat → SlotEnv) (t : JobTable)
    (files : FileStore) (ticks : List TickEnv) :
    Transition.Always (step cj root) (NotLost cj root t) (started lock boot t files) (ticks.flatMap sweep) ↔
      Transition.Meets (step cj root) Room (started lock boot t files) (ticks.flatMap sweep) :=
  Transition.always_iff_meets (fun _ h => h.notLost) (fun _ _ h hroom => h.step hroom)
    (fun _ _ h hroom => h.lost hroom) (onceInv_started cj root lock boot t files)

/-- The table after a one-shot job was added. -/
def onceTable : JobTable :=
  (fcSchedulerAddOnceCtx JsonText.reference (fcDataDir false) fineEnv .empty (some "a".toList) 1
    (some "hi".toList) none).table

/-- A tick after the time of the job, with a full queue. -/
def fullTick : TickEnv := ⟨2000, fun _ => { idleSlot with queue := fullQueue }⟩

/-- The queue is full when the job is due: the job is disabled and its event is
lost. -/
theorem notLost_full_queue :
    ¬ Transition.Always (step JsonText.reference (fcDataDir false))
      (NotLost JsonText.reference (fcDataDir false) onceTable)
      (started (.ok ()) (fun _ => idleSlot) onceTable fun _ => none) ([fullTick].flatMap sweep) := by
  intro h
  have hinv := onceInv_started JsonText.reference (fcDataDir false) (.ok ()) (fun _ => idleSlot) onceTable fun _ => none
  obtain ⟨job, hjob, hdue⟩ : ∃ job, onceTable.Has 0 job ∧ OnceDue 2000 job :=
    ⟨onceTable.slots.getD 0 .zero, by decide +kernel, by decide +kernel⟩
  have hroom : ¬ Room (started (.ok ()) (fun _ => idleSlot) onceTable fun _ => none) ⟨2000, 0, fullTick.slot 0⟩ :=
    fun hr => absurd (hr job (by simpa using hjob) hdue) (by decide)
  exact hinv.lost hroom h.2.head

end FruitClaw.Scheduler
