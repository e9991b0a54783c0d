-- SUMMARY: The schedule command of the console, and what the tool of such a job may do.
import FruitClawApps.FruitClaw.Agent
import FruitClawApps.FruitClaw.Scheduler.Life

/-!
# The schedule command

`fruitclaw schedule` calls the scheduler without a tool context, and such a job has no owner rights.
A tool that the console calls runs in the local context, which has them wherever owner mode is
configured.
-/

namespace FruitClaw.Console

open Agent Scheduler List

/-! ## The command -/

/-- The loop of `join_args` after its first argument. A text that does not fit stays cut in
the buffer. -/
def joinFrom (outLen : Nat) (out : CStr) : List CStr → Ret × CStr
  | [] => (.ok (), out)
  | arg :: rest =>
    let next := out ++ ' ' :: arg
    if outLen ≤ next.length then (.error .enospc, next.take (outLen - 1)) else joinFrom outLen next rest

/-- `join_args` on arguments of which there is at least one. -/
def joinArgs (outLen : Nat) (first : CStr) (rest : List CStr) : Ret × CStr :=
  if outLen ≤ first.length then (.error .enospc, first.take (outLen - 1)) else joinFrom outLen first rest

/-- What the command prints. -/
inductive Output where
  | usage
  | text (s : CStr)
deriving DecidableEq

def Output.line (s : String) : Output := .text (s.toList ++ ['\n'])

theorem Output.line_ne {s t : String} (h : s ≠ t) : Output.line s ≠ .line t := by
  intro heq
  injection heq with htext
  exact h (String.toList_inj.mp (append_cancel_right htext))

/-- What the command meets. -/
structure Env where
  guardStart : Ret
  guardStop : Ret
  bootstrap : Ret
  /-- `fc_scheduler_list`. -/
  listing : Ret × CStr
  /-- `time(NULL)`. -/
  time : Int64
  op : OpEnv

structure CmdResult where
  status : Nat
  output : List Output
  table : JobTable
  ops : List FileOp

/-- A whole argument that `strtoll` reads as a positive number. -/
def positive (s : CStr) : Option Int :=
  match strtoSubject 10 s with
  | some (_, _, []) => if 0 < strtoll s then some (strtoll s) else none
  | _ => none

/-- The prompt that the arguments leave in the buffer. The answer of `join_args` is not
looked at. -/
def promptText (first : CStr) (rest : List CStr) : CStr := (joinArgs fcMaxEventText first rest).2

/-- The call into the scheduler that the arguments from `argv[2]` on lead to, or what is
printed in its place. The functions that are called, `fc_scheduler_add_interval` and so on,
pass no context. -/
def scheduleOp (env : Env) : List CStr → Except Output Op
  | [] => .error .usage
  | sub :: args =>
    if sub = "add-interval".toList then
      match args with
      | id :: value :: first :: rest =>
        match (positive value).filter (· < 2 ^ 32) with
        | none => .error (.line "invalid interval seconds")
        | some v => .ok (.addInterval (some id) (.ofNat v.toNat) (some (promptText first rest)) none)
      | _ => .error .usage
    else if sub = "add-once".toList then
      match args with
      | id :: value :: first :: rest =>
        match positive value with
        | none => .error (.line "invalid epoch seconds")
        | some v => .ok (.addOnce (some id) (.ofInt v) (some (promptText first rest)) none)
      | _ => .error .usage
    else if sub = "add-after".toList then
      match args with
      | id :: value :: first :: rest =>
        match positive value with
        | none => .error (.line "invalid delay seconds")
        | some v =>
          if env.time ≤ 0 then .error (.line "system time is not set")
          else .ok (.addOnce (some id) (env.time + .ofInt v) (some (promptText first rest)) none)
      | _ => .error .usage
    else if sub = "add-cron".toList then
      match args with
      | id :: expr :: first :: rest => .ok (.addCron (some id) (some expr) (some (promptText first rest)) none)
      | _ => .error .usage
    else if sub = "add-boot".toList then
      match args with
      | id :: first :: rest => .ok (.addBoot (some id) (some (promptText first rest)) none)
      | _ => .error .usage
    else if sub = "remove".toList then
      match args with
      | id :: _ => .ok (.remove (some id))
      | _ => .error .usage
    else .error .usage

/-- What is printed after a call into the scheduler. -/
def outcome (op : Op) (ret : Ret) : Output :=
  match op, ret with
  | .remove _, .ok () => .line "schedule removed"
  | .remove _, .error _ => .line "schedule remove failed"
  | _, .ok () => .line "schedule added"
  | _, .error _ => .line "schedule add failed"

/-- `fc_cli_guard_end`. -/
def fcCliGuardEnd (env : Env) (result : CmdResult) : CmdResult :=
  match env.guardStop with
  | .ok () => result
  | .error e =>
    if result.status = 0 then
      { result with
        status := 1
        output := result.output ++ [.text ("cli guard stop failed: ".toList ++ formatInt (-e.number) ++ ['\n'])] }
    else result

def exitStatus : Ret → Nat
  | .ok () => 0
  | .error _ => 1

/-- `cmd_schedule` on the arguments from `argv[2]` on. -/
def cmdSchedule (cj : CJson) (root : DataRoot) (env : Env) (t : JobTable) (args : List CStr) : CmdResult :=
  match env.guardStart with
  | .error e =>
    ⟨1, [.text ("schedule guard start failed: ".toList ++ formatInt (-e.number) ++ ['\n'])], t, []⟩
  | .ok () =>
    match env.bootstrap with
    | .error _ => fcCliGuardEnd env ⟨1, [], t, []⟩
    | .ok () =>
      if args.head? = some "list".toList then
        fcCliGuardEnd env ⟨exitStatus env.listing.1, [.text env.listing.2], t, []⟩
      else
        match scheduleOp env args with
        | .error output => fcCliGuardEnd env ⟨1, [output], t, []⟩
        | .ok op =>
          let r := op.exec cj root env.op t
          fcCliGuardEnd env ⟨exitStatus r.ret, [outcome op r.ret], r.table, r.ops⟩

/-! ## Prompts -/

variable {rest : List CStr} {env : Env}

theorem joinFrom_fits {outLen : Nat} {out : CStr} (h : (out ++ rest.flatMap (' ' :: ·)).length < outLen) :
    (joinFrom outLen out rest).2 = out ++ rest.flatMap (' ' :: ·) := by
  induction rest generalizing out with
  | nil => simp [joinFrom]
  | cons arg rest ih =>
    rw [flatMap_cons, ← append_assoc] at h ⊢
    have hnext : ¬ outLen ≤ (out ++ ' ' :: arg).length := by
      rw [length_append] at h
      omega
    rw [joinFrom, if_neg hnext]
    exact ih h

theorem promptText_fits {first : CStr} (h : (first ++ rest.flatMap (' ' :: ·)).length < fcMaxEventText) :
    promptText first rest = first ++ rest.flatMap (' ' :: ·) := by
  have hfirst : ¬ fcMaxEventText ≤ first.length := by
    rw [length_append] at h
    omega
  rw [promptText, joinArgs, if_neg hfirst]
  exact joinFrom_fits h

/-! ## Jobs of the console -/

/-- The subcommands that add a job. -/
inductive Kind where
  | interval | once | after | cron | boot
deriving DecidableEq

/-- The arguments of a subcommand from `argv[2]` on. The value is the number or the
expression that every subcommand but `add-boot` takes. -/
def Kind.command (kind : Kind) (id value first : CStr) (rest : List CStr) : List CStr :=
  match kind with
  | .interval => "add-interval".toList :: id :: value :: first :: rest
  | .once => "add-once".toList :: id :: value :: first :: rest
  | .after => "add-after".toList :: id :: value :: first :: rest
  | .cron => "add-cron".toList :: id :: value :: first :: rest
  | .boot => "add-boot".toList :: id :: first :: rest

/-- Every subcommand that adds a job adds it under the id, with the prompt, and without
owner rights. -/
theorem scheduleOp_command {kind : Kind} {id value first : CStr} {op : Op}
    (h : scheduleOp env (kind.command id value first rest) = .ok op) :
    op.added = some id ∧ op.prompt = some (promptText first rest) ∧ op.ownerMode = false := by
  cases kind with
  | interval =>
    rw [Kind.command, scheduleOp, if_pos rfl] at h
    split at h
    · cases h
    · cases h
      exact ⟨rfl, rfl, rfl⟩
  | once =>
    rw [Kind.command, scheduleOp, if_neg (by decide), if_pos rfl] at h
    split at h
    · cases h
    · cases h
      exact ⟨rfl, rfl, rfl⟩
  | after =>
    rw [Kind.command, scheduleOp, if_neg (by decide), if_neg (by decide), if_pos rfl] at h
    split at h
    · cases h
    split at h
    · cases h
    · cases h
      exact ⟨rfl, rfl, rfl⟩
  | cron =>
    cases h
    exact ⟨rfl, rfl, rfl⟩
  | boot =>
    unfold Kind.command scheduleOp at h
    dsimp only at h
    cases h
    exact ⟨rfl, rfl, rfl⟩

theorem fcCliGuardEnd_keeps (env : Env) (result : CmdResult) :
    (fcCliGuardEnd env result).table = result.table ∧ (fcCliGuardEnd env result).ops = result.ops := by
  unfold fcCliGuardEnd
  split
  · exact ⟨rfl, rfl⟩
  · split <;> exact ⟨rfl, rfl⟩

/-- What the user is told when a job was added. -/
def added : Output := .line "schedule added"

theorem added_of_guardEnd {result : CmdResult} (h : added ∈ (fcCliGuardEnd env result).output) :
    added ∈ result.output := by
  unfold fcCliGuardEnd at h
  split at h
  · exact h
  split at h
  · rcases mem_append.mp h with hold | hnew
    · exact hold
    rename_i e _ _
    have hstop : added ≠ .text ("cli guard stop failed: ".toList ++ formatInt (-e.number) ++ ['\n']) := by
      intro heq
      cases heq
    exact absurd (mem_singleton.mp hnew) hstop
  · exact h

theorem scheduleOp_error {args : List CStr} {output : Output}
    (h : scheduleOp env args = .error output) : output ≠ added := by
  have hlines : ∀ line ∈ ["invalid interval seconds", "invalid epoch seconds", "invalid delay seconds",
      "system time is not set"], line ≠ "schedule added" := by simp
  have husage : Output.usage ≠ added := nofun
  unfold scheduleOp at h
  repeat' split at h
  all_goals cases h
  all_goals first | exact husage | exact Output.line_ne (hlines _ (by simp))

theorem outcome_added {op : Op} {ret : Ret} (h : added = outcome op ret) : ret = .ok () := by
  have hfailed : added ≠ .line "schedule add failed" := Output.line_ne (by simp)
  have hremove : added ≠ .line "schedule remove failed" := Output.line_ne (by simp)
  cases ret with
  | ok u => rfl
  | error e =>
    cases op with
    | remove id => exact absurd h hremove
    | addInterval | addCron | addOnce | addBoot | load => exact absurd h hfailed

theorem cmdSchedule_added {cj : CJson} {root : DataRoot} {t : JobTable} {args : List CStr}
    (hlist : args.head? ≠ some "list".toList) (h : added ∈ (cmdSchedule cj root env t args).output) :
    ∃ op, scheduleOp env args = .ok op ∧ (op.exec cj root env.op t).ret = .ok () ∧
      (cmdSchedule cj root env t args).table = (op.exec cj root env.op t).table ∧
      (cmdSchedule cj root env t args).ops = (op.exec cj root env.op t).ops := by
  unfold cmdSchedule at h ⊢
  split at h
  · rename_i e _
    have hstart : added ≠ .text ("schedule guard start failed: ".toList ++ formatInt (-e.number) ++ ['\n']) := by
      intro heq
      cases heq
    exact absurd (mem_singleton.mp h) hstart
  split at h
  · exact absurd (added_of_guardEnd h) not_mem_nil
  rw [if_neg hlist] at h ⊢
  split at h
  · rename_i output hop
    exact absurd (mem_singleton.mp (added_of_guardEnd h)).symm (scheduleOp_error hop)
  rename_i op hop
  have hok := outcome_added (mem_singleton.mp (added_of_guardEnd h))
  obtain ⟨htable, hops⟩ := fcCliGuardEnd_keeps env
    ⟨exitStatus (op.exec cj root env.op t).ret, [outcome op (op.exec cj root env.op t).ret],
      (op.exec cj root env.op t).table, (op.exec cj root env.op t).ops⟩
  exact ⟨op, hop, hok, htable, hops⟩

/-! ## Owner rights -/

/-- The prompt names a tool that the agent reads back: it fits its buffer, the name fits and
has no white space, and there are arguments. -/
structure Readable (name args : CStr) : Prop where
  nonempty : name ≠ []
  space : ∀ c ∈ name, isspace c = false
  short : name.length < fcToolNameLen
  hasArgs : skipSpace args ≠ []
  fits : (toolPrompt name args).length < fcMaxEventText

/-- The agent runs the tool with the arguments when it gets the event, and the decision
whether it may run is the one that the console gets. -/
structure SameCall (agent : Agent.Env) (ownerMode : Bool) (name args : CStr) (ev : Event) : Prop where
  runs : ∀ cj iterations replyLen, replyLen ≠ 0 →
    ⟨"tool".toList, some name,
      (fcCapExecuteCtx agent.caps (agent.execute 0) (some (scheduledContext ev)) name (some args)).2⟩ ∈
        (fcAgentHandleEvent cj agent iterations ev replyLen).session
  decision : fcCapAccess agent.caps (some (scheduledContext ev)) name (some args) =
    fcCapAccess agent.caps (some (fcToolContextLocal ownerMode)) name (some args)

/-- The tool is one that only the owner may run, and the console is the owner. -/
def NeedsOwner (caps : List Cap) (ownerMode : Bool) (name : CStr) : Prop :=
  ownerMode = true ∧ ∃ cap, fcCapFind caps name = some cap ∧ cap.requiresConfirmation = true

/-- A context without owner rights gets the decision of the console exactly for the tools
that do not need them. -/
theorem access_eq_iff {caps : List Cap} {ctx : ToolCallContext} (hctx : ctx.ownerMode = false) (ownerMode : Bool)
    (name args : CStr) :
    fcCapAccess caps (some ctx) name (some args) =
        fcCapAccess caps (some (fcToolContextLocal ownerMode)) name (some args) ↔
      ¬ NeedsOwner caps ownerMode name := by
  unfold fcCapAccess NeedsOwner
  cases hfind : fcCapFind caps name with
  | none => simp
  | some cap =>
    cases hconfirm : cap.requiresConfirmation <;> cases ownerMode <;>
      simp [hctx, hconfirm, fcToolContextLocal]

section

variable (cj : CJson) (root : DataRoot) (env : Env) (files : FileStore) (t : JobTable) (agent : Agent.Env)
  (ownerMode : Bool) (kind : Kind) (id value first : CStr) (rest : List CStr) (name args : CStr)
  (ls : List Happening) (e : Emission)

/-- The scheduler after the command and after what happened then. -/
def later : State :=
  let r := cmdSchedule cj root env t (kind.command id value first rest)
  Transition.run (happen cj root) (.start r.table (FileStore.run files r.ops)) ls

/-- The tool of a job that was added at the console runs as the console would run it exactly
if it does not need the rights of the owner, which such a job never has. White space in
front of the arguments is not passed on. -/
theorem sameCall_iff (hprompt : first ++ rest.flatMap (' ' :: ·) = toolPrompt name args)
    (hread : Readable name args)
    (hadded : added ∈ (cmdSchedule cj root env t (kind.command id value first rest)).output)
    (hls : ∀ l ∈ ls, l.Elsewhere (.copy 48 id))
    (he : e ∈ (later cj root env files t kind id value first rest ls).emitted) (hnames : e.Names (.copy 48 id))
    (helder : ¬ FromElder t (cmdSchedule cj root env t (kind.command id value first rest)).table id e) :
    SameCall agent ownerMode name (skipSpace args) e.event ↔ ¬ NeedsOwner agent.caps ownerMode name := by
  have hlist : (kind.command id value first rest).head? ≠ some "list".toList := by
    cases kind <;> simp only [Kind.command, head?_cons] <;> decide
  obtain ⟨op, hop, hok, htable, hops⟩ := cmdSchedule_added hlist hadded
  obtain ⟨hid, hopPrompt, howner⟩ := scheduleOp_command hop
  obtain ⟨⟨prompt, hp, hstores⟩, hwritten⟩ := exec_stores hid hok
  rw [howner] at hstores
  rw [hopPrompt] at hp
  cases hp
  rw [← htable] at hstores hwritten
  rw [← hops] at hwritten
  rcases events_of_stored hstores hwritten files hls he hnames with ⟨slot, job, hevent, hjob, hjobOwner⟩ | hold
  · -- The event carries the whole prompt and no owner rights.
    have htext : e.event.text.str = toolPrompt name args := by
      have hwhole : promptText first rest = toolPrompt name args := by
        rw [← hprompt]
        exact promptText_fits (hprompt ▸ hread.fits)
      rw [hwhole] at hjob
      rw [hevent, ← CBuf.copy_str_of_lt (n := 1024) hread.fits, ← hjob]
      rfl
    have hctx : (scheduledContext e.event).ownerMode = false := by
      rw [hevent]
      exact hjobOwner
    have hfire : isTimerFire e.event = true := by
      rw [hevent]
      rfl
    have htool : directTool e.event.text.str = some (name, skipSpace args) := by
      rw [htext]
      exact directTool_toolPrompt hread.nonempty hread.space hread.short hread.hasArgs
    rw [← access_eq_iff hctx ownerMode name (skipSpace args)]
    refine ⟨fun h => h.decision, fun h => ⟨fun cj' iterations replyLen hlen => ?_, h⟩⟩
    exact handleEvent_runs cj' agent iterations hfire htool hread.nonempty hlen
  · exact absurd hold helder

end

/-- A console on a board where nothing fails. -/
def quietEnv : Env := ⟨.ok (), .ok (), .ok (), (.ok (), []), 0, fineEnv⟩

/-- The board after `schedule add-boot j tool:<name> {}` at its next start. -/
def afterBoot (name : CStr) : State :=
  later JsonText.reference (fcDataDir false) quietEnv (fun _ => none) .empty .boot ['j'] []
    ("tool:".toList ++ name) [noArgs] [.reset, .load none 0, .boot (.ok ()) fun _ => idleSlot]

/-- The event that the job fires there. -/
def bootEvent (name : CStr) : Emission :=
  fcEmitSchedule 0 none idleSlot
    { Job.fresh with
      type := .boot
      id := .copy 48 ['j']
      prompt := .copy 1024 (toolPrompt name noArgs)
      channel := .copy 24 "internal".toList
      sessionId := .copy 64 "schedule:j".toList }

/-- The capabilities of an agent that knows the two tools. -/
def smallAgent : Agent.Env := { anonymousCalls with caps := [capTimeNow, capNeopixelsOff] }

theorem sameCall_iff_time : SameCall smallAgent true capTimeNow.id noArgs (bootEvent capTimeNow.id).event := by
  have hfree : ¬ NeedsOwner smallAgent.caps true capTimeNow.id := by
    rintro ⟨-, cap, hfind, hconfirm⟩
    have htime : fcCapFind smallAgent.caps capTimeNow.id = some capTimeNow := by decide +kernel
    cases hfind.symm.trans htime
    cases hconfirm
  refine (sameCall_iff JsonText.reference (fcDataDir false) quietEnv (fun _ => none) .empty smallAgent true .boot
    ['j'] [] ("tool:".toList ++ capTimeNow.id) [noArgs] capTimeNow.id noArgs
    [.reset, .load none 0, .boot (.ok ()) fun _ => idleSlot] (bootEvent capTimeNow.id)
    ?_ ?_ ?_ ?_ ?_ ?_ ?_).mpr hfree
  · decide
  · exact ⟨by decide, isspace_of_any (by decide), by decide, by decide, by decide⟩
  · decide +kernel
  · simp [Happening.Elsewhere]
  · decide +kernel
  · decide
  · rintro ⟨hcut, -⟩
    exact absurd hcut (by decide)

/-- The console may turn the lights off, and the job that it adds may not. -/
theorem not_sameCall_neopixels :
    (bootEvent capNeopixelsOff.id ∈ (afterBoot capNeopixelsOff.id).emitted ∧
      fcCapAccess smallAgent.caps (some (fcToolContextLocal true)) capNeopixelsOff.id (some noArgs) =
        .ok (capNeopixelsOff, noArgs) ∧
      fcCapAccess smallAgent.caps (some (scheduledContext (bootEvent capNeopixelsOff.id).event)) capNeopixelsOff.id
        (some noArgs) = .error .eacces) ∧
      ¬ SameCall smallAgent true capNeopixelsOff.id noArgs (bootEvent capNeopixelsOff.id).event := by
  refine ⟨by decide +kernel, fun h => ?_⟩
  exact absurd h.decision (by decide)

end FruitClaw.Console
