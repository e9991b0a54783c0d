-- SUMMARY: Chains of capability calls over the watchdog guard, and when their guarded flag is true.
import FruitClawApps.FruitClaw.Agent
import FruitClawApps.FruitClaw.Guard
import FruitClawApps.FruitClaw.Mcp

/-!
# Calls under the guard

A capability that finds `guarded` in its context does not arm the watchdog. This module follows one
chain of calls through scripts that call further capabilities. A script runs on a worker while its
caller waits, so one thread of the chain runs at a time. All others may run sections of the guard in
between.
-/

namespace FruitClaw.GuardedCalls

open List

/-! ## Code that takes the guard -/

/-- What the body of a capability does with the guard. -/
inductive Use where
  | none
  /-- `fc_tool_guard_arm`, and `cap_http_request`: the guard is armed unless the context
  says that it is. -/
  | unlessGuarded
  /-- `fc_telegram_send_message` arms the guard for its request in any case. -/
  | always
  /-- `fc_berry_run_file` arms the guard in any case and runs a script. -/
  | script
  /-- The reboot commands of `fc_builtin_terminal_run`, which stop the session guard or
  reset the board. -/
  | reboot
deriving DecidableEq

/-- The body takes the guard in a context with the flag. -/
def Use.arms (guarded : Bool) : Use → Bool
  | .unlessGuarded => !guarded
  | .always | .script => true
  | .none | .reboot => false

/-- What the body of a built-in capability may do with the guard. The arguments decide which
of these it does. -/
def uses (id : CStr) : List Use :=
  if ["file.write_limited", "web.home.write", "script.remove", "script.schedule", "scheduler.add",
      "scheduler.remove", "http.request", "rtttl.play", "neopixels.set", "neopixels.off", "neopixels.effect",
      "device.write"].any (·.toList == id) then [.none, .unlessGuarded]
  else if ["terminal.run", "shell.safe_command"].any (·.toList == id) then [.none, .unlessGuarded, .reboot]
  else if ["script.run", "script.validate", "script.write"].any (·.toList == id) then
    -- a Berry script, or a shell script that goes through the terminal
    [.none, .unlessGuarded, .script]
  else if id = "berry.run_script".toList then [.none, .script]
  else if id = "telegram.send_message".toList then [.none, .always]
  else [.none]

/-- Where a chain of calls begins. -/
inductive Entry where
  /-- The turn of an event. -/
  | agent (ev : Event)
  /-- The prompt of a schedule that names a tool. -/
  | scheduled (ev : Event)
  /-- `tools/call` with the name of a tool, in a session. -/
  | mcp (session tool : CStr)
  /-- A command such as `device` or `berry-run`. -/
  | console

/-- The event takes the way of the entry. -/
def Entry.fits : Entry → Bool
  | .agent ev => !(Agent.isTimerFire ev && (Agent.directTool ev.text.str).isSome)
  | .scheduled ev => Agent.isTimerFire ev
  | _ => true

def Entry.isScheduled : Entry → Bool
  | .scheduled _ => true
  | _ => false

/-- The code that a chain is in. -/
inductive Frame where
  | entry (thread : Nat) (e : Entry)
  /-- A guard that the code below has armed. -/
  | guard (thread : Nat)
  | body (thread : Nat) (cap : Cap) (ctx : ToolCallContext) (use : Use)
  /-- A script on its worker thread, with the context that its calls get. -/
  | script (worker : Nat) (host : ToolCallContext)

namespace Frame

def thread : Frame → Nat
  | .entry t _ | .guard t | .body t _ _ _ | .script t _ => t

/-- The flag of the context that the code runs in. -/
def flag : Frame → Bool
  | .body _ _ ctx _ => ctx.guarded
  | .script _ host => host.guarded
  | _ => false

def isGuard (u : Nat) : Frame → Bool
  | .guard t => t == u
  | _ => false

def isScript : Frame → Bool
  | .script .. => true
  | _ => false

end Frame

/-! ## The chain -/

/-- The configuration: the capabilities, the owner modes of MCP and of the console, and
whether a whole turn of the agent is guarded. -/
structure Setup where
  caps : List Cap
  yolo : Bool
  ownerMode : Bool
  agentGuard : Bool

/-- The guard, and the code of the chain with the innermost first. -/
structure State where
  guard : Guard.State
  frames : List Frame

/-- No thread has run yet. -/
def start : State := ⟨Guard.boot, []⟩

/-- Where the running thread of the chain is in the functions of the guard. -/
def State.pc (s : State) : Guard.Pc :=
  match s.frames with
  | [] => .idle
  | f :: _ => (s.guard.threads f.thread).pc

section

variable (cfg : Setup)

/-- The context that `fc_mcp_tools_call` begins with. -/
def mcpContext (session : CStr) : ToolCallContext :=
  Mcp.callContext cfg.yolo (some (Mcp.httpContext cfg.yolo session))

/-- The context in which the code can call a tool now, if it can. -/
def callContext (tool : CStr) : List Frame → Option ToolCallContext
  | .entry _ (.agent ev) :: _ => if cfg.agentGuard then none else some (fcToolContextFromEvent ev)
  | .guard _ :: .entry _ (.agent ev) :: _ => if cfg.agentGuard then some (fcToolContextFromEvent ev) else none
  | .entry _ (.scheduled ev) :: _ =>
    if (Agent.directTool ev.text.str).any (·.1 == tool) then some (Agent.scheduledContext ev) else none
  | .entry _ (.mcp session named) :: _ =>
    if tool = named ∧ Mcp.outerGuard cfg.caps named = false then some (mcpContext cfg session) else none
  | .guard _ :: .entry _ (.mcp session named) :: _ =>
    if tool = named then some { mcpContext cfg session with guarded := true } else none
  | .entry _ .console :: _ => some (fcToolContextLocal cfg.ownerMode)
  | .script _ host :: _ => some host
  | _ => none

/-- The context that `fc_berry_run_file` makes for a script, when it has armed the guard. -/
def hostContext : List Frame → Option ToolCallContext
  | .guard _ :: .body _ _ ctx .script :: _ => some { ctx with guarded := true }
  | .guard _ :: .entry _ .console :: _ => some { fcToolContextLocal cfg.ownerMode with guarded := true }
  | _ => none

/-- The code can take the guard now. -/
def mayArm : List Frame → Bool
  -- the guard of the turn, and those of the requests to the model
  | .entry _ (.agent _) :: _ => true
  | .guard _ :: .entry _ (.agent _) :: _ => cfg.agentGuard
  | .entry _ (.mcp _ tool) :: _ => Mcp.outerGuard cfg.caps tool
  | .entry _ .console :: _ => true
  | .body _ _ ctx use :: _ => use.arms ctx.guarded
  | _ => false

/-- The section is one that the running thread of the chain can execute now. -/
def allowed (s : State) : Guard.Act → Bool
  | .attempt call _ =>
    match s.pc with
    | .idle => mayArm cfg s.frames
    | .waiting waits => waits == call
    | _ => false
  -- a function gives back its own guard before it returns
  | .release i _ => i == 0 && (match s.frames with | .guard _ :: _ => true | _ => false)
  | .sessionStop | .sessionJoin | .recover => match s.frames with | .body _ _ _ .reboot :: _ => true | _ => false
  | .sessionStart _ | .sessionExit | .uptimeTrip => false
  | _ => true

/-- The code after a section: a guard is there from the section in which the call that
takes it returns zero, until the one in which it is given back. -/
def resync (before after t : Nat) (frames : List Frame) : List Frame :=
  if before < after then .guard t :: frames
  else if after < before then frames.tail
  else frames

inductive Label where
  /-- A section of a thread outside of the chain. -/
  | other (l : Guard.Label)
  /-- A section of the running thread of the chain. -/
  | own (a : Guard.Act)
  | enter (t : Nat) (e : Entry)
  | call (tool args : CStr) (use : Use)
  /-- The worker of a script starts. -/
  | startWorker (t : Nat)
  /-- The innermost code returns, or its worker is joined. -/
  | leave

/-- A step. A label that does not fit does nothing. -/
def step (s : State) : Label → State
  | .other l => if s.frames.any (·.thread == l.1) then s else { s with guard := Guard.step s.guard l }
  | .own a =>
    match s.frames with
    | [] => s
    | f :: fs =>
      if allowed cfg s a then
        let guard := Guard.step s.guard (f.thread, a)
        let before := (s.guard.threads f.thread).handles.length
        let after := (guard.threads f.thread).handles.length
        ⟨guard, resync before after f.thread (f :: fs)⟩
      else s
  | .enter t e =>
    match s.frames with
    | [] =>
      if e.fits ∧ (s.guard.threads t).pc = .idle ∧ (s.guard.threads t).handles = [] then
        { s with frames := [.entry t e] }
      else s
    | _ :: _ => s
  | .call tool args use =>
    match s.frames, s.pc, callContext cfg tool s.frames with
    | f :: fs, .idle, some ctx =>
      match fcCapAccess cfg.caps (some ctx) tool (some args) with
      | .ok (cap, _) =>
        if use ∈ uses cap.id then { s with frames := .body f.thread cap ctx use :: f :: fs } else s
      | .error _ => s
    | _, _, _ => s
  | .startWorker t =>
    match s.pc, hostContext cfg s.frames with
    | .idle, some host =>
      if s.guard.threads t = .initial ∧ s.frames.all (·.thread != t) then
        { s with frames := .script t host :: s.frames }
      else s
    | _, _ => s
  | .leave =>
    match s.frames, s.pc with
    | .entry .. :: fs, .idle | .body .. :: fs, .idle | .script .. :: fs, .idle => { s with frames := fs }
    | _, _ => s

end

/-! ## The flag -/

/-- A guard that the frame stands for is active and belongs to its thread. -/
def Frame.armed (g : Guard.Shared) : Frame → Bool
  | .guard t => decide (g.OwnedBy t)
  | _ => false

/-- Around every piece of code that runs with the flag there is a guard that is active. -/
def Backed (g : Guard.Shared) : List Frame → Prop
  | [] => True
  | f :: fs => (f.flag = true → fs.any (·.armed g) = true) ∧ Backed g fs

instance (g : Guard.Shared) : (fs : List Frame) → Decidable (Backed g fs)
  | [] => .isTrue trivial
  | _ :: fs =>
    have := instDecidableBacked g fs
    inferInstanceAs (Decidable (_ ∧ _))

/-- The flag tells the truth in the state. -/
def Truthful (s : State) : Prop := Backed s.guard.shared s.frames

instance (s : State) : Decidable (Truthful s) := inferInstanceAs (Decidable (Backed ..))

/-- The step does not begin with a scheduled tool, and it leaves the guard in order: the
session thread does not end while the guard is active, and the board is not reset. -/
def Disciplined (s : State) : Label → Prop
  | .other l => Guard.Orderly s.guard l
  | .own a => a.orderly s.guard.shared = true
  | .enter _ e => e.isScheduled = false
  | _ => True

instance (s : State) (l : Label) : Decidable (Disciplined s l) :=
  match l with
  | .other l => inferInstanceAs (Decidable (Guard.Orderly s.guard l))
  | .own _ => inferInstanceAs (Decidable (_ = _))
  | .enter .. => inferInstanceAs (Decidable (_ = _))
  | .call .. => .isTrue trivial
  | .startWorker _ => .isTrue trivial
  | .leave => .isTrue trivial

/-- Some code in the list has armed a guard. -/
def HasGuard (fs : List Frame) : Prop := ∃ t, .guard t ∈ fs

/-- Around every piece of code that runs with the flag there is code that armed a guard,
and no chain begins with a scheduled tool. -/
def Vouched : List Frame → Prop
  | [] => True
  | f :: fs => (f.flag = true → HasGuard fs) ∧ (∀ t e, f = .entry t e → e.isScheduled = false) ∧ Vouched fs

/-- How many guards of the thread the chain has armed. -/
def held (t : Nat) (fs : List Frame) : Nat := fs.countP (·.isGuard t)

/-- The frames say which guards the threads of the chain hold. -/
structure Inv (s : State) : Prop where
  settled : s.guard.All Guard.Settled
  handles : ∀ f ∈ s.frames, (s.guard.threads f.thread).handles.length = held f.thread s.frames
  vouched : Vouched s.frames

section

variable {cfg : Setup} {s : State} {f : Frame} {fs : List Frame}

theorem held_guard (t u : Nat) (fs : List Frame) :
    held u (.guard t :: fs) = held u fs + if t = u then 1 else 0 := by
  simp [held, countP_cons, Frame.isGuard]

theorem held_other (hf : ∀ u, f.isGuard u = false) (u : Nat) (fs : List Frame) : held u (f :: fs) = held u fs :=
  countP_cons_of_neg (by simp [hf])

theorem held_pos {t : Nat} (h : .guard t ∈ fs) : 0 < held t fs :=
  countP_pos_iff.mpr ⟨_, h, beq_self_eq_true t⟩

theorem HasGuard.cons (h : HasGuard fs) (f : Frame) : HasGuard (f :: fs) := by
  obtain ⟨t, ht⟩ := h
  exact ⟨t, mem_cons_of_mem _ ht⟩

theorem Inv.owned (h : Inv s) {t : Nat} (ht : .guard t ∈ s.frames) : s.guard.shared.OwnedBy t := by
  refine (h.settled t).owned (Or.inl fun hnone => ?_)
  have hcount : (s.guard.threads t).handles.length = held t s.frames := h.handles _ ht
  have hpos := held_pos ht
  rw [← hcount, hnone] at hpos
  exact absurd hpos (Nat.lt_irrefl 0)

theorem backed_of_vouched {g : Guard.Shared} (howned : ∀ t, .guard t ∈ fs → g.OwnedBy t) (h : Vouched fs) :
    Backed g fs := by
  induction fs with
  | nil => trivial
  | cons f fs ih =>
    refine ⟨fun hflag => ?_, ih (fun t ht => howned t (mem_cons_of_mem _ ht)) h.2.2⟩
    obtain ⟨t, ht⟩ := h.1 hflag
    exact any_eq_true.mpr ⟨_, ht, decide_eq_true (howned t (mem_cons_of_mem _ ht))⟩

theorem Inv.truthful (h : Inv s) : Truthful s := backed_of_vouched (fun _ ht => h.owned ht) h.vouched

/-! ## Contexts -/

/-- Code that is not a scheduled tool calls with the flag under a guard only. -/
theorem callContext_guarded {tool : CStr} {ctx : ToolCallContext} (hfs : Vouched fs)
    (h : callContext cfg tool fs = some ctx) (hctx : ctx.guarded = true) : HasGuard fs := by
  unfold callContext at h
  split at h
  · split at h
    · cases h
    · cases h
      cases hctx
  · exact ⟨_, mem_cons_self⟩
  · have hno := hfs.2.1 _ _ rfl
    cases hno
  · split at h
    · cases h
      cases hctx
    · cases h
  · exact ⟨_, mem_cons_self⟩
  · cases h
    cases hctx
  · cases h
    exact (hfs.1 hctx).cons _
  · cases h

theorem hostContext_hasGuard {host : ToolCallContext} (h : hostContext cfg fs = some host) : HasGuard fs := by
  unfold hostContext at h
  split at h
  · exact ⟨_, mem_cons_self⟩
  · exact ⟨_, mem_cons_self⟩
  · cases h

/-! ## Steps -/

theorem Inv.push (h : Inv s) (hf : ∀ u, f.isGuard u = false)
    (hhandles : (s.guard.threads f.thread).handles.length = held f.thread s.frames)
    (hvouched : Vouched (f :: s.frames)) :
    Inv { s with frames := f :: s.frames } where
  settled := h.settled
  handles := by
    intro g hg
    rw [held_other hf]
    rcases mem_cons.mp hg with rfl | hg
    · exact hhandles
    · exact h.handles g hg
  vouched := hvouched

theorem Inv.pop (h : Inv s) (hfs : s.frames = f :: fs) (hf : ∀ u, f.isGuard u = false) :
    Inv { s with frames := fs } where
  settled := h.settled
  handles := by
    intro g hg
    have hcount := h.handles g (by rw [hfs]; exact mem_cons_of_mem _ hg)
    rwa [hfs, held_other hf] at hcount
  vouched := by
    have hvouched := h.vouched
    rw [hfs] at hvouched
    exact hvouched.2.2

theorem Inv.other (h : Inv s) {l : Guard.Label} (hl : Guard.Orderly s.guard l)
    (hout : ∀ f ∈ s.frames, f.thread ≠ l.1) : Inv { s with guard := Guard.step s.guard l } where
  settled := Guard.settled_step h.settled hl
  handles := by
    intro f hf
    have hsame : (Guard.step s.guard l).threads f.thread = s.guard.threads f.thread :=
      Threads.System.step_other (hout f hf)
    rw [hsame]
    exact h.handles f hf
  vouched := h.vouched

/-- What a section of the running thread does to the guards of the chain: nothing, or the
thread gets one more, or it gives back the innermost one. -/
theorem own_cases (h : Inv s) (hfs : s.frames = f :: fs) {a : Guard.Act} (ha : allowed cfg s a = true) :
    let n := (s.guard.threads f.thread).handles.length
    let n' := ((Guard.step s.guard (f.thread, a)).threads f.thread).handles.length
    (n' = n ∧ resync n n' f.thread (f :: fs) = f :: fs) ∨
      (n' = n + 1 ∧ resync n n' f.thread (f :: fs) = .guard f.thread :: f :: fs) ∨
      (n' + 1 = n ∧ f = .guard f.thread ∧ resync n n' f.thread (f :: fs) = fs) := by
  have hthread : (Guard.step s.guard (f.thread, a)).threads f.thread =
      (Guard.next f.thread s.guard.shared (s.guard.threads f.thread) a).2 := Threads.System.step_self
  rw [hthread]
  rcases Guard.next_handles f.thread s.guard.shared (s.guard.threads f.thread) a with
    hsame | ⟨handle, hmore⟩ | ⟨i, joined, rfl, hless⟩
  · rw [hsame]
    exact Or.inl ⟨rfl, by simp [resync]⟩
  · rw [hmore]
    exact Or.inr (Or.inl ⟨rfl, by simp [resync]⟩)
  simp only [allowed, hfs, Bool.and_eq_true, beq_iff_eq] at ha
  obtain ⟨rfl, htop⟩ := ha
  have hguard : f = .guard f.thread := by
    cases f with
    | guard t => rfl
    | entry | body | script => cases htop
  -- The frame stands for a handle, so there is one to give back.
  have hmem : f ∈ s.frames := by rw [hfs]; exact mem_cons_self
  have hpos := held_pos (hguard ▸ hmem)
  rw [← h.handles f hmem] at hpos
  rw [hless, eraseIdx_zero, length_tail]
  refine Or.inr (Or.inr ⟨by omega, hguard, ?_⟩)
  rw [resync, if_neg (by omega), if_pos (by omega), tail_cons]

theorem inv_own (h : Inv s) (hfs : s.frames = f :: fs) {a : Guard.Act} (ha : allowed cfg s a = true)
    (horderly : a.orderly s.guard.shared = true) : Inv ⟨Guard.step s.guard (f.thread, a),
      resync (s.guard.threads f.thread).handles.length
        ((Guard.step s.guard (f.thread, a)).threads f.thread).handles.length f.thread (f :: fs)⟩ := by
  have hsettled : (Guard.step s.guard (f.thread, a)).All Guard.Settled := Guard.settled_step h.settled horderly
  have hother {u : Nat} (hu : u ≠ f.thread) :
      (Guard.step s.guard (f.thread, a)).threads u = s.guard.threads u := Threads.System.step_other hu
  have hhandles := h.handles
  have hvouched := h.vouched
  rw [hfs] at hhandles hvouched
  have hself := hhandles f mem_cons_self
  rcases own_cases h hfs ha with ⟨hn, hframes⟩ | ⟨hn, hframes⟩ | ⟨hn, hguard, hframes⟩
  · rw [hframes]
    refine ⟨hsettled, fun g hg => ?_, hvouched⟩
    by_cases hu : g.thread = f.thread
    · rw [hu, hn]
      exact hself
    · rw [hother hu]
      exact hhandles g hg
  · rw [hframes]
    refine ⟨hsettled, fun g hg => ?_, nofun, nofun, hvouched⟩
    rw [held_guard]
    by_cases hu : g.thread = f.thread
    · rw [if_pos hu.symm, hu, hn, hself]
    rw [if_neg (Ne.symm hu), hother hu]
    rcases mem_cons.mp hg with rfl | hg
    · exact absurd rfl hu
    · exact hhandles g hg
  · rw [hframes]
    refine ⟨hsettled, fun g hg => ?_, hvouched.2.2⟩
    have hrest := hhandles g (mem_cons_of_mem _ hg)
    rw [hguard, held_guard] at hself hrest
    by_cases hu : g.thread = f.thread
    · rw [hu] at hrest ⊢
      rw [if_pos rfl] at hrest
      dsimp only
      omega
    · rw [if_neg (Ne.symm hu)] at hrest
      rw [hother hu]
      exact hrest

theorem inv_call (h : Inv s) (tool args : CStr) (use : Use) : Inv (step cfg s (.call tool args use)) := by
  simp only [step]
  split
  · rename_i f fs ctx hfs _ hctx
    split
    · split
      · rw [← hfs]
        have hmem : f ∈ s.frames := by rw [hfs]; exact mem_cons_self
        exact h.push (fun _ => rfl) (h.handles f hmem)
          ⟨callContext_guarded h.vouched hctx, nofun, h.vouched⟩
      · exact h
    · exact h
  · exact h

theorem inv_startWorker (h : Inv s) (t : Nat) : Inv (step cfg s (.startWorker t)) := by
  simp only [step]
  split
  · rename_i host _ hhost
    split
    · rename_i hfresh
      obtain ⟨hinitial, hout⟩ := hfresh
      refine h.push (fun _ => rfl) ?_ ⟨fun _ => hostContext_hasGuard hhost, nofun, h.vouched⟩
      -- No guard of the chain belongs to the new thread.
      have hnone : held t s.frames = 0 := by
        refine countP_eq_zero.mpr fun f hf hguard => ?_
        have hne := all_eq_true.mp hout f hf
        cases f with
        | guard u => simp_all [Frame.isGuard, Frame.thread]
        | entry | body | script => cases hguard
      exact (congrArg (List.length ∘ Guard.Thread.handles) hinitial).trans hnone.symm
    · exact h
  · exact h

theorem inv_leave (h : Inv s) : Inv (step cfg s .leave) := by
  simp only [step]
  split
  case h_4 => exact h
  all_goals
    rename_i hfs _
    exact h.pop hfs fun _ => rfl

theorem inv_step {l : Label} (h : Inv s) (hl : Disciplined s l) : Inv (step cfg s l) := by
  cases l with
  | other l =>
    simp only [step]
    split
    · exact h
    · rename_i hout
      exact h.other hl fun f hf heq => hout (any_eq_true.mpr ⟨f, hf, beq_iff_eq.mpr heq⟩)
  | own a =>
    simp only [step]
    split
    · exact h
    rename_i f fs hfs
    split
    · rename_i ha
      exact inv_own h hfs ha hl
    · exact h
  | enter t e =>
    simp only [step]
    split
    · split
      · rename_i hidle
        have hempty : Inv { s with frames := [.entry t e] } := by
          refine ⟨h.settled, fun f hf => ?_, nofun, ?_, trivial⟩
          · rw [mem_singleton.mp hf]
            exact congrArg List.length hidle.2.2
          rintro t' e' heq
          cases heq
          exact hl
        exact hempty
      · exact h
    · exact h
  | call tool args use => exact inv_call h tool args use
  | startWorker t => exact inv_startWorker h t
  | leave => exact inv_leave h

end

theorem inv_start : Inv start := ⟨Guard.settled_boot, nofun, trivial⟩

/-- In every run of a chain that does not begin with a scheduled tool, between any sections
of other threads that leave the guard in order, code with the flag runs under an active
guard of a call around it. -/
theorem truthful_of_disciplined (cfg : Setup) (ls : List Label)
    (h : Transition.Meets (step cfg) Disciplined start ls) : Transition.Always (step cfg) Truthful start ls :=
  Transition.always_induct (fun _ hI => hI.truthful) (fun _ _ hI hl => inv_step hI hl) inv_start h

/-- A capability of the sample runs. -/
def sampleCap (id : String) : Cap := ⟨id.toList, none, none, none, true, true⟩

def sampleSetup : Setup := ⟨[sampleCap "script.run", sampleCap "neopixels.off"], true, true, false⟩

/-- The sections of an arm that succeeds. -/
def armed : List Label :=
  [.own (.attempt .arm true), .own (.open (.ok 3)), .own .bind, .own (.program (.ok ()))]

/-- A client runs a script that calls a tool, while another thread waits for the guard. -/
def scriptRun : List Label :=
  [.enter 1 (.mcp [] "script.run".toList)] ++ armed ++
    [.call "script.run".toList noArgs .script, .own (.attempt .arm true), .startWorker 2,
      .other (7, .attempt .longStart false), .call "neopixels.off".toList noArgs .unlessGuarded, .leave, .leave,
      .own (.release 0 true), .leave, .own (.release 0 true), .own .checkUptime, .own (.checkFd (.ok ())),
      .own .clear, .leave]

theorem truthful_scriptRun : Transition.Meets (step sampleSetup) Disciplined start scriptRun ∧
    Transition.Always (step sampleSetup) Truthful start scriptRun :=
  ⟨by decide, truthful_of_disciplined sampleSetup scriptRun (by decide)⟩

/-- A schedule with a tool as its prompt, when it fires. -/
def toolEvent : Event :=
  { Event.zero with
    source := .copy 24 "scheduler".toList
    type := .copy 32 "timer.fire".toList
    ownerMode := true
    text := .copy 1024 "tool:neopixels.off".toList }

/-- The tool of a schedule runs with the flag and without a guard. -/
theorem not_truthful_scheduled :
    ¬ Transition.Always (step sampleSetup) Truthful start
      [.enter 1 (.scheduled toolEvent), .call "neopixels.off".toList noArgs .unlessGuarded] := by
  decide

/-! ## Calls of a script -/

/-- The threads whose guards the scripts of the chain run under. -/
def scriptHolders : List Frame → List Nat
  | .script _ _ :: .guard t :: fs => t :: scriptHolders fs
  | _ :: fs => scriptHolders fs
  | [] => []

/-- The running thread is turned away from the guard, because the guard that a script of
its own chain runs under is active. -/
def RefusedByOwn (cfg : Setup) (s : State) : Label → Prop
  | .own (.attempt call timeUp) =>
    allowed cfg s (.attempt call timeUp) = true ∧
      s.frames.head?.any (fun f => (Guard.beginShort f.thread s.guard.shared).1 == .busy) = true ∧
      ∃ t ∈ scriptHolders s.frames, s.guard.shared.OwnedBy t
  | _ => False

/-- The tools that a script calls do not take the guard in a context with the flag. -/
def Gentle (s : State) : Label → Prop
  | .call _ _ use => s.frames.any Frame.isScript = true → use.arms true = false
  | _ => True

instance (s : State) (l : Label) : Decidable (Gentle s l) :=
  match l with
  | .call .. => inferInstanceAs (Decidable (_ → _))
  | .other _ | .own _ | .enter .. | .startWorker _ | .leave => .isTrue trivial

/-- A script that calls such tools is on top of the chain, or a tool of this kind is above it. -/
structure Calm (s : State) : Prop where
  away : ∀ w host, .script w host ∈ s.frames → (s.guard.threads w).pc = .idle ∨ (s.guard.threads w).pc = .stuck
  above : ∀ above w host below, s.frames = above ++ .script w host :: below → host.guarded = true ∧
    (above = [] ∨ ∃ cap ctx use, above = [.body w cap ctx use] ∧ ctx.guarded = true ∧ use.arms true = false)

section

variable {cfg : Setup} {s : State} {fs : List Frame} {f : Frame}

theorem scriptHolders_nil (h : ∀ f ∈ fs, f.isScript = false) : scriptHolders fs = [] := by
  fun_induction scriptHolders fs with
  | case1 w host t fs ih => cases h _ mem_cons_self
  | case2 f fs hno ih => exact ih fun g hg => h g (mem_cons_of_mem _ hg)
  | case3 => rfl

/-- A script is in the chain, at the place where it is. -/
theorem exists_script (h : fs.any Frame.isScript = true) :
    ∃ above w host below, fs = above ++ .script w host :: below := by
  obtain ⟨f, hmem, hf⟩ := any_eq_true.mp h
  obtain ⟨above, below, hfs⟩ := append_of_mem hmem
  cases f with
  | script w host => exact ⟨above, w, host, below, hfs⟩
  | entry | guard | body => cases hf

theorem Calm.of_none (h : s.frames.any Frame.isScript = false) : Calm s := by
  have hno (w : Nat) (host : ToolCallContext) : .script w host ∉ s.frames := fun hmem =>
    Bool.false_ne_true (h.symm.trans (any_eq_true.mpr ⟨_, hmem, rfl⟩))
  refine ⟨fun w host hmem => absurd hmem (hno w host), fun above w host below hfs => ?_⟩
  exact absurd (by rw [hfs]; simp) (hno w host)

/-- The top of a calm chain with a script: the script, or the body of a tool that it calls. -/
theorem Calm.top (h : Calm s) (cfg : Setup) (hfs : s.frames = f :: fs) (hscript : s.frames.any Frame.isScript = true) :
    mayArm cfg s.frames = false ∧ hostContext cfg s.frames = none ∧ (∀ t, f ≠ .guard t) ∧
      ((s.guard.threads f.thread).pc = .idle ∨ (s.guard.threads f.thread).pc = .stuck) := by
  obtain ⟨above, w, host, below, hsplit⟩ := exists_script hscript
  have haway := h.away w host (by rw [hsplit]; simp)
  obtain ⟨-, rfl | ⟨cap, ctx, use, rfl, hctx, huse⟩⟩ := h.above above w host below hsplit
  · rw [hfs, nil_append] at hsplit
    obtain ⟨rfl, rfl⟩ := List.cons.inj hsplit
    rw [hfs]
    exact ⟨rfl, rfl, nofun, haway⟩
  rw [hfs, singleton_append] at hsplit
  obtain ⟨rfl, rfl⟩ := List.cons.inj hsplit
  rw [hfs]
  exact ⟨by rw [mayArm, hctx, huse], rfl, nofun, haway⟩

/-- Inside a script the running thread takes no guard and gives none back. -/
theorem Calm.allowed (h : Calm s) (hfs : s.frames = f :: fs) (hscript : s.frames.any Frame.isScript = true)
    {a : Guard.Act} (ha : allowed cfg s a = true) :
    (∀ call timeUp, a ≠ .attempt call timeUp) ∧ ∀ i joined, a ≠ .release i joined := by
  obtain ⟨harm, -, hguard, haway⟩ := h.top cfg hfs hscript
  have hpc : s.pc = .idle ∨ s.pc = .stuck := by
    rw [State.pc, hfs]
    exact haway
  constructor
  · rintro call timeUp rfl
    rw [GuardedCalls.allowed] at ha
    rcases hpc with hpc | hpc <;> rw [hpc] at ha
    · rw [harm] at ha
      cases ha
    · cases ha
  · rintro i joined rfl
    rw [GuardedCalls.allowed, hfs] at ha
    cases f with
    | guard t => exact hguard t rfl
    | entry | body | script => simp at ha

theorem Calm.not_refused (h : Calm s) (l : Label) : ¬ RefusedByOwn cfg s l := by
  intro hrefused
  unfold RefusedByOwn at hrefused
  split at hrefused
  · obtain ⟨hallowed, -, t, ht, -⟩ := hrefused
    have hscript : s.frames.any Frame.isScript = true := by
      by_contra hno
      rw [Bool.not_eq_true, any_eq_false] at hno
      rw [scriptHolders_nil fun f hf => Bool.eq_false_iff.mpr (hno f hf)] at ht
      cases ht
    cases hfs : s.frames with
    | nil => simp [hfs] at hscript
    | cons f fs => exact (h.allowed hfs hscript hallowed).1 _ _ rfl
  · exact hrefused

/-! ## Steps of a script -/

theorem calm_own (h : Calm s) (hfs : s.frames = f :: fs) {a : Guard.Act} (ha : allowed cfg s a = true) :
    Calm ⟨Guard.step s.guard (f.thread, a),
      resync (s.guard.threads f.thread).handles.length
        ((Guard.step s.guard (f.thread, a)).threads f.thread).handles.length f.thread (f :: fs)⟩ := by
  have hself : (Guard.step s.guard (f.thread, a)).threads f.thread =
      (Guard.next f.thread s.guard.shared (s.guard.threads f.thread) a).2 := Threads.System.step_self
  cases hscript : s.frames.any Frame.isScript with
  | false =>
    -- A guard is no script, so there is none afterwards either.
    refine Calm.of_none ?_
    rw [hfs, any_eq_false] at hscript
    rw [any_eq_false]
    intro g hg
    unfold resync at hg
    split at hg
    · rcases mem_cons.mp hg with rfl | hg
      · exact Bool.false_ne_true
      · exact hscript g hg
    split at hg
    · exact hscript g (mem_of_mem_tail hg)
    · exact hscript g hg
  | true =>
    obtain ⟨-, -, -, haway⟩ := h.top cfg hfs hscript
    obtain ⟨hattempt, hrelease⟩ := h.allowed hfs hscript ha
    obtain ⟨hpc, hhandles⟩ := Guard.next_outside (g := s.guard.shared) (t := f.thread) haway hattempt hrelease
    have hframes : resync (s.guard.threads f.thread).handles.length
        ((Guard.step s.guard (f.thread, a)).threads f.thread).handles.length f.thread (f :: fs) = s.frames := by
      rw [hself, hhandles, hfs]
      simp [resync]
    rw [hframes]
    refine ⟨fun w host hmem => ?_, h.above⟩
    by_cases hw : w = f.thread
    · subst hw
      dsimp only
      rw [hself]
      exact hpc
    have hother : (Guard.step s.guard (f.thread, a)).threads w = s.guard.threads w :=
      Threads.System.step_other hw
    rw [hother]
    exact h.away w host hmem

theorem calm_call (h : Calm s) {tool args : CStr} {use : Use} (hl : Gentle s (.call tool args use)) :
    Calm (step cfg s (.call tool args use)) := by
  simp only [step]
  split
  · rename_i f fs ctx hfs _ hctx
    split
    · rename_i cap _ _
      split
      · refine ⟨fun w host hmem => ?_, fun above w host below hsplit => ?_⟩
        · rcases mem_cons.mp hmem with heq | hmem
          · cases heq
          · exact h.away w host (hfs ▸ hmem)
        cases above with
        | nil => cases hsplit
        | cons first above =>
          rw [cons_append] at hsplit
          obtain ⟨rfl, hrest⟩ := List.cons.inj hsplit
          rw [← hfs] at hrest
          obtain ⟨hhost, rfl | ⟨cap', ctx', use', rfl, -, -⟩⟩ := h.above above w host below hrest
          · -- The script itself makes the call, in its own context.
            rw [hrest] at hctx hfs
            cases hctx
            cases hfs
            exact ⟨hhost, Or.inr ⟨cap, _, use, rfl, hhost, hl (by rw [hrest]; rfl)⟩⟩
          · rw [hrest] at hctx
            cases hctx
      · exact h
    · exact h
  · exact h

theorem calm_startWorker (h : Calm s) (t : Nat) : Calm (step cfg s (.startWorker t)) := by
  simp only [step]
  split
  · rename_i host _ hhost
    split
    · rename_i hfresh
      have hnone : s.frames.any Frame.isScript = false := by
        by_contra hscript
        rw [Bool.not_eq_false] at hscript
        cases hfs : s.frames with
        | nil => simp [hfs] at hscript
        | cons f fs =>
          obtain ⟨-, hno, -⟩ := h.top cfg hfs hscript
          rw [hno] at hhost
          cases hhost
      rw [any_eq_false] at hnone
      refine ⟨fun w host' hmem => ?_, fun above w host' below hsplit => ?_⟩
      · rcases mem_cons.mp hmem with heq | hmem
        · cases heq
          exact Or.inl (congrArg Guard.Thread.pc hfresh.1)
        · exact absurd rfl (hnone _ hmem)
      cases above with
      | nil =>
        obtain ⟨heq, -⟩ := List.cons.inj hsplit
        cases heq
        refine ⟨?_, Or.inl rfl⟩
        unfold hostContext at hhost
        split at hhost
        · cases hhost
          rfl
        · cases hhost
          rfl
        · cases hhost
      | cons first above =>
        obtain ⟨-, hrest⟩ := List.cons.inj hsplit
        exact absurd rfl (hnone (.script w host') (by rw [hrest]; simp))
    · exact h
  · exact h

theorem Calm.pop (h : Calm s) (hfs : s.frames = f :: fs) : Calm { s with frames := fs } := by
  refine ⟨fun w host hmem => h.away w host (by rw [hfs]; exact mem_cons_of_mem _ hmem),
    fun above w host below hsplit => ?_⟩
  have hsplit' : s.frames = (f :: above) ++ .script w host :: below := by
    rw [hfs, cons_append]
    exact congrArg _ hsplit
  obtain ⟨hhost, hnil | ⟨cap, ctx, use, hbody, -, -⟩⟩ := h.above _ w host below hsplit'
  · cases hnil
  · exact ⟨hhost, Or.inl (List.cons.inj hbody).2⟩

theorem calm_step {l : Label} (h : Calm s) (hl : Gentle s l) : Calm (step cfg s l) := by
  cases l with
  | other l =>
    simp only [step]
    split
    · exact h
    rename_i hout
    refine ⟨fun w host hmem => ?_, h.above⟩
    have hw : w ≠ l.1 := fun heq => hout (any_eq_true.mpr ⟨_, hmem, beq_iff_eq.mpr heq⟩)
    have hother : (Guard.step s.guard l).threads w = s.guard.threads w := Threads.System.step_other hw
    rw [hother]
    exact h.away w host hmem
  | own a =>
    simp only [step]
    split
    · exact h
    rename_i f fs hfs
    split
    · rename_i ha
      exact calm_own h hfs ha
    · exact h
  | enter t e =>
    simp only [step]
    split
    · split
      · exact Calm.of_none rfl
      · exact h
    · exact h
  | call tool args use => exact calm_call h hl
  | startWorker t => exact calm_startWorker h t
  | leave =>
    simp only [step]
    split
    case h_4 => exact h
    all_goals
      rename_i hfs _
      exact h.pop hfs

end

/-- A script is never turned away by the guard that it runs under, in any run in which its
tools arm the guard through `fc_tool_guard_arm` only, or not at all. -/
theorem not_refused_of_gentle (cfg : Setup) (ls : List Label)
    (h : Transition.Meets (step cfg) Gentle start ls) :
    Transition.Meets (step cfg) (fun s l => ¬ RefusedByOwn cfg s l) start ls :=
  Transition.meets_induct (fun _ l hI hl => ⟨calm_step hI hl, hI.not_refused l⟩) (Calm.of_none rfl) h

theorem not_refused_scriptRun : Transition.Meets (step sampleSetup) Gentle start scriptRun ∧
    Transition.Meets (step sampleSetup) (fun s l => ¬ RefusedByOwn sampleSetup s l) start scriptRun :=
  ⟨by decide, not_refused_of_gentle sampleSetup scriptRun (by decide)⟩

/-- A script from the console that calls `script.run` for another script. -/
def nestedScript : List Label :=
  [.enter 1 .console] ++ armed ++ [.startWorker 2, .call "script.run".toList noArgs .script]

/-- The inner script is refused with `-EBUSY`, because the outer one holds the guard. -/
theorem nestedScript_refused :
    let s := Transition.run (step sampleSetup) start nestedScript
    RefusedByOwn sampleSetup s (.own (.attempt .arm true)) ∧
      ((step sampleSetup s (.own (.attempt .arm true))).guard.threads 2).ret = some (.error Guard.ebusy) := by
  refine ⟨⟨?_, ?_, 1, ?_, ?_⟩, ?_⟩ <;> decide

end FruitClaw.GuardedCalls
