-- SUMMARY: The agent turn: prompts, model calls and tool calls, and every conversation's shape.
import FruitClawApps.FruitClaw.Capability
import FruitClawApps.FruitClaw.Scheduler.Persist
import FruitClawApps.Lib.JsonText

/-!
# The agent

`fc_agent_handle_event` answers an event. A prompt of the scheduler may name a tool or be a
reminder, and then the model is not asked. Otherwise the model and its tool calls run in turns. The
conversations are recorded for specifications. Memory is assumed to be available.
-/

namespace FruitClaw.Agent

open List

/-- What a bounded copy or `snprintf` leaves in a buffer. -/
def cut (len : Nat) (s : CStr) : CStr := s.take (len - 1)

/-! ## Scheduled prompts -/

/-- `fc_agent_skip_space`. -/
def skipSpace (s : CStr) : CStr := s.dropWhile isspace

/-- `fc_agent_match_prefix_ci`: what follows the word. -/
def matchPrefixCi (s word : CStr) : Option CStr :=
  if startsWithNoCase s word then some (s.drop word.length) else none

/-- `fc_agent_find_marker_ci`. -/
def findMarkerCi (marker : CStr) : CStr → Option CStr
  | [] => none
  | c :: rest => (matchPrefixCi (c :: rest) marker).or (findMarkerCi marker rest)

/-- What follows the first of the words that the text begins with. -/
def matchFirst (s : CStr) (words : List String) : Option CStr :=
  words.findSome? fun word => matchPrefixCi s word.toList

/-- `fc_agent_schedule_agent_text`. -/
def scheduleAgentText (text : CStr) : CStr :=
  match matchFirst (skipSpace text) ["agent:", "llm:", "tool:"] with
  | some after => skipSpace after
  | none => text

/-- `fc_agent_schedule_direct_text`. -/
def scheduleDirectText (text : CStr) : Option CStr :=
  let s := skipSpace text
  if (matchFirst s ["agent:", "llm:", "tool:"]).isSome then none
  else
    match findMarkerCi "exactly:".toList s with
    | some marker => some (skipSpace marker)
    | none =>
      match matchPrefixCi s "reply:".toList with
      | some marker => some (skipSpace marker)
      | none => some s

/-- The tool and the arguments of a prompt that begins with `tool:`. -/
def directTool (text : CStr) : Option (CStr × CStr) :=
  match matchPrefixCi (skipSpace text) "tool:".toList with
  | none => none
  | some after =>
    let after := skipSpace after
    let tool := (after.takeWhile (!isspace ·)).take (fcToolNameLen - 1)
    let args := skipSpace (after.drop tool.length)
    some (tool, if args = [] then noArgs else args)

/-- The event is a schedule that fires. -/
def isTimerFire (ev : Event) : Bool :=
  ev.source.str == "scheduler".toList && ev.type.str == "timer.fire".toList

/-- The context that the tool of a scheduled prompt runs in. -/
def scheduledContext (ev : Event) : ToolCallContext := { fcToolContextFromEvent ev with guarded := true }

/-- A prompt that names a tool and its arguments. -/
def toolPrompt (name args : CStr) : CStr := "tool:".toList ++ (name ++ ' ' :: args)

theorem isspace_of_any {s : CStr} (h : s.any isspace = false) : ∀ c ∈ s, isspace c = false :=
  fun c hc => Bool.eq_false_iff.mpr (any_eq_false.mp h c hc)

theorem skipSpace_cons {c : Char} (h : isspace c = false) (s : CStr) : skipSpace (c :: s) = c :: s :=
  dropWhile_cons_of_neg (by simp [h])

/-- The agent reads the tool of a prompt and its arguments back. White space in front of the
arguments is skipped. -/
theorem directTool_toolPrompt {name args : CStr} (hname : name ≠ []) (hspace : ∀ c ∈ name, isspace c = false)
    (hlen : name.length < fcToolNameLen) (hargs : skipSpace args ≠ []) :
    directTool (toolPrompt name args) = some (name, skipSpace args) := by
  obtain ⟨c, rest, rfl⟩ := exists_cons_of_ne_nil hname
  have hmatch : matchPrefixCi (skipSpace (toolPrompt (c :: rest) args)) "tool:".toList =
      some (c :: rest ++ ' ' :: args) := by
    have hword : "tool:".toList = ['t', 'o', 'o', 'l', ':'] := by decide +kernel
    have hstart : startsWithNoCase (['t', 'o', 'o', 'l', ':'] ++ (c :: rest ++ ' ' :: args)) ['t', 'o', 'o', 'l', ':'] =
        true := by
      rw [startsWithNoCase, startsWith_iff, map_append]
      exact prefix_append _ _
    have hskip : skipSpace (['t', 'o', 'o', 'l', ':'] ++ (c :: rest ++ ' ' :: args)) =
        ['t', 'o', 'o', 'l', ':'] ++ (c :: rest ++ ' ' :: args) := skipSpace_cons rfl _
    unfold toolPrompt matchPrefixCi
    rfl
  have htool : (c :: rest ++ ' ' :: args).takeWhile (!isspace ·) = c :: rest := by
    rw [takeWhile_append_of_pos fun d hd => by simp [hspace d hd]]
    have hblank : (!isspace ' ') = false := rfl
    rw [takeWhile_cons_of_neg (by simp [hblank]), append_nil]
  have hcut : (c :: rest).take (fcToolNameLen - 1) = c :: rest := take_of_length_le (by omega)
  have hafter : skipSpace (c :: rest ++ ' ' :: args) = c :: rest ++ ' ' :: args :=
    skipSpace_cons (hspace c mem_cons_self) _
  have hskip : skipSpace (' ' :: args) = skipSpace args := rfl
  unfold directTool
  rw [hmatch]
  dsimp only
  rw [hafter, htool, hcut, drop_left, hskip, if_neg hargs]

/-! ## Turns -/

/-- A message of a conversation. -/
inductive Message where
  | system (content : CStr)
  | user (content : CStr)
  /-- The document that the model answered with. -/
  | assistant (reply : Json)
  | tool (callId content : CStr)

/-- The message as a document. -/
def Message.toJson : Message → Json
  | .system content => .obj [("role".toList, .str "system".toList), ("content".toList, .str content)]
  | .user content => .obj [("role".toList, .str "user".toList), ("content".toList, .str content)]
  | .assistant reply => reply
  | .tool callId content =>
    .obj [("role".toList, .str "tool".toList), ("tool_call_id".toList, .str callId), ("content".toList, .str content)]

/-- The arguments of `fc_session_append` after the session. -/
structure SessionEntry where
  role : CStr
  name : Option CStr
  content : CStr

/-- A turn: what it returns, its conversation, the conversations that were passed to the
model, and what it appended to the session. -/
structure Turn where
  ret : Ret
  reply : CStr
  messages : List Message
  passed : List (List Message)
  session : List SessionEntry

/-- What a turn meets. The answers of the capabilities and of the model may change while the
conversation grows, so they depend on its length. -/
structure Env where
  caps : List Cap
  execute : Nat → CapEnv
  /-- The API key in the secrets. -/
  key : Except Errno CStr
  /-- The status and the body that a request with an authorization and a body gets. -/
  post : Nat → CStr → CStr → Except Errno (Int × CStr)
  /-- `fc_build_system_context`. -/
  systemContext : CStr
  /-- The answer of `fc_guard_long_start`, if a turn is configured to be guarded. -/
  agentGuard : Option Ret
  /-- The answer of `fc_guard_long_stop`. -/
  agentUnguard : Ret

/-- `fc_agent_try_direct_scheduler_tool`. -/
def tryDirectSchedulerTool (env : Env) (ev : Event) (replyLen : Nat) : Option Turn :=
  if !isTimerFire ev then none
  else
    (directTool ev.text.str).map fun (tool, args) =>
      if tool = [] then
        let reply := cut replyLen "Scheduled tool failed: missing tool name.".toList
        ⟨.ok (), reply, [], [], [⟨"user".toList, none, ev.text.str⟩, ⟨"assistant".toList, none, reply⟩]⟩
      else
        let (ret, result) := fcCapExecuteCtx env.caps (env.execute 0) (some (scheduledContext ev)) tool (some args)
        let outcome := match ret with | .ok () => "ok" | .error _ => "failed"
        let reply := cut replyLen ("Scheduled tool ".toList ++ tool ++ " -> ".toList ++ outcome.toList ++
          ": ".toList ++ result.take 512)
        ⟨.ok (), reply, [], [],
          [⟨"user".toList, none, ev.text.str⟩, ⟨"tool".toList, some tool, result⟩,
            ⟨"assistant".toList, none, reply⟩]⟩

/-- `fc_agent_try_direct_scheduler_reply`. -/
def tryDirectSchedulerReply (ev : Event) (replyLen : Nat) : Option Turn :=
  if !isTimerFire ev then none
  else
    (scheduleDirectText ev.text.str).map fun text =>
      let reply := cut replyLen (if text = [] then "Scheduled task fired.".toList else text)
      ⟨.ok (), reply, [], [], [⟨"user".toList, none, ev.text.str⟩, ⟨"assistant".toList, none, reply⟩]⟩

section

variable (cj : CJson) (env : Env)

/-! ## The model -/

/-- The document that is sent to the model. -/
def requestJson (messages : List Message) : Json :=
  let tools :=
    match fcCapBuildOpenaiToolsJson cj env.caps fcMcpMaxResponse true with
    | .error _ => []
    | .ok text =>
      match cj.parse text with
      | none => []
      | some tools =>
        if tools.children = [] then []
        else [("tools".toList, tools), ("tool_choice".toList, .str "auto".toList)]
  .obj
    ([("model".toList, .str "deepseek-chat".toList), ("messages".toList, .arr (messages.map Message.toJson)),
      ("stream".toList, .bool false)] ++ tools)

/-- The message of the first choice. -/
def firstChoice (response : Json) : Option Json :=
  match response.getObjectItem "choices".toList with
  | some (.arr (choice :: _)) => choice.getObjectItem "message".toList
  | _ => none

/-- `fc_deepseek_chat`. -/
def fcDeepseekChat (messages : List Message) : Except Errno Json :=
  match env.key with
  | .error _ | .ok [] => .error .enoent
  | .ok key => do
    let auth := cut 320 ("Bearer ".toList ++ key)
    let (status, resp) ← env.post messages.length auth (cj.print (requestJson cj env messages))
    if status < 200 ∨ 300 ≤ status then throw .eio
    match (cj.parse resp).bind firstChoice with
    | none => throw .einval
    | some reply => return reply

/-! ## Tool calls -/

/-- The calls of a reply. -/
def toolCalls (reply : Json) : List Json :=
  match reply.getObjectItem "tool_calls".toList with
  | some (.arr calls) => calls
  | _ => []

/-- The id that a call is answered with. -/
def callId (call : Json) : CStr := (call.stringMember "id".toList).getD "tool-call".toList

variable (ev : Event)

/-- The capability that a call names, and the text that it answers. -/
def callResult (call : Json) (time : Nat) : CStr × CStr :=
  let fn := call.getObjectItem "function".toList
  let unknown := "\x7b\"ok\":false,\"error\":\"unknown tool\"\x7d".toList
  match fn.bind (·.stringMember "name".toList) with
  | none => ("unknown".toList, unknown)
  | some name =>
    match fcToolNameFromOpenai env.caps name fcToolNameLen with
    | .error _ => (cut fcToolNameLen name, unknown)
    | .ok id =>
      let args := (fn.bind (·.stringMember "arguments".toList)).getD noArgs
      match fcCapExecuteCtx env.caps (env.execute time) (some (fcToolContextFromEvent ev)) id (some args) with
      | (.error _, []) => (id, "\x7b\"ok\":false,\"error\":\"tool failed\"\x7d".toList)
      | (_, result) => (id, result)

/-- `fc_execute_tool_call`. -/
def executeToolCall (t : Turn) (call : Json) : Turn :=
  let (id, result) := callResult env ev call t.messages.length
  { t with
    messages := t.messages ++ [.tool (callId call) result]
    session := t.session ++ [⟨"tool".toList, some id, result⟩] }

/-! ## The loop -/

/-- The loop of `fc_agent_handle_event`, for the iterations that are left. -/
def converse (ev : Event) (replyLen : Nat) : Nat → Turn → Turn
  | 0, t => t
  | iterations + 1, t =>
    let t := { t with passed := t.passed ++ [t.messages] }
    match fcDeepseekChat cj env t.messages with
    | .error e =>
      { t with ret := .error e, reply := cut replyLen ("LLM request failed: ".toList ++ formatInt (-e.number)) }
    | .ok reply =>
      let t := { t with messages := t.messages ++ [.assistant reply] }
      if toolCalls reply = [] then
        let content := (reply.stringMember "content".toList).getD []
        let text := cut replyLen (if content = [] then "(no response)".toList else content)
        { t with reply := text, session := t.session ++ [⟨"assistant".toList, none, text⟩] }
      else converse ev replyLen iterations ((toolCalls reply).foldl (executeToolCall env ev) t)

/-- The end of a turn that the model took part in. -/
def conclude (replyLen : Nat) (t : Turn) : Turn :=
  let t :=
    if t.reply = [] ∧ t.ret = .ok () then
      let text := cut replyLen "Tool iteration limit reached.".toList
      { t with reply := text, session := t.session ++ [⟨"assistant".toList, none, text⟩] }
    else t
  match env.agentGuard, env.agentUnguard, t.ret with
  | some _, .error e, .ok () => { t with ret := .error e }
  | _, _, _ => t

/-- The text that goes to the model. -/
def userText : CStr := if isTimerFire ev then scheduleAgentText ev.text.str else ev.text.str

/-- The turn before the model is asked for the first time. -/
def opening : Turn :=
  ⟨.ok (), [], [.system env.systemContext, .user (userText ev)], [], [⟨"user".toList, none, userText ev⟩]⟩

/-- `fc_agent_handle_event`. -/
def fcAgentHandleEvent (iterations : Nat) (ev : Event) (replyLen : Nat) : Turn :=
  if replyLen = 0 then ⟨.error .einval, [], [], [], []⟩
  else
    match (tryDirectSchedulerTool env ev replyLen).or (tryDirectSchedulerReply ev replyLen) with
    | some t => t
    | none =>
      match env.agentGuard with
      | some (.error e) =>
        ⟨.error e, cut replyLen ("Agent guard unavailable: ".toList ++ formatInt (-e.number)), [], [], []⟩
      | _ => conclude env replyLen (converse cj env ev replyLen iterations (opening env ev))

end

/-- The turn on a scheduled prompt that names a tool runs this tool. -/
theorem handleEvent_runs (cj : CJson) (env : Env) (iterations : Nat) {ev : Event} {tool args : CStr}
    (hfire : isTimerFire ev = true) (htool : directTool ev.text.str = some (tool, args)) (hne : tool ≠ [])
    {replyLen : Nat} (hlen : replyLen ≠ 0) :
    ⟨"tool".toList, some tool,
      (fcCapExecuteCtx env.caps (env.execute 0) (some (scheduledContext ev)) tool (some args)).2⟩ ∈
        (fcAgentHandleEvent cj env iterations ev replyLen).session := by
  simp only [fcAgentHandleEvent, tryDirectSchedulerTool, if_neg hlen, hfire, htool, Bool.not_true,
    Bool.false_eq_true, if_false, if_neg hne, Option.map_some, Option.some_or]
  exact mem_cons_of_mem _ mem_cons_self

/-! ## The shape of a conversation -/

def Message.isTool : Message → Bool
  | .tool .. => true
  | _ => false

/-- The id of the call that a message answers. -/
def Message.answers : Message → Option CStr
  | .tool callId _ => some callId
  | _ => none

/-- Every reply of the model is followed at once by the answers to its calls, one for each
and in their order. The function gives the id of a call. -/
def WellFormed (idOf : Json → Option CStr) : List Message → Prop
  | [] => True
  | .assistant reply :: ms =>
    (ms.takeWhile Message.isTool).map Message.answers = (toolCalls reply).map idOf ∧ WellFormed idOf ms
  | _ :: ms => WellFormed idOf ms

instance (idOf : Json → Option CStr) : (ms : List Message) → Decidable (WellFormed idOf ms)
  | [] => .isTrue trivial
  | .assistant _ :: ms =>
    have := instDecidableWellFormed idOf ms
    inferInstanceAs (Decidable (_ ∧ _))
  | .system _ :: ms => instDecidableWellFormed idOf ms
  | .user _ :: ms => instDecidableWellFormed idOf ms
  | .tool .. :: ms => instDecidableWellFormed idOf ms

section

variable {idOf : Json → Option CStr}

theorem wellFormed_append {m : Message} (hm : m.isTool = false) {ms ms' : List Message}
    (h : WellFormed idOf ms) (h' : WellFormed idOf (m :: ms')) : WellFormed idOf (ms ++ m :: ms') := by
  induction ms with
  | nil => exact h'
  | cons first ms ih =>
    cases first with
    | assistant reply =>
      obtain ⟨hanswers, hrest⟩ := h
      have hstop : (ms ++ m :: ms').takeWhile Message.isTool = ms.takeWhile Message.isTool := by
        rw [takeWhile_append]
        split
        · rename_i hall
          rw [takeWhile_cons_of_neg (by simp [hm]), append_nil]
          exact ((List.takeWhile_prefix _).eq_of_length hall).symm
        · rfl
      exact ⟨hstop ▸ hanswers, ih hrest⟩
    | system | user | tool => exact ih h

theorem wellFormed_tools {ms : List Message} (h : ∀ m ∈ ms, m.isTool = true) : WellFormed idOf ms := by
  induction ms with
  | nil => trivial
  | cons m ms ih =>
    have htool := h m mem_cons_self
    cases m with
    | tool callId content => exact ih fun m hm => h m (mem_cons_of_mem _ hm)
    | assistant | system | user => cases htool

end

section

variable {cj : CJson} {env : Env} {ev : Event} {replyLen : Nat}

/-- The calls of a reply add one answer each to the conversation, and nothing else. -/
theorem foldl_executeToolCall (env : Env) (ev : Event) (calls : List Json) (t : Turn) :
    (calls.foldl (executeToolCall env ev) t).passed = t.passed ∧
      ∃ answers, (calls.foldl (executeToolCall env ev) t).messages = t.messages ++ answers ∧
        (∀ m ∈ answers, m.isTool = true) ∧
        answers.map Message.answers = calls.map fun call => some (callId call) := by
  induction calls generalizing t with
  | nil => exact ⟨rfl, [], (append_nil _).symm, nofun, rfl⟩
  | cons call calls ih =>
    obtain ⟨hpassed, answers, hmessages, htools, hids⟩ := ih (executeToolCall env ev t call)
    refine ⟨hpassed, .tool (callId call) (callResult env ev call t.messages.length).2 :: answers, ?_, ?_, ?_⟩
    · rw [foldl_cons, hmessages, append_cons]
      rfl
    · intro m hm
      rcases mem_cons.mp hm with rfl | hm
      · rfl
      · exact htools m hm
    · rw [map_cons, map_cons, hids]
      rfl

/-- A reply and the answers to its calls continue a well formed conversation. -/
theorem wellFormed_reply {t : Turn} {reply : Json}
    (h : WellFormed (fun call => some (callId call)) t.messages) :
    WellFormed (fun call => some (callId call))
      ((toolCalls reply).foldl (executeToolCall env ev)
        { t with messages := t.messages ++ [.assistant reply] }).messages := by
  obtain ⟨-, answers, hmessages, htools, hids⟩ :=
    foldl_executeToolCall env ev (toolCalls reply) { t with messages := t.messages ++ [.assistant reply] }
  rw [hmessages, append_assoc, singleton_append]
  refine wellFormed_append rfl h ⟨?_, wellFormed_tools htools⟩
  rw [takeWhile_eq_self_iff.mpr htools]
  exact hids

/-- The conversations that were passed to the model are well formed, and they are not more
than the iterations allow. -/
structure Protocol (iterations : Nat) (t : Turn) : Prop where
  passed : ∀ ms ∈ t.passed, WellFormed (fun call => some (callId call)) ms
  atMost : t.passed.length ≤ iterations

theorem converse_protocol (cj : CJson) (env : Env) (ev : Event) (replyLen : Nat) {done : Nat} (iterations : Nat)
    {t : Turn} (h : Protocol done t)
    (hmessages : WellFormed (fun call => some (callId call)) t.messages) :
    Protocol (done + iterations) (converse cj env ev replyLen iterations t) := by
  induction iterations generalizing done t with
  | zero => exact h
  | succ iterations ih =>
    -- The call of this iteration passes on the conversation as it stands.
    have hcall : Protocol (done + 1) { t with passed := t.passed ++ [t.messages] } := by
      refine ⟨fun ms hms => ?_, ?_⟩
      · rcases mem_append.mp hms with hms | hms
        · exact h.passed ms hms
        · rw [mem_singleton.mp hms]
          exact hmessages
      · rw [length_append]
        exact Nat.add_le_add_right h.atMost 1
    have hlast {t' : Turn} (ht' : t'.passed = t.passed ++ [t.messages]) : Protocol (done + (iterations + 1)) t' := by
      refine ⟨fun ms hms => hcall.passed ms (ht' ▸ hms), ?_⟩
      have hatMost := hcall.atMost
      rw [ht']
      dsimp only at hatMost
      omega
    simp only [converse]
    split
    · exact hlast rfl
    split
    · exact hlast rfl
    rw [Nat.add_comm iterations 1, ← Nat.add_assoc]
    refine ih ⟨?_, ?_⟩ (wellFormed_reply (t := { t with passed := t.passed ++ [t.messages] }) hmessages)
    · rw [(foldl_executeToolCall env ev _ _).1]
      exact hcall.passed
    · rw [(foldl_executeToolCall env ev _ _).1]
      exact hcall.atMost

theorem conclude_passed (t : Turn) : (conclude env replyLen t).passed = t.passed := by
  simp only [conclude]
  split <;> split <;> rfl

theorem protocol_of_nil {t : Turn} (h : t.passed = []) (iterations : Nat) : Protocol iterations t :=
  ⟨by simp [h], by simp [h]⟩

theorem direct_passed {t : Turn}
    (h : (tryDirectSchedulerTool env ev replyLen).or (tryDirectSchedulerReply ev replyLen) = some t) :
    t.passed = [] := by
  rcases Option.or_eq_some_iff.mp h with htool | ⟨-, hreply⟩
  · unfold tryDirectSchedulerTool at htool
    split at htool
    · cases htool
    obtain ⟨⟨tool, args⟩, -, rfl⟩ := Option.map_eq_some_iff.mp htool
    dsimp only
    split <;> rfl
  · unfold tryDirectSchedulerReply at hreply
    split at hreply
    · cases hreply
    · obtain ⟨text, -, rfl⟩ := Option.map_eq_some_iff.mp hreply
      rfl

end

/-- In every turn the model gets well formed conversations only, and it is asked at most as
often as configured, whatever it answers and whatever the capabilities do. A call without an
id that is a string is answered with the id `tool-call`. -/
theorem handleEvent_protocol (cj : CJson) (env : Env) (iterations : Nat) (ev : Event) (replyLen : Nat) :
    Protocol iterations (fcAgentHandleEvent cj env iterations ev replyLen) := by
  unfold fcAgentHandleEvent
  split
  · exact protocol_of_nil rfl iterations
  split
  · rename_i t hdirect
    exact protocol_of_nil (direct_passed hdirect) iterations
  split
  · exact protocol_of_nil rfl iterations
  have hopening : Protocol 0 (opening env ev) := protocol_of_nil rfl 0
  obtain ⟨hpassed, hatMost⟩ := converse_protocol cj env ev replyLen iterations hopening trivial
  rw [Nat.zero_add] at hatMost
  exact ⟨by rw [conclude_passed]; exact hpassed, by rw [conclude_passed]; exact hatMost⟩

/-- A model that answers every request with a call that has no id. -/
def anonymousCalls : Env where
  caps := [capTimeNow]
  execute := fun _ _ _ _ => (.ok (), "\x7b\"ok\":true\x7d".toList)
  key := .ok "key".toList
  post := fun _ _ _ => .ok (200, ("\x7b\"choices\":[\x7b\"message\":\x7b\"tool_calls\":" ++
    "[\x7b\"function\":\x7b\"name\":\"time_now\"\x7d\x7d]\x7d\x7d]\x7d").toList)
  systemContext := []
  agentGuard := none
  agentUnguard := .ok ()

/-- The answer to a call without an id has an id that the call does not have. -/
theorem anonymousCalls_answered :
    ¬ ∀ ms ∈ (fcAgentHandleEvent JsonText.reference anonymousCalls 2 .zero 1024).passed,
      WellFormed (·.stringMember "id".toList) ms := by
  decide +kernel

end FruitClaw.Agent
