-- SUMMARY: The JSON-RPC dispatcher, and what every body is answered with.
import FruitClawApps.FruitClaw.Capability
import FruitClawApps.Lib.JsonText

/-!
# The MCP endpoint

`fc_mcp_jsonrpc_dispatch` takes the body of a request and writes one reply. Every body without an id
is a notification for it: it accepts one of them and refuses the others with an error reply. The
capabilities that ran are recorded for specifications. Memory is assumed to be available.
-/

namespace FruitClaw.Mcp

/-! ## Environment and result -/

/-- What a request meets: the registered capabilities and what they answer, the answer of
`fc_guard_arm`, and whether the endpoint runs in owner mode. -/
structure Env where
  caps : List Cap
  execute : CapEnv
  armed : Ret
  yolo : Bool

/-- A capability that ran. -/
structure Execution where
  cap : Cap
  ctx : ToolCallContext
  args : CStr

/-- The `FC_MCP_DISPATCH_` values that are used. -/
inductive DispatchStatus where
  | response | notificationAccepted
deriving DecidableEq

/-- What `fc_mcp_jsonrpc_dispatch` returns and leaves in its arguments. -/
structure Dispatch where
  ret : Ret
  out : CStr
  status : DispatchStatus
  httpStatus : Nat
  executed : List Execution

/-! ## Replies -/

variable (id : Option Json)

/-- A reply: the version, the id of the request or null, and one further member. -/
def reply (key : CStr) (value : Json) : Json :=
  .obj [("jsonrpc".toList, .str "2.0".toList), ("id".toList, id.getD .null), (key, value)]

/-- `fc_mcp_error`. -/
def mcpError (code : Int) (message : CStr) : Json :=
  reply id "error".toList (.obj [("code".toList, .num code), ("message".toList, .str message)])

/-- `fc_mcp_response`. -/
def mcpResponse (result : Json) : Json := reply id "result".toList result

/-- `fc_mcp_copy_json`. A text that does not fit is cut. -/
def mcpCopyJson (cj : CJson) (root : Json) (outLen : Nat) : Ret × CStr :=
  let printed := cj.print root
  if printed.length < outLen then (.ok (), printed) else (.error .enospc, printed.take (outLen - 1))

/-- `fc_mcp_initialize_result`. -/
def initializeResult : Json :=
  .obj
    [("protocolVersion".toList, .str "2025-11-25".toList),
      ("capabilities".toList, .obj [("tools".toList, .obj [("listChanged".toList, .bool false)])]),
      ("serverInfo".toList,
        .obj [("name".toList, .str "fruitclaw".toList), ("version".toList, .str "0.1.0".toList)])]

section

variable (cj : CJson) (env : Env)

/-- `fc_mcp_tools_list`. -/
def toolsList (id : Json) : Json :=
  match fcCapBuildMcpToolsJson cj env.caps fcMcpMaxResponse true with
  | .error _ => mcpError id (-32603) "tools/list failed".toList
  | .ok text =>
    match cj.parse text with
    | none => mcpError id (-32603) "tools/list invalid".toList
    | some result => mcpResponse id result

/-! ## Calls -/

/-- `fc_mcp_tool_has_own_guard`. -/
def toolHasOwnGuard (name : CStr) : Bool :=
  ["terminal.run", "berry.run_script", "neopixels.set", "neopixels.off", "neopixels.effect",
    "file.write_limited", "script.remove", "device.write", "scheduler.add", "scheduler.remove",
    "http.request"].any (·.toList == name)

/-- `fc_mcp_tool_needs_outer_guard`. -/
def toolNeedsOuterGuard (name : CStr) : Bool :=
  ["device.read", "device.write", "file.write_limited", "script.remove", "scheduler.add", "scheduler.remove",
    "terminal.run", "berry.run_script", "neopixels.set", "neopixels.off", "neopixels.effect",
    "http.request"].any (·.toList == name)

/-- The call is made under a guard of its own. -/
def outerGuard (caps : List Cap) (name : CStr) : Bool :=
  (fcCapFind caps name).any fun cap =>
    (cap.requiresConfirmation || toolNeedsOuterGuard name) && !toolHasOwnGuard name

/-- `memset(&call_ctx, 0, ...)`. -/
def zeroContext : ToolCallContext where
  source := .empty _
  channel := .empty _
  chatId := .empty _
  sessionId := .empty _
  ownerMode := false
  guarded := false

/-- The context that `fc_mcp_http_handler` makes for a request of a session. -/
def httpContext (yolo : Bool) (session : CStr) : ToolCallContext :=
  { zeroContext with
    source := .copy 24 "mcp".toList
    channel := .copy 24 "mcp".toList
    sessionId := .copy 64 (if session = [] then "mcp".toList else session)
    ownerMode := yolo }

/-- The context that a call runs in. -/
def callContext (yolo : Bool) (ctx : Option ToolCallContext) : ToolCallContext :=
  let base := ctx.getD zeroContext
  { base with
    source := .copy 24 "mcp".toList
    channel := .copy 24 "mcp".toList
    sessionId := if base.sessionId.str = [] then .copy 64 "mcp".toList else base.sessionId
    ownerMode := yolo || base.ownerMode }

/-- The result that describes how a call went. -/
def callResult (ret : Ret) (toolOut : CStr) : Json :=
  let text := Json.obj [("type".toList, .str "text".toList), ("text".toList, .str toolOut)]
  let described :=
    [("content".toList, .arr [text]), ("isError".toList, .bool (match ret with | .ok () => false | .error _ => true))]
  match cj.parse toolOut with
  | none => .obj described
  | some structured => .obj (described ++ [("structuredContent".toList, structured)])

/-- `fc_mcp_execute_tool_on_worker` and the reply to it. -/
def runTool (id : Json) (name args : CStr) (ctx : ToolCallContext) : Json × List Execution :=
  let (ret, toolOut) := fcCapExecuteCtx env.caps env.execute (some ctx) name (some args)
  (mcpResponse id (callResult cj ret toolOut),
    match fcCapAccess env.caps (some ctx) name (some args) with
    | .ok (cap, args) => [⟨cap, ctx, args⟩]
    | .error _ => [])

/-- The text of a call whose guard cannot be armed. -/
def guardUnavailable (e : Errno) : CStr :=
  "\x7b\"ok\":false,\"error\":\"mcp guard unavailable\",\"code\":".toList ++ formatInt (-e.number) ++ "\x7d".toList

/-- `fc_mcp_tools_call`. -/
def toolsCall (id : Json) (params : Option Json) (ctx : Option ToolCallContext) : Json × List Execution :=
  match params.filter Json.isObject with
  | none => (mcpError id (-32602) "invalid params".toList, [])
  | some params =>
    let arguments := params.getObjectItem "arguments".toList
    match params.stringMember "name".toList with
    | none => (mcpError id (-32602) "invalid tool call".toList, [])
    | some name =>
      if arguments.any (!·.isObject) then (mcpError id (-32602) "invalid tool call".toList, [])
      else
        let args := (arguments.map cj.print).getD noArgs
        let callCtx := callContext env.yolo ctx
        if outerGuard env.caps name then
          match env.armed with
          | .error e => (mcpResponse id (callResult cj (.error e) (guardUnavailable e)), [])
          | .ok () => runTool cj env id name args { callCtx with guarded := true }
        else runTool cj env id name args callCtx

/-! ## The dispatcher -/

/-- A method that is called with an id. -/
def callMethod (id : Json) (method : CStr) (params : Option Json) (ctx : Option ToolCallContext) :
    Json × List Execution :=
  if method = "initialize".toList then (mcpResponse id initializeResult, [])
  else if method = "notifications/initialized".toList then (mcpResponse id (.obj []), [])
  else if method = "ping".toList then (mcpResponse id (.obj []), [])
  else if method = "tools/list".toList then (toolsList cj env id, [])
  else if method = "tools/call".toList then toolsCall cj env id params ctx
  else (mcpError id (-32601) "method not found".toList, [])

/-- The document is an object with the version of the protocol. -/
def isRequest (root : Json) : Bool := root.isObject && root.stringMember "jsonrpc".toList == some "2.0".toList

/-- The work on a body that is JSON: the reply, which an accepted notification does not
have, and the capabilities that ran. -/
def handle (root : Json) (ctx : Option ToolCallContext) : Option Json × List Execution :=
  match root with
  | .arr _ => (some (mcpError none (-32600) "batch unsupported".toList), [])
  | _ =>
    if !isRequest root then
      (some (mcpError none (-32600) "invalid request".toList), [])
    else
      let id := root.getObjectItem "id".toList
      match root.stringMember "method".toList, id with
      | none, _ => (some (mcpError id (-32600) "missing method".toList), [])
      | some method, none =>
        if method = "notifications/initialized".toList then (none, [])
        else (some (mcpError none (-32600) "notifications unsupported".toList), [])
      | some method, some id =>
        let (doc, executed) := callMethod cj env id method (root.getObjectItem "params".toList) ctx
        (some doc, executed)

/-- The work on a body. -/
def answerBody (body : List Char) (ctx : Option ToolCallContext) : Option Json × List Execution :=
  match cj.parse (CStr.ofMem body) with
  | none => (some (mcpError none (-32700) "parse error".toList), [])
  | some root => handle cj env root ctx

/-- The end of `fc_mcp_jsonrpc_dispatch`: the reply is copied out. -/
def finish (outLen : Nat) : Option Json × List Execution → Dispatch
  | (none, executed) => ⟨.ok (), [], .notificationAccepted, 202, executed⟩
  | (some doc, executed) =>
    let (ret, out) := mcpCopyJson cj doc outLen
    ⟨ret, out, .response, 200, executed⟩

/-- `fc_mcp_jsonrpc_dispatch`. -/
def fcMcpJsonrpcDispatch (ctx : Option ToolCallContext) (body : List Char) (outLen : Nat) : Dispatch :=
  if outLen = 0 then ⟨.error .einval, [], .response, 200, []⟩ else finish cj outLen (answerBody cj env body ctx)

end

/-! ## What a body is answered with -/

/-- The id of a JSON-RPC 2.0 request, and null for a document that has none or is no such
request. -/
def documentId (root : Json) : Json :=
  if isRequest root then (root.getObjectItem "id".toList).getD .null else .null

/-- The id that a reply to the body repeats. -/
def requestId (cj : CJson) (body : List Char) : Json :=
  ((cj.parse (CStr.ofMem body)).map documentId).getD .null

/-- The body is a JSON object with an id. -/
def hasId (cj : CJson) (body : List Char) : Bool :=
  ((cj.parse (CStr.ofMem body)).bind (·.getObjectItem "id".toList)).isSome

/-- The document is the one notification that is accepted. -/
structure Initialized (root : Json) : Prop where
  request : isRequest root = true
  method : root.stringMember "method".toList = some "notifications/initialized".toList
  id : root.getObjectItem "id".toList = none

/-- A JSON-RPC 2.0 reply to the request with the id. -/
structure RpcReply (id : Json) (doc : Json) : Prop where
  isObject : doc.isObject = true
  version : doc.stringMember "jsonrpc".toList = some "2.0".toList
  id : doc.getObjectItem "id".toList = some id
  one : (doc.getObjectItem "result".toList).isSome = !(doc.getObjectItem "error".toList).isSome

/-- The parameters name the capability that ran and hold its arguments. -/
def Names (cj : CJson) (params : Json) (e : Execution) : Prop :=
  params.isObject = true ∧ params.stringMember "name".toList = some e.cap.id ∧
    ((params.getObjectItem "arguments".toList = none ∧ e.args = noArgs) ∨
      ∃ arguments, params.getObjectItem "arguments".toList = some arguments ∧
        arguments.isObject = true ∧ e.args = cj.print arguments)

/-- The body asks for the execution: it calls a tool by the name of a registered
capability. -/
structure Asked (cj : CJson) (caps : List Cap) (root : Json) (e : Execution) : Prop where
  method : root.stringMember "method".toList = some "tools/call".toList
  call : ∃ params, root.getObjectItem "params".toList = some params ∧ Names cj params e
  registered : e.cap ∈ caps

/-- The contract of the dispatcher for a body and an output buffer. -/
structure Contract (cj : CJson) (caps : List Cap) (body : List Char) (outLen : Nat) (d : Dispatch) : Prop where
  /-- A response is one reply with the id of the request. -/
  responds : d.status = .response → d.ret = .ok () →
    ∃ doc, d.out = cj.print doc ∧ RpcReply (requestId cj body) doc
  /-- A body without an id runs nothing, and a reply to it is an error that has no id. -/
  notification : hasId cj body = false → d.executed = [] ∧
    (d.status = .response → d.ret = .ok () →
      ∃ doc, d.out = cj.print doc ∧ RpcReply .null doc ∧ (doc.getObjectItem "error".toList).isSome = true)
  /-- One notification has no reply. -/
  accepted : 0 < outLen →
    (d.status = .notificationAccepted ↔ ∃ root, cj.parse (CStr.ofMem body) = some root ∧ Initialized root)
  silent : d.status = .notificationAccepted → d.ret = .ok () ∧ d.out = []
  once : d.executed.length ≤ 1
  asked : ∀ e ∈ d.executed, ∃ root, cj.parse (CStr.ofMem body) = some root ∧ Asked cj caps root e

/-- A reply to the request with the id, behind at most one execution, which is one that was asked
for. -/
structure Answers (id : Json) (P : Execution → Prop) (answer : Json × List Execution) : Prop where
  rpc : RpcReply id answer.1
  once : answer.2.length ≤ 1
  asked : ∀ e ∈ answer.2, P e

/-- What is done for a body, which may be a notification without a reply. -/
structure Handles (id : Json) (notification accepted : Prop) (P : Execution → Prop)
    (answer : Option Json × List Execution) : Prop where
  rpc : ∀ doc, answer.1 = some doc → RpcReply id doc
  refused : notification → answer.2 = [] ∧ ∀ doc, answer.1 = some doc →
    RpcReply .null doc ∧ (doc.getObjectItem "error".toList).isSome = true
  silent : answer.1 = none ↔ accepted
  once : answer.2.length ≤ 1
  asked : ∀ e ∈ answer.2, P e

section

variable {cj : CJson} {env : Env} {P : Execution → Prop}

theorem answers_response (id : Option Json) (result : Json) :
    Answers (id.getD .null) P (mcpResponse id result, []) := ⟨⟨rfl, rfl, rfl, rfl⟩, Nat.zero_le 1, nofun⟩

theorem answers_error (id : Option Json) (code : Int) (message : CStr) :
    Answers (id.getD .null) P (mcpError id code message, []) := ⟨⟨rfl, rfl, rfl, rfl⟩, Nat.zero_le 1, nofun⟩

theorem Answers.handles {id : Json} {notification accepted : Prop} {answer : Json × List Execution}
    (h : Answers id P answer) (hid : ¬ notification) (haccepted : ¬ accepted) :
    Handles id notification accepted P (some answer.1, answer.2) where
  rpc _ hdoc := Option.some.inj hdoc ▸ h.rpc
  refused := hid.elim
  silent := iff_of_false nofun haccepted
  once := h.once
  asked := h.asked

theorem handles_error {id : Option Json} {notification accepted : Prop} (hid : notification → id = none)
    (haccepted : ¬ accepted) (code : Int) (message : CStr) :
    Handles (id.getD .null) notification accepted P (some (mcpError id code message), []) where
  rpc _ hdoc := Option.some.inj hdoc ▸ ⟨rfl, rfl, rfl, rfl⟩
  refused hno := ⟨rfl, fun _ hdoc => Option.some.inj hdoc ▸ hid hno ▸ ⟨⟨rfl, rfl, rfl, rfl⟩, rfl⟩⟩
  silent := iff_of_false nofun haccepted
  once := Nat.zero_le 1
  asked := nofun

/-! ## The calls of a request -/

theorem answers_toolsList (id : Json) : Answers id P (toolsList cj env id, []) := by
  unfold toolsList
  split
  · exact answers_error (some id) _ _
  split
  · exact answers_error (some id) _ _
  · exact answers_response (some id) _

/-- A call runs the capability of its name, or none. -/
theorem answers_runTool {id : Json} {name args : CStr} {ctx : ToolCallContext} :
    Answers id (fun e => e.cap ∈ env.caps ∧ e.cap.id = name ∧ e.args = args) (runTool cj env id name args ctx) := by
  simp only [runTool]
  split
  · rename_i cap args' haccess
    refine ⟨⟨rfl, rfl, rfl, rfl⟩, le_rfl, fun e he => ?_⟩
    rw [List.mem_singleton] at he
    subst he
    unfold fcCapAccess at haccess
    split at haccess
    · cases haccess
    rename_i found hfind
    split at haccess
    · cases haccess
    cases haccess
    obtain ⟨hmem, hid⟩ := fcCapFind_some hfind
    exact ⟨hmem, hid, rfl⟩
  · exact answers_response (some id) _

theorem answers_toolsCall (cj : CJson) (env : Env) (id : Json) (params : Option Json) (ctx : Option ToolCallContext) :
    Answers id (fun e => e.cap ∈ env.caps ∧ ∃ p, params = some p ∧ Names cj p e)
      (toolsCall cj env id params ctx) := by
  simp only [toolsCall]
  split
  · exact answers_error (some id) _ _
  rename_i p hparams
  obtain ⟨rfl, hobject⟩ := Option.filter_eq_some_iff.mp hparams
  split
  · exact answers_error (some id) _ _
  rename_i name hname
  split
  · exact answers_error (some id) _ _
  rename_i harguments
  -- Whether the call is guarded or not, the same capability gets the same arguments.
  have hrun (ctx' : ToolCallContext) :
      Answers id (fun e => e.cap ∈ env.caps ∧ ∃ p', some p = some p' ∧ Names cj p' e)
        (runTool cj env id name (((p.getObjectItem "arguments".toList).map cj.print).getD noArgs) ctx') := by
    refine ⟨answers_runTool.rpc, answers_runTool.once, fun e he => ?_⟩
    obtain ⟨hmem, hid, hargs⟩ := answers_runTool.asked e he
    refine ⟨hmem, p, rfl, hobject, by rw [hname, hid], ?_⟩
    cases hitem : p.getObjectItem "arguments".toList with
    | none => exact Or.inl ⟨rfl, by rw [hargs, hitem]; rfl⟩
    | some arguments =>
      rw [hitem, Option.any_some, Bool.not_eq_true, Bool.not_eq_false'] at harguments
      exact Or.inr ⟨arguments, rfl, harguments, by rw [hargs, hitem]; rfl⟩
  split
  · split
    · exact answers_response (some id) _
    · exact hrun _
  · exact hrun _

theorem answers_callMethod (cj : CJson) (env : Env) (id : Json) (method : CStr) (params : Option Json)
    (ctx : Option ToolCallContext) :
    Answers id (fun e => method = "tools/call".toList ∧ e.cap ∈ env.caps ∧ ∃ p, params = some p ∧ Names cj p e)
      (callMethod cj env id method params ctx) := by
  unfold callMethod
  split
  · exact answers_response (some id) _
  split
  · exact answers_response (some id) _
  split
  · exact answers_response (some id) _
  split
  · exact answers_toolsList id
  split
  · rename_i hcall
    obtain ⟨hrpc, honce, hnames⟩ := answers_toolsCall cj env id params ctx
    exact ⟨hrpc, honce, fun e he => ⟨hcall, hnames e he⟩⟩
  · exact answers_error (some id) _ _

/-! ## Documents and bodies -/

theorem handles_handle (cj : CJson) (env : Env) (root : Json) (ctx : Option ToolCallContext) :
    Handles (documentId root) (root.getObjectItem "id".toList = none) (Initialized root) (Asked cj env.caps root)
      (handle cj env root ctx) := by
  unfold handle
  split
  · exact handles_error (fun _ => rfl) (fun h => nomatch h.request) _ _
  split
  · rename_i hinvalid
    rw [Bool.not_eq_true'] at hinvalid
    have hid : documentId root = .null := if_neg (by simp [hinvalid])
    rw [hid]
    exact handles_error (fun _ => rfl) (fun h => by cases hinvalid ▸ h.request) _ _
  rename_i hvalid
  have hid : documentId root = (root.getObjectItem "id".toList).getD .null :=
    if_pos (by simpa using hvalid)
  rw [hid]
  dsimp only
  split
  · rename_i hmethod
    exact handles_error id (fun h => by cases hmethod ▸ h.method) _ _
  · rename_i method hmethod hnone
    rw [hnone]
    split
    · rename_i hname
      exact ⟨nofun, fun _ => ⟨rfl, nofun⟩, iff_of_true rfl ⟨by simpa using hvalid, by rw [hmethod, hname], hnone⟩,
        Nat.zero_le 1, nofun⟩
    · rename_i hname
      exact handles_error (fun _ => rfl) (fun h => hname (Option.some.inj (hmethod ▸ h.method))) _ _
  rename_i method id hmethod hsome
  obtain ⟨hrpc, honce, hnames⟩ := answers_callMethod cj env id method (root.getObjectItem "params".toList) ctx
  rw [hsome]
  refine Answers.handles ⟨hrpc, honce, fun e he => ?_⟩ (Option.some_ne_none id) fun h => by cases hsome ▸ h.id
  obtain ⟨hcall, hcap, p, hparams, hnamed⟩ := hnames e he
  exact ⟨by rw [hmethod, hcall], ⟨p, hparams, hnamed⟩, hcap⟩

theorem mcpCopyJson_ok {doc : Json} {outLen : Nat} (h : (mcpCopyJson cj doc outLen).1 = .ok ()) :
    (mcpCopyJson cj doc outLen).2 = cj.print doc := by
  simp only [mcpCopyJson] at h ⊢
  split
  · rfl
  rename_i hcut
  rw [if_neg hcut] at h
  cases h

theorem handles_answerBody (cj : CJson) (env : Env) (body : List Char) (ctx : Option ToolCallContext) :
    Handles (requestId cj body) (hasId cj body = false)
      (∃ root, cj.parse (CStr.ofMem body) = some root ∧ Initialized root)
      (fun e => ∃ root, cj.parse (CStr.ofMem body) = some root ∧ Asked cj env.caps root e)
      (answerBody cj env body ctx) := by
  unfold answerBody
  rw [requestId, hasId]
  cases cj.parse (CStr.ofMem body) with
  | none => exact handles_error (fun _ => rfl) (fun ⟨_, h, _⟩ => nomatch h) _ _
  | some root =>
    obtain ⟨hrpc, hrefused, hsilent, honce, hasked⟩ := handles_handle cj env root ctx
    rw [Option.bind_some, Option.isSome_eq_false_iff, Option.isNone_iff_eq_none]
    exact ⟨hrpc, hrefused, by simpa using hsilent, honce, fun e he => ⟨root, rfl, hasked e he⟩⟩

end

/-- An endpoint with one capability. -/
def sampleEnv : Env := ⟨[capTimeNow], fun _ _ _ => (.ok (), "\x7b\"ok\":true\x7d".toList), .ok (), true⟩

end FruitClaw.Mcp
