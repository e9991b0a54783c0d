-- SUMMARY: The capability registry: lookup, access decisions, and the lists that clients see.
import FruitClawApps.FruitClaw.Queue
import FruitClawApps.FruitClaw.Scheduler.Table
import FruitClawApps.Lib.Json

/-!
# Capabilities

A capability is a function that a model, a client, a script or a schedule calls by name.
`core/fc_cap.c` decides whether a call may run. What it does is a function of the context and the
arguments.
-/

namespace FruitClaw

/-- `fc_cap_t` without the function. -/
structure Cap where
  id : CStr
  name : Option CStr
  description : Option CStr
  inputSchemaJson : Option CStr
  visibleToLlm : Bool
  requiresConfirmation : Bool
deriving DecidableEq

/-- `FC_TOOL_NAME_LEN`. -/
def fcToolNameLen : Nat := 64

/-- `CONFIG_FRUITCLAW_MCP_MAX_RESPONSE`. -/
def fcMcpMaxResponse : Nat := 32768

/-- `"{}"`, the arguments of a call that has none. -/
def noArgs : CStr := "\x7b\x7d".toList

/-! ## Tool contexts -/

/-- `fc_tool_context_t`. -/
structure ToolCallContext extends ToolContext where
  source : CBuf 24
  guarded : Bool

/-- `fc_tool_context_from_event`. -/
def fcToolContextFromEvent (ev : Event) : ToolCallContext where
  source := ev.source
  channel := ev.channel
  chatId := ev.chatId
  sessionId := ev.sessionId
  ownerMode := ev.ownerMode
  guarded := false

/-- `fc_tool_context_local`. The argument is `CONFIG_FRUITCLAW_OWNER_MODE`. -/
def fcToolContextLocal (ownerMode : Bool) : ToolCallContext where
  source := .copy 24 "cli".toList
  channel := .copy 24 "cli".toList
  chatId := .empty _
  sessionId := .copy 64 "cli".toList
  ownerMode := ownerMode
  guarded := false

/-! ## Calls -/

variable (caps : List Cap)

def fcCapFind (id : CStr) : Option Cap := caps.find? (·.id == id)

theorem fcCapFind_some {caps : List Cap} {id : CStr} {cap : Cap} (h : fcCapFind caps id = some cap) :
    cap ∈ caps ∧ cap.id = id := by
  refine ⟨List.mem_of_find?_eq_some h, ?_⟩
  have hid := List.find?_some h
  exact beq_iff_eq.mp hid

/-- The decision of `fc_cap_execute_ctx`: the capability that runs and its arguments, or
the error that is returned in its place. -/
def fcCapAccess (ctx : Option ToolCallContext) (id : CStr) (argsJson : Option CStr) :
    Except Errno (Cap × CStr) :=
  match fcCapFind caps id with
  | none => .error .enoent
  | some cap =>
    if cap.requiresConfirmation && !ctx.any (·.ownerMode) then .error .eacces
    else .ok (cap, argsJson.getD noArgs)

/-- What the capabilities answer: the return value and the text in the output buffer. -/
abbrev CapEnv := Cap → Option ToolCallContext → CStr → Ret × CStr

/-- `fc_cap_execute_ctx` with an output buffer. -/
def fcCapExecuteCtx (env : CapEnv) (ctx : Option ToolCallContext) (id : CStr) (argsJson : Option CStr) : Ret × CStr :=
  match fcCapAccess caps ctx id argsJson with
  | .ok (cap, args) => env cap ctx args
  | .error .enoent => (.error .enoent, "\x7b\"ok\":false,\"error\":\"unknown tool\"\x7d".toList)
  | .error e => (.error e, "\x7b\"ok\":false,\"error\":\"owner mode required\"\x7d".toList)

/-! ## Names and lists -/

/-- `fc_tool_name_to_openai`. -/
def fcToolNameToOpenai (id : CStr) (outLen : Nat) : Except Errno CStr :=
  if outLen = 0 then .error .einval
  else if id.length < outLen then .ok (id.map fun c => if isalnum c || c == '_' then c else '_')
  else .error .enospc

/-- `fc_tool_name_from_openai`: the first capability whose mapped name is the given one. -/
def fcToolNameFromOpenai (name : CStr) (outLen : Nat) : Except Errno CStr :=
  if outLen = 0 then .error .einval
  else
    match caps.find? (fun cap => decide (fcToolNameToOpenai cap.id fcToolNameLen = .ok name)) with
    | none => .error .enoent
    | some cap => fcStrlcpy cap.id outLen

/-- The entry of a capability in the list of tools. A schema that is not JSON becomes an
empty object. -/
def mcpToolJson (cj : CJson) (cap : Cap) : Json :=
  .obj
    [("name".toList, .str cap.id),
      ("title".toList, .str (cap.name.getD cap.id)),
      ("description".toList, .str (cap.description.getD cap.id)),
      ("inputSchema".toList, (cj.parse (cap.inputSchemaJson.getD noArgs)).getD (.obj []))]

/-- `fc_cap_build_mcp_tools_json`. -/
def fcCapBuildMcpToolsJson (cj : CJson) (caps : List Cap) (outLen : Nat) (visibleOnly : Bool) :
    Except Errno CStr :=
  let listed := caps.filter fun cap => !visibleOnly || cap.visibleToLlm
  fcStrlcpy (cj.print (.obj [("tools".toList, .arr (listed.map (mcpToolJson cj)))])) outLen

/-- The entry of a capability in the list that goes to the model. -/
def openaiToolJson (cap : Cap) (mapped : CStr) (schema : Json) : Json :=
  .obj
    [("type".toList, .str "function".toList),
      ("function".toList,
        .obj
          [("name".toList, .str mapped),
            ("description".toList, .str (cap.description.getD cap.id)),
            ("parameters".toList, schema)])]

/-- `fc_cap_build_openai_tools_json`. A capability whose name does not fit is left out, and
a schema that is not JSON fails the whole list. -/
def fcCapBuildOpenaiToolsJson (cj : CJson) (caps : List Cap) (outLen : Nat) (visibleOnly : Bool) :
    Except Errno CStr := do
  if outLen = 0 then throw .einval
  let tools ← (caps.filter fun cap => !visibleOnly || cap.visibleToLlm).filterMapM fun cap =>
    match fcToolNameToOpenai cap.id fcToolNameLen, cj.parse (cap.inputSchemaJson.getD noArgs) with
    | .error _, _ => .ok none
    | .ok _, none => .error .enomem
    | .ok mapped, some schema => .ok (some (openaiToolJson cap mapped schema))
  fcStrlcpy (cj.print (.arr tools)) outLen

/-! ## Some of the built-in capabilities -/

/-- An entry of `g_caps` in `caps/fc_caps_builtin.c` that takes no arguments. -/
def Cap.builtin (id name description : String) (requiresConfirmation : Bool) : Cap where
  id := id.toList
  name := some name.toList
  description := some description.toList
  inputSchemaJson := some "\x7b\"type\":\"object\",\"properties\":\x7b\x7d,\"additionalProperties\":false\x7d".toList
  visibleToLlm := true
  requiresConfirmation := requiresConfirmation

def capTimeNow : Cap := .builtin "time.now" "Current time" "Return current device time." false

def capNeopixelsOff : Cap := .builtin "neopixels.off" "NeoPixels off" "Turn all /dev/leds0 NeoPixels off." true

end FruitClaw
