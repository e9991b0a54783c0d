-- SUMMARY: webclient_perform: connecting, sending, receiving and redirects.
import FruitClawApps.Lib.Transition
import FruitClawApps.Netutils.Webclient.Parsers

/-!
# The HTTP client as a state machine

A step is one block of the loop in `webclient_perform`, or one turn of the inner loop. What the
system calls answer is its label. The record of connections and of bytes sent is there for
specifications only.
-/

namespace Netutils.Webclient

/-- `CONFIG_WEBCLIENT_MAX_REDIRECT`. -/
def maxRedirect : Nat := 50

/-! ## Context, environment and state -/

/-- `struct webclient_context` for a blocking request without a proxy. -/
structure Ctx where
  method : CStr
  url : CStr
  headers : List CStr
  /-- The static body, which is absent if it is empty. -/
  body : List Char
  /-- The protocol version is 1.1. -/
  http11 : Bool
  /-- `tls_ops` is set. -/
  tls : Bool
  buflen : Nat
  /-- `CONFIG_NSH_WGET_USERAGENT`. -/
  userAgent : CStr
  /-- What the sink answers to new data, given the data it has taken before. -/
  sink : List Char → List Char → Ret

/-- What the system calls of a step answer. -/
structure Answers where
  socket : Ret
  /-- The resolution of the name and the connection, or the TLS handshake. -/
  connect : Ret
  sent : Except Errno Nat
  received : Except Errno (List Char)

/-- The other end of a connection, and the number of redirects that led to it. -/
structure Peer where
  hop : Nat
  host : CStr
deriving DecidableEq

inductive NetEvent where
  | connected (peer : Peer) (port : Nat)
  | sent (peer : Peer) (bytes : List Char)
deriving DecidableEq

def NetEvent.peer : NetEvent → Peer
  | .connected peer _ => peer
  | .sent peer _ => peer

/-- A running request. `inLoop` says that the inner loop is being executed, and
`result` is set when the function has returned. -/
structure Client where
  ws : Ws
  inLoop : Bool
  conn : Peer
  sunk : List Char
  log : List NetEvent
  result : Option Ret
deriving DecidableEq

namespace Client

def fail (c : Client) (e : Errno) : Client := { c with result := some (.error e) }

end Client

/-! ## Sending -/

/-- The request that `webclient_perform` puts into its buffer. -/
def requestText (ctx : Ctx) (target : Target) : CStr :=
  let crnl := "\r\n".toList
  ctx.method ++ " ".toList ++ target.filename ++ " ".toList ++
    (if ctx.http11 then "HTTP/1.1".toList else "HTTP/1.0".toList) ++ crnl ++
    "host: ".toList ++ target.hostname ++ crnl ++
    ctx.headers.flatMap (· ++ crnl) ++
    (if ctx.body = [] then [] else "Content-Length: ".toList ++ Nat.toDigits 10 ctx.body.length ++ crnl) ++
    (if ctx.http11 then "Connection: close".toList ++ crnl else []) ++
    "User-Agent: ".toList ++ ctx.userAgent ++ crnl ++ crnl

section

variable (ctx : Ctx) (l : Answers) (c : Client)

/-- `WEBCLIENT_STATE_SOCKET`. -/
def socketBlock : Client :=
  let overTls := decide (c.ws.target.scheme = "https".toList) && ctx.tls
  if !overTls ∧ c.ws.target.scheme ≠ "http".toList then c.fail .enotsup
  else
    -- what the connection before a redirect may have left is reset
    let ws := { c.ws with httpstatus := .none, unread := [], ndx := 0, redirected := false }
    match (if overTls then .ok () else l.socket) with
    | .error e => { c with ws := ws }.fail e
    | .ok () => { c with ws := { ws with state := .connect } }

/-- `WEBCLIENT_STATE_CONNECT`. -/
def connectBlock : Client :=
  match l.connect with
  | .error e => c.fail e
  | .ok () =>
    let peer := ⟨c.ws.nredirect, c.ws.target.hostname⟩
    { c with
      ws := { c.ws with state := .prepareRequest }
      conn := peer
      log := c.log ++ [.connected peer c.ws.target.port] }

/-- `WEBCLIENT_STATE_PREPARE_REQUEST`. -/
def prepareBlock : Client :=
  let text := requestText ctx c.ws.target
  if text.length ≥ ctx.buflen then c.fail .e2big
  else { c with ws := { c.ws with state := .sendRequest, request := text } }

/-- `WEBCLIENT_STATE_SEND_REQUEST`. -/
def sendBlock : Client :=
  match l.sent with
  | .error e => c.fail e
  | .ok n =>
    let left := c.ws.request.drop n
    let c : Client := { c with log := c.log ++ [.sent c.conn (c.ws.request.take n)] }
    if left = [] then
      { c with
        ws := { c.ws with state := .sendRequestBody, request := [], stateLen := ctx.body.length, dataBuffer := none } }
    else { c with ws := { c.ws with request := left } }

/-- `WEBCLIENT_STATE_SEND_REQUEST_BODY`. -/
def sendBodyBlock : Client :=
  if c.ws.stateLen = 0 then { c with ws := { c.ws with state := .statusline } }
  else
    match c.ws.dataBuffer with
    | none => { c with ws := { c.ws with dataBuffer := some (ctx.body.take c.ws.stateLen) } }
    | some buffer =>
      match l.sent with
      | .error e => c.fail e
      | .ok n =>
        let sent := buffer.take n
        let left := buffer.drop n
        { c with
          ws :=
            { c.ws with
              stateLen := c.ws.stateLen - sent.length
              dataBuffer := if left = [] then none else some left }
          log := c.log ++ [.sent c.conn sent] }

/-! ## Receiving -/

/-- A parser that runs in one state only. -/
def inState (state : WsState) (parse : List Char → Ws → Except Errno Ws) (ws : Ws) : Except Errno Ws :=
  if ws.state = state then parse ws.unread ws else .ok ws

variable (ws : Ws)

/-- The parsers, in the order in which a turn of the inner loop tries them. -/
def parsePass : Except Errno Ws := do
  let ws ← inState .statusline wgetParsestatus ws
  let ws ← inState .headers wgetParseheaders ws
  let ws ← inState .chunkedHeader wgetParsechunkheader ws
  let ws ← inState .chunkedEnddata wgetParsechunkenddata ws
  let ws ← inState .chunkedTrailer wgetParsechunktrailer ws
  if ws.state = .waitClose ∧ ws.unread ≠ [] then .error .eproto else .ok ws

/-- How much of the received data belongs to the body, or to the current chunk. -/
def bodyCount : Nat :=
  if ws.state = .chunkedData then min ws.unread.length (ws.chunkLen - ws.chunkReceived) else ws.unread.length

/-- The counters behind `received` bytes of body data, and the end of a chunk. -/
def consume (received : Nat) : Ws :=
  let ws := { ws with receivedBodyLen := ws.receivedBodyLen + received, unread := ws.unread.drop received }
  if ws.state = .chunkedData then
    let ws := { ws with chunkReceived := ws.chunkReceived + received }
    if ws.chunkLen = ws.chunkReceived then { ws with state := .chunkedEnddata, ndx := 0 } else ws
  else ws

/-- Body data goes to the sink. -/
def deliver (sunk : List Char) : Except Errno (Ws × List Char) :=
  let data := ws.unread.take (bodyCount ws)
  -- the sink is not called without data
  match (if data = [] then .ok () else ctx.sink sunk data) with
  | .error e => .error e
  | .ok () => .ok (consume ws (bodyCount ws), sunk ++ data)

/-- A redirect that was announced is followed without looking at the body. -/
def followRedirect : Except Errno Ws :=
  if !ws.gotLocation then .error .eproto
  else if ws.nredirect + 1 > maxRedirect then .error .eloop
  else .ok { ws with nredirect := ws.nredirect + 1, state := .close, redirected := true }

def disposePass (sunk : List Char) : Except Errno (Ws × List Char) :=
  if ws.state = .data ∨ ws.state = .chunkedData then
    if ws.httpstatus ≠ .moved then deliver ctx ws sunk
    else
      match followRedirect ws with
      | .error e => .error e
      | .ok ws => .ok (ws, sunk)
  else .ok (ws, sunk)

/-- A turn of the inner loop over bytes that are there. -/
def parseTurn : Client :=
  match parsePass c.ws with
  | .error e => c.fail e
  | .ok ws =>
    match disposePass ctx ws c.sunk with
    | .error e => { c with ws := ws }.fail e
    | .ok (ws, sunk) => { c with ws := ws, sunk := sunk, inLoop := ws.state ≠ .close }

/-- The connection was closed by the server. -/
def eofTurn : Client :=
  if c.ws.state ≠ .data ∧ c.ws.state ≠ .waitClose then c.fail .econnaborted
  else if c.ws.gotContentLength ∧ c.ws.expectedRespBodyLen ≠ c.ws.receivedBodyLen then c.fail .eproto
  else { c with ws := { c.ws with state := .close, redirected := false }, inLoop := false }

/-- A turn of the inner loop. -/
def receiveTurn : Client :=
  if c.ws.unread ≠ [] then parseTurn ctx { c with inLoop := true }
  else
    match l.received with
    | .error e => c.fail e
    | .ok bytes =>
      let bytes := bytes.take ctx.buflen
      if bytes = [] then eofTurn c
      else parseTurn ctx { c with ws := { c.ws with unread := bytes }, inLoop := true }

/-! ## The machine -/

/-- `WEBCLIENT_STATE_CLOSE`. -/
def closeBlock : Client :=
  if c.ws.redirected then { c with ws := { c.ws with state := .socket } }
  else { c with ws := { c.ws with state := .done }, result := some (.ok ()) }

end

def step (ctx : Ctx) (c : Client) (l : Answers) : Client :=
  if c.result.isSome then c
  else if c.inLoop then receiveTurn ctx l c
  else
    match c.ws.state with
    | .socket => socketBlock ctx l c
    | .connect => connectBlock l c
    | .prepareRequest => prepareBlock ctx c
    | .sendRequest => sendBlock ctx l c
    | .sendRequestBody => sendBodyBlock ctx l c
    | .statusline | .headers | .data | .chunkedHeader | .chunkedData => receiveTurn ctx l c
    -- the outer loop has no block for these states
    | .chunkedEnddata | .chunkedTrailer | .waitClose => c
    | .close => closeBlock c
    | .done => c

/-- `struct wget_s` as `calloc` leaves it, for a target. -/
def Ws.fresh (target : Target) : Ws where
  state := .socket
  httpstatus := .none
  statusCode := 0
  unread := []
  line := List.replicate maxHttpLine '\x00'
  ndx := 0
  skipToNextLine := false
  gotContentLength := false
  chunked := false
  gotLocation := false
  expectedRespBodyLen := 0
  receivedBodyLen := 0
  chunkLen := 0
  chunkReceived := 0
  target := target
  nredirect := 0
  redirected := false
  request := []
  stateLen := 0
  dataBuffer := none

/-- The start of `webclient_perform`. `alloc` is the answer of the allocator. -/
def begin (ctx : Ctx) (alloc : Ret) : Except Errno Client :=
  match alloc with
  | .error e => .error e
  | .ok () =>
    match parseurl ctx.url false with
    | .error e => .error e
    | .ok target => .ok ⟨.fresh target, false, ⟨0, []⟩, [], [], none⟩

/-! ## What a step does -/

section

variable {ctx : Ctx} {l : Answers} {c : Client} {ws ws' : Ws} {sunk sunk' : List Char}

/-- What a block of the outer loop can lead to. -/
inductive OuterBlock (ctx : Ctx) (l : Answers) (c : Client) : Client → Prop
  | failed {e : Errno} (he : e = .enotsup ∨ e = .e2big ∨ l.connect = .error e ∨ l.sent = .error e) :
      OuterBlock ctx l c (c.fail e)
  | opened {state : WsState} {result : Option Ret} (hstate : state = c.ws.state ∨ state = .connect)
      (hresult : result = none ∨ ∃ e, result = some (.error e) ∧ l.socket = .error e) :
      OuterBlock ctx l c
        { c with
          ws := { c.ws with httpstatus := .none, unread := [], ndx := 0, redirected := false, state := state }
          result := result }
  | connected (hstate : c.ws.state = .connect) :
      OuterBlock ctx l c
        { c with
          ws := { c.ws with state := .prepareRequest }
          conn := ⟨c.ws.nredirect, c.ws.target.hostname⟩
          log := c.log ++ [.connected ⟨c.ws.nredirect, c.ws.target.hostname⟩ c.ws.target.port] }
  | prepared (hstate : c.ws.state = .prepareRequest) (hroom : 0 < ctx.buflen) (request : CStr) :
      OuterBlock ctx l c { c with ws := { c.ws with state := .sendRequest, request := request } }
  | sent (hstate : c.ws.state = .sendRequest ∨ c.ws.state = .sendRequestBody) {state : WsState}
      (hnext : state ∈ [WsState.sendRequest, .sendRequestBody, .statusline]) {log : List NetEvent}
      (hlog : log = c.log ∨ ∃ bytes, log = c.log ++ [.sent c.conn bytes]) (request : CStr) (len : Nat)
      (buffer : Option (List Char)) :
      OuterBlock ctx l c
        { c with
          ws := { c.ws with state := state, request := request, stateLen := len, dataBuffer := buffer }
          log := log }
  | closed {state : WsState} (hstate : state = .socket ∨ state = .done) {result : Option Ret}
      (hresult : result = none ∨ result = some (.ok ())) :
      OuterBlock ctx l c { c with ws := { c.ws with state := state }, result := result }

/-- What a step can be. -/
inductive StepTo (ctx : Ctx) (l : Answers) (c : Client) : Client → Prop
  | idle : StepTo ctx l c c
  | turn (hrunning : c.result = none)
      (hhere : c.inLoop = true ∨ c.ws.state ∈ [WsState.statusline, .headers, .data, .chunkedHeader, .chunkedData]) :
      StepTo ctx l c (receiveTurn ctx l c)
  | outer (hrunning : c.result = none) (hloop : c.inLoop = false) {c' : Client} (hblock : OuterBlock ctx l c c') :
      StepTo ctx l c c'

theorem outerBlock_socket (hrunning : c.result = none) : OuterBlock ctx l c (socketBlock ctx l c) := by
  unfold socketBlock
  dsimp only
  split
  · exact .failed (.inl rfl)
  split
  · rename_i e he
    refine .opened (.inl rfl) (.inr ⟨e, rfl, ?_⟩)
    split at he
    · cases he
    · exact he
  · exact .opened (.inr rfl) (.inl hrunning)

theorem outerBlock_sendBody (hstate : c.ws.state = .sendRequestBody) : OuterBlock ctx l c (sendBodyBlock ctx l c) := by
  have hnext : c.ws.state ∈ [WsState.sendRequest, .sendRequestBody, .statusline] := by simp [hstate]
  unfold sendBodyBlock
  split
  · exact .sent (.inr hstate) (by simp) (.inl rfl) _ _ _
  split
  · exact .sent (.inr hstate) hnext (.inl rfl) _ _ _
  split
  · exact .failed (.inr (.inr (.inr ‹_›)))
  · exact .sent (.inr hstate) hnext (.inr ⟨_, rfl⟩) _ _ _

theorem outerBlock_send (hstate : c.ws.state = .sendRequest) : OuterBlock ctx l c (sendBlock ctx l c) := by
  have hnext : c.ws.state ∈ [WsState.sendRequest, .sendRequestBody, .statusline] := by simp [hstate]
  unfold sendBlock
  split
  · exact .failed (.inr (.inr (.inr ‹_›)))
  dsimp only
  split
  · exact .sent (.inl hstate) (by simp) (.inr ⟨_, rfl⟩) _ _ _
  · exact .sent (.inl hstate) hnext (.inr ⟨_, rfl⟩) _ _ _

theorem stepTo_step (ctx : Ctx) (l : Answers) (c : Client) : StepTo ctx l c (step ctx c l) := by
  unfold step
  split
  · exact .idle
  rename_i hsome
  have hrunning : c.result = none := Option.not_isSome_iff_eq_none.mp hsome
  split
  · exact .turn hrunning (.inl ‹_›)
  rename_i hin
  have hloop : c.inLoop = false := Bool.eq_false_iff.mpr hin
  split
  · exact .outer hrunning hloop (outerBlock_socket hrunning)
  · refine .outer hrunning hloop ?_
    unfold connectBlock
    split
    · exact .failed (.inr (.inr (.inl ‹_›)))
    · exact .connected ‹_›
  · refine .outer hrunning hloop ?_
    simp only [prepareBlock]
    split
    · exact .failed (.inr (.inl rfl))
    · exact .prepared ‹_› (by omega) _
  · exact .outer hrunning hloop (outerBlock_send ‹_›)
  · exact .outer hrunning hloop (outerBlock_sendBody ‹_›)
  iterate 5
    · exact .turn hrunning (.inr (by simp [*]))
  iterate 3
    · exact .idle
  · refine .outer hrunning hloop ?_
    unfold closeBlock
    split
    · exact .closed (.inl rfl) (.inl hrunning)
    · exact .closed (.inr rfl) (.inr rfl)
  · exact .idle

/-- The state in which a turn of the inner loop hands bytes to the parsers. -/
def Client.received (ctx : Ctx) (c : Client) (l : Answers) : Option Ws :=
  if c.ws.unread ≠ [] then some c.ws
  else
    match l.received with
    | .error _ => none
    | .ok bytes => if bytes.take ctx.buflen = [] then none else some { c.ws with unread := bytes.take ctx.buflen }

/-- A turn of the inner loop fails, sees the end of the response, or hands bytes to the parsers. -/
theorem receiveTurn_rule {P : Client → Prop}
    (hfail : ∀ e, l.received = .error e ∨ e = .econnaborted ∨ e = .eproto → P (c.fail e))
    (hclose : P { c with ws := { c.ws with state := .close, redirected := false }, inLoop := false })
    (hparse : ∀ bytes, c.received ctx l = some { c.ws with unread := bytes } →
      P (parseTurn ctx { c with ws := { c.ws with unread := bytes }, inLoop := true })) :
    P (receiveTurn ctx l c) := by
  unfold Client.received at hparse
  unfold receiveTurn eofTurn
  dsimp only
  split
  · exact hparse c.ws.unread (if_pos ‹_›)
  rw [if_neg ‹_›] at hparse
  split
  · exact hfail _ (.inl ‹_›)
  split_ifs
  · exact hfail _ (.inr (.inl rfl))
  · exact hfail _ (.inr (.inr rfl))
  · exact hclose
  · exact hparse _ (by simp only [*, if_false])

theorem disposePass_cases (h : disposePass ctx ws sunk = .ok (ws', sunk')) :
    ws' = ws ∨ ((ws.state = .data ∨ ws.state = .chunkedData) ∧ ws' = consume ws (bodyCount ws)) ∨
      (ws.gotLocation = true ∧
        ws' = { ws with nredirect := ws.nredirect + 1, state := .close, redirected := true }) := by
  unfold disposePass at h
  split_ifs at h with hdata
  · unfold deliver at h
    dsimp only at h
    split at h <;> cases h
    exact .inr (.inl ⟨hdata, rfl⟩)
  · split at h <;> cases h
    rename_i hfollow
    unfold followRedirect at hfollow
    split_ifs at hfollow with hgot
    cases hfollow
    exact .inr (.inr ⟨by simpa using hgot, rfl⟩)
  · cases h
    exact .inl rfl

end

end Netutils.Webclient
