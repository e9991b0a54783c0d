-- SUMMARY: The HTTP client's state and its resumable line parsers.
import FruitClawApps.Netutils.ParseUrl

/-!
# The line parsers of the HTTP client

`netutils/webclient/webclient.c` reads a response in pieces. Each parser takes bytes into the line
buffer until it has a whole line, and leaves them there when the bytes run out. Redirects, bodies
and chunked encoding are modelled. Proxies, tunnels, MIME types and header callbacks are not.
-/

namespace Netutils.Webclient

/-- `CONFIG_WEBCLIENT_MAXHTTPLINE`. -/
def maxHttpLine : Nat := 200

/-- `CONFIG_WEBCLIENT_MAXHOSTNAME`. -/
def maxHostname : Nat := 40

/-- `CONFIG_WEBCLIENT_MAXFILENAME`. -/
def maxFilename : Nat := 100

/-! ## The state -/

/-- `enum webclient_state_e`. -/
inductive WsState where
  | socket | connect | prepareRequest | sendRequest | sendRequestBody | statusline | headers | data
  | chunkedHeader | chunkedData | chunkedEnddata | chunkedTrailer | waitClose | close | done
deriving DecidableEq

/-- The `HTTPSTATUS_` values that are used. -/
inductive HttpStatus where
  | none | ok | moved
deriving DecidableEq

/-- `struct wget_target_s`. -/
structure Target where
  scheme : CStr
  hostname : CStr
  filename : CStr
  port : Nat
deriving DecidableEq

/-- `struct wget_s`. -/
structure Ws where
  state : WsState
  httpstatus : HttpStatus
  /-- The status code, which the source keeps in the context. -/
  statusCode : Nat
  /-- The received bytes from `offset` to `datend`. -/
  unread : List Char
  line : List Char
  ndx : Nat
  skipToNextLine : Bool
  gotContentLength : Bool
  chunked : Bool
  gotLocation : Bool
  expectedRespBodyLen : Nat
  receivedBodyLen : Nat
  chunkLen : Nat
  chunkReceived : Nat
  target : Target
  nredirect : Nat
  redirected : Bool
  /-- The part of the request in the buffer that is still to be sent. -/
  request : List Char
  /-- The number of bytes of the body still to be sent. -/
  stateLen : Nat
  /-- The part of `data_buffer` that is still to be sent. -/
  dataBuffer : Option (List Char)
deriving DecidableEq

/-! ## Numbers and URLs -/

/-- `wget_parseint`. -/
def wgetParseint (cp : CStr) (base : Nat) : Except Errno Nat :=
  match strtoUnsigned 64 base cp with
  | none => .error .einval
  | some (val, outOfRange, rest) =>
    if rest ≠ [] then .error .einval else if outOfRange then .error .erange else .ok val

/-- `parseurl`. -/
def parseurl (url : CStr) (requirePort : Bool) : Except Errno Target :=
  match netlibParseurl 7 maxHostname maxFilename 0 url with
  | .error e => .error e
  | .ok u =>
    if u.port ≠ 0 then .ok ⟨u.scheme, u.host, u.path, u.port⟩
    else if requirePort then .error .einval
    else .ok ⟨u.scheme, u.host, u.path, if u.scheme = "https".toList then 443 else 80⟩

/-! ## The status line -/

/-- The status code of a status line. -/
def statusLine (text : CStr) : Except Errno Nat :=
  if startsWith text "HTTP/1.0".toList || startsWith text "HTTP/1.1".toList then
    if text[8]? ≠ some ' ' then .error .einval
    else
      match strtoUnsigned 32 10 (text.drop 9) with
      | none => .error .einval
      | some (code, outOfRange, rest) =>
        if rest.head? ≠ some ' ' then .error .einval else if outOfRange then .error .erange else .ok code
  else .error .econnaborted

def httpstatusOf (code : Nat) : HttpStatus :=
  if code / 100 = 2 then .ok
  else if code / 100 = 3 ∧ code ≠ 304 ∧ code ≠ 305 then .moved
  else .none

def wgetParsestatus : List Char → Ws → Except Errno Ws
  | [], ws => .ok { ws with unread := [] }
  | c :: rest, ws =>
    if c = '\n' then
      let line := ws.line.set ws.ndx '\x00'
      match statusLine (CStr.ofMem line) with
      | .error e => .error e
      | .ok code =>
        .ok
          { ws with
            line := line
            httpstatus := httpstatusOf code
            statusCode := code
            state := .headers
            gotContentLength := false
            chunked := false
            gotLocation := false
            ndx := 0
            unread := rest }
    else if ws.ndx = maxHttpLine - 1 then .error .e2big
    else wgetParsestatus rest { ws with line := ws.line.set ws.ndx c, ndx := ws.ndx + 1 }

/-! ## Header lines -/

variable (gotNl : Bool)

/-- The header fields that the client looks at. The flag says that the line is one
of those that must not be cut. -/
def headerField (line : CStr) (ws : Ws) : Except Errno (Ws × Bool) :=
  if startsWithNoCase line "location: ".toList then
    match parseurl (line.drop "location: ".length) false with
    | .error e => .error e
    | .ok target => .ok ({ ws with target := target, gotLocation := true }, true)
  else if startsWithNoCase line "Content-Length: ".toList then
    if gotNl then
      match wgetParseint (line.drop "Content-Length: ".length) 10 with
      | .error e => .error e
      | .ok len => .ok ({ ws with expectedRespBodyLen := len, gotContentLength := true }, true)
    else .ok (ws, true)
  else if startsWithNoCase line "transfer-encoding: ".toList then
    if (line.drop "transfer-encoding: ".length).map tolower = "chunked".toList then
      .ok ({ ws with chunked := true }, false)
    else .error .eproto
  else .ok (ws, false)

/-- The index of the terminator: before the newline and the carriage return, or at
the end of a full buffer. -/
def lineEnd (ndx : Nat) : Nat := if gotNl then ndx - 1 else ndx

/-- The work on a line in the line buffer, which ends in a newline or fills the
buffer. The flag says that it was the empty line behind the headers. -/
def headerLine (ws : Ws) : Except Errno (Ws × Bool) :=
  -- a newline alone is not a header, and it is passed over
  if ws.ndx = 0 then .ok ({ ws with skipToNextLine := !gotNl }, false)
  else if ws.line.head? = some '\r' then
    if ws.chunked then .ok ({ ws with state := .chunkedHeader, ndx := 0 }, true)
    else .ok ({ ws with state := .data }, true)
  else
    let ndx := lineEnd gotNl ws.ndx
    if gotNl ∧ ws.line[ndx]? ≠ some '\r' then .error .eproto
    else
      let ws := { ws with line := ws.line.set ndx '\x00' }
      if ':' ∉ CStr.ofMem ws.line then .error (if gotNl then .e2big else .eproto)
      else
        match headerField gotNl (CStr.ofMem ws.line) ws with
        | .error e => .error e
        | .ok (ws, found) =>
          -- the fields that were acted on must be complete
          if found ∧ !gotNl then .error .e2big
          else .ok ({ ws with ndx := 0, skipToNextLine := !gotNl }, false)

def wgetParseheaders : List Char → Ws → Except Errno Ws
  | [], ws => .ok { ws with unread := [] }
  | c :: rest, ws =>
    let gotNl := c == '\n'
    let line := ws.line.set ws.ndx c
    if gotNl || ws.ndx == maxHttpLine - 1 then
      if ws.skipToNextLine then
        wgetParseheaders rest { ws with line := line, ndx := 0, skipToNextLine := !gotNl }
      else
        match headerLine gotNl { ws with line := line } with
        | .error e => .error e
        | .ok (ws, true) => .ok { ws with unread := rest }
        | .ok (ws, false) => wgetParseheaders rest ws
    else wgetParseheaders rest { ws with line := line, ndx := ws.ndx + 1 }

/-! ## Chunks -/

/-- The line of a chunk header, cut before its end and before the extensions, and
whether it has extensions. A line that is only a newline stays as it is. -/
def chunkSizeLine (ws : Ws) : Except Errno (List Char × Bool) :=
  if ws.ndx = 0 then .ok (ws.line, false)
  else if ws.line.head? = some '\r' then .error .eproto
  else
    let ndx := lineEnd gotNl ws.ndx
    if gotNl ∧ ws.line[ndx]? ≠ some '\r' then .error .eproto
    else
      let line := ws.line.set ndx '\x00'
      if ';' ∈ CStr.ofMem line then .ok (line.set (line.findIdx (· == ';')) '\x00', true)
      else .ok (line, false)

def chunkHeaderLine (ws : Ws) : Except Errno Ws :=
  match chunkSizeLine gotNl ws with
  | .error e => .error e
  | .ok (line, foundExtension) =>
    -- only an extension may be cut off
    if !gotNl ∧ !foundExtension then .error .e2big
    else
      match wgetParseint (CStr.ofMem line) 16 with
      | .error e => .error e
      | .ok len =>
        if len ≠ 0 then
          .ok { ws with line := line, ndx := 0, chunkLen := len, state := .chunkedData, chunkReceived := 0 }
        else .ok { ws with line := line, ndx := 0, chunkLen := len, state := .chunkedTrailer }

def wgetParsechunkheader : List Char → Ws → Except Errno Ws
  | [], ws => .ok { ws with unread := [] }
  | c :: rest, ws =>
    let gotNl := c == '\n'
    let line := ws.line.set ws.ndx c
    if gotNl || ws.ndx == maxHttpLine - 1 then
      match chunkHeaderLine gotNl { ws with line := line } with
      | .error e => .error e
      | .ok ws => .ok { ws with unread := rest }
    else wgetParsechunkheader rest { ws with line := line, ndx := ws.ndx + 1 }

/-- `wget_parsechunkenddata`, which does not bound the index. -/
def wgetParsechunkenddata : List Char → Ws → Except Errno Ws
  | [], ws => .ok { ws with unread := [] }
  | c :: rest, ws =>
    let buf := ws.line.set ws.ndx c
    if c = '\n' then
      if ws.ndx = 0 ∨ buf[ws.ndx - 1]? ≠ some '\r' ∨ ws.ndx ≠ 1 then .error .eproto
      else
        let state := if ws.chunkLen = 0 then .chunkedTrailer else .chunkedHeader
        .ok { ws with line := buf, ndx := 0, state := state, unread := rest }
    else wgetParsechunkenddata rest { ws with line := buf, ndx := ws.ndx + 1 }

/-- `wget_parsechunktrailer`, which does not bound the index. -/
def wgetParsechunktrailer : List Char → Ws → Except Errno Ws
  | [], ws => .ok { ws with unread := [] }
  | c :: rest, ws =>
    let buf := ws.line.set ws.ndx c
    if c = '\n' then
      if ws.ndx = 0 ∨ buf[ws.ndx - 1]? ≠ some '\r' then .error .eproto
      else if ws.ndx ≠ 1 then wgetParsechunktrailer rest { ws with line := buf, ndx := 0 }
      else .ok { ws with line := buf, state := .waitClose, unread := rest }
    else wgetParsechunktrailer rest { ws with line := buf, ndx := ws.ndx + 1 }

end Netutils.Webclient
