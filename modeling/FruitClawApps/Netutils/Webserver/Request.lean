-- SUMMARY: How the web server reads a request: lines in a buffer, and a body.
import FruitClawApps.Lib.Bytes
import FruitClawApps.Lib.CLib
import FruitClawApps.Lib.Socket

/-!
# Requests of the web server

`httpd_parse` in `netutils/webserver/httpd.c` receives into `ht_buffer` until it has seen the blank
line, and moves the beginning of an unfinished line to the front. A line ends at a carriage return,
and the byte behind it has to be a line feed: it is read whether it has been received or not. The
terminators that the parser writes into the lines are not seen again and left out.
-/

namespace Netutils.Webserver

open Bytes Socket

/-! ## Options and requests -/

/-- `HTTPD_MAX_HDR_VALUE`. -/
abbrev maxHdrValue : Nat := 96

/-- How files are sent: one of `CONFIG_NETUTILS_HTTPD_CLASSIC`, `_MMAP` and `_SENDFILE`. -/
inductive FileMethod where
  | classic | mmap | sendfile
deriving DecidableEq

structure Config where
  /-- `HTTPD_MAX_FILENAME`. -/
  maxFilename : Nat
  /-- `CONFIG_NETUTILS_HTTPD_POST`. -/
  post : Bool
  /-- `CONFIG_NETUTILS_HTTPD_MAX_BODY`. -/
  maxBody : Nat
  /-- `CONFIG_NETUTILS_HTTPD_TIMEOUT` is not zero. -/
  timeout : Bool
  /-- Keep-alive is not disabled. -/
  keepalive : Bool
  files : FileMethod
  /-- `CONFIG_NETUTILS_HTTPD_INDEX`, which is always there for classic files. -/
  index : Option CStr
  /-- Whether so many bytes can be allocated. -/
  canAllocate : Nat → Bool

/-- `enum httpd_method_e`, without the value for the methods that are refused. -/
inductive Method where
  | get | post | delete | options
deriving DecidableEq

/-- What `httpd_parse` sets in `struct httpd_state`. The body is the part of `ht_body` that
`ht_bodylen` counts. -/
structure Request where
  method : Method
  filename : CStr
  contentLength : Nat
  contentLengthPresent : Bool
  body : List Char
  contentType : CBuf maxHdrValue
  accept : CBuf maxHdrValue
  origin : CBuf maxHdrValue
  authorization : CBuf maxHdrValue
  mcpProtocolVersion : CBuf maxHdrValue
  mcpSessionId : CBuf maxHdrValue
  keepalive : Bool
deriving DecidableEq

/-- The request as `memset` or `httpd_free_request` leaves it. The name is that of the last one. -/
def Request.fresh (filename : CStr) : Request where
  method := .get
  filename := filename
  contentLength := 0
  contentLengthPresent := false
  body := []
  contentType := .empty _
  accept := .empty _
  origin := .empty _
  authorization := .empty _
  mcpProtocolVersion := .empty _
  mcpSessionId := .empty _
  keepalive := false

/-- What `httpd_parse` returns. It overruns if it goes on to scan behind what was received. -/
inductive Status where
  | http (code : Nat)
  | error
  | overrun
deriving DecidableEq

/-! ## Lines -/

section

variable (cfg : Config)

def methodOf (method : CStr) : Option Method :=
  if method = "GET".toList then some .get
  else if method = "POST".toList then if cfg.post then some .post else none
  else if method = "DELETE".toList then some .delete
  else if method = "OPTIONS".toList then some .options
  else none

/-- `STATE_METHOD`. -/
def requestLine (line : CStr) (r : Request) : Except Nat Request :=
  match strchrCut ' ' line with
  | (_, none) => .error 400
  | (method, some rest) =>
    let path := rest.takeWhile (· ≠ ' ')
    let version := rest.dropWhile (· ≠ ' ')
    if version ≠ " HTTP/1.0".toList ∧ version ≠ " HTTP/1.1".toList then .error 505
    else
      match methodOf cfg method with
      | none => .error 501
      | some m =>
        -- the copy is not cut
        if path.length ≥ cfg.maxFilename then .error 414 else .ok { r with method := m, filename := path }

def httpdHeaderContains (value token : CStr) : Bool := strstr (value.map tolower) (token.map tolower)

def contentLengthField (value : CStr) (r : Request) : Except Nat Request :=
  let (length, rest) := strtol 10 value
  if rest ≠ [] ∨ length < 0 then .error 400
  else if !cfg.post ∧ length ≠ 0 then .error 413
  else .ok { r with contentLengthPresent := true, contentLength := length.toNat }

/-- A line of `STATE_HEADER` that is not blank. -/
def headerLine (line : CStr) (r : Request) : Except Nat Request :=
  let name := line.takeWhile (· ≠ ':')
  let value := ((line.dropWhile (· ≠ ':')).drop 1).dropWhile fun c => c == ':' || c == ' '
  if name = [] ∨ value = [] then .error 400
  else if equalsNoCase name "Content-Length".toList then contentLengthField cfg value r
  else if equalsNoCase name "Transfer-Encoding".toList && httpdHeaderContains value "chunked".toList then .error 501
  else if equalsNoCase name "Content-Type".toList then .ok { r with contentType := .copy _ value }
  else if equalsNoCase name "Accept".toList then .ok { r with accept := .copy _ value }
  else if equalsNoCase name "Origin".toList then .ok { r with origin := .copy _ value }
  else if equalsNoCase name "Authorization".toList then .ok { r with authorization := .copy _ value }
  else if equalsNoCase name "MCP-Protocol-Version".toList then .ok { r with mcpProtocolVersion := .copy _ value }
  else if equalsNoCase name "MCP-Session-Id".toList then .ok { r with mcpSessionId := .copy _ value }
  else if cfg.keepalive && equalsNoCase name "Connection".toList && equalsNoCase value "keep-alive".toList then
    .ok { r with keepalive := true }
  else .ok r

/-- `STATE_METHOD`, `STATE_HEADER` and `STATE_BODY`. -/
inductive Phase where
  | method | header | body
deriving DecidableEq

/-- The `switch` over the state. The scan ends when the state is `STATE_BODY`. -/
def parseLine (phase : Phase) (line : CStr) (r : Request) : Except Nat (Phase × Request) :=
  match phase with
  | .method => (requestLine cfg line r).map (.header, ·)
  | .header => if line = [] then .ok (.body, r) else (headerLine cfg line r).map (.header, ·)
  | .body => .ok (.body, r)

/-- No body has been read, a POST request is one that may be made, and the name fits if there is
one. -/
structure Pending (phase : Phase) (r : Request) : Prop where
  body : r.body = []
  post : r.method = .post → cfg.post = true
  filename : phase ≠ .method → r.filename.length < cfg.maxFilename

/-- A line is refused with an error status, or it leaves the body for later. -/
def Sound (phase : Phase) (r : Request) : Except Nat Request → Prop
  | .error code => 400 ≤ code
  | .ok r' => Pending cfg phase r → Pending cfg .header r'

variable {cfg} {r : Request} {phase : Phase}

theorem pending_fresh (filename : CStr) : Pending cfg .method (.fresh filename) :=
  ⟨rfl, fun h : Method.get = .post => absurd h (by decide), fun h => absurd rfl h⟩

theorem sound_error {code : Nat} (h : 400 ≤ code) : Sound cfg phase r (.error code) := h

theorem sound_ite {p : Prop} [Decidable p] {x y : Except Nat Request} (hx : Sound cfg phase r x)
    (hy : Sound cfg phase r y) : Sound cfg phase r (if p then x else y) := by
  split
  · exact hx
  · exact hy

/-- Nothing but header fields and what is known of the length of a body has changed. -/
theorem sound_ok {r' : Request} (hbody : r'.body = r.body) (hmethod : r'.method = r.method)
    (hfilename : r'.filename = r.filename) : Sound cfg .header r (.ok r') := fun h =>
  ⟨hbody.trans h.body, hmethod ▸ h.post, hfilename ▸ h.filename⟩

variable (cfg)

theorem methodOf_post {method : CStr} (h : methodOf cfg method = some .post) : cfg.post = true := by
  unfold methodOf at h
  split_ifs at h with _ _ hpost <;> first | exact hpost | cases h

theorem requestLine_sound (line : CStr) (r : Request) : Sound cfg .method r (requestLine cfg line r) := by
  unfold requestLine
  split
  · exact sound_error (by decide)
  refine sound_ite (sound_error (by decide)) ?_
  split
  · exact sound_error (by decide)
  rename_i hmethod
  split
  · exact sound_error (by decide)
  rename_i hlength
  refine fun hpending => ⟨hpending.body, ?_, fun _ => Nat.lt_of_not_ge hlength⟩
  rintro rfl
  exact methodOf_post cfg hmethod

theorem contentLengthField_sound (value : CStr) (r : Request) : Sound cfg .header r (contentLengthField cfg value r) :=
  sound_ite (sound_error (by decide)) (sound_ite (sound_error (by decide)) (sound_ok rfl rfl rfl))

theorem headerLine_sound (line : CStr) (r : Request) : Sound cfg .header r (headerLine cfg line r) := by
  refine sound_ite (sound_error (by decide)) (sound_ite (contentLengthField_sound cfg _ r) ?_)
  refine sound_ite (sound_error (by decide)) (sound_ite (sound_ok rfl rfl rfl) (sound_ite (sound_ok rfl rfl rfl) ?_))
  refine sound_ite (sound_ok rfl rfl rfl) (sound_ite (sound_ok rfl rfl rfl) (sound_ite (sound_ok rfl rfl rfl) ?_))
  exact sound_ite (sound_ok rfl rfl rfl) (sound_ite (sound_ok rfl rfl rfl) (sound_ok rfl rfl rfl))

/-- What a line can lead to. Only a blank line ends the header, and the first line is not blank. -/
theorem parseLine_cases (hphase : phase ≠ .body) (line : CStr) (r : Request) :
    (∃ code, parseLine cfg phase line r = .error code ∧ 400 ≤ code) ∨
      (phase = .header ∧ line = [] ∧ parseLine cfg phase line r = .ok (.body, r)) ∨
      (line ≠ [] ∧ ∃ r', parseLine cfg phase line r = .ok (.header, r') ∧
        (Pending cfg phase r → Pending cfg .header r')) := by
  cases phase with
  | body => exact absurd rfl hphase
  | method =>
    have hsound := requestLine_sound cfg line r
    rw [parseLine]
    cases hresult : requestLine cfg line r with
    | error code =>
      rw [hresult] at hsound
      exact .inl ⟨code, rfl, hsound⟩
    | ok r' =>
      rw [hresult] at hsound
      refine .inr (.inr ⟨?_, r', rfl, hsound⟩)
      rintro rfl
      cases hresult
  | header =>
    rw [parseLine]
    by_cases hblank : line = []
    · exact .inr (.inl ⟨rfl, hblank, if_pos hblank⟩)
    have hsound := headerLine_sound cfg line r
    rw [if_neg hblank]
    cases hresult : headerLine cfg line r with
    | error code =>
      rw [hresult] at hsound
      exact .inl ⟨code, rfl, hsound⟩
    | ok r' =>
      rw [hresult] at hsound
      exact .inr (.inr ⟨hblank, r', rfl, hsound⟩)

theorem parseLine_error {line : CStr} {code : Nat} (h : parseLine cfg phase line r = .error code) : 400 ≤ code := by
  by_cases hphase : phase = .body
  · subst hphase
    cases h
  rcases parseLine_cases cfg hphase line r with ⟨_, herror, hle⟩ | ⟨-, -, hblank⟩ | ⟨-, _, hok, -⟩
  · cases h.symm.trans herror
    exact hle
  · cases h.symm.trans hblank
  · cases h.symm.trans hok

/-- Where the scan of what is in the buffer ends. -/
inductive Scan where
  | refused (code : Nat)
  /-- In a line. -/
  | waiting (line : List Char) (phase : Phase) (r : Request)
  /-- Behind a carriage return, with the line before it. -/
  | split (line : List Char) (phase : Phase) (r : Request)
  /-- Behind the blank line, with what follows it. -/
  | finished (rest : List Char) (r : Request)
deriving DecidableEq

/-- The loop over the lines. `line` is what stands between `start` and the bytes to come. -/
def scan (line : List Char) : List Char → Phase → Request → Scan
  | [], phase, r => .waiting line phase r
  | ['\r'], phase, r => .split line phase r
  | '\r' :: c :: rest, phase, r =>
    if c ≠ '\n' then .refused 400
    else
      match parseLine cfg phase (CStr.ofMem line) r with
      | .error code => .refused code
      | .ok (phase, r) => if phase = .body then .finished rest r else scan [] rest phase r
  | c :: rest, phase, r => scan (line ++ [c]) rest phase r

/-! ## Receiving -/

/-- What `httpd_parse` leaves. A request that was refused is not looked at again. -/
structure Parsed where
  status : Status
  request : Request
  /-- `ht_buffer`, which the next request finds as it is. -/
  buffer : List Char
  conn : Conn Char

/-- What `recv` set if it failed. -/
def failure (e : End) : Nat := if e = .timeout ∧ cfg.timeout then 408 else 400

def httpdReadBody (buffered : List Char) (r : Request) (c : Conn Char) : Except Nat Request × Conn Char :=
  if !cfg.post ∨ r.method ≠ .post then (.ok r, c)
  else if !r.contentLengthPresent then (.error 411, c)
  else if r.contentLength > cfg.maxBody then (.error 413, c)
  else if !cfg.canAllocate (r.contentLength + 1) then (.error 500, c)
  else
    let off := min r.contentLength buffered.length
    match c.recvExact (r.contentLength - off) (r.contentLength - off) with
    | (.error e, c) => (.error (failure cfg e), c)
    | (.ok more, c) => (.ok { r with body := buffered.take off ++ more }, c)

/-- Classic files have their index under a name of its own. -/
def indexed (r : Request) : Request :=
  if cfg.files = .classic ∧ r.method = .get ∧ r.filename = "/".toList then
    { r with filename := ('/' :: cfg.index.getD []).take (cfg.maxFilename - 1) }
  else r

/-- What follows the blank line. -/
def afterHeader (buffer buffered : List Char) (r : Request) (c : Conn Char) : Parsed :=
  match httpdReadBody cfg buffered r c with
  | (.error code, c) => ⟨.http code, r, buffer, c⟩
  | (.ok r, c) => ⟨.http 200, indexed cfg r, buffer, c⟩

/-- The loop that receives, with the bytes that an unfinished line has left in the buffer. -/
def receive : Nat → List Char → Nat → Phase → Request → Conn Char → Parsed
  | 0, buffer, _, _, r, c => ⟨.error, r, buffer, c⟩
  | fuel + 1, buffer, filled, phase, r, c =>
    if buffer.length ≤ filled then ⟨.http 413, r, buffer, c⟩
    else
      match c.recv (buffer.length - filled) with
      | (.error .closed, c) => ⟨.error, r, buffer, c⟩
      | (.error e, c) => ⟨.http (failure cfg e), r, buffer, c⟩
      | (.ok bytes, c) =>
        let buffer := splice buffer filled bytes
        let o := filled + bytes.length
        match scan cfg [] (buffer.take o) phase r with
        | .refused code => ⟨.http code, r, buffer, c⟩
        | .waiting line phase r => receive fuel (overlay line buffer line.length) line.length phase r c
        | .finished rest r => afterHeader cfg (overlay rest buffer rest.length) rest r c
        | .split line phase r =>
          -- the byte behind the carriage return has not been received
          match buffer[o]? with
          | none => ⟨.overrun, r, buffer, c⟩
          | some behind =>
            if behind ≠ '\n' then ⟨.http 400, r, buffer, c⟩
            else
              match parseLine cfg phase (CStr.ofMem line) r with
              | .error code => ⟨.http code, r, buffer, c⟩
              | .ok (_, r) => ⟨.overrun, r, buffer, c⟩

/-- `httpd_parse`, with the name of the last request. Each receive call takes a byte at least, so
there are not more of them than bytes. -/
def httpdParse (buffer : List Char) (filename : CStr) (c : Conn Char) : Parsed :=
  receive cfg (c.stream.length + 1) buffer 0 .method (.fresh filename) c

end

end Netutils.Webserver
