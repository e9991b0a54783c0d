-- SUMMARY: When the web server answers requests, and exactly which ones it completes.
import FruitClawApps.Netutils.Webserver.Files
import FruitClawApps.Netutils.Webserver.Segments

/-!
# The connection loop of the web server

`httpd_handler` reads and answers requests while the connection is kept. It takes any status below
400 for a request that may be answered, also the -1 of `httpd_parse` for a connection that is closed
before the blank line.
-/

namespace Netutils.Webserver

open Bytes Socket List

/-- One turn of the loop: what it starts from, and what it does. -/
structure Exchange where
  size : Nat
  filename : CStr
  conn : Conn Char
  /-- The bytes that were taken from the connection. -/
  received : List Char
  status : Status
  request : Request
  reply : Reply
deriving DecidableEq

section

variable (cfg : Config) (site : Site)

/-- The answer to what `httpd_parse` returned. -/
def answer (p : Parsed) : Answer :=
  match p.status with
  | .overrun => ⟨.undefined, p.request.filename, false⟩
  | .error => httpdSendfile cfg site p.request.filename p.request.keepalive
  | .http code =>
    if code ≥ 400 then httpdSenderror cfg site code p.request.keepalive
    else httpdSendfile cfg site p.request.filename p.request.keepalive

def exchange (size : Nat) (filename : CStr) (c : Conn Char) (p : Parsed) : Exchange where
  size
  filename
  conn := c
  received := c.stream.take (c.stream.length - p.conn.stream.length)
  status := p.status
  request := p.request
  reply := (answer cfg site p).reply

/-- The first `n` turns of `httpd_handler`. The name and the buffer are those of the turn before. -/
def httpdHandler : Nat → List Char → CStr → Conn Char → List Exchange
  | 0, _, _, _ => []
  | n + 1, buffer, filename, c =>
    let p := httpdParse cfg buffer filename c
    let a := answer cfg site p
    exchange cfg site buffer.length filename c p ::
      if a.keepalive then httpdHandler n p.buffer a.filename p.conn else []

end

/-! ## Turns of the loop -/

variable {cfg : Config} {site : Site} {n : Nat} {buffer : List Char} {filename : CStr} {c : Conn Char} {p : Parsed}
  {e : Exchange}

/-- Every turn of a connection reads a request from what is left of it, and answers it. -/
theorem exchange_of_mem (he : e ∈ httpdHandler cfg site n buffer filename c) :
    ∃ buffer filename c, e = exchange cfg site buffer.length filename c (httpdParse cfg buffer filename c) := by
  induction n generalizing buffer filename c with
  | zero => cases he
  | succ n ih =>
    rcases mem_cons.mp he with rfl | hrest
    · exact ⟨buffer, filename, c, rfl⟩
    split at hrest
    · exact ih hrest
    · cases hrest

/-- A function is called, or a file is sent. Nothing is known of a request that has been misread. -/
def Reply.Serves : Reply → Prop
  | .errorPage .. => False
  | _ => True

instance : DecidablePred Reply.Serves
  | .errorPage .. => .isFalse id
  | .cgi _ => .isTrue trivial
  | .script .. => .isTrue trivial
  | .file .. => .isTrue trivial
  | .undefined => .isTrue trivial

/-- The header has been received up to the blank line, and the body up to its end. -/
def Exchange.Complete (e : Exchange) : Prop :=
  ∃ rest, (splitHeader [] e.received).2 = some rest ∧ e.request.contentLength ≤ rest.length

instance (e : Exchange) : Decidable e.Complete :=
  match h : (splitHeader [] e.received).2 with
  | none => .isFalse fun ⟨_, hrest, _⟩ => absurd (h.symm.trans hrest) (by simp)
  | some rest => decidable_of_iff (e.request.contentLength ≤ rest.length) (by simp [Exchange.Complete, h])

theorem not_serves_of_error {code : Nat} (hcode : 400 ≤ code) (hstatus : p.status = .http code) :
    ¬ (answer cfg site p).reply.Serves := by
  rw [answer, hstatus]
  dsimp only
  rw [if_pos hcode]
  exact id

theorem exchange_received {received : List Char} (hstream : c.stream = received ++ p.conn.stream) (size : Nat) :
    (exchange cfg site size filename c p).received = received := by
  show c.stream.take (c.stream.length - p.conn.stream.length) = received
  rw [hstream]
  exact take_left' (by rw [length_append]; omega)

/-- A request that is answered is complete, exactly if the peer sends the header up to the blank
line, and no receive call in it ends behind a carriage return. A body that ends early is answered by
an error. -/
theorem httpdHandler_complete (he : e ∈ httpdHandler cfg site n buffer filename c) (hserves : e.reply.Serves)
    (hplain : ∀ l ∈ (splitHeader [] e.received).1, l.head? ≠ some '\x00')
    (hbody : e.request.method = .post ∨ e.request.contentLength = 0) :
    e.Complete ↔ (splitHeader [] e.conn.stream).2 ≠ none ∧ cutAtCr cfg e.size e.filename e.conn = false := by
  obtain ⟨buffer, filename, c, rfl⟩ := exchange_of_mem he
  generalize hparse : httpdParse cfg buffer filename c = p at *
  obtain ⟨received, hstream, -, hends⟩ := httpdParse_ends hparse
  have hreceived : (exchange cfg site buffer.length filename c p).received = received := exchange_received hstream _
  rw [hreceived] at hplain
  rw [Exchange.Complete, hreceived]
  show _ ↔ (splitHeader [] c.stream).2 ≠ none ∧ cutAtCr cfg buffer.length filename c = false
  cases hscan : scan cfg [] received .method (.fresh filename) with
  | refused code =>
    rw [hscan] at hends
    exact absurd hserves (not_serves_of_error (refused_of_scan hscan) hends.2)
  | split line phase r =>
    rw [hscan] at hends
    rw [splitHeader_split (by decide) hscan, hends.1]
    simp
  | waiting line phase r =>
    rw [hscan] at hends
    obtain ⟨hnone, -⟩ := splitHeader_waiting (by decide) hscan
    rcases hends.2 with ⟨hfull, -⟩ | ⟨-, hempty⟩
    · exact absurd hserves (not_serves_of_error (by decide) hfull)
    rw [hstream, hempty, append_nil, hnone]
    simp
  | finished rest r =>
    rw [hscan] at hends
    obtain ⟨hpending, hrest⟩ := finished_of_scan (by decide) hscan
    have hresult := hends.2 [] nil_prefix
    rw [append_nil] at hresult
    have hstatus : p.status = .http 200 := by
      by_contra hstatus
      rw [Parsed.result, if_neg hstatus] at hresult
      obtain ⟨code, hcode, herror⟩ := bodyResult_error hresult.symm
      exact absurd hserves (not_serves_of_error hcode herror)
    have hheader : (splitHeader [] c.stream).2 = some (rest ++ p.conn.stream) := by
      rw [hstream]
      exact splitHeader_append (hrest hplain) _
    refine iff_of_true ⟨rest, hrest hplain, ?_⟩ ⟨hheader ▸ Option.some_ne_none _, hends.1⟩
    rw [Parsed.result_ok.mpr ⟨hstatus, rfl⟩] at hresult
    rcases (bodyResult_ok (hpending (pending_fresh filename)) hresult.symm).2 with ⟨-, hle, -⟩ | ⟨hno, -⟩
    · exact hle
    · exact (hbody.resolve_left hno) ▸ Nat.zero_le _

/-- One file, and a function for some names. -/
def sampleSite : Site where
  root := "/mnt".toList
  errPath := []
  pathMax := 256
  pathMax_pos := by decide
  dirlist := false
  script := false
  cgiPath := true
  cgiCalls := ["/api".toList]
  table := []
  stat := fun path => if path = "/mnt/a".toList then some ⟨.regular, 5⟩ else none
  canOpen := fun _ => true

/-- A request for the file, and one for the function, which is split. -/
def keptConnection : Conn Char :=
  ⟨["GET /a HTTP/1.1\r\nConnection: keep-alive\r\n\r\n".toList,
    "POST /api HTTP/1.1\r\nContent-Len".toList, "gth: 2\r\n\r\nh".toList, "i".toList], .closed⟩

def keptConfig : Config := { sampleConfig with timeout := true, keepalive := true }

def keptRun : List Exchange := httpdHandler keptConfig sampleSite 3 sampleBuffer [] keptConnection

theorem httpdHandler_complete_kept : keptRun.length = 2 ∧ ∀ e ∈ keptRun, e.Complete := by
  have hrun : ∀ e ∈ keptRun, e.reply.Serves ∧ (∀ l ∈ (splitHeader [] e.received).1, l.head? ≠ some '\x00') ∧
      (e.request.method = .post ∨ e.request.contentLength = 0) ∧ (splitHeader [] e.conn.stream).2 ≠ none ∧
      cutAtCr keptConfig e.size e.filename e.conn = false := by
    decide +kernel
  refine ⟨by decide +kernel, fun e he => ?_⟩
  obtain ⟨hserves, hplain, hbody, hwhole⟩ := hrun e he
  exact (httpdHandler_complete he hserves hplain hbody).mpr hwhole

/-- The connection is closed behind the first line. -/
def lostConnection : Conn Char := ⟨["GET /a HTTP/1.0\r\n".toList], .closed⟩

theorem not_complete_lostConnection :
    ∃ e ∈ httpdHandler sampleConfig sampleSite 1 sampleBuffer [] lostConnection,
      e.reply = .file .name ⟨some "/mnt/a".toList, 5⟩ ∧ e.reply.Serves ∧ ¬ e.Complete := by
  decide +kernel

end Netutils.Webserver
