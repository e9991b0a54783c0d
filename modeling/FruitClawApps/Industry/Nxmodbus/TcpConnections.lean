-- SUMMARY: Modbus TCP connections report frames if no peer waits inside a header.
import FruitClawApps.Industry.Nxmodbus.Tcp

/-!
# Connections of the TCP transport

A client has one connection. A server has a table: `nxmb_tcp_receive` closes idle ones, accepts a
new one, and reads a frame from the first one that is ready. What a connection has reported is the
beginning of what its peer has sent, as long as no peer waits for too long inside a header.
-/

namespace Industry.Nxmodbus

open Mealy Transition List

section

variable {dataMax : Nat}

/-- What a peer sends, and how it arrives. -/
structure Peer (dataMax : Nat) where
  frames : List (TcpFrame dataMax)
  arrivals : List Arrival
  sends : arriving arrivals <+: wire frames

def Peer.Timely (peer : Peer dataMax) : Prop := TimelyHeaders peer.frames peer.arrivals

/-- An open connection. -/
structure Connection (dataMax : Nat) where
  /-- What the peer sends. -/
  frames : List (TcpFrame dataMax)
  /-- What has not been received. -/
  arrivals : List Arrival
  /-- What has been reported. -/
  reported : List (TcpFrame dataMax)
deriving DecidableEq

def Peer.connect (peer : Peer dataMax) : Connection dataMax := ⟨peer.frames, peer.arrivals, []⟩

/-- `struct nxmb_tcp_client_s`. -/
structure TcpClient (dataMax : Nat) where
  fd : Option (Connection dataMax)
  transId : UInt16
  lastActivity : Int

/-- `struct nxmb_tcp_state_s`. -/
structure TcpState (dataMax : Nat) where
  clients : List (TcpClient dataMax)
  listening : Bool
  activeIdx : Option Nat

structure TcpConfig where
  isClient : Bool
  /-- `CONFIG_NXMODBUS_TCP_MAX_CLIENTS`. -/
  maxClients : Nat
  /-- `CONFIG_NXMODBUS_TCP_TIMEOUT_SEC`. -/
  timeoutSec : Int

/-! ## Calls -/

/-- How `select` answers in `nxmb_tcp_receive`. -/
inductive Selected (dataMax : Nat) where
  | failed (errno : Errno)
  | timeout
  /-- A peer may connect, and `accept` may fail. These slots can be read. -/
  | ready (peer : Option (Option (Peer dataMax))) (slots : List Nat)

/-- What a call to `nxmb_tcp_receive` finds. -/
structure Poll (dataMax : Nat) where
  now : Int
  selected : Selected dataMax
  acceptedAt : Int
  readAt : Int

def nxmbTcpReadFrame (now : Int) (client : TcpClient dataMax) (conn : Connection dataMax) :
    Except Errno (TcpFrame dataMax) × TcpClient dataMax :=
  match readFrame dataMax conn.arrivals with
  | (.error errno, l) => (.error errno, { client with fd := l.map fun l => { conn with arrivals := l } })
  | (.ok f, l) =>
    (.ok f,
      { fd := l.map fun l => { conn with arrivals := l, reported := conn.reported ++ [f] }
        transId := f.transId
        lastActivity := now })

variable (cfg : TcpConfig) (s : TcpState dataMax)

def nxmbTcpEvictIdle (now : Int) (clients : List (TcpClient dataMax)) : List (TcpClient dataMax) :=
  clients.map fun client =>
    if now - client.lastActivity > cfg.timeoutSec then { client with fd := none } else client

/-- `nxmb_tcp_accept_new`. A connection that there is no slot for is closed. -/
def nxmbTcpAcceptNew (conn : Connection dataMax) (now : Int) : List (TcpClient dataMax) → List (TcpClient dataMax)
  | [] => []
  | client :: clients =>
    match client.fd with
    | none => { client with fd := some conn, lastActivity := now } :: clients
    | some _ => client :: nxmbTcpAcceptNew conn now clients

/-- The loop over the connections: the first one that is ready is read. -/
def readFirst (now : Int) (ready : Nat → Bool) :
    Nat → List (TcpClient dataMax) → Option (Nat × Except Errno (TcpFrame dataMax)) × List (TcpClient dataMax)
  | _, [] => (none, [])
  | i, client :: clients =>
    match client.fd, ready i with
    | some conn, true =>
      let (result, client) := nxmbTcpReadFrame now client conn
      (some (i, result), client :: clients)
    | _, _ =>
      let (result, clients) := readFirst now ready (i + 1) clients
      (result, client :: clients)

/-- A slot is ready only if it was open when `select` was called. -/
def openSlot (clients : List (TcpClient dataMax)) (i : Nat) : Bool := (clients[i]?.bind TcpClient.fd).isSome

/-- The listening socket is ready. -/
def acceptPeer (listening : Bool) (now : Int) (clients : List (TcpClient dataMax)) :
    Option (Option (Peer dataMax)) → List (TcpClient dataMax)
  | some (some peer) => if listening then nxmbTcpAcceptNew peer.connect now clients else clients
  | _ => clients

/-- Errors of one connection are not those of the server. -/
def serverResult (listening : Bool) (read : Option (Nat × Except Errno (TcpFrame dataMax)) × List (TcpClient dataMax)) :
    Except Errno (TcpFrame dataMax) × TcpState dataMax :=
  match read.1 with
  | none => (.error .again, ⟨read.2, listening, none⟩)
  | some (i, .ok f) => (.ok f, ⟨read.2, listening, some i⟩)
  | some (i, .error errno) => (.error .again, ⟨read.2, listening, if errno = .again then some i else none⟩)

variable (poll : Poll dataMax)

def serverReceive :
    Except Errno (TcpFrame dataMax) × TcpState dataMax :=
  let clients := nxmbTcpEvictIdle cfg poll.now s.clients
  if s.listening = false ∧ clients.all (·.fd.isNone) then (.error .again, ⟨clients, s.listening, none⟩)
  else
    match poll.selected with
    | .failed errno => (.error errno, ⟨clients, s.listening, none⟩)
    | .timeout => (.error .again, ⟨clients, s.listening, none⟩)
    | .ready peer slots =>
      serverResult s.listening
        (readFirst poll.readAt (fun i => slots.contains i && openSlot clients i) 0
          (acceptPeer s.listening poll.acceptedAt clients peer))

def clientReceive : Except Errno (TcpFrame dataMax) × TcpState dataMax :=
  match s.clients with
  | [] => (.error .notConn, { s with activeIdx := none })
  | client :: clients =>
    match client.fd with
    | none => (.error .notConn, { s with activeIdx := none })
    | some conn =>
      let (result, client) := nxmbTcpReadFrame poll.readAt client conn
      (result, { s with clients := client :: clients, activeIdx := some 0 })

def nxmbTcpReceive :
    Except Errno (TcpFrame dataMax) × TcpState dataMax :=
  if cfg.isClient then clientReceive s poll else serverReceive cfg s poll

/-- `nxmb_tcp_send`, with what `writev` returns: the bytes that it is given, and the state. -/
def nxmbTcpSend (adu : Adu dataMax) (written : Except Errno Nat) (now : Int) :
    Except Errno (List UInt8) × TcpState dataMax :=
  match if cfg.isClient then some 0 else s.activeIdx with
  | none => (.error .notConn, s)
  | some i =>
    match s.clients[i]? with
    | none => (.error .notConn, s)
    | some client =>
      if client.fd.isNone then (.error .notConn, s)
      else
        let bytes := (⟨client.transId, adu⟩ : TcpFrame dataMax).bytes
        match written with
        | .error errno => (.error errno, s)
        | .ok n =>
          if n ≠ bytes.length then (.error .io, s)
          else (.ok bytes, { s with clients := s.clients.set i { client with lastActivity := now } })

/-- The state that `nxmb_tcp_init` leaves for a client. -/
def TcpState.connected (peer : Peer dataMax) (now : Int) : TcpState dataMax where
  clients := (replicate cfg.maxClients ⟨none, 0, 0⟩).set 0 ⟨some peer.connect, 0, now⟩
  listening := false
  activeIdx := none

/-- The state that `nxmb_tcp_init` leaves for a server. -/
def TcpState.served : TcpState dataMax where
  clients := replicate cfg.maxClients ⟨none, 0, 0⟩
  listening := true
  activeIdx := none

inductive TcpCall (dataMax : Nat) where
  | receive (poll : Poll dataMax)
  | send (adu : Adu dataMax) (written : Except Errno Nat) (now : Int)

def TcpState.step : TcpCall dataMax → TcpState dataMax
  | .receive poll => (nxmbTcpReceive cfg s poll).2
  | .send adu written now => (nxmbTcpSend cfg s adu written now).2

/-! ## Connections that are in step with their peer -/

/-- What has not been reported is awaited. -/
def Connection.InStep (conn : Connection dataMax) : Prop :=
  ∃ rest, conn.frames = conn.reported ++ rest ∧ Awaiting rest conn.arrivals

def InStep (clients : List (TcpClient dataMax)) : Prop := ∀ client ∈ clients, ∀ conn ∈ client.fd, conn.InStep

variable {cfg : TcpConfig} {s : TcpState dataMax} {clients : List (TcpClient dataMax)} {conn conn' : Connection dataMax}

theorem Peer.inStep_connect {peer : Peer dataMax} (h : peer.Timely) : peer.connect.InStep :=
  ⟨peer.frames, rfl, peer.sends, h⟩

/-- Reading a frame keeps the connection in step, if it keeps it. -/
theorem inStep_nxmbTcpReadFrame (hmax : dataMax + 2 < 2 ^ 16) (h : conn.InStep) (now : Int)
    (client : TcpClient dataMax) : ∀ conn' ∈ (nxmbTcpReadFrame now client conn).2.fd, conn'.InStep := by
  obtain ⟨rest, hframes, hawaiting⟩ := h
  have hread := readFrame_spec hmax hawaiting
  unfold nxmbTcpReadFrame
  generalize readFrame dataMax conn.arrivals = r at hread ⊢
  obtain ⟨errno | f, l⟩ := r
  · cases l with
    | none => exact fun conn' h => nomatch h
    | some l' => exact fun conn' h => Option.mem_some.mp h ▸ ⟨rest, hframes, hread⟩
  obtain ⟨behind, l', rfl, rfl, hbehind⟩ := hread
  refine fun conn' h => Option.mem_some.mp h ▸ ⟨behind, ?_, hbehind⟩
  rw [hframes, append_assoc, singleton_append]

theorem inStep_nxmbTcpEvictIdle (h : InStep clients) (now : Int) : InStep (nxmbTcpEvictIdle cfg now clients) := by
  intro client hmem conn hconn
  obtain ⟨old, hold, rfl⟩ := mem_map.mp hmem
  split_ifs at hconn
  · cases hconn
  · exact h old hold conn hconn

theorem inStep_nxmbTcpAcceptNew (h : InStep clients) (hconn : conn.InStep) (now : Int) :
    InStep (nxmbTcpAcceptNew conn now clients) := by
  induction clients with
  | nil => exact h
  | cons client clients ih =>
    obtain ⟨hclient, hclients⟩ := forall_mem_cons.mp h
    rw [nxmbTcpAcceptNew]
    split
    · exact forall_mem_cons.mpr ⟨fun conn' h => Option.mem_some.mp h ▸ hconn, hclients⟩
    · exact forall_mem_cons.mpr ⟨hclient, ih hclients⟩

theorem inStep_readFirst (hmax : dataMax + 2 < 2 ^ 16) (h : InStep clients) (now : Int) (ready : Nat → Bool) (i : Nat) :
    InStep (readFirst now ready i clients).2 := by
  induction clients generalizing i with
  | nil => exact h
  | cons client clients ih =>
    obtain ⟨hclient, hclients⟩ := forall_mem_cons.mp h
    rw [readFirst]
    split
    · rename_i conn hfd _
      exact forall_mem_cons.mpr ⟨inStep_nxmbTcpReadFrame hmax (hclient conn hfd) now client, hclients⟩
    · exact forall_mem_cons.mpr ⟨hclient, ih hclients (i + 1)⟩

theorem inStep_clientReceive (hmax : dataMax + 2 < 2 ^ 16) (h : InStep s.clients) (poll : Poll dataMax) :
    InStep (clientReceive s poll).2.clients := by
  rw [clientReceive]
  split
  · exact h
  rename_i client clients hclients
  split
  · exact h
  rename_i conn hfd
  rw [hclients] at h
  obtain ⟨hclient, hrest⟩ := forall_mem_cons.mp h
  exact forall_mem_cons.mpr ⟨inStep_nxmbTcpReadFrame hmax (hclient conn hfd) poll.readAt client, hrest⟩

/-- No peer that connects waits inside a header. -/
def TcpCall.Timely : TcpCall dataMax → Prop
  | .receive poll => ∀ peer slots, poll.selected = .ready (some (some peer)) slots → peer.Timely
  | .send _ _ _ => True

theorem inStep_acceptPeer (h : InStep clients) (listening : Bool) (now : Int) {peer : Option (Option (Peer dataMax))}
    (hpeer : ∀ p, peer = some (some p) → p.Timely) : InStep (acceptPeer listening now clients peer) := by
  unfold acceptPeer
  split
  · split_ifs
    · exact inStep_nxmbTcpAcceptNew h (Peer.inStep_connect (hpeer _ rfl)) now
    · exact h
  · exact h

theorem clients_serverResult (listening : Bool)
    (read : Option (Nat × Except Errno (TcpFrame dataMax)) × List (TcpClient dataMax)) :
    (serverResult listening read).2.clients = read.2 := by
  unfold serverResult
  split <;> rfl

theorem inStep_serverReceive (hmax : dataMax + 2 < 2 ^ 16) (h : InStep s.clients) {poll : Poll dataMax}
    (htimely : (TcpCall.receive poll).Timely) : InStep (serverReceive cfg s poll).2.clients := by
  have hkept : InStep (nxmbTcpEvictIdle cfg poll.now s.clients) := inStep_nxmbTcpEvictIdle h poll.now
  rw [serverReceive]
  split_ifs
  · exact hkept
  split
  · exact hkept
  · exact hkept
  rename_i peer slots hselected
  rw [clients_serverResult]
  refine inStep_readFirst hmax (inStep_acceptPeer hkept _ _ fun p hp => ?_) _ _ _
  exact htimely p slots (hp ▸ hselected)

theorem fds_nxmbTcpSend (cfg : TcpConfig) (s : TcpState dataMax) (adu : Adu dataMax) (written : Except Errno Nat)
    (now : Int) :
    (nxmbTcpSend cfg s adu written now).2.clients.map TcpClient.fd = s.clients.map TcpClient.fd := by
  rw [nxmbTcpSend]
  split
  · rfl
  split
  · rfl
  rename_i client hclient
  split_ifs
  · rfl
  split
  · rfl
  dsimp only
  split_ifs
  · rfl
  obtain ⟨hi, rfl⟩ := List.getElem?_eq_some_iff.mp hclient
  have hi' := hi.trans_eq (length_map TcpClient.fd).symm
  rw [map_set, ← getElem_map TcpClient.fd (h := hi'), set_getElem_self]

theorem inStep_nxmbTcpSend (h : InStep s.clients) (adu : Adu dataMax) (written : Except Errno Nat) (now : Int) :
    InStep (nxmbTcpSend cfg s adu written now).2.clients := by
  intro client hclient conn hconn
  have hfd : client.fd ∈ s.clients.map TcpClient.fd := by
    rw [← fds_nxmbTcpSend _ s adu written now]
    exact mem_map_of_mem hclient
  obtain ⟨old, hold, hold'⟩ := mem_map.mp hfd
  exact h old hold conn (hold' ▸ hconn)

theorem inStep_step (hmax : dataMax + 2 < 2 ^ 16) (h : InStep s.clients) {call : TcpCall dataMax}
    (hcall : call.Timely) : InStep (s.step cfg call).clients := by
  cases call with
  | receive poll =>
    rw [TcpState.step, nxmbTcpReceive]
    split_ifs
    · exact inStep_clientReceive hmax h poll
    · exact inStep_serverReceive hmax h hcall
  | send adu written now => exact inStep_nxmbTcpSend h adu written now

/-- The states that `nxmb_tcp_init` leaves, for a client with a peer that does not wait inside a
header. -/
def TcpState.Initial (cfg : TcpConfig) (s : TcpState dataMax) : Prop :=
  s = .served cfg ∨ ∃ peer now, peer.Timely ∧ s = .connected cfg peer now

theorem inStep_initial (h : s.Initial cfg) : InStep s.clients := by
  have hfresh : ∀ client ∈ replicate cfg.maxClients (⟨none, 0, 0⟩ : TcpClient dataMax), client.fd = none :=
    fun client hmem => (eq_of_mem_replicate hmem).symm ▸ rfl
  rcases h with rfl | ⟨peer, now, hpeer, rfl⟩
  · intro client hmem conn hconn
    rw [hfresh client hmem] at hconn
    cases hconn
  intro client hmem conn hconn
  rcases mem_or_eq_of_mem_set hmem with hmem | rfl
  · rw [hfresh client hmem] at hconn
    cases hconn
  · exact Option.mem_some.mp hconn ▸ Peer.inStep_connect hpeer

/-- In every run of a client or a server, what an open connection has reported is the beginning of
what its peer has sent, if no peer waits too long inside a header. -/
theorem nxmbTcpReceive_prefix (hmax : dataMax + 2 < 2 ^ 16) (hs : s.Initial cfg) {calls : List (TcpCall dataMax)}
    (hcalls : ∀ call ∈ calls, call.Timely) :
    ∀ client ∈ (run (TcpState.step cfg) s calls).clients, ∀ conn ∈ client.fd, conn.reported <+: conn.frames := by
  have hrun : InStep (run (TcpState.step cfg) s calls).clients :=
    run_induct (I := fun s : TcpState dataMax => InStep s.clients) (fun _ _ h hcall => inStep_step hmax h hcall)
      (inStep_initial hs) (Meets.of_labels hcalls)
  intro client hmem conn hconn
  obtain ⟨rest, hframes, -⟩ := hrun client hmem conn hconn
  exact ⟨rest, hframes.symm⟩

end

/-! ## A response with three registers -/

def oneClient : TcpConfig := ⟨true, 1, 60⟩

/-- The registers hold 0, 2 and 0x1103. -/
def threeRegisters : TcpFrame 252 := ⟨0, 17, 3, [6, 0, 0, 0, 2, 17, 3], by decide⟩

/-- The response comes late and in two pieces. -/
def latePeer : Peer 252 where
  frames := [threeRegisters]
  arrivals := [.silence, .data [0, 0, 0], .data [0, 0, 9, 17, 3, 6, 0, 0, 0, 2, 17, 3]]
  sends := by decide

theorem latePeer_timely : latePeer.Timely := by
  intro w hw done f behind _ hinside
  obtain rfl : w = 0 := by simpa [waits, latePeer, Arrival.isWait] using hw
  exact absurd hinside.1 (Nat.not_lt_zero _)

def pollOnce : TcpCall 252 := .receive ⟨0, .timeout, 0, 0⟩

theorem pollOnce_timely : pollOnce.Timely := by
  intro peer slots h
  cases h

def latePeerRun : TcpState 252 :=
  run (TcpState.step oneClient) (.connected oneClient latePeer 0) (replicate 2 pollOnce)

theorem nxmbTcpReceive_prefix_latePeer :
    (latePeerRun.clients.map fun client => client.fd.map Connection.reported) = [some [threeRegisters]] ∧
      ∀ client ∈ latePeerRun.clients, ∀ conn ∈ client.fd, conn.reported <+: conn.frames :=
  ⟨by decide, nxmbTcpReceive_prefix (by decide) (.inr ⟨latePeer, 0, latePeer_timely, rfl⟩)
    fun _ hcall => eq_of_mem_replicate hcall ▸ pollOnce_timely⟩

/-- The same response, with a wait in front of the last byte of the header. -/
def slowPeer : Peer 252 where
  frames := [threeRegisters]
  arrivals := [.data [0, 0, 0, 0, 0, 9, 17], .silence, .data [3, 6, 0, 0, 0, 2, 17, 3]]
  sends := by decide

def slowPeerRun : TcpState 252 :=
  run (TcpState.step oneClient) (.connected oneClient slowPeer 0) (replicate 2 pollOnce)

/-- The last byte of the header and the data are reported as a frame. -/
theorem not_prefix_slowPeer :
    (slowPeerRun.clients.map fun client => client.fd.map Connection.reported) =
        [some [⟨0x0306, 17, 3, [], Nat.zero_le _⟩]] ∧
      ¬ ∀ client ∈ slowPeerRun.clients, ∀ conn ∈ client.fd, conn.reported <+: conn.frames := by
  decide

end Industry.Nxmodbus
