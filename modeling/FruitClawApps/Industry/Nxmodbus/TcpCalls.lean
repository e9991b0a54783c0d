-- SUMMARY: Which responses a Modbus TCP client takes for its own.
import FruitClawApps.Industry.Nxmodbus.Client
import FruitClawApps.Industry.Nxmodbus.TcpConnections

/-!
# Calls over TCP

The `trans_id` of a request is that of the last frame that was received, and the client does not
look at it in a response. A response that comes when its call has timed out stays on the connection,
and the next call takes it for its own if the unit, the function and the byte count are right.
-/

namespace Industry.Nxmodbus

open Mealy Transition List

section

variable {n : Nat}

/-! ## Responses on their way -/

/-- How the next bytes that a server has sent reach the client. -/
inductive Delivery where
  /-- So many bytes arrive at once. -/
  | piece (size : Nat)
  | silence
  | closed
  | selectFailed (errno : Errno)
  | recvFailed (errno : Errno)
deriving DecidableEq

def deliver : List Delivery → List UInt8 → List Arrival × List UInt8
  | [], pipe => ([], pipe)
  | .piece size :: ds, pipe =>
    let (l, rest) := deliver ds (pipe.drop size)
    (if pipe.take size = [] then l else .data (pipe.take size) :: l, rest)
  | .silence :: ds, pipe => (.silence :: (deliver ds pipe).1, (deliver ds pipe).2)
  | .closed :: ds, pipe => (.data [] :: (deliver ds pipe).1, (deliver ds pipe).2)
  | .selectFailed errno :: ds, pipe => (.selectFailed errno :: (deliver ds pipe).1, (deliver ds pipe).2)
  | .recvFailed errno :: ds, pipe => (.recvFailed errno :: (deliver ds pipe).1, (deliver ds pipe).2)

/-- A client and the bytes of responses that have not reached it. -/
structure Session (n : Nat) where
  tcp : TcpState n
  pipe : List UInt8

/-- A call and what happens meanwhile. -/
structure ClientCall (n : Nat) where
  op : Op
  /-- What `writev` returns for the request. -/
  written : Except Errno Nat
  /-- The response of the server, if it answers the request. -/
  answer : Option (TcpFrame n)
  deliveries : List Delivery
  /-- The turns of the loop before the deadline. -/
  turns : Nat
  now : Int

/-- What arrives on the connection is received behind what has arrived. -/
def TcpState.arrive (s : TcpState n) (more : List Arrival) : TcpState n :=
  { s with
    clients := s.clients.modifyHead fun client =>
      { client with fd := client.fd.map fun conn => { conn with arrivals := conn.arrivals ++ more } } }

/-- The server gets the request and answers it, and some bytes reach the client. -/
def Session.answered (s : Session n) (call : ClientCall n) : Session n :=
  let (more, pipe) := deliver call.deliveries (s.pipe ++ wire call.answer.toList)
  ⟨s.tcp.arrive more, pipe⟩

def tcpTransport (cfg : TcpConfig) (call : ClientCall n) : Transport (Session n) n where
  send adu s :=
    match nxmbTcpSend cfg s.tcp adu call.written call.now with
    | (.error errno, tcp) => (.error errno, { s with tcp := tcp })
    | (.ok _, tcp) => (.ok (), { s with tcp := tcp }.answered call)
  receive s :=
    let (result, tcp) := nxmbTcpReceive cfg s.tcp ⟨call.now, .timeout, call.now, call.now⟩
    (result.map fun f => some f.adu, { s with tcp := tcp })

def Session.step {m : DataMax} (cfg : TcpConfig) (s : Session m.size) (call : ClientCall m.size) :
    Except Errno Reply × Session m.size :=
  call.op.call (tcpTransport cfg call) call.turns s

/-! ## Waits and deliveries -/

theorem arriving_append (l l' : List Arrival) : arriving (l ++ l') = arriving l ++ arriving l' := flatMap_append

theorem waits_append (l l' : List Arrival) : waits (l ++ l') = waits l ++ (waits l').map ((arriving l).length + ·) := by
  induction l with
  | nil => simp [waits, arriving]
  | cons a l ih => simp [waits, arriving, ih, Function.comp_def, Nat.add_assoc]

theorem le_of_mem_waits {l : List Arrival} {w : Nat} (h : w ∈ waits l) : w ≤ (arriving l).length := by
  induction l generalizing w with
  | nil => cases h
  | cons a l ih =>
    rw [arriving, flatMap_cons, length_append]
    rcases mem_append.mp h with h | h
    · split_ifs at h
      · exact mem_singleton.mp h ▸ Nat.zero_le _
      · cases h
    · obtain ⟨w, hw, rfl⟩ := mem_map.mp h
      exact Nat.add_le_add_left (ih hw) _

theorem arriving_deliver (ds : List Delivery) (pipe : List UInt8) : arriving (deliver ds pipe).1 <+: pipe := by
  induction ds generalizing pipe with
  | nil => exact nil_prefix
  | cons d ds ih =>
    cases d with
    | piece size =>
      have hnext : pipe.take size ++ arriving (deliver ds (pipe.drop size)).1 <+: pipe := by
        conv_rhs => rw [← take_append_drop size pipe]
        exact (prefix_append_right_inj _).mpr (ih _)
      rw [deliver]
      split_ifs with hempty
      · rwa [hempty] at hnext
      · exact hnext
    | silence | closed | selectFailed | recvFailed => exact ih pipe

/-! ## Calls that are made when nothing is outstanding -/

/-- The frames are awaited on the connection of the client. -/
def TcpState.Awaits (s : TcpState n) (frames : List (TcpFrame n)) : Prop :=
  ∀ client ∈ s.clients.head?, ∀ conn ∈ client.fd, Awaiting frames conn.arrivals

/-- All bytes that the server has sent have been received. -/
def Session.Settled (s : Session n) : Prop :=
  s.pipe = [] ∧ ∀ client ∈ s.tcp.clients.head?, ∀ conn ∈ client.fd, arriving conn.arrivals = []

/-- The client does not wait too long for a byte of the header of the response. -/
def ClientCall.Timely (call : ClientCall n) : Prop :=
  ∀ w ∈ waits (deliver call.deliveries (wire call.answer.toList)).1, ¬ (0 < w ∧ w < mbapFcSize)

instance (s : Session n) : Decidable s.Settled :=
  inferInstanceAs (Decidable (_ ∧ ∀ client ∈ s.tcp.clients.head?, ∀ conn ∈ client.fd, arriving conn.arrivals = []))

instance (call : ClientCall n) : Decidable call.Timely :=
  inferInstanceAs (Decidable (∀ w ∈ waits (deliver call.deliveries (wire call.answer.toList)).1, ¬ _))

variable {cfg : TcpConfig} {s s' : Session n} {call : ClientCall n} {frames : List (TcpFrame n)}

theorem awaiting_arrived {l : List Arrival} (hl : arriving l = []) (htimely : call.Timely) :
    Awaiting call.answer.toList (l ++ (deliver call.deliveries (wire call.answer.toList)).1) where
  sends := by
    rw [arriving_append, hl]
    exact arriving_deliver _ _
  timely := by
    intro w hw done f behind hanswer
    obtain ⟨rfl, -⟩ : done = [] ∧ behind = [] := by
      have hlength := congrArg List.length hanswer
      have : call.answer.toList.length ≤ 1 := by cases call.answer <;> simp
      rw [length_append, length_cons] at hlength
      exact ⟨eq_nil_of_length_eq_zero (by omega), eq_nil_of_length_eq_zero (by omega)⟩
    rw [waits_append, hl, length_nil] at hw
    rcases mem_append.mp hw with hw | hw
    · have := le_of_mem_waits hw
      rw [hl] at this
      exact fun hinside => Nat.not_lt_zero _ (Nat.lt_of_lt_of_le hinside.1 this)
    · obtain ⟨w', hw', rfl⟩ := mem_map.mp hw
      simpa [wire] using htimely w' hw'

theorem awaits_answered (hs : s.Settled) (htimely : call.Timely) : (s.answered call).tcp.Awaits call.answer.toList := by
  intro client hclient conn hconn
  obtain ⟨hpipe, harrivals⟩ := hs
  simp only [Session.answered, TcpState.arrive, hpipe, nil_append, head?_modifyHead, Option.mem_def,
    Option.map_eq_some_iff] at hclient
  obtain ⟨client, hhead, rfl⟩ := hclient
  obtain ⟨conn, hfd, rfl⟩ := Option.map_eq_some_iff.mp hconn
  exact awaiting_arrived (harrivals client hhead conn hfd) htimely

theorem settled_nxmbTcpSend (cfg : TcpConfig) (hs : s.Settled) (adu : Adu n) (written : Except Errno Nat) (now : Int) :
    { s with tcp := (nxmbTcpSend cfg s.tcp adu written now).2 }.Settled := by
  refine ⟨hs.1, fun client hclient conn hconn => ?_⟩
  have hfds := congrArg List.head? (fds_nxmbTcpSend cfg s.tcp adu written now)
  rw [head?_map, head?_map, Option.mem_def.mp hclient, Option.map_some] at hfds
  obtain ⟨old, hold, hfd⟩ := Option.map_eq_some_iff.mp hfds.symm
  exact hs.2 old hold conn (hfd ▸ hconn)

/-- A receive call either takes the frame that is awaited or leaves it awaited. -/
def Took (frames : List (TcpFrame n)) : Except Errno (TcpFrame n) × TcpState n → Prop
  | (.ok f, _) => ∃ behind, frames = f :: behind
  | (.error _, tcp) => tcp.Awaits frames

theorem took_clientReceive (hmax : n + 2 < 2 ^ 16) {tcp : TcpState n} (h : tcp.Awaits frames) (poll : Poll n) :
    Took frames (clientReceive tcp poll) := by
  obtain ⟨_ | ⟨client, clients⟩, listening, activeIdx⟩ := tcp
  · exact h
  obtain ⟨_ | conn, transId, lastActivity⟩ := client
  · exact h
  have hread := readFrame_spec hmax (h _ rfl conn rfl)
  simp only [clientReceive, nxmbTcpReadFrame]
  generalize readFrame n conn.arrivals = r at hread ⊢
  obtain ⟨errno | f, l⟩ := r
  · rintro client ⟨⟩ conn' hconn'
    cases l with
    | none => cases hconn'
    | some l =>
      cases hconn'
      exact hread
  · obtain ⟨behind, -, rfl, -⟩ := hread
    exact ⟨behind, rfl⟩

theorem took_receive (hcfg : cfg.isClient = true) (hmax : n + 2 < 2 ^ 16) (h : s.tcp.Awaits frames)
    {r : Except Errno (Option (Adu n))} (hreceive : (tcpTransport cfg call).receive s = (r, s')) :
    ∃ r', Took frames (r', s'.tcp) ∧ r = r'.map fun f => some f.adu := by
  simp only [tcpTransport, nxmbTcpReceive, hcfg, if_true] at hreceive
  cases hreceive
  exact ⟨_, took_clientReceive hmax h _, rfl⟩

/-- What the loop receives is a frame that was awaited. -/
theorem waitRx_awaits (hcfg : cfg.isClient = true) (hmax : n + 2 < 2 ^ 16) (h : s.tcp.Awaits frames) {turns : Nat}
    {adu : Adu n} (hwait : waitRx (tcpTransport cfg call).receive turns s = (.ok adu, s')) :
    ∃ f behind, frames = f :: behind ∧ adu = f.adu := by
  -- the awaited frame stays awaited over the turns that receive nothing
  induction turns generalizing s with
  | zero => cases hwait
  | succ turns ih =>
    rw [waitRx] at hwait
    split at hwait
    · rename_i hreceive
      obtain ⟨_ | f, htook, hr⟩ := took_receive hcfg hmax h hreceive
      · cases hr
      obtain ⟨behind, hframes⟩ := htook
      cases hr
      cases hwait
      exact ⟨f, behind, hframes, rfl⟩
    · rename_i hreceive
      obtain ⟨_ | f, -, hr⟩ := took_receive hcfg hmax h hreceive
      all_goals cases hr
    · rename_i hreceive
      obtain ⟨_ | f, htook, hr⟩ := took_receive hcfg hmax h hreceive
      · split_ifs at hwait
        · exact ih htook hwait
        · cases hwait
      · cases hr

end

/-! ## Results -/

/-- A call that returns data. -/
def Op.isRead : Op → Bool
  | .readCoils _ _ _ => true
  | .readDiscrete _ _ _ => true
  | .readInput _ _ _ => true
  | .readHolding _ _ _ => true
  | .readwriteHoldings _ _ _ _ _ _ => true
  | _ => false

variable {m : DataMax} {cfg : TcpConfig} {s : Session m.size} {call : ClientCall m.size}

theorem Op.isRead_unicast {op : Op} (h : op.isRead) {x : Transaction m} (hx : op.start m = .ok x) :
    x.request.unitId ≠ addressBroadcast := by
  cases op with
  | writeCoil | writeHolding | writeCoils | writeHoldings => cases h
  | readCoils uid addr count =>
    simp only [Op.start, nxmbReadCoils] at hx
    split_ifs at hx with hno
    cases hx
    exact fun h => hno (.inl h)
  | readDiscrete uid addr count =>
    simp only [Op.start, nxmbReadDiscrete] at hx
    split_ifs at hx with hno
    cases hx
    exact fun h => hno (.inl h)
  | readInput uid addr count =>
    simp only [Op.start, nxmbReadInput] at hx
    split_ifs at hx with hno
    cases hx
    exact fun h => hno (.inl h)
  | readHolding uid addr count =>
    simp only [Op.start, nxmbReadHolding] at hx
    split_ifs at hx with hno
    cases hx
    exact fun h => hno (.inl h)
  | readwriteHoldings uid rdAddr rdCount wrAddr wrCount wrBuf =>
    simp only [Op.start, nxmbReadwriteHoldings] at hx
    split_ifs at hx with hno
    cases hx
    exact fun h => hno (.inl h)

/-- The result is what the call makes of the response of the server to its request. -/
def ClientCall.Own (call : ClientCall m.size) (r : Reply) : Prop :=
  ∃ f x, call.answer = some f ∧ call.op.start m = .ok x ∧ x.finish f.adu = .ok r

theorem own_step (hcfg : cfg.isClient = true) (hs : s.Settled) (htimely : call.Timely) (hread : call.op.isRead)
    {r : Reply} (h : (Session.step cfg s call).1 = .ok r) : call.Own r := by
  have hmax : m.size + 2 < 2 ^ 16 := Nat.lt_of_le_of_lt (Nat.add_le_add_right m.max 2) (by decide)
  obtain ⟨x, adu, hx, hwait, hfinish⟩ := Op.call_ok h
  obtain ⟨s₁, s₂, hsend, hrx, -⟩ := nxmbClientTxWaitRx_ok (Op.isRead_unicast hread hx) hwait
  have hawaits : s₁.tcp.Awaits call.answer.toList := by
    have hsettled := settled_nxmbTcpSend cfg hs x.request call.written call.now
    simp only [tcpTransport] at hsend
    generalize nxmbTcpSend cfg s.tcp x.request call.written call.now = r at hsend hsettled
    obtain ⟨_ | bytes, tcp⟩ := r
    · cases hsend
    · cases hsend
      exact awaits_answered hsettled htimely
  obtain ⟨f, behind, hframes, rfl⟩ := waitRx_awaits hcfg hmax hawaits hrx
  have hanswer : call.answer = some f := by
    cases hcall : call.answer with
    | none =>
      rw [hcall] at hframes
      cases hframes
    | some g =>
      rw [hcall] at hframes
      cases hframes
      rfl
  exact ⟨f, x, hanswer, hx, hfinish⟩

/-- In every run of a client over one connection whose calls are made when no response is
outstanding, every read call that succeeds returns the data of the response to its own request. -/
theorem clientCalls_own (hcfg : cfg.isClient = true) {calls : List (ClientCall m.size)}
    (hcalls : Meets (next (Session.step cfg)) (fun s call => s.Settled ∧ call.Timely) s calls) :
    Meets (next (Session.step cfg))
      (fun s call => call.op.isRead → ∀ r, (Session.step cfg s call).1 = .ok r → call.Own r) s calls :=
  meets_induct (I := fun _ => True)
    (fun _ _ _ h => ⟨trivial, fun hread _ hr => own_step hcfg h.1 h.2 hread hr⟩) trivial hcalls

/-! ## A response that is late -/

/-- A server that has 1 in register 0 and 2 in register 100 answers calls that read one of them. The
client has one turn for each of them. -/
def readRegister (addr : UInt16) (value : UInt8) (deliveries : List Delivery) : ClientCall standard.size where
  op := .readHolding 17 addr 1
  written := .ok 12
  answer := some ⟨0, 17, 3, [2, 0, value], (by decide : 3 ≤ 252)⟩
  deliveries := deliveries
  turns := 1
  now := 0

def newSession : Session standard.size := ⟨.connected oneClient ⟨[], [], nil_prefix⟩ 0, []⟩

def promptCalls : List (ClientCall standard.size) :=
  [readRegister 0 1 [.piece 11], readRegister 100 2 [.piece 4, .piece 7]]

theorem clientCalls_own_promptCalls :
    outputs (Session.step oneClient) newSession promptCalls = [.ok (.registers [1]), .ok (.registers [2])] ∧
      Meets (next (Session.step oneClient))
        (fun s call => call.op.isRead → ∀ r, (Session.step oneClient s call).1 = .ok r → call.Own r) newSession
        promptCalls :=
  ⟨by decide, clientCalls_own rfl (by decide)⟩

/-- The first response comes when its call has timed out. -/
def lateCalls : List (ClientCall standard.size) := [readRegister 0 1 [], readRegister 100 2 [.piece 11]]

/-- The second call returns the contents of register 0. -/
theorem not_own_lateCalls :
    outputs (Session.step oneClient) newSession lateCalls = [.error .timedOut, .ok (.registers [1])] ∧
      ¬ Meets (next (Session.step oneClient))
        (fun s call => call.op.isRead → ∀ r, (Session.step oneClient s call).1 = .ok r → call.Own r) newSession
        lateCalls := by
  refine ⟨by decide, fun h => ?_⟩
  obtain ⟨f, x, hf, hx, hr⟩ := h.2.1 rfl (.registers [1]) (by decide)
  cases hf
  cases hx
  exact absurd hr (by decide)

end Industry.Nxmodbus
