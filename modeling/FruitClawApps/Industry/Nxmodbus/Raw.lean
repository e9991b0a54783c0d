-- SUMMARY: The raw Modbus transport: what is submitted, no poll ever gets.
import FruitClawApps.Industry.Nxmodbus.EndToEnd
import FruitClawApps.Lib.Mealy

/-!
# The raw transport

`nxmb_raw_submit_rx` puts a data unit into the context. `nxmb_poll` asks the transport for one
first, which the raw transport refuses, so the poll ends before it looks at the context.
-/

namespace Industry.Nxmodbus

variable {σ : Type} {n : Nat} (cfg : ServerConfig σ)

/-- What `nxmb_poll` does: its result, whether it dispatches, and what it has the transport send. -/
structure Polled (σ : Type) (n : Nat) where
  ret : Except Errno Unit
  dispatched : Bool
  sent : Option (Ctx n)
  state : ServerState σ n

/-- `nxmb_poll` with what the transport returns for its receive call. -/
def pollWith (enabled : Bool) (received : Except Errno Nat) (s : ServerState σ n) : Polled σ n :=
  if !enabled then ⟨.error .again, false, none, s⟩
  else
    match received with
    | .error errno => ⟨.error errno, false, none, s⟩
    | .ok count =>
      if count = 0 ∨ s.ctx.length = 0 then ⟨.ok (), false, none, s⟩
      else if s.ctx.unitId ≠ addressBroadcast ∧ s.ctx.unitId ≠ cfg.unitId then ⟨.ok (), false, none, s⟩
      else
        let after := if s.ctx.length < 2 then s else nxmbDispatchFunction cfg s
        ⟨.ok (), true, if s.ctx.unitId ≠ addressBroadcast then some after.ctx else none, after⟩

/-- A data unit with its protocol number, as the application passes it. -/
structure RawAdu (n : Nat) extends Ctx n where
  protoId : UInt16

def nxmbRawSubmitRx (adu : RawAdu n) (s : ServerState σ n) : Except Errno Unit × ServerState σ n :=
  if adu.protoId ≠ 0 then (.error .proto, s)
  else if adu.length < 2 then (.error .inval, s)
  else if adu.length - 2 > n then (.error .msgSize, s)
  else (.ok (), { s with ctx := adu.toCtx })

/-- `-ENOTSUP`: the transport has no data units of its own. -/
def nxmbRawReceive : Except Errno Nat := .error (.other 138)

/-- What the transmit callback gets. -/
def nxmbRawSend (ctx : Ctx n) : RawAdu n := { ctx with protoId := 0 }

/-- A data unit and what has become of it when the next poll is over. -/
structure RawTurn (n : Nat) where
  adu : RawAdu n
  submitted : Except Errno Unit
  dispatched : Bool
  transmitted : Option (RawAdu n)

/-- `nxmb_raw_submit_rx`, then `nxmb_poll`. -/
def rawTurn (s : ServerState σ n) (adu : RawAdu n) : RawTurn n × ServerState σ n :=
  let submitted := nxmbRawSubmitRx adu s
  let polled := pollWith cfg true nxmbRawReceive submitted.2
  (⟨adu, submitted.1, polled.dispatched, polled.sent.map nxmbRawSend⟩, polled.state)

/-- An accepted data unit for the server has been dispatched, and its reply transmitted. -/
def RawTurn.Answered (turn : RawTurn n) : Prop :=
  turn.submitted = .ok () → turn.adu.unitId = cfg.unitId → turn.dispatched = true ∧ turn.transmitted.isSome

/-- Submission looks at nothing but the data unit. -/
theorem nxmbRawSubmitRx_eq_ok_iff (adu : RawAdu n) (s : ServerState σ n) :
    (nxmbRawSubmitRx adu s).1 = .ok () ↔ adu.protoId = 0 ∧ 2 ≤ adu.length ∧ adu.length ≤ 2 + n := by
  rw [nxmbRawSubmitRx]
  split_ifs with hproto hmin hmax
  · exact iff_of_false (by simp) (fun h => hproto h.1)
  · exact iff_of_false (by simp) (by omega)
  · exact iff_of_false (by simp) (by omega)
  · exact iff_of_true rfl ⟨not_not.mp hproto, by omega, by omega⟩

theorem rawTurn_answered_iff (s : ServerState σ n) (adu : RawAdu n) :
    (rawTurn cfg s adu).1.Answered cfg ↔
      (adu.protoId = 0 → 2 ≤ adu.length → adu.length ≤ 2 + n → adu.unitId ≠ cfg.unitId) := by
  have hsilent : (rawTurn cfg s adu).1.dispatched = false := rfl
  constructor
  · intro h hproto hmin hmax hunit
    have hdispatched := (h ((nxmbRawSubmitRx_eq_ok_iff adu s).mpr ⟨hproto, hmin, hmax⟩) hunit).1
    cases hdispatched
  · intro h hsubmitted hunit
    obtain ⟨hproto, hmin, hmax⟩ := (nxmbRawSubmitRx_eq_ok_iff adu s).mp hsubmitted
    exact absurd hunit (h hproto hmin hmax)

/-- A sequence of data units is answered only if none of those accepted is for the server. -/
theorem raw_answered_iff (s : ServerState σ n) (adus : List (RawAdu n)) :
    (∀ turn ∈ Mealy.outputs (rawTurn cfg) s adus, turn.Answered cfg) ↔
      ∀ adu ∈ adus, adu.protoId = 0 → 2 ≤ adu.length → adu.length ≤ 2 + n → adu.unitId ≠ cfg.unitId := by
  -- a turn changes the state, so the induction is over every state
  induction adus generalizing s with
  | nil => simp
  | cons adu adus ih => rw [Mealy.outputs_cons, List.forall_mem_cons, List.forall_mem_cons, rawTurn_answered_iff, ih]

/-- A request to read the register is accepted, and nothing follows. -/
theorem not_raw_answered :
    ∃ (s : ServerState UInt16 smallest.size) (adu : RawAdu smallest.size),
      (nxmbRawSubmitRx adu s).1 = .ok () ∧ adu.unitId = oneRegisterServer.unitId ∧
        ¬ ∀ turn ∈ Mealy.outputs (rawTurn oneRegisterServer) s [adu], turn.Answered oneRegisterServer := by
  refine ⟨holdsFive.server, ⟨⟨17, 3, 6, [0, 0, 0, 1], rfl⟩, 0⟩, by decide, rfl, fun h => ?_⟩
  have hdispatched := (h _ (List.mem_singleton_self _) rfl rfl).1
  cases hdispatched

end Industry.Nxmodbus
