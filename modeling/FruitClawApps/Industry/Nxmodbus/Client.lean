-- SUMMARY: The Modbus client: requests, and what it makes of responses.
import FruitClawApps.Industry.Nxmodbus.Adu
import Mathlib.Algebra.BigOperators.Group.List.Basic

/-!
# Calls of the client

Each function of `core/nxmb_client.c` checks its arguments, sends a request, waits for a response
and takes the result from it. Here a function is the request and the last step, and one definition
has both done over any transport. A buffer that is read is a function on indices, and one that is
filled is the result.
-/

namespace Industry.Nxmodbus

open List

/-- `CONFIG_NXMODBUS_ADU_DATA_MAX`, with its range. -/
structure DataMax where
  size : Nat
  min : 4 ≤ size
  max : size ≤ 252

def smallest : DataMax := ⟨4, by decide, by decide⟩

def standard : DataMax := ⟨252, by decide, by decide⟩

/-- `NXMB_ADDRESS_BROADCAST`. -/
abbrev addressBroadcast : UInt8 := 0

abbrev fcReadCoils : UInt8 := 0x01
abbrev fcReadDiscrete : UInt8 := 0x02
abbrev fcReadHolding : UInt8 := 0x03
abbrev fcReadInput : UInt8 := 0x04
abbrev fcWriteCoil : UInt8 := 0x05
abbrev fcWriteHolding : UInt8 := 0x06
abbrev fcWriteCoils : UInt8 := 0x0f
abbrev fcWriteHoldings : UInt8 := 0x10
abbrev fcReadwriteHoldings : UInt8 := 0x17

/-- `enum nxmb_exception_e`, as far as a server that is written here returns one. -/
inductive Exception where
  | illegalFunction | illegalDataAddress | illegalDataValue | deviceFailure
deriving DecidableEq

def Exception.code : Exception → UInt8
  | .illegalFunction => 1
  | .illegalDataAddress => 2
  | .illegalDataValue => 3
  | .deviceFailure => 4

def nxmbExceptionToErrno (exception : UInt8) : Errno :=
  if exception = 1 then .nxio
  else if exception = 2 then .fault
  else if exception = 3 then .inval
  else if exception = 4 then .io
  else if exception = 5 ∨ exception = 6 then .busy
  else .proto

/-! ## Sending and waiting -/

section

variable {n : Nat} {τ : Type}

/-- `struct nxmb_transport_ops_s`. A receive call that returns zero reports nothing. -/
structure Transport (τ : Type) (n : Nat) where
  send : Adu n → τ → Except Errno Unit × τ
  receive : τ → Except Errno (Option (Adu n)) × τ

def nxmbClientValidateResponse (expectedUid expectedFc : UInt8) (adu : Adu n) : Except Errno Unit :=
  if adu.unitId ≠ expectedUid then .error .proto
  else if adu.fc = expectedFc ||| 0x80 then
    if adu.length < 3 then .error .proto else .error (nxmbExceptionToErrno (adu.data.getD 0 0))
  else if adu.fc ≠ expectedFc then .error .proto
  else .ok ()

/-- The loop of `nxmb_client_tx_wait_rx`, which takes so many turns before the deadline. -/
def waitRx (receive : τ → Except Errno (Option (Adu n)) × τ) : Nat → τ → Except Errno (Adu n) × τ
  | 0, t => (.error .timedOut, t)
  | turns + 1, t =>
    match receive t with
    | (.ok (some adu), t) => (.ok adu, t)
    | (.ok none, t) => waitRx receive turns t
    | (.error errno, t) => if errno = .again then waitRx receive turns t else (.error errno, t)

/-- `nxmb_client_tx_wait_rx`. It returns the data unit that it leaves in the context, which is the
request itself for a broadcast. -/
def nxmbClientTxWaitRx (tr : Transport τ n) (turns : Nat) (request : Adu n) (t : τ) : Except Errno (Adu n) × τ :=
  match tr.send request t with
  | (.error errno, t) => (.error errno, t)
  | (.ok (), t) =>
    if request.unitId = addressBroadcast then (.ok request, t)
    else
      match waitRx tr.receive turns t with
      | (.error errno, t) => (.error errno, t)
      | (.ok adu, t) => ((nxmbClientValidateResponse request.unitId request.fc adu).map fun _ => adu, t)

/-- A request that is answered has been sent, and its response has been received and is valid. -/
theorem nxmbClientTxWaitRx_ok {tr : Transport τ n} {turns : Nat} {request adu : Adu n} {t : τ}
    (huid : request.unitId ≠ addressBroadcast) (h : (nxmbClientTxWaitRx tr turns request t).1 = .ok adu) :
    ∃ t₁ t₂, tr.send request t = (.ok (), t₁) ∧ waitRx tr.receive turns t₁ = (.ok adu, t₂) ∧
      nxmbClientValidateResponse request.unitId request.fc adu = .ok () := by
  rw [nxmbClientTxWaitRx] at h
  split at h
  · cases h
  rename_i t₁ hsend
  rw [if_neg huid] at h
  split at h
  · cases h
  rename_i adu' t₂ hwait
  cases hvalid : nxmbClientValidateResponse request.unitId request.fc adu' with
  | error errno =>
    rw [hvalid] at h
    cases h
  | ok =>
    rw [hvalid] at h
    cases h
    exact ⟨t₁, t₂, hsend, hwait, hvalid⟩

end

/-! ## Requests and results -/

inductive Reply where
  | bits (buf : List UInt8)
  | registers (buf : List UInt16)
  | done
deriving DecidableEq

structure Transaction (m : DataMax) where
  request : Adu m.size
  /-- What becomes of the data unit that `nxmb_client_tx_wait_rx` leaves. -/
  finish : Adu m.size → Except Errno Reply

def nbytesOfBits (count : Nat) : Nat := (count + 7) / 8

/-- The registers that are in the data behind the byte count. -/
def registersOf (data : List UInt8) (count : Nat) : List UInt16 :=
  (range count).map fun i => nxmbUtilGetU16Be (data.getD (1 + i * 2) 0) (data.getD (1 + i * 2 + 1) 0)

/-- The bytes of the first registers of a buffer. -/
def bytesOfRegisters (buf : Nat → UInt16) (count : Nat) : List UInt8 :=
  (range count).flatMap fun i => nxmbUtilPutU16Be (buf i)

theorem length_bytesOfRegisters (buf : Nat → UInt16) (count : Nat) :
    (bytesOfRegisters buf count).length = count * 2 := by
  simp [bytesOfRegisters, nxmbUtilPutU16Be, length_flatMap]

section

variable (m : DataMax)

/-- A request with two numbers. -/
def twoNumbers (uid fc : UInt8) (a b : UInt16) : Adu m.size :=
  ⟨uid, fc, nxmbUtilPutU16Be a ++ nxmbUtilPutU16Be b, m.min⟩

def nxmbClientReadBits (uid fc : UInt8) (addr count : UInt16) : Transaction m where
  request := twoNumbers m uid fc addr count
  finish adu :=
    let nbytes := nbytesOfBits count.toNat
    if adu.length < 3 + nbytes ∨ (adu.data.getD 0 0).toNat ≠ nbytes then .error .proto
    else .ok (.bits ((adu.data.drop 1).take nbytes))

def nxmbClientReadRegs (uid fc : UInt8) (addr count : UInt16) : Transaction m where
  request := twoNumbers m uid fc addr count
  finish adu :=
    let nbytes := count.toNat * 2
    if adu.length < 3 + nbytes ∨ (adu.data.getD 0 0).toNat ≠ nbytes then .error .proto
    else .ok (.registers (registersOf adu.data count.toNat))

variable (uid : UInt8) (addr count : UInt16)

/-- The check of the functions that only write. A broadcast has no response. -/
def checkWritten (adu : Adu m.size) : Except Errno Reply :=
  if uid ≠ addressBroadcast ∧ adu.length < 6 then .error .proto else .ok .done

/-- A request that writes `bytes` to several places. -/
def writeMany (uid fc : UInt8) (addr count : UInt16) (bytes : List UInt8) : Except Errno (Transaction m) :=
  if h : 5 + bytes.length > m.size then .error .msgSize
  else
    .ok
      { request :=
          { unitId := uid
            fc := fc
            data := nxmbUtilPutU16Be addr ++ nxmbUtilPutU16Be count ++ UInt8.ofNat bytes.length :: bytes
            fits := by
              simp only [nxmbUtilPutU16Be, length_append, length_cons, length_nil]
              omega }
        finish := checkWritten m uid }

def nxmbReadCoils : Except Errno (Transaction m) :=
  if uid = addressBroadcast ∨ count = 0 ∨ count > 2000 then .error .inval
  else .ok (nxmbClientReadBits m uid fcReadCoils addr count)

def nxmbReadDiscrete : Except Errno (Transaction m) :=
  if uid = addressBroadcast ∨ count = 0 ∨ count > 2000 then .error .inval
  else .ok (nxmbClientReadBits m uid fcReadDiscrete addr count)

def nxmbReadInput : Except Errno (Transaction m) :=
  if uid = addressBroadcast ∨ count = 0 ∨ count > 125 then .error .inval
  else .ok (nxmbClientReadRegs m uid fcReadInput addr count)

def nxmbReadHolding : Except Errno (Transaction m) :=
  if uid = addressBroadcast ∨ count = 0 ∨ count > 125 then .error .inval
  else .ok (nxmbClientReadRegs m uid fcReadHolding addr count)

def nxmbWriteCoil (addr : UInt16) (value : Bool) : Transaction m where
  request := twoNumbers m uid fcWriteCoil addr (if value then 0xff00 else 0x0000)
  finish := checkWritten m uid

def nxmbWriteHolding (addr value : UInt16) : Transaction m where
  request := twoNumbers m uid fcWriteHolding addr value
  finish := checkWritten m uid

def nxmbWriteCoils (buf : Nat → UInt8) : Except Errno (Transaction m) :=
  if count = 0 ∨ count > 1968 then .error .inval
  else writeMany m uid fcWriteCoils addr count ((range (nbytesOfBits count.toNat)).map buf)

def nxmbWriteHoldings (buf : Nat → UInt16) : Except Errno (Transaction m) :=
  if count = 0 ∨ count > 123 then .error .inval
  else writeMany m uid fcWriteHoldings addr count (bytesOfRegisters buf count.toNat)

def nxmbReadwriteHoldings (rdAddr rdCount wrAddr wrCount : UInt16) (wrBuf : Nat → UInt16) :
    Except Errno (Transaction m) :=
  if uid = addressBroadcast ∨ rdCount = 0 ∨ rdCount > 125 ∨ wrCount = 0 ∨ wrCount > 121 then .error .inval
  else if h : 9 + wrCount.toNat * 2 > m.size then .error .msgSize
  else
    .ok
      { request :=
          { unitId := uid
            fc := fcReadwriteHoldings
            data := nxmbUtilPutU16Be rdAddr ++ nxmbUtilPutU16Be rdCount ++ nxmbUtilPutU16Be wrAddr ++
              nxmbUtilPutU16Be wrCount ++ UInt8.ofNat (wrCount.toNat * 2) :: bytesOfRegisters wrBuf wrCount.toNat
            fits := by
              simp only [nxmbUtilPutU16Be, length_append, length_cons, length_nil,
                length_bytesOfRegisters]
              omega }
        finish := (nxmbClientReadRegs m uid fcReadwriteHoldings rdAddr rdCount).finish }

/-- The calls of a client. -/
inductive Op where
  | readCoils (uid : UInt8) (addr count : UInt16)
  | readDiscrete (uid : UInt8) (addr count : UInt16)
  | readInput (uid : UInt8) (addr count : UInt16)
  | readHolding (uid : UInt8) (addr count : UInt16)
  | writeCoil (uid : UInt8) (addr : UInt16) (value : Bool)
  | writeHolding (uid : UInt8) (addr value : UInt16)
  | writeCoils (uid : UInt8) (addr count : UInt16) (buf : Nat → UInt8)
  | writeHoldings (uid : UInt8) (addr count : UInt16) (buf : Nat → UInt16)
  | readwriteHoldings (uid : UInt8) (rdAddr rdCount wrAddr wrCount : UInt16) (wrBuf : Nat → UInt16)

/-- What a call does before it sends the request. -/
def Op.start : Op → Except Errno (Transaction m)
  | .readCoils uid addr count => nxmbReadCoils m uid addr count
  | .readDiscrete uid addr count => nxmbReadDiscrete m uid addr count
  | .readInput uid addr count => nxmbReadInput m uid addr count
  | .readHolding uid addr count => nxmbReadHolding m uid addr count
  | .writeCoil uid addr value => .ok (nxmbWriteCoil m uid addr value)
  | .writeHolding uid addr value => .ok (nxmbWriteHolding m uid addr value)
  | .writeCoils uid addr count buf => nxmbWriteCoils m uid addr count buf
  | .writeHoldings uid addr count buf => nxmbWriteHoldings m uid addr count buf
  | .readwriteHoldings uid rdAddr rdCount wrAddr wrCount wrBuf =>
    nxmbReadwriteHoldings m uid rdAddr rdCount wrAddr wrCount wrBuf

variable {m}

def Transaction.perform {τ : Type} (tr : Transport τ m.size) (turns : Nat) (x : Transaction m) (t : τ) :
    Except Errno Reply × τ :=
  match nxmbClientTxWaitRx tr turns x.request t with
  | (.error errno, t) => (.error errno, t)
  | (.ok adu, t) => (x.finish adu, t)

/-- A call of a client over a transport. -/
def Op.call {τ : Type} (tr : Transport τ m.size) (turns : Nat) (op : Op) (t : τ) : Except Errno Reply × τ :=
  match op.start m with
  | .error errno => (.error errno, t)
  | .ok x => x.perform tr turns t

theorem Op.call_ok {τ : Type} {tr : Transport τ m.size} {turns : Nat} {op : Op} {t : τ} {r : Reply}
    (h : (op.call tr turns t).1 = .ok r) :
    ∃ x adu, op.start m = .ok x ∧ (nxmbClientTxWaitRx tr turns x.request t).1 = .ok adu ∧ x.finish adu = .ok r := by
  rw [Op.call] at h
  split at h
  · cases h
  rename_i x hx
  rw [Transaction.perform] at h
  split at h
  · cases h
  · rename_i adu t' hwait
    exact ⟨x, adu, hx, congrArg Prod.fst hwait, h⟩

end

end Industry.Nxmodbus
