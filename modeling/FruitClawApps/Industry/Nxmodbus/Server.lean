-- SUMMARY: The Modbus server: handlers that answer requests in place.
import FruitClawApps.Industry.Nxmodbus.Client
import FruitClawApps.Lib.Bytes

/-!
# The server

`nxmb_poll` in `core/nxmb_server.c` has the handler of the function code turn the request in
`ctx->adu` into the response. A handler gives the application a pointer into the data of the unit,
so the array is modelled with what earlier units have left in it. Diagnostics and the server
identifier are left out, as no call of the client sends them. So are handlers that an application
registers for codes without a handler of their own.
-/

namespace Industry.Nxmodbus

open Bytes

/-! ## Callbacks -/

inductive Table where
  | coil | discrete | input | holding
deriving DecidableEq

/-- `enum nxmb_regmode_e`. The callbacks for discrete inputs and input registers do not get it. -/
inductive Access where
  | read | write
deriving DecidableEq

/-- A callback returns a number, fills or changes the buffer that it is given, and may change its
own state. -/
structure Callback (σ : Type) where
  run : σ → List UInt8 → UInt16 → UInt16 → Access → Int × List UInt8 × σ
  inPlace : ∀ s buf addr qty access, (run s buf addr qty access).2.1.length = buf.length

/-- What has passed between the server and a callback. -/
structure CallbackCall where
  table : Table
  access : Access
  addr : UInt16
  qty : UInt16
  /-- The buffer when the callback is called. -/
  given : List UInt8
  ret : Int
  /-- The buffer when it has returned. -/
  left : List UInt8
deriving DecidableEq

/-- `-ENOENT`, the return value that stands for an unknown address. -/
abbrev noEntry : Int := -2

def nxmbCbRetToException (ret : Int) : Exception := if ret = noEntry then .illegalDataAddress else .deviceFailure

/-! ## The context -/

/-- `ctx->adu`. -/
structure Ctx (n : Nat) where
  unitId : UInt8
  fc : UInt8
  length : Nat
  data : List UInt8
  size : data.length = n
deriving DecidableEq

structure ServerState (σ : Type) (n : Nat) where
  /-- The state of the application. -/
  priv : σ
  log : List CallbackCall
  ctx : Ctx n

/-- The options of the build and of the instance. -/
structure ServerConfig (σ : Type) where
  unitId : UInt8
  callbacks : Table → Option (Callback σ)
  /-- The standard functions that are built in. -/
  supports : UInt8 → Bool

section

variable {σ : Type} {n : Nat}

namespace Ctx

/-- Writing to the data. No handler writes beyond them. -/
def put (c : Ctx n) (off : Nat) (bytes : List UInt8) : Ctx n :=
  if h : off + bytes.length ≤ n then
    { c with data := splice c.data off bytes, size := by rw [length_splice (by rwa [c.size]), c.size] }
  else c

def u16 (c : Ctx n) (off : Nat) : UInt16 := nxmbUtilGetU16Be (c.data.getD off 0) (c.data.getD (off + 1) 0)

/-- A transport leaves a data unit in the context. -/
def receive (c : Ctx n) (adu : Adu n) : Ctx n where
  unitId := adu.unitId
  fc := adu.fc
  length := adu.length
  data := overlay adu.data c.data adu.data.length
  size := by rw [length_overlay (Nat.le_refl _) (by rw [c.size]; exact adu.fits), c.size]

/-- The data unit that a transport sends. -/
def send (c : Ctx n) : Adu n :=
  ⟨c.unitId, c.fc, c.data.take (c.length - 2), (List.length_take_le' _ _).trans (Nat.le_of_eq c.size)⟩

end Ctx

/-- Calling back. -/
def ServerState.call (s : ServerState σ n) (cb : Callback σ) (table : Table) (access : Access) (given : List UInt8)
    (addr qty : UInt16) : Int × List UInt8 × ServerState σ n :=
  let (ret, left, priv) := cb.run s.priv given addr qty access
  (ret, left, { s with priv := priv, log := s.log ++ [⟨table, access, addr, qty, given, ret, left⟩] })

/-- Calling back with a part of the data. -/
def ServerState.callAt (s : ServerState σ n) (cb : Callback σ) (table : Table) (access : Access) (off len : Nat)
    (addr qty : UInt16) : Int × ServerState σ n :=
  let (ret, left, s) := s.call cb table access (slice s.ctx.data off len) addr qty
  (ret, { s with ctx := s.ctx.put off left })

/-- What a handler returns: `none` is `NXMB_EX_NONE`. -/
abbrev Handled (σ : Type) (n : Nat) : Type := Option Exception × ServerState σ n

/-- The end of a handler: a callback that fails makes an exception. -/
def finishWith (r : Int × ServerState σ n) (length : Nat) : Handled σ n :=
  if r.1 ≠ 0 then (some (nxmbCbRetToException r.1), r.2)
  else (none, { r.2 with ctx := { r.2.ctx with length := length } })

/-! ## Handlers -/

variable (cfg : ServerConfig σ)

/-- The handlers that read. -/
def readHandler (fc : UInt8) (table : Table) (qtyMax : Nat) (bytesOf : Nat → Nat) (clear : Bool) (s : ServerState σ n) :
    Handled σ n :=
  if s.ctx.length - 2 ≠ 4 then (some .illegalDataValue, s)
  else
    match cfg.callbacks table with
    | none => (some .illegalFunction, s)
    | some cb =>
      let addr := s.ctx.u16 0
      let qty := s.ctx.u16 2
      if qty.toNat < 1 ∨ qty.toNat > qtyMax then (some .illegalDataValue, s)
      else if addr.toNat + qty.toNat > 0xffff then (some .illegalDataAddress, s)
      else
        let nbytes := bytesOf qty.toNat % 256
        if 1 + nbytes > n then (some .illegalDataValue, s)
        else
          let ctx := { s.ctx with fc := fc }.put 0 [UInt8.ofNat nbytes]
          let ctx := if clear then ctx.put 1 (List.replicate nbytes 0) else ctx
          finishWith ({ s with ctx := ctx }.callAt cb table .read 1 nbytes addr qty) (2 + 1 + nbytes)

def bytesOfRegs (qty : Nat) : Nat := qty * 2

def nxmbFc01ReadCoils : ServerState σ n → Handled σ n := readHandler cfg fcReadCoils .coil 2000 nbytesOfBits true

def nxmbFc02ReadDiscrete : ServerState σ n → Handled σ n :=
  readHandler cfg fcReadDiscrete .discrete 2000 nbytesOfBits true

def nxmbFc03ReadHolding : ServerState σ n → Handled σ n := readHandler cfg fcReadHolding .holding 125 bytesOfRegs false

def nxmbFc04ReadInput : ServerState σ n → Handled σ n := readHandler cfg fcReadInput .input 125 bytesOfRegs false

variable (s : ServerState σ n)

def nxmbFc05WriteCoil : Handled σ n :=
  if s.ctx.length - 2 ≠ 4 then (some .illegalDataValue, s)
  else
    match cfg.callbacks .coil with
    | none => (some .illegalFunction, s)
    | some cb =>
      let addr := s.ctx.u16 0
      let value := s.ctx.u16 2
      if addr = 0xffff then (some .illegalDataAddress, s)
      else if value ≠ 0xff00 ∧ value ≠ 0x0000 then (some .illegalDataValue, s)
      else
        -- the callback gets a buffer of its own
        let (ret, _, s) := s.call cb .coil .write [if value = 0xff00 then 1 else 0, 0] addr 1
        finishWith (ret, s) s.ctx.length

def nxmbFc06WriteHolding : Handled σ n :=
  if s.ctx.length - 2 ≠ 4 then (some .illegalDataValue, s)
  else
    match cfg.callbacks .holding with
    | none => (some .illegalFunction, s)
    | some cb =>
      let addr := s.ctx.u16 0
      if addr = 0xffff then (some .illegalDataAddress, s)
      else finishWith (s.callAt cb .holding .write 2 2 addr 1) s.ctx.length

/-- The handlers that write to several places. -/
def writeHandler (table : Table) (qtyMax : Nat) (bytesOf : Nat → Nat) (s : ServerState σ n) : Handled σ n :=
  if s.ctx.length - 2 < 5 then (some .illegalDataValue, s)
  else
    match cfg.callbacks table with
    | none => (some .illegalFunction, s)
    | some cb =>
      let addr := s.ctx.u16 0
      let qty := s.ctx.u16 2
      let byteCount := (s.ctx.data.getD 4 0).toNat
      if qty.toNat < 1 ∨ qty.toNat > qtyMax then (some .illegalDataValue, s)
      else if addr.toNat + qty.toNat > 0xffff then (some .illegalDataAddress, s)
      else if byteCount ≠ bytesOf qty.toNat % 256 then (some .illegalDataValue, s)
      else if s.ctx.length - 2 ≠ 5 + byteCount then (some .illegalDataValue, s)
      else finishWith (s.callAt cb table .write 5 byteCount addr qty) (2 + 4)

def nxmbFc15WriteCoils : ServerState σ n → Handled σ n := writeHandler cfg .coil 1968 nbytesOfBits

def nxmbFc16WriteHoldings : ServerState σ n → Handled σ n := writeHandler cfg .holding 123 bytesOfRegs

/-- The two callbacks of `nxmb_fc23_readwrite_holding`. -/
def writeThenRead (cb : Callback σ) (wrBcnt : Nat) (wrAddr wrQty rdAddr rdQty : UInt16) (s : ServerState σ n) :
    Handled σ n :=
  let (ret, s) := s.callAt cb .holding .write 9 wrBcnt wrAddr wrQty
  if ret ≠ 0 then (some (nxmbCbRetToException ret), s)
  else
    let rdBcnt := rdQty.toNat * 2
    let ctx := { s.ctx with fc := fcReadwriteHoldings }.put 0 [UInt8.ofNat rdBcnt]
    finishWith ({ s with ctx := ctx }.callAt cb .holding .read 1 rdBcnt rdAddr rdQty) (2 + 1 + rdBcnt)

def nxmbFc23ReadwriteHolding : Handled σ n :=
  if s.ctx.length - 2 < 9 then (some .illegalDataValue, s)
  else
    match cfg.callbacks .holding with
    | none => (some .illegalFunction, s)
    | some cb =>
      let rdAddr := s.ctx.u16 0
      let rdQty := s.ctx.u16 2
      let wrAddr := s.ctx.u16 4
      let wrQty := s.ctx.u16 6
      let wrBcnt := (s.ctx.data.getD 8 0).toNat
      if rdQty.toNat < 1 ∨ rdQty.toNat > 125 ∨ wrQty.toNat < 1 ∨ wrQty.toNat > 121 ∨ wrBcnt ≠ wrQty.toNat * 2 then
        (some .illegalDataValue, s)
      else if rdAddr.toNat + rdQty.toNat > 0xffff then (some .illegalDataAddress, s)
      else if wrAddr.toNat + wrQty.toNat > 0xffff then (some .illegalDataAddress, s)
      else if s.ctx.length - 2 ≠ 9 + wrBcnt then (some .illegalDataValue, s)
      else if 1 + rdQty.toNat * 2 > n then (some .illegalDataValue, s)
      else writeThenRead cb wrBcnt wrAddr wrQty rdAddr rdQty s

/-! ## Dispatch -/

/-- `nxmb_lookup_standard_fc`. -/
def nxmbLookupStandardFc (fc : UInt8) : Option (ServerState σ n → Handled σ n) :=
  if !cfg.supports fc then none
  else if fc = fcReadCoils then some (nxmbFc01ReadCoils cfg)
  else if fc = fcReadDiscrete then some (nxmbFc02ReadDiscrete cfg)
  else if fc = fcReadHolding then some (nxmbFc03ReadHolding cfg)
  else if fc = fcReadInput then some (nxmbFc04ReadInput cfg)
  else if fc = fcWriteCoil then some (nxmbFc05WriteCoil cfg)
  else if fc = fcWriteHolding then some (nxmbFc06WriteHolding cfg)
  else if fc = fcWriteCoils then some (nxmbFc15WriteCoils cfg)
  else if fc = fcWriteHoldings then some (nxmbFc16WriteHoldings cfg)
  else if fc = fcReadwriteHoldings then some (nxmbFc23ReadwriteHolding cfg)
  else none

def nxmbBuildException (fc : UInt8) (exception : Exception) : ServerState σ n :=
  { s with ctx := { { s.ctx with fc := fc ||| 0x80 }.put 0 [exception.code] with length := 3 } }

def nxmbDispatchFunction : ServerState σ n :=
  match nxmbLookupStandardFc cfg s.ctx.fc with
  | none => nxmbBuildException s s.ctx.fc .illegalFunction
  | some handler =>
    match handler s with
    | (none, s') => s'
    | (some exception, s') => nxmbBuildException s' s.ctx.fc exception

/-- `nxmb_poll` when a data unit has been received: what it sends. -/
def nxmbPoll (adu : Adu n) (s : ServerState σ n) : Option (Adu n) × ServerState σ n :=
  let s := { s with ctx := s.ctx.receive adu }
  if adu.unitId ≠ addressBroadcast ∧ adu.unitId ≠ cfg.unitId then (none, s)
  else
    let s := nxmbDispatchFunction cfg s
    (if adu.unitId ≠ addressBroadcast then some s.ctx.send else none, s)

end

end Industry.Nxmodbus
