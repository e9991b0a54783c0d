-- SUMMARY: Modbus client and server: what a result says about the callbacks.
import FruitClawApps.Industry.Nxmodbus.Server

/-!
# Client and server

The limits on addresses and counts are written down in the client and again in the server. A call
succeeds only if the server has called back the application once for each operation, with what the
call was given, and the callbacks have succeeded. A broadcast is not answered, so there the result
says nothing about the callback.
-/

namespace Industry.Nxmodbus

open Bytes List

/-! ## Operations -/

/-- A callback that a call is for, with the values if it writes some. -/
structure Operation where
  table : Table
  access : Access
  addr : UInt16
  qty : UInt16
  values : Option (List UInt8)

/-- The callback has run for the operation and has succeeded. -/
structure Operation.RanAs (o : Operation) (c : CallbackCall) : Prop where
  table : c.table = o.table
  access : c.access = o.access
  addr : c.addr = o.addr
  qty : c.qty = o.qty
  values : ∀ bytes ∈ o.values, c.given = bytes
  succeeded : c.ret = 0

/-- The registers in a buffer. -/
def registersIn (buf : List UInt8) (count : Nat) : List UInt16 :=
  (range count).map fun i => nxmbUtilGetU16Be (buf.getD (i * 2) 0) (buf.getD (i * 2 + 1) 0)

def coilBuffer (value : Bool) : List UInt8 := [if value then 1 else 0, 0]

def Op.operations : Op → List Operation
  | .readCoils _ addr count => [⟨.coil, .read, addr, count, none⟩]
  | .readDiscrete _ addr count => [⟨.discrete, .read, addr, count, none⟩]
  | .readInput _ addr count => [⟨.input, .read, addr, count, none⟩]
  | .readHolding _ addr count => [⟨.holding, .read, addr, count, none⟩]
  | .writeCoil _ addr value => [⟨.coil, .write, addr, 1, some (coilBuffer value)⟩]
  | .writeHolding _ addr value => [⟨.holding, .write, addr, 1, some (nxmbUtilPutU16Be value)⟩]
  | .writeCoils _ addr count buf =>
    [⟨.coil, .write, addr, count, some ((range (nbytesOfBits count.toNat)).map buf)⟩]
  | .writeHoldings _ addr count buf => [⟨.holding, .write, addr, count, some (bytesOfRegisters buf count.toNat)⟩]
  | .readwriteHoldings _ rdAddr rdCount wrAddr wrCount wrBuf =>
    [⟨.holding, .write, wrAddr, wrCount, some (bytesOfRegisters wrBuf wrCount.toNat)⟩,
      ⟨.holding, .read, rdAddr, rdCount, none⟩]

/-- What the buffer that the last callback has left means to the caller. -/
def Op.produced (op : Op) (left : List UInt8) : Reply :=
  match op with
  | .readCoils _ _ _ => .bits left
  | .readDiscrete _ _ _ => .bits left
  | .readInput _ _ count => .registers (registersIn left count.toNat)
  | .readHolding _ _ count => .registers (registersIn left count.toNat)
  | .readwriteHoldings _ _ rdCount _ _ _ => .registers (registersIn left rdCount.toNat)
  | _ => .done

/-- The callbacks have run, once for each operation and in their order, and the result is what they
have produced. -/
def Op.Ran (op : Op) (calls : List CallbackCall) (r : Reply) : Prop :=
  List.Forall₂ Operation.RanAs op.operations calls ∧ ∀ c ∈ calls.getLast?, r = op.produced c.left

section

variable {σ : Type} {n off : Nat} {bytes stale : List UInt8} {addr : UInt16}

/-! ## Calling back -/

structure CalledAt (s : ServerState σ n) (table : Table) (access : Access) (off len : Nat) (addr qty : UInt16)
    (r : Int × ServerState σ n) (c : CallbackCall) : Prop where
  log : r.2.log = s.log ++ [c]
  table : c.table = table
  access : c.access = access
  addr : c.addr = addr
  qty : c.qty = qty
  given : c.given = slice s.ctx.data off len
  ret : c.ret = r.1
  left : c.left.length = len
  unitId : r.2.ctx.unitId = s.ctx.unitId
  fc : r.2.ctx.fc = s.ctx.fc
  data : r.2.ctx.data = splice s.ctx.data off c.left

theorem Ctx.put_data {c : Ctx n} (h : off + bytes.length ≤ n) : (c.put off bytes).data = splice c.data off bytes := by
  rw [Ctx.put, dif_pos h]

@[simp] theorem Ctx.put_unitId (c : Ctx n) (off : Nat) (bytes : List UInt8) : (c.put off bytes).unitId = c.unitId := by
  rw [Ctx.put]
  split <;> rfl

@[simp] theorem Ctx.put_fc (c : Ctx n) (off : Nat) (bytes : List UInt8) : (c.put off bytes).fc = c.fc := by
  rw [Ctx.put]
  split <;> rfl

theorem Ctx.put_zero (c : Ctx n) (x : UInt8) (h : 1 ≤ n) : ∃ tail, (c.put 0 [x]).data = x :: tail :=
  ⟨_, Ctx.put_data h⟩

theorem Ctx.put_one {c : Ctx n} {x : UInt8} {tail : List UInt8} (hdata : c.data = x :: tail)
    (h : 1 + bytes.length ≤ n) :
    ∃ tail, (c.put 1 bytes).data = x :: tail := by
  refine ⟨bytes ++ c.data.drop (1 + bytes.length), ?_⟩
  rw [Ctx.put_data h, splice, hdata]
  rfl

theorem calledAt (s : ServerState σ n) (cb : Callback σ) (table : Table) (access : Access) {len : Nat}
    (addr qty : UInt16) (h : off + len ≤ n) :
    ∃ c, CalledAt s table access off len addr qty (s.callAt cb table access off len addr qty) c := by
  have hleft := cb.inPlace s.priv (slice s.ctx.data off len) addr qty access
  have hlen : (slice s.ctx.data off len).length = len := length_slice (by rwa [s.ctx.size])
  generalize hrun : cb.run s.priv (slice s.ctx.data off len) addr qty access = run at hleft
  have hcall : s.callAt cb table access off len addr qty =
      (run.1,
        { priv := run.2.2
          log := s.log ++ [⟨table, access, addr, qty, slice s.ctx.data off len, run.1, run.2.1⟩]
          ctx := s.ctx.put off run.2.1 }) := by
    rw [← hrun]
    rfl
  rw [hcall]
  exact ⟨⟨table, access, addr, qty, slice s.ctx.data off len, run.1, run.2.1⟩,
    { log := rfl
      table := rfl
      access := rfl
      addr := rfl
      qty := rfl
      given := rfl
      ret := rfl
      left := hleft.trans hlen
      unitId := Ctx.put_unitId _ _ _
      fc := Ctx.put_fc _ _ _
      data := Ctx.put_data (by rw [hleft, hlen]; exact h) }⟩

/-! ## Handlers -/

/-- What a handler makes of a request: the callbacks run for the operations and the response is the
answer, or there is an exception, and then no callback of a single operation has written
anything. -/
def Served (operations : List Operation) (answer : List CallbackCall → List UInt8 → Prop) (s : ServerState σ n) :
    Handled σ n → Prop
  | (none, s') => ∃ calls, s'.log = s.log ++ calls ∧ List.Forall₂ Operation.RanAs operations calls ∧
      s'.ctx.unitId = s.ctx.unitId ∧ s'.ctx.fc = s.ctx.fc ∧ answer calls s'.ctx.send.data
  | (some _, s') => ∃ calls, s'.log = s.log ++ calls ∧ s'.ctx.unitId = s.ctx.unitId ∧
      (operations.length = 1 → ∀ c ∈ calls, c.access = .write → c.ret ≠ 0)

/-- The byte count and what the last callback has left. -/
def readAnswer (nbytes : Nat) (calls : List CallbackCall) (data : List UInt8) : Prop :=
  ∃ c, calls.getLast? = some c ∧ data = UInt8.ofNat nbytes :: c.left ∧ c.left.length = nbytes

def writeAnswer (_ : List CallbackCall) (data : List UInt8) : Prop := data.length = 4

variable {cfg : ServerConfig σ} {s : ServerState σ n} {operations : List Operation}
  {answer : List CallbackCall → List UInt8 → Prop}

theorem Served.refused (exception : Exception) : Served operations answer s (some exception, s) :=
  ⟨[], (append_nil _).symm, rfl, fun _ _ hc => nomatch hc⟩

variable (cb : Callback σ) (table : Table)

theorem served_readCall {s' : ServerState σ n} {before : List CallbackCall}
    (addr qty : UInt16) {nbytes : Nat} {tail : List UInt8} (hbefore : List.Forall₂ Operation.RanAs operations before)
    (hlog : s'.log = s.log ++ before) (hunit : s'.ctx.unitId = s.ctx.unitId) (hfc : s'.ctx.fc = s.ctx.fc)
    (hdata : s'.ctx.data = UInt8.ofNat nbytes :: tail) (hroom : 1 + nbytes ≤ n) :
    Served (operations ++ [⟨table, .read, addr, qty, none⟩]) (readAnswer nbytes) s
      (finishWith (s'.callAt cb table .read 1 nbytes addr qty) (2 + 1 + nbytes)) := by
  obtain ⟨c, hc⟩ := calledAt s' cb table .read addr qty hroom
  generalize s'.callAt cb table .read 1 nbytes addr qty = r at hc
  have hcalls : r.2.log = s.log ++ (before ++ [c]) := by rw [hc.log, hlog, append_assoc]
  rw [finishWith]
  split_ifs with hret
  · refine ⟨before ++ [c], hcalls, hc.unitId.trans hunit, fun hone call hcall hwrite => ?_⟩
    have hnone : operations = [] := by
      rw [length_append, length_singleton] at hone
      exact eq_nil_of_length_eq_zero (by omega)
    subst hnone
    cases hbefore
    rw [nil_append, mem_singleton] at hcall
    subst hcall
    cases hc.access.symm.trans hwrite
  rw [not_not] at hret
  have hran : Operation.RanAs ⟨table, .read, addr, qty, none⟩ c :=
    ⟨hc.table, hc.access, hc.addr, hc.qty, nofun, hc.ret.trans hret⟩
  have hpayload : (splice s'.ctx.data 1 c.left).take (1 + c.left.length) = s'.ctx.data.take 1 ++ c.left :=
    take_splice (by rw [hdata]; exact Nat.succ_pos _) c.left
  rw [hc.left, hdata] at hpayload
  refine ⟨before ++ [c], hcalls, rel_append hbefore (.cons hran .nil), hc.unitId.trans hunit, hc.fc.trans hfc, c,
    getLast?_concat, ?_, hc.left⟩
  change r.2.ctx.data.take (2 + 1 + nbytes - 2) = _
  rw [hc.data, hdata, Nat.add_assoc, Nat.add_sub_cancel_left]
  exact hpayload

theorem served_writeCall (addr qty : UInt16)
    (hgiven : slice s.ctx.data off bytes.length = bytes) (hroom : off + bytes.length ≤ n) (hmin : 4 ≤ n) :
    Served [⟨table, .write, addr, qty, some bytes⟩] writeAnswer s
      (finishWith (s.callAt cb table .write off bytes.length addr qty) (2 + 4)) := by
  obtain ⟨c, hc⟩ := calledAt s cb table .write addr qty hroom
  generalize s.callAt cb table .write off bytes.length addr qty = r at hc
  rw [finishWith]
  split_ifs with hret
  · refine ⟨[c], hc.log, hc.unitId, fun _ call hcall _ => ?_⟩
    obtain rfl := mem_singleton.mp hcall
    rwa [hc.ret]
  rw [not_not] at hret
  refine ⟨[c], hc.log, .cons ⟨hc.table, hc.access, hc.addr, hc.qty, fun b hb => ?_, hc.ret.trans hret⟩ .nil,
    hc.unitId, hc.fc, ?_⟩
  · rw [hc.given, hgiven]
    exact Option.some.inj hb
  change (r.2.ctx.data.take 4).length = 4
  rw [length_take, r.2.ctx.size]
  omega

/-- Requests begin with two numbers. -/
theorem Ctx.u16_of_data {c : Ctx n} {a b : UInt16} {tail : List UInt8}
    (h : c.data = nxmbUtilPutU16Be a ++ nxmbUtilPutU16Be b ++ tail) : c.u16 0 = a ∧ c.u16 2 = b := by
  simp [Ctx.u16, h, nxmbUtilPutU16Be]

theorem served_readHandler {fc : UInt8} {table : Table} {qtyMax : Nat} {bytesOf : Nat → Nat} (clear : Bool)
    {count : UInt16} (hdata : s.ctx.data = nxmbUtilPutU16Be addr ++ nxmbUtilPutU16Be count ++ stale)
    (hlength : s.ctx.length = 6) (hfc : s.ctx.fc = fc) (hbytes : ∀ q ≤ qtyMax, bytesOf q < 256) :
    Served [⟨table, .read, addr, count, none⟩] (readAnswer (bytesOf count.toNat)) s
      (readHandler cfg fc table qtyMax bytesOf clear s) := by
  obtain ⟨haddr, hcount⟩ := Ctx.u16_of_data hdata
  rw [readHandler, if_neg (by rw [hlength]; decide)]
  split
  · exact .refused _
  rename_i cb _
  simp only [haddr, hcount]
  by_cases hqty : count.toNat < 1 ∨ count.toNat > qtyMax
  · rw [if_pos hqty]
    exact .refused _
  have hsmall : bytesOf count.toNat < 256 := hbytes _ (by omega)
  rw [if_neg hqty, Nat.mod_eq_of_lt hsmall]
  by_cases haddress : addr.toNat + count.toNat > 0xffff
  · rw [if_pos haddress]
    exact .refused _
  rw [if_neg haddress]
  by_cases hroom : 1 + bytesOf count.toNat > n
  · rw [if_pos hroom]
    exact .refused _
  rw [if_neg hroom]
  obtain ⟨tail, htail⟩ := Ctx.put_zero { s.ctx with fc := fc } (UInt8.ofNat (bytesOf count.toNat)) (by omega)
  cases clear with
  | false =>
    exact served_readCall (s := s) cb table addr count .nil (append_nil _).symm (Ctx.put_unitId _ _ _)
      ((Ctx.put_fc _ _ _).trans hfc.symm) htail (by omega)
  | true =>
    have hclear : 1 + (replicate (bytesOf count.toNat) (0 : UInt8)).length ≤ n := by
      rw [length_replicate]
      omega
    obtain ⟨tail', htail'⟩ := Ctx.put_one htail hclear
    exact served_readCall (s := s) cb table addr count .nil (append_nil _).symm
      ((Ctx.put_unitId _ _ _).trans (Ctx.put_unitId _ _ _))
      (((Ctx.put_fc _ _ _).trans (Ctx.put_fc _ _ _)).trans hfc.symm) htail' (by omega)

theorem served_writeHandler {table : Table} {qtyMax : Nat} {bytesOf : Nat → Nat} {count : UInt16}
    (hdata : s.ctx.data =
      nxmbUtilPutU16Be addr ++ nxmbUtilPutU16Be count ++ (UInt8.ofNat bytes.length :: bytes ++ stale))
    (hlength : s.ctx.length = 7 + bytes.length) :
    Served [⟨table, .write, addr, count, some bytes⟩] writeAnswer s (writeHandler cfg table qtyMax bytesOf s) := by
  obtain ⟨haddr, hcount⟩ := Ctx.u16_of_data hdata
  have hsize : n = 5 + bytes.length + stale.length := by
    rw [← s.ctx.size, hdata]
    simp [nxmbUtilPutU16Be]
    omega
  have hbyte : s.ctx.data.getD 4 0 = UInt8.ofNat bytes.length := by
    rw [hdata]
    rfl
  rw [writeHandler, if_neg (by omega)]
  split
  · exact .refused _
  rename_i cb _
  simp only [haddr, hcount, hbyte]
  split_ifs with hqty haddress hcountBytes hlen
  · exact .refused _
  · exact .refused _
  · exact .refused _
  · exact .refused _
  have hexact : (UInt8.ofNat bytes.length).toNat = bytes.length := by omega
  rw [hexact]
  refine served_writeCall cb table addr count ?_ (by omega) (by omega)
  rw [hdata]
  exact take_left

/-- A callback that writes from a buffer of its own leaves the request as it is. -/
theorem served_call (given : List UInt8) (addr qty : UInt16) (hmin : 4 ≤ n) (hlength : s.ctx.length = 6) :
    Served [⟨table, .write, addr, qty, some given⟩] writeAnswer s
      (finishWith ((s.call cb table .write given addr qty).1, (s.call cb table .write given addr qty).2.2)
        s.ctx.length) := by
  generalize hrun : cb.run s.priv given addr qty .write = run
  have hcall : s.call cb table .write given addr qty =
      (run.1, run.2.1,
        { s with priv := run.2.2, log := s.log ++ [⟨table, .write, addr, qty, given, run.1, run.2.1⟩] }) := by
    rw [← hrun]
    rfl
  rw [hcall, finishWith]
  by_cases hret : run.1 ≠ 0
  · rw [if_pos hret]
    refine ⟨_, rfl, rfl, fun _ call hcall _ => ?_⟩
    obtain rfl := mem_singleton.mp hcall
    exact hret
  rw [if_neg hret]
  rw [not_not] at hret
  refine ⟨_, rfl, .cons ⟨rfl, rfl, rfl, rfl, fun b hb => Option.some.inj hb, hret⟩ .nil, rfl, rfl, ?_⟩
  change (s.ctx.data.take (s.ctx.length - 2)).length = 4
  rw [length_take, s.ctx.size, hlength]
  omega

theorem served_nxmbFc05WriteCoil {value : Bool} (hmin : 4 ≤ n)
    (hdata : s.ctx.data = nxmbUtilPutU16Be addr ++ nxmbUtilPutU16Be (if value then 0xff00 else 0x0000) ++ stale)
    (hlength : s.ctx.length = 6) :
    Served [⟨.coil, .write, addr, 1, some (coilBuffer value)⟩] writeAnswer s (nxmbFc05WriteCoil cfg s) := by
  obtain ⟨haddr, hvalue⟩ := Ctx.u16_of_data hdata
  have hcoil : [if (if value then 0xff00 else 0x0000 : UInt16) = 0xff00 then 1 else 0, 0] = coilBuffer value := by
    cases value <;> rfl
  have hwire :
      ¬ ((if value then 0xff00 else 0x0000 : UInt16) ≠ 0xff00 ∧ (if value then 0xff00 else 0x0000 : UInt16) ≠ 0) := by
    cases value <;> decide
  rw [nxmbFc05WriteCoil, if_neg (by rw [hlength]; decide)]
  split
  · exact .refused _
  rename_i cb _
  simp only [haddr, hvalue, hcoil]
  by_cases hlast : addr = 0xffff
  · rw [if_pos hlast]
    exact .refused _
  · rw [if_neg hlast, if_neg hwire]
    exact served_call cb .coil (coilBuffer value) addr 1 hmin hlength

theorem served_nxmbFc06WriteHolding {value : UInt16} (hmin : 4 ≤ n)
    (hdata : s.ctx.data = nxmbUtilPutU16Be addr ++ nxmbUtilPutU16Be value ++ stale) (hlength : s.ctx.length = 6) :
    Served [⟨.holding, .write, addr, 1, some (nxmbUtilPutU16Be value)⟩] writeAnswer s (nxmbFc06WriteHolding cfg s) := by
  obtain ⟨haddr, -⟩ := Ctx.u16_of_data hdata
  have hgiven : slice s.ctx.data 2 (nxmbUtilPutU16Be value).length = nxmbUtilPutU16Be value := by
    rw [hdata]
    rfl
  rw [nxmbFc06WriteHolding, if_neg (by rw [hlength]; decide)]
  split
  · exact .refused _
  rename_i cb _
  simp only [haddr, hlength]
  split_ifs with hlast
  · exact .refused _
  · exact served_writeCall cb .holding addr 1 hgiven hmin hmin

theorem served_writeThenRead {wrAddr wrCount rdAddr rdCount : UInt16}
    (hgiven : slice s.ctx.data 9 bytes.length = bytes) (hsize : 9 + bytes.length ≤ n)
    (hroom : 1 + rdCount.toNat * 2 ≤ n) (hfc : s.ctx.fc = fcReadwriteHoldings) :
    Served [⟨.holding, .write, wrAddr, wrCount, some bytes⟩, ⟨.holding, .read, rdAddr, rdCount, none⟩]
      (readAnswer (rdCount.toNat * 2)) s (writeThenRead cb bytes.length wrAddr wrCount rdAddr rdCount s) := by
  obtain ⟨c, hc⟩ := calledAt s cb .holding .write wrAddr wrCount hsize
  rw [writeThenRead]
  generalize s.callAt cb .holding .write 9 bytes.length wrAddr wrCount = r at hc
  simp only
  by_cases hret : r.1 ≠ 0
  · rw [if_pos hret]
    exact ⟨[c], hc.log, hc.unitId, fun hone => absurd hone (by simp)⟩
  rw [if_neg hret]
  rw [not_not] at hret
  have hran : Operation.RanAs ⟨.holding, .write, wrAddr, wrCount, some bytes⟩ c :=
    ⟨hc.table, hc.access, hc.addr, hc.qty, fun b hb => by rw [hc.given, hgiven]; exact Option.some.inj hb,
      hc.ret.trans hret⟩
  obtain ⟨tail, htail⟩ := Ctx.put_zero { r.2.ctx with fc := fcReadwriteHoldings } (UInt8.ofNat (rdCount.toNat * 2))
    (by omega)
  exact served_readCall (s := s) cb .holding rdAddr rdCount (.cons hran .nil) hc.log
    ((Ctx.put_unitId _ _ _).trans hc.unitId) ((Ctx.put_fc _ _ _).trans hfc.symm) htail hroom

theorem served_nxmbFc23ReadwriteHolding {rdAddr rdCount wrAddr wrCount : UInt16}
    (hdata : s.ctx.data = nxmbUtilPutU16Be rdAddr ++ nxmbUtilPutU16Be rdCount ++ nxmbUtilPutU16Be wrAddr ++
      nxmbUtilPutU16Be wrCount ++ (UInt8.ofNat bytes.length :: bytes ++ stale))
    (hlength : s.ctx.length = 11 + bytes.length) (hfc : s.ctx.fc = fcReadwriteHoldings) :
    Served [⟨.holding, .write, wrAddr, wrCount, some bytes⟩, ⟨.holding, .read, rdAddr, rdCount, none⟩]
      (readAnswer (rdCount.toNat * 2)) s (nxmbFc23ReadwriteHolding cfg s) := by
  have hrdAddr : s.ctx.u16 0 = rdAddr := by simp [Ctx.u16, hdata, nxmbUtilPutU16Be]
  have hrdCount : s.ctx.u16 2 = rdCount := by simp [Ctx.u16, hdata, nxmbUtilPutU16Be]
  have hwrAddr : s.ctx.u16 4 = wrAddr := by simp [Ctx.u16, hdata, nxmbUtilPutU16Be]
  have hwrCount : s.ctx.u16 6 = wrCount := by simp [Ctx.u16, hdata, nxmbUtilPutU16Be]
  have hbyte : s.ctx.data.getD 8 0 = UInt8.ofNat bytes.length := by
    rw [hdata]
    rfl
  have hsize : n = 9 + bytes.length + stale.length := by
    rw [← s.ctx.size, hdata]
    simp [nxmbUtilPutU16Be]
    omega
  have hgiven : slice s.ctx.data 9 bytes.length = bytes := by
    rw [hdata]
    exact take_left
  rw [nxmbFc23ReadwriteHolding, if_neg (by omega)]
  split
  · exact .refused _
  rename_i cb _
  simp only [hrdAddr, hrdCount, hwrAddr, hwrCount, hbyte]
  split_ifs with hqty hrd hwr hlen hroom
  · exact .refused _
  · exact .refused _
  · exact .refused _
  · exact .refused _
  · exact .refused _
  · have hexact : (UInt8.ofNat bytes.length).toNat = bytes.length := by omega
    rw [hexact]
    exact served_writeThenRead cb hgiven (by omega) (by omega) hfc

end

/-! ## Requests of the client -/

section

variable {σ : Type} {m : DataMax} {cfg : ServerConfig σ} {op : Op} {x : Transaction m} {count addr : UInt16}
  {c : Ctx m.size} {calls : List CallbackCall} {adu : Adu m.size}

/-- The response that the client expects. -/
def Op.Answer : Op → List CallbackCall → List UInt8 → Prop
  | .readCoils _ _ count => readAnswer (nbytesOfBits count.toNat)
  | .readDiscrete _ _ count => readAnswer (nbytesOfBits count.toNat)
  | .readInput _ _ count => readAnswer (count.toNat * 2)
  | .readHolding _ _ count => readAnswer (count.toNat * 2)
  | .readwriteHoldings _ _ rdCount _ _ _ => readAnswer (rdCount.toNat * 2)
  | _ => writeAnswer

theorem nbytesOfBits_lt {count : Nat} (h : count ≤ 2000) : nbytesOfBits count < 256 := by
  rw [nbytesOfBits]
  omega

theorem bytesOfRegs_lt {count : Nat} (h : count ≤ 125) : bytesOfRegs count < 256 := by
  rw [bytesOfRegs]
  omega

variable {n : Nat}

theorem Ctx.receive_data (c : Ctx n) (adu : Adu n) :
    (c.receive adu).data = adu.data ++ c.data.drop adu.data.length := by
  simp only [Ctx.receive, overlay, take_length]

theorem lookup_inj {fc : UInt8} {handler handler' : ServerState σ m.size → Handled σ m.size}
    (hfc : nxmbLookupStandardFc cfg fc = some handler)
    (hstandard : nxmbLookupStandardFc cfg fc = if !cfg.supports fc then none else some handler') :
    handler = handler' := by
  rw [hstandard] at hfc
  split_ifs at hfc
  exact (Option.some.inj hfc).symm

theorem writeMany_ok {uid fc : UInt8} {bytes : List UInt8} (hx : writeMany m uid fc addr count bytes = .ok x) :
    x.request.unitId = uid ∧ x.request.fc = fc ∧ x.finish = checkWritten m uid ∧
      x.request.data = nxmbUtilPutU16Be addr ++ nxmbUtilPutU16Be count ++ UInt8.ofNat bytes.length :: bytes := by
  rw [writeMany] at hx
  split_ifs at hx
  cases hx
  exact ⟨rfl, rfl, rfl, rfl⟩

theorem served_writeMany {table : Table} {fc uid : UInt8} {qtyMax : Nat} {bytesOf : Nat → Nat} {bytes : List UInt8}
    (hx : writeMany m uid fc addr count bytes = .ok x) {s : ServerState σ m.size} (hs : s.ctx = c.receive x.request) :
    Served [⟨table, .write, addr, count, some bytes⟩] writeAnswer s (writeHandler cfg table qtyMax bytesOf s) := by
  obtain ⟨-, -, -, hrequest⟩ := writeMany_ok hx
  have hdata := c.receive_data x.request
  have hlength : s.ctx.length = 2 + x.request.data.length := by
    rw [hs]
    rfl
  rw [← hs, hrequest, append_assoc] at hdata
  refine served_writeHandler hdata ?_
  rw [hlength, hrequest]
  simp only [nxmbUtilPutU16Be, length_append, length_cons, length_nil]
  omega

/-- Every handler serves the requests that the client makes for it. -/
theorem served_request (hx : op.start m = .ok x) {handler : ServerState σ m.size → Handled σ m.size}
    (hfc : nxmbLookupStandardFc cfg x.request.fc = some handler) {s : ServerState σ m.size}
    (hs : s.ctx = c.receive x.request) : Served op.operations op.Answer s (handler s) := by
  have hdata := c.receive_data x.request
  rw [← hs] at hdata
  have hlength : s.ctx.length = 2 + x.request.data.length := by
    rw [hs]
    rfl
  have hcode : s.ctx.fc = x.request.fc := by
    rw [hs]
    rfl
  cases op with
  | readCoils uid addr count | readDiscrete uid addr count =>
    simp only [Op.start, nxmbReadCoils, nxmbReadDiscrete] at hx
    split_ifs at hx
    cases hx
    obtain rfl := lookup_inj hfc rfl
    exact served_readHandler true hdata hlength hcode fun _ => nbytesOfBits_lt
  | readInput uid addr count | readHolding uid addr count =>
    simp only [Op.start, nxmbReadInput, nxmbReadHolding] at hx
    split_ifs at hx
    cases hx
    obtain rfl := lookup_inj hfc rfl
    exact served_readHandler false hdata hlength hcode fun _ => bytesOfRegs_lt
  | writeCoil uid addr value =>
    cases hx
    obtain rfl := lookup_inj hfc rfl
    exact served_nxmbFc05WriteCoil m.min hdata hlength
  | writeHolding uid addr value =>
    cases hx
    obtain rfl := lookup_inj hfc rfl
    exact served_nxmbFc06WriteHolding m.min hdata hlength
  | writeCoils uid addr count buf | writeHoldings uid addr count buf =>
    simp only [Op.start, nxmbWriteCoils, nxmbWriteHoldings] at hx
    split_ifs at hx
    obtain ⟨-, hrequest, -, -⟩ := writeMany_ok hx
    rw [hrequest] at hfc
    obtain rfl := lookup_inj hfc rfl
    exact served_writeMany hx hs
  | readwriteHoldings uid rdAddr rdCount wrAddr wrCount wrBuf =>
    simp only [Op.start, nxmbReadwriteHoldings] at hx
    split_ifs at hx
    cases hx
    obtain rfl := lookup_inj hfc rfl
    have hbytes := length_bytesOfRegisters wrBuf wrCount.toNat
    rw [← hbytes, append_assoc] at hdata
    refine served_nxmbFc23ReadwriteHolding hdata ?_ hcode
    rw [hlength]
    simp only [nxmbUtilPutU16Be, length_append, length_cons, length_nil]
    omega

/-! ## What the client makes of the answer -/

theorem finish_readBits {uid fc : UInt8} (hcount : count.toNat ≤ 2000)
    (h : readAnswer (nbytesOfBits count.toNat) calls adu.data) :
    ∃ r, (nxmbClientReadBits m uid fc addr count).finish adu = .ok r ∧ ∀ c ∈ calls.getLast?, r = .bits c.left := by
  obtain ⟨c, hlast, hdata, hleft⟩ := h
  have hbyte : (UInt8.ofNat (nbytesOfBits count.toNat)).toNat = nbytesOfBits count.toNat :=
    UInt8.toNat_ofNat_of_lt' (nbytesOfBits_lt hcount)
  refine ⟨.bits c.left, ?_, fun c' hc' => ?_⟩
  · simp only [nxmbClientReadBits, Adu.length, hdata, getD_cons_zero, drop_succ_cons, drop_zero]
    rw [if_neg (by rw [hbyte, length_cons, hleft]; omega), ← hleft, take_length]
  · rw [hlast] at hc'
    rw [Option.some.inj hc']

theorem registersOf_cons (x : UInt8) (left : List UInt8) (count : Nat) :
    registersOf (x :: left) count = registersIn left count := by
  simp only [registersOf, registersIn, Nat.add_comm 1, getD_cons_succ]

theorem finish_readRegs (uid fc : UInt8) (addr : UInt16) (hcount : count.toNat ≤ 125)
    (h : readAnswer (count.toNat * 2) calls adu.data) :
    ∃ r, (nxmbClientReadRegs m uid fc addr count).finish adu = .ok r ∧
      ∀ c ∈ calls.getLast?, r = .registers (registersIn c.left count.toNat) := by
  obtain ⟨c, hlast, hdata, hleft⟩ := h
  have hbyte : (UInt8.ofNat (count.toNat * 2)).toNat = count.toNat * 2 := UInt8.toNat_ofNat_of_lt' (by
    change _ < 256
    omega)
  refine ⟨.registers (registersIn c.left count.toNat), ?_, fun c' hc' => ?_⟩
  · simp only [nxmbClientReadRegs, Adu.length, hdata, getD_cons_zero]
    rw [if_neg (by rw [hbyte, length_cons, hleft]; omega), registersOf_cons]
  · rw [hlast] at hc'
    rw [Option.some.inj hc']

theorem finish_written {uid : UInt8} (h : adu.data.length = 4) : checkWritten m uid adu = .ok .done := by
  rw [checkWritten, Adu.length, if_neg (by omega)]

def Op.uid : Op → UInt8
  | .readCoils uid _ _ => uid
  | .readDiscrete uid _ _ => uid
  | .readInput uid _ _ => uid
  | .readHolding uid _ _ => uid
  | .writeCoil uid _ _ => uid
  | .writeHolding uid _ _ => uid
  | .writeCoils uid _ _ _ => uid
  | .writeHoldings uid _ _ _ => uid
  | .readwriteHoldings uid _ _ _ _ _ => uid

def Op.fc : Op → UInt8
  | .readCoils .. => fcReadCoils
  | .readDiscrete .. => fcReadDiscrete
  | .readInput .. => fcReadInput
  | .readHolding .. => fcReadHolding
  | .writeCoil .. => fcWriteCoil
  | .writeHolding .. => fcWriteHolding
  | .writeCoils .. => fcWriteCoils
  | .writeHoldings .. => fcWriteHoldings
  | .readwriteHoldings .. => fcReadwriteHoldings

/-- The request of a call, and the result that the client takes from the answer. -/
theorem Op.start_ok (hx : op.start m = .ok x) :
    x.request.unitId = op.uid ∧ x.request.fc = op.fc ∧ ∀ {calls : List CallbackCall} {adu : Adu m.size},
      op.Answer calls adu.data → ∃ r, x.finish adu = .ok r ∧ ∀ c ∈ calls.getLast?, r = op.produced c.left := by
  have bits {count : UInt16} (hc : ¬ count > 2000) : count.toNat ≤ 2000 :=
    UInt16.le_iff_toNat_le.mp (UInt16.not_lt.mp hc)
  have registers {count : UInt16} (hc : ¬ count > 125) : count.toNat ≤ 125 :=
    UInt16.le_iff_toNat_le.mp (UInt16.not_lt.mp hc)
  cases op with
  | readCoils uid addr count | readDiscrete uid addr count =>
    simp only [Op.start, nxmbReadCoils, nxmbReadDiscrete] at hx
    split_ifs at hx with hargs
    cases hx
    exact ⟨rfl, rfl, finish_readBits (bits fun hc => hargs (.inr (.inr hc)))⟩
  | readInput uid addr count | readHolding uid addr count =>
    simp only [Op.start, nxmbReadInput, nxmbReadHolding] at hx
    split_ifs at hx with hargs
    cases hx
    exact ⟨rfl, rfl, finish_readRegs uid _ addr (registers fun hc => hargs (.inr (.inr hc)))⟩
  | writeCoil | writeHolding =>
    cases hx
    exact ⟨rfl, rfl, fun h => ⟨.done, finish_written h, fun _ _ => rfl⟩⟩
  | writeCoils uid addr count buf | writeHoldings uid addr count buf =>
    simp only [Op.start, nxmbWriteCoils, nxmbWriteHoldings] at hx
    split_ifs at hx
    obtain ⟨huid, hfc, hfinish, -⟩ := writeMany_ok hx
    exact ⟨huid, hfc, fun h => ⟨.done, by rw [hfinish]; exact finish_written h, fun _ _ => rfl⟩⟩
  | readwriteHoldings uid rdAddr rdCount wrAddr wrCount wrBuf =>
    simp only [Op.start, nxmbReadwriteHoldings] at hx
    split_ifs at hx with hargs
    cases hx
    exact ⟨rfl, rfl, finish_readRegs uid fcReadwriteHoldings rdAddr
      (registers fun hc => hargs (.inr (.inr (.inl hc))))⟩

/-! ## The server's turn -/

/-- What the server has done with a request when it has called back, and the data unit that it
sends. -/
structure Reacted (op : Op) (request : Adu m.size) (calls : List CallbackCall) (reply : Adu m.size) : Prop where
  unitId : reply.unitId = request.unitId
  answered : reply.fc = request.fc ∧ List.Forall₂ Operation.RanAs op.operations calls ∧ op.Answer calls reply.data ∨
    reply.fc = request.fc ||| 0x80 ∧ (op.operations.length = 1 → ∀ c ∈ calls, c.access = .write → c.ret ≠ 0)

theorem reacted_nxmbDispatchFunction (cfg : ServerConfig σ) (hx : op.start m = .ok x) (s : ServerState σ m.size)
    (hs : s.ctx = c.receive x.request) : ∃ calls, (nxmbDispatchFunction cfg s).log = s.log ++ calls ∧
      Reacted op x.request calls (nxmbDispatchFunction cfg s).ctx.send := by
  have hunit : s.ctx.unitId = x.request.unitId := by
    rw [hs]
    rfl
  have hcode : s.ctx.fc = x.request.fc := by
    rw [hs]
    rfl
  rw [nxmbDispatchFunction, hcode]
  cases hfc : nxmbLookupStandardFc (n := m.size) cfg x.request.fc with
  | none =>
    refine ⟨[], (append_nil _).symm, (Ctx.put_unitId _ _ _).trans hunit, .inr ⟨Ctx.put_fc _ _ _, ?_⟩⟩
    exact nofun
  | some handler =>
    have hserved := served_request hx hfc hs
    simp only
    generalize handler s = r at hserved ⊢
    obtain ⟨_ | exception, s'⟩ := r
    · obtain ⟨calls, hlog, hran, hunit', hfc', hanswer⟩ := hserved
      exact ⟨calls, hlog, hunit'.trans hunit, .inl ⟨hfc'.trans hcode, hran, hanswer⟩⟩
    · obtain ⟨calls, hlog, hunit', hnone⟩ := hserved
      exact ⟨calls, hlog, (Ctx.put_unitId _ _ _).trans (hunit'.trans hunit), .inr ⟨Ctx.put_fc _ _ _, hnone⟩⟩

/-- The server has not been addressed, or it reacts. -/
theorem nxmbPoll_cases (cfg : ServerConfig σ) (hx : op.start m = .ok x) (s : ServerState σ m.size) :
    (nxmbPoll cfg x.request s).2.log = s.log ∧ (nxmbPoll cfg x.request s).1 = none ∧
        x.request.unitId ≠ addressBroadcast ∨
      ∃ calls reply, (nxmbPoll cfg x.request s).2.log = s.log ++ calls ∧ Reacted op x.request calls reply ∧
        (nxmbPoll cfg x.request s).1 = if x.request.unitId ≠ addressBroadcast then some reply else none := by
  by_cases hother : x.request.unitId ≠ addressBroadcast ∧ x.request.unitId ≠ cfg.unitId
  · rw [nxmbPoll, if_pos hother]
    exact .inl ⟨rfl, rfl, hother.1⟩
  rw [nxmbPoll, if_neg hother]
  obtain ⟨calls, hlog, hreacted⟩ :=
    reacted_nxmbDispatchFunction cfg hx { s with ctx := s.ctx.receive x.request } rfl
  exact .inr ⟨calls, _, hlog, hreacted, rfl⟩

/-! ## A transport between the two -/

/-- A client and a server with a transport between them. -/
structure Wire (σ : Type) (n : Nat) where
  server : ServerState σ n
  /-- What the server has sent and the client has not received. -/
  reply : Option (Adu n)
  /-- How the receive calls end that come too early: with zero, or with `-EAGAIN`. -/
  early : List Bool

/-- The server polls when a request has been sent, and the client receives what it has sent. -/
def delivering (cfg : ServerConfig σ) : Transport (Wire σ n) n where
  send adu t :=
    let (reply, server) := nxmbPoll cfg adu t.server
    (.ok (), { t with server := server, reply := reply })
  receive t :=
    match t.early with
    | true :: early => (.ok none, { t with early := early })
    | false :: early => (.error .again, { t with early := early })
    | [] => (.ok t.reply, { t with reply := none })

theorem waitRx_delivering (cfg : ServerConfig σ) (turns : Nat) (t : Wire σ n) (h : t.early.length < turns) :
    ∃ t', waitRx (delivering cfg).receive turns t = (t.reply.elim (.error .timedOut) .ok, t') ∧
      t'.server = t.server := by
  induction turns generalizing t with
  | zero => exact absurd h (Nat.not_lt_zero _)
  | succ turns ih =>
    obtain ⟨server, reply, early⟩ := t
    rcases early with - | ⟨_ | _, early⟩
    · cases reply with
      | some adu => exact ⟨_, rfl, rfl⟩
      | none =>
        have hnone (k : Nat) (t : Wire σ n) (ht : t.reply = none ∧ t.early = []) :
            waitRx (delivering cfg).receive k t = (.error .timedOut, t) := by
          obtain ⟨server, reply, early⟩ := t
          obtain ⟨rfl, rfl⟩ := ht
          induction k with
          | zero => rfl
          | succ k ih => exact ih
        exact ⟨_, hnone turns _ ⟨rfl, rfl⟩, rfl⟩
    all_goals exact ih ⟨server, reply, early⟩ (Nat.lt_of_succ_lt_succ h)

theorem Op.fc_or_ne (op : Op) : op.fc ||| 0x80 ≠ op.fc := by
  cases op <;> simp only [Op.fc] <;> decide

theorem nxmbClientValidateResponse_answer {uid fc : UInt8} {adu : Adu n} (hfc : fc ||| 0x80 ≠ fc)
    (hunit : adu.unitId = uid) (hcode : adu.fc = fc) : nxmbClientValidateResponse uid fc adu = .ok () := by
  rw [nxmbClientValidateResponse, if_neg (not_not.mpr hunit), if_neg (by rw [hcode]; exact hfc.symm),
    if_neg (not_not.mpr hcode)]

theorem nxmbClientValidateResponse_exception (uid : UInt8) {fc : UInt8} {adu : Adu n}
    (hcode : adu.fc = fc ||| 0x80) : ∃ errno, nxmbClientValidateResponse uid fc adu = .error errno := by
  rw [nxmbClientValidateResponse]
  split_ifs
  all_goals exact ⟨_, rfl⟩

/-- What a result says about the callbacks that have run. -/
def Agrees (op : Op) (calls : List CallbackCall) : Except Errno Reply → Prop
  | .ok r => op.Ran calls r
  | .error _ => op.operations.length = 1 → ∀ c ∈ calls, c.access = .write → c.ret ≠ 0

theorem agrees_of_silence (errno : Errno) : Agrees op [] (.error errno) := nofun

/-- The client takes an answer for the result, and an exception for an error. -/
theorem agrees_of_reacted (hx : op.start m = .ok x) {reply : Adu m.size} (h : Reacted op x.request calls reply) :
    Agrees op calls
      (((nxmbClientValidateResponse x.request.unitId x.request.fc reply).map fun _ => reply).bind x.finish) := by
  rcases h.answered with ⟨hcode, hran, hanswer⟩ | ⟨hcode, hnone⟩
  · have hfc : x.request.fc ||| 0x80 ≠ x.request.fc := by
      rw [(Op.start_ok hx).2.1]
      exact op.fc_or_ne
    obtain ⟨r, hfinish, hr⟩ := (Op.start_ok hx).2.2 hanswer
    rw [nxmbClientValidateResponse_answer hfc h.unitId hcode]
    change Agrees op calls (x.finish reply)
    rw [hfinish]
    exact ⟨hran, hr⟩
  · obtain ⟨errno, herr⟩ := nxmbClientValidateResponse_exception x.request.unitId hcode
    rw [herr]
    exact hnone

theorem perform_eq_bind {τ : Type} (tr : Transport τ m.size) (turns : Nat) (t : τ) :
    x.perform tr turns t =
      ((nxmbClientTxWaitRx tr turns x.request t).1.bind x.finish, (nxmbClientTxWaitRx tr turns x.request t).2) := by
  rw [Transaction.perform]
  rcases nxmbClientTxWaitRx tr turns x.request t with ⟨_ | _, _⟩ <;> rfl

theorem agrees_perform (cfg : ServerConfig σ) (hx : op.start m = .ok x) (huid : op.uid ≠ addressBroadcast) {turns : Nat}
    {t : Wire σ m.size} (hturns : t.early.length < turns) :
    ∃ calls, (x.perform (delivering cfg) turns t).2.server.log = t.server.log ++ calls ∧
      Agrees op calls (x.perform (delivering cfg) turns t).1 := by
  have huid' : x.request.unitId ≠ addressBroadcast := by rwa [(Op.start_ok hx).1]
  have hpoll := nxmbPoll_cases cfg hx t.server
  have hsend : (delivering cfg).send x.request t =
      (.ok (),
        { t with
          server := (nxmbPoll cfg x.request t.server).2
          reply := (nxmbPoll cfg x.request t.server).1 }) := rfl
  generalize nxmbPoll cfg x.request t.server = polled at hpoll hsend
  obtain ⟨t', hwait, hserver⟩ :=
    waitRx_delivering cfg turns { t with server := polled.2, reply := polled.1 } hturns
  rw [perform_eq_bind, nxmbClientTxWaitRx, hsend]
  simp only [if_neg huid', hwait]
  rcases hpoll with ⟨hlog, hreply, -⟩ | ⟨calls, reply, hlog, hreacted, hreply⟩
  · rw [hreply]
    exact ⟨[], (congrArg _ hserver).trans (hlog.trans (append_nil _).symm), agrees_of_silence _⟩
  · rw [hreply, if_pos huid']
    exact ⟨calls, (congrArg _ hserver).trans hlog, agrees_of_reacted hx hreacted⟩

/-- Over a transport that delivers every data unit in time, a call that is not a broadcast succeeds
only if the callbacks have run, once for each operation with the arguments of the call, have
succeeded and have produced the result. If it fails and is for a single operation, then no callback
has written. -/
theorem call_agrees (cfg : ServerConfig σ) (op : Op) (huid : op.uid ≠ addressBroadcast) {turns : Nat}
    {t : Wire σ m.size} (hturns : t.early.length < turns) :
    ∃ calls, (op.call (delivering cfg) turns t).2.server.log = t.server.log ++ calls ∧
      Agrees op calls (op.call (delivering cfg) turns t).1 := by
  rw [Op.call]
  cases hx : op.start m with
  | error errno => exact ⟨[], (append_nil _).symm, agrees_of_silence errno⟩
  | ok x => exact agrees_perform cfg hx huid hturns

end

/-! ## An application with one register -/

/-- A register, which does not take zero. -/
def oneRegister : Callback UInt16 where
  run value buf addr qty access :=
    if addr ≠ 0 ∨ qty ≠ 1 ∨ buf.length ≠ 2 then (noEntry, buf, value)
    else
      match access with
      | .read => (0, nxmbUtilPutU16Be value, value)
      | .write =>
        let new := nxmbUtilGetU16Be (buf.getD 0 0) (buf.getD 1 0)
        if new = 0 then (-22, buf, value) else (0, buf, new)
  inPlace value buf addr qty access := by
    split_ifs with h
    · rfl
    rw [not_or, not_or, not_not, not_not, not_not] at h
    cases access with
    | read => exact h.2.2.symm
    | write =>
      simp only
      split <;> rfl

def oneRegisterServer : ServerConfig UInt16 where
  unitId := 17
  callbacks table := if table = .holding then some oneRegister else none
  supports _ := true

def holdsFive : Wire UInt16 smallest.size := ⟨⟨5, [], ⟨0, 0, 2, [0, 0, 0, 0], rfl⟩⟩, none, []⟩

/-- The register is read, and a write of zero is an error. -/
theorem call_agrees_oneRegister :
    ((Op.readHolding 17 0 1).call (delivering oneRegisterServer) 1 holdsFive).1 = .ok (.registers [5]) ∧
      ((Op.writeHolding 17 0 0).call (delivering oneRegisterServer) 1 holdsFive).1 = .error .io ∧
      ∃ calls, ((Op.readHolding 17 0 1).call (delivering oneRegisterServer) 1 holdsFive).2.server.log =
          holdsFive.server.log ++ calls ∧
        Agrees (.readHolding 17 0 1) calls
          ((Op.readHolding 17 0 1).call (delivering oneRegisterServer) 1 holdsFive).1 :=
  ⟨by decide, by decide, call_agrees oneRegisterServer (.readHolding 17 0 1) (by decide) (by decide)⟩

/-- A broadcast is reported as done although the callback has refused it. -/
theorem not_agrees_broadcast :
    ∃ (op : Op) (t : Wire UInt16 smallest.size),
      t.early.length < 1 ∧ (op.call (delivering oneRegisterServer) 1 t).1 = .ok .done ∧
        ¬ ∃ calls, (op.call (delivering oneRegisterServer) 1 t).2.server.log = t.server.log ++ calls ∧
          Agrees op calls (op.call (delivering oneRegisterServer) 1 t).1 := by
  refine ⟨.writeHolding 0 0 0, holdsFive, by decide, by decide, ?_⟩
  rintro ⟨calls, hlog, hran, -⟩
  have hcalls : calls = [⟨.holding, .write, 0, 1, [0, 0], -22, [0, 0]⟩] := hlog.symm.trans (by decide)
  subst hcalls
  cases hran with
  | cons hfirst _ => exact absurd hfirst.succeeded (by decide)

/-- If the reply comes too late, a call fails although the callback has written. -/
theorem not_agrees_late :
    ∃ (op : Op) (t : Wire UInt16 smallest.size), op.uid ≠ addressBroadcast ∧
      (op.call (delivering oneRegisterServer) 1 t).1 = .error .timedOut ∧
        ¬ ∃ calls, (op.call (delivering oneRegisterServer) 1 t).2.server.log = t.server.log ++ calls ∧
          Agrees op calls (op.call (delivering oneRegisterServer) 1 t).1 := by
  refine ⟨.writeHolding 17 0 7, { holdsFive with early := [true] }, by decide, by decide, ?_⟩
  rintro ⟨calls, hlog, hagrees⟩
  have hcalls : calls = [⟨.holding, .write, 0, 1, [0, 7], 0, [0, 7]⟩] := hlog.symm.trans (by decide)
  subst hcalls
  exact absurd (hagrees rfl _ mem_cons_self rfl) (by decide)

end Industry.Nxmodbus
