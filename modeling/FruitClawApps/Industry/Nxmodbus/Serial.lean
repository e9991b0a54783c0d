-- SUMMARY: Modbus RTU framing: which data units come back from their bytes.
import FruitClawApps.Industry.Nxmodbus.Adu

/-!
# RTU framing

`transport/nxmb_serial.c` writes a data unit with a CRC behind it, and takes a silent line for the
end of a frame. A frame with fewer than `NXMB_RTU_MIN_FRAME_SIZE` bytes is dropped, and so is what
fills `rx_buf`: a unit without data is too short, and one with `NXMB_ADU_DATA_MAX` bytes fills the
buffer.
-/

namespace Industry.Nxmodbus

open List

/-- `NXMB_RTU_MIN_FRAME_SIZE`. -/
abbrev rtuMinFrameSize : Nat := 5

/-- `NXMB_RTU_FRAME_MAX`. -/
abbrev rtuFrameMax (dataMax : Nat) : Nat := dataMax + 4

/-- What the receive function of a transport returns. Nothing is zero, and a frame is left in the
data unit of the context. -/
inductive Received (dataMax : Nat) where
  | nothing
  | frame (adu : Adu dataMax) (crc : UInt16)
  | failed (errno : Errno)
deriving DecidableEq

/-- The data units that are reported. -/
def reported {dataMax : Nat} (results : List (Received dataMax)) : List (Adu dataMax) :=
  results.filterMap fun
    | .frame adu _ => some adu
    | _ => none

/-- How the line answers. A line that has no more events is silent. -/
inductive LineEvent where
  /-- `select` times out. -/
  | silence
  /-- These bytes can be read. -/
  | ready (bytes : List UInt8)
  | selectFailed (errno : Errno)
  | readFailed (errno : Errno)
deriving DecidableEq

section

variable {dataMax : Nat}

/-- `struct nxmb_serial_state_s`. -/
structure SerialState (dataMax : Nat) where
  rxFrameNow : Bool
  /-- The first `rx_pos` bytes of `rx_buf`. -/
  rx : List UInt8
  room : rx.length < rtuFrameMax dataMax
deriving DecidableEq

/-- The state that `nxmb_serial_init` leaves. -/
def SerialState.idle (dataMax : Nat) : SerialState dataMax := ⟨false, [], Nat.succ_pos _⟩

variable (s : SerialState dataMax) (adu : Adu dataMax) (rx : List UInt8)

/-- The bytes that `nxmb_serial_send` writes. -/
def nxmbSerialSend : List UInt8 :=
  adu.bytes ++ [lowByte (nxmbCrc16 adu.bytes), highByte (nxmbCrc16 adu.bytes)]

/-- What becomes of the bytes of a frame that has ended. -/
def rtuFrame (hrx : rx.length < rtuFrameMax dataMax) : Received dataMax :=
  if rx.length < rtuMinFrameSize then .nothing
  else
    let crc := nxmbUtilGetU16Be (rx.getD (rx.length - 1) 0) (rx.getD (rx.length - 2) 0)
    if nxmbCrc16 (rx.take (rx.length - 2)) ≠ crc then .nothing
    else
      .frame
        { unitId := rx.getD 0 0
          fc := rx.getD 1 0
          data := (rx.drop 2).take (rx.length - 4)
          fits := Nat.le_trans (length_take_le _ _) (Nat.sub_le_of_le_add (Nat.le_of_lt hrx)) }
        crc

/-- The line is silent. -/
def SerialState.silent : Received dataMax × SerialState dataMax :=
  if s.rxFrameNow then (rtuFrame s.rx s.room, .idle dataMax) else (.nothing, s)

/-- Reading from the line, with the state as it is when a frame has begun. -/
def rtuRead (bytes : List UInt8) : SerialState dataMax :=
  if h : (rx ++ bytes).length < rtuFrameMax dataMax then ⟨true, rx ++ bytes, h⟩ else .idle dataMax

/-- The state in which `read` is called: a frame begins unless there is one. -/
def SerialState.begin : SerialState dataMax :=
  if s.rxFrameNow then s else ⟨true, [], Nat.succ_pos _⟩

@[simp] theorem SerialState.begin_now (h : rx.length < rtuFrameMax dataMax) :
    (⟨true, rx, h⟩ : SerialState dataMax).begin = ⟨true, rx, h⟩ := rfl

@[simp] theorem SerialState.begin_idle : (SerialState.idle dataMax).begin = ⟨true, [], Nat.succ_pos _⟩ := rfl

/-- `nxmb_serial_receive`: what it returns, the state it leaves and what is left of the line. -/
def nxmbSerialReceive :
    List LineEvent → Received dataMax × SerialState dataMax × List LineEvent
  | [] => (s.silent.1, s.silent.2, [])
  | .silence :: line => (s.silent.1, s.silent.2, line)
  | .selectFailed errno :: line => (.failed errno, s, line)
  | .readFailed errno :: line => (.failed errno, s.begin, line)
  | .ready bytes :: line =>
    let room := rtuFrameMax dataMax - s.begin.rx.length
    (.nothing, rtuRead s.begin.rx (bytes.take room),
      if bytes.length ≤ room then line else .ready (bytes.drop room) :: line)

/-- What `n` calls return. -/
def serialCalls : Nat → SerialState dataMax → List LineEvent → List (Received dataMax)
  | 0, _, _ => []
  | n + 1, s, line =>
    let (result, s, line) := nxmbSerialReceive s line
    result :: serialCalls n s line

/-! ## The end of a frame -/

@[simp] theorem length_nxmbSerialSend : (nxmbSerialSend adu).length = adu.data.length + 4 := by
  simp only [nxmbSerialSend, length_append, Adu.length_bytes, Adu.length, length_cons, length_nil]
  omega

/-- A frame with data in it is reported as the data unit it was written for. -/
theorem rtuFrame_send (h : (nxmbSerialSend adu).length < rtuFrameMax dataMax) (hdata : adu.data ≠ []) :
    rtuFrame (nxmbSerialSend adu) h = .frame adu (nxmbCrc16 adu.bytes) := by
  have hpos : 0 < adu.data.length := length_pos_iff.mpr hdata
  have hlow : (nxmbSerialSend adu).getD (adu.data.length + 2) 0 = lowByte (nxmbCrc16 adu.bytes) := by
    simp [nxmbSerialSend, Adu.bytes]
  have hhigh : (nxmbSerialSend adu).getD (adu.data.length + 3) 0 = highByte (nxmbCrc16 adu.bytes) := by
    simp [nxmbSerialSend, Adu.bytes]
  have hfront : (nxmbSerialSend adu).take (adu.data.length + 2) = adu.bytes := by
    exact take_left' (by rw [Adu.length_bytes, Adu.length, Nat.add_comm])
  have hmid : ((nxmbSerialSend adu).drop 2).take adu.data.length = adu.data := take_left
  simp only [rtuFrame, rtuMinFrameSize, length_nxmbSerialSend, Nat.add_sub_cancel, Nat.reduceSubDiff, hlow, hhigh,
    hfront, hmid, getU16Be_bytes]
  rw [if_neg (by omega), if_neg (fun hne => hne rfl)]
  rfl

theorem rtuFrame_short {rx : List UInt8} (hrx : rx.length < rtuFrameMax dataMax) (h : rx.length < rtuMinFrameSize) :
    rtuFrame rx hrx = .nothing := if_pos h

/-! ## The pieces of a frame -/

@[simp] theorem reported_nothing (results : List (Received dataMax)) :
    reported (.nothing :: results) = reported results := rfl

variable {s : SerialState dataMax}

theorem reported_idle (hs : s.rxFrameNow = false) (n : Nat) : reported (serialCalls n s []) = [] := by
  induction n with
  | zero => rfl
  | succ n ih =>
    have hcall : nxmbSerialReceive s [] = (.nothing, s, []) := by
      simp only [nxmbSerialReceive, SerialState.silent, hs, Bool.false_eq_true, if_false]
    rw [serialCalls, hcall]
    exact ih

theorem reported_silence (rx : List UInt8) (hrx : rx.length < rtuFrameMax dataMax) (n : Nat) :
    reported (serialCalls (n + 1) ⟨true, rx, hrx⟩ []) = reported [rtuFrame rx hrx] := by
  have hcall : serialCalls (n + 1) ⟨true, rx, hrx⟩ [] = [rtuFrame rx hrx] ++ serialCalls n (.idle dataMax) [] := rfl
  rw [hcall, reported, filterMap_append]
  change reported _ ++ reported (serialCalls n (.idle dataMax) []) = _
  rw [reported_idle rfl, append_nil]

theorem nxmbSerialReceive_ready {bytes : List UInt8} (h : s.begin.rx.length + bytes.length ≤ rtuFrameMax dataMax)
    (line : List LineEvent) :
    nxmbSerialReceive s (.ready bytes :: line) = (.nothing, rtuRead s.begin.rx bytes, line) := by
  have hroom : bytes.length ≤ rtuFrameMax dataMax - s.begin.rx.length := by omega
  simp only [nxmbSerialReceive, take_of_length_le hroom, if_pos hroom]

/-- The pieces of what does not fill the buffer are put together, however they are cut. -/
theorem reported_pieces {pieces : List (List UInt8)} (hpieces : pieces ≠ [])
    (h : (s.begin.rx ++ pieces.flatten).length < rtuFrameMax dataMax) (n : Nat) :
    reported (serialCalls (pieces.length + n) s (pieces.map .ready)) =
      reported (serialCalls n ⟨true, s.begin.rx ++ pieces.flatten, h⟩ []) := by
  induction pieces generalizing s with
  | nil => exact absurd rfl hpieces
  | cons bytes pieces ih =>
    rw [flatten_cons, length_append, length_append] at h
    have hpiece : (s.begin.rx ++ bytes).length < rtuFrameMax dataMax := by
      rw [length_append]
      omega
    have hread : rtuRead s.begin.rx bytes = (⟨true, s.begin.rx ++ bytes, hpiece⟩ : SerialState dataMax) := dif_pos _
    rw [length_cons, Nat.add_right_comm, map_cons, serialCalls, nxmbSerialReceive_ready (by omega)]
    simp only [reported_nothing, hread]
    cases pieces with
    | nil => simp
    | cons next pieces =>
      rw [ih (s := ⟨true, s.begin.rx ++ bytes, _⟩) (cons_ne_nil _ _)]
      · simp only [SerialState.begin_now, flatten_cons, append_assoc]
      · rw [SerialState.begin_now, length_append, length_append]
        omega

/-- What fills the buffer to the last byte is lost. -/
theorem reported_full {pieces : List (List UInt8)}
    (h : s.begin.rx.length + pieces.flatten.length = rtuFrameMax dataMax ∨ s.begin.rx = [] ∧ pieces.flatten = [])
    (n : Nat) : reported (serialCalls n s (pieces.map .ready)) = [] := by
  cases n with
  | zero => rfl
  | succ n =>
    induction pieces generalizing s n with
    | nil =>
      have hempty : s.begin.rx = [] := by
        rcases h with h | h
        · exact absurd h (Nat.ne_of_lt s.begin.room)
        · exact h.1
      rcases hnow : s.rxFrameNow with _ | _
      · exact reported_idle hnow _
      obtain ⟨now, rx, hrx⟩ := s
      obtain rfl : now = true := hnow
      obtain rfl : rx = [] := hempty
      rw [map_nil, reported_silence, rtuFrame_short _ (by decide)]
      rfl
    | cons bytes pieces ih =>
      rw [flatten_cons, length_append, append_eq_nil_iff] at h
      have hroom : s.begin.rx.length + bytes.length ≤ rtuFrameMax dataMax := by
        rcases h with h | ⟨hrx, hbytes, -⟩
        · omega
        · rw [hrx, hbytes]
          exact Nat.zero_le _
      rw [map_cons, serialCalls, nxmbSerialReceive_ready hroom]
      cases n with
      | zero => rfl
      | succ n =>
        refine ih ?_ n
        by_cases hfull : (s.begin.rx ++ bytes).length < rtuFrameMax dataMax
        · rw [rtuRead, dif_pos hfull, SerialState.begin_now, length_append, append_eq_nil_iff]
          rcases h with h | ⟨hrx, hbytes, hrest⟩
          · exact .inl (by omega)
          · exact .inr ⟨⟨hrx, hbytes⟩, hrest⟩
        rw [rtuRead, dif_neg hfull, SerialState.begin_idle]
        rw [length_append] at hfull
        rcases h with h | ⟨-, -, hrest⟩
        · exact .inr ⟨rfl, eq_nil_of_length_eq_zero (by omega)⟩
        · exact .inr ⟨rfl, hrest⟩

/-! ## Data units that come back -/

/-- A data unit comes back from its bytes, cut in any way and followed by silence, exactly if it has
data but not as much as a data unit can have. -/
theorem nxmbSerialReceive_send (adu : Adu dataMax) {s : SerialState dataMax} (hidle : s.rxFrameNow = false)
    {pieces : List (List UInt8)} (hpieces : pieces.flatten = nxmbSerialSend adu) {n : Nat} (hn : pieces.length < n) :
    reported (serialCalls n s (pieces.map .ready)) = [adu] ↔ 0 < adu.data.length ∧ adu.data.length < dataMax := by
  obtain ⟨n, rfl⟩ := Nat.exists_eq_add_of_lt hn
  have hbegin : s.begin.rx = [] := by simp [SerialState.begin, hidle]
  have hlength : pieces.flatten.length = adu.data.length + 4 := by rw [hpieces, length_nxmbSerialSend]
  have hne : pieces ≠ [] := by
    rintro rfl
    simp at hlength
  rcases Nat.lt_or_ge adu.data.length dataMax with hlt | hge
  · have htotal : (s.begin.rx ++ pieces.flatten).length < rtuFrameMax dataMax := by
      rw [hbegin, nil_append, hlength]
      exact Nat.add_lt_add_right hlt 4
    have hframe : (nxmbSerialSend adu).length < rtuFrameMax dataMax := by
      rw [length_nxmbSerialSend]
      exact Nat.add_lt_add_right hlt 4
    have hstate : (⟨true, s.begin.rx ++ pieces.flatten, htotal⟩ : SerialState dataMax) =
        ⟨true, nxmbSerialSend adu, hframe⟩ := by
      simp only [hbegin, hpieces, nil_append]
    rw [Nat.add_assoc, reported_pieces hne htotal, hstate, reported_silence]
    by_cases hdata : adu.data = []
    · rw [rtuFrame_short hframe (by rw [length_nxmbSerialSend, hdata]; decide), hdata]
      simp [reported]
    · rw [rtuFrame_send adu hframe hdata]
      simp [reported, hlt, length_pos_iff.mpr hdata]
  · have hfull : s.begin.rx.length + pieces.flatten.length = rtuFrameMax dataMax := by
      have := adu.fits
      rw [hbegin, hlength, length_nil, rtuFrameMax]
      omega
    rw [reported_full (.inl hfull)]
    simp [Nat.not_lt.mpr hge]

end

/-- The request to read two holding registers. -/
def readTwoRegisters : Adu 252 := ⟨17, 3, [0, 107, 0, 2], by decide⟩

theorem nxmbSerialReceive_send_readTwoRegisters :
    reported (serialCalls 3 (.idle 252) ([[17, 3, 0], [107, 0, 2, 183, 71]].map .ready)) = [readTwoRegisters] :=
  (nxmbSerialReceive_send readTwoRegisters rfl (by decide) (by decide)).mpr (by decide)

/-- The request to read the exception status, which has no data. -/
def readExceptionStatus : Adu 252 := ⟨17, 7, [], Nat.zero_le _⟩

/-- A data unit that is filled. -/
def filled : Adu 252 := ⟨17, 65, replicate 252 0, Nat.le_of_eq length_replicate⟩

/-- Neither of the two comes back. -/
theorem not_returned_ends :
    reported (serialCalls 2 (.idle 252) [.ready (nxmbSerialSend readExceptionStatus)]) = [] ∧
      reported (serialCalls 2 (.idle 252) [.ready (nxmbSerialSend filled)]) = [] := by
  refine ⟨by decide, ?_⟩
  change reported (serialCalls 2 (.idle 252) ([nxmbSerialSend filled].map .ready)) = []
  refine reported_full (.inl ?_) 2
  rw [SerialState.begin_idle, flatten_singleton, length_nxmbSerialSend, filled, length_replicate]
  rfl

end Industry.Nxmodbus
