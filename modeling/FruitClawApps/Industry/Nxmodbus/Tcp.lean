-- SUMMARY: Modbus TCP framing: frames from bytes that arrive in pieces.
import FruitClawApps.Industry.Nxmodbus.Adu
import FruitClawApps.Lib.Mealy
import Mathlib.Algebra.Order.Ring.Star
import Mathlib.Data.Nat.Cast.Order.Ring

/-!
# TCP framing

In `transport/nxmb_tcp.c` a frame is a header of eight bytes and the data. `nxmb_tcp_recv_full`
waits for each piece up to `NXMB_TCP_RECV_MS`, and what it has received before a wait is too long is
gone. In the data of a frame the connection is closed then. In the header it is kept, and the next
call begins inside the header.
-/

namespace Industry.Nxmodbus

open Mealy Transition List

/-! ## What arrives on a connection -/

/-- What a wait for a connection and the receive call behind it bring. -/
inductive Arrival where
  /-- `recv` returns these bytes, as far as there is room for them. There are none if the peer has closed
  the connection. -/
  | data (bytes : List UInt8)
  /-- `select` times out. -/
  | silence
  | selectFailed (errno : Errno)
  | recvFailed (errno : Errno)
deriving DecidableEq

namespace Arrival

def bytes : Arrival → List UInt8
  | .data bytes => bytes
  | .silence => []
  | .selectFailed _ => []
  | .recvFailed _ => []

/-- `nxmb_tcp_read_frame` takes this for a wait that is too long. -/
def isWait : Arrival → Bool
  | .data _ => false
  | .silence => true
  | .selectFailed errno => errno = .timedOut ∨ errno = .again
  | .recvFailed errno => errno = .timedOut

end Arrival

variable (l : List Arrival)

/-- The bytes that arrive. -/
def arriving : List UInt8 := l.flatMap Arrival.bytes

/-- The numbers of bytes that have arrived when a wait is too long. -/
def waits : List Arrival → List Nat
  | [] => []
  | a :: l => (if a.isWait then [0] else []) ++ (waits l).map (a.bytes.length + ·)

/-- `nxmb_tcp_recv_full`, with what it has received. A connection that has nothing more to come is
silent. -/
def nxmbTcpRecvFull : List Arrival → Nat → List UInt8 → Except Errno (List UInt8) × List Arrival
  | l, 0, got => (.ok got, l)
  | [], _ + 1, _ => (.error .timedOut, [])
  | .silence :: l, _ + 1, _ => (.error .timedOut, l)
  | .selectFailed errno :: l, _ + 1, _ => (.error errno, l)
  | .recvFailed errno :: l, need + 1, got =>
    if errno = .again ∨ errno = .intr then nxmbTcpRecvFull l (need + 1) got else (.error errno, l)
  | .data bytes :: l, need + 1, got =>
    if bytes = [] then (.error .connReset, l)
    else if bytes.length ≤ need + 1 then nxmbTcpRecvFull l (need + 1 - bytes.length) (got ++ bytes)
    else (.ok (got ++ bytes.take (need + 1)), .data (bytes.drop (need + 1)) :: l)

/-- How a call leaves a connection that it has taken some bytes from. -/
structure Taken (l : List Arrival) (bytes : List UInt8) (l' : List Arrival) : Prop where
  arriving : arriving l = bytes ++ arriving l'
  waits : ∀ w ∈ waits l', bytes.length + w ∈ waits l

theorem Taken.refl : Taken l [] l := ⟨rfl, fun w hw => by simpa using hw⟩

theorem Taken.cons {l l' : List Arrival} {bytes : List UInt8} (a : Arrival) (h : Taken l bytes l') :
    Taken (a :: l) (a.bytes ++ bytes) l' where
  arriving := by
    have := h.arriving
    rw [Nxmodbus.arriving, Nxmodbus.arriving] at this
    rw [Nxmodbus.arriving, Nxmodbus.arriving, flatMap_cons, this, append_assoc]
  waits := fun w hw => by
    rw [Nxmodbus.waits, length_append, Nat.add_assoc]
    exact mem_append_right _ (mem_map_of_mem (h.waits w hw))

theorem Taken.trans {l l' l'' : List Arrival} {bytes more : List UInt8} (h : Taken l bytes l')
    (h' : Taken l' more l'') : Taken l (bytes ++ more) l'' where
  arriving := by rw [h.arriving, h'.arriving, append_assoc]
  waits := fun w hw => by
    rw [length_append, Nat.add_assoc]
    exact h.waits _ (h'.waits w hw)

/-- A piece that there is no room for is taken in part. -/
theorem Taken.split (piece : List UInt8) (l : List Arrival) {n : Nat} (hn : n ≤ piece.length) :
    Taken (.data piece :: l) (piece.take n) (.data (piece.drop n) :: l) where
  arriving := by
    simp only [Nxmodbus.arriving, flatMap_cons, Arrival.bytes, ← append_assoc, take_append_drop]
  waits := fun w hw => by
    simp only [Nxmodbus.waits, Arrival.isWait, Arrival.bytes, Bool.false_eq_true, if_false, nil_append,
      mem_map, length_take, length_drop] at hw ⊢
    obtain ⟨w, hw, rfl⟩ := hw
    exact ⟨w, hw, by omega⟩

/-- A call that succeeds has taken what it returns. One that does not has taken less, and if it has
waited too long, that was at one of the waits or at the end. -/
def RecvFull (need : Nat) (got : List UInt8) : Except Errno (List UInt8) × List Arrival → Prop
  | (.ok out, l') => ∃ bytes, Taken l bytes l' ∧ out = got ++ bytes ∧ bytes.length = need
  | (.error errno, l') => ∃ bytes, Taken l bytes l' ∧ bytes.length < need ∧
      (errno = .timedOut ∨ errno = .again → bytes.length ∈ waits l ∨ l' = [])

theorem RecvFull.cons {l : List Arrival} {need : Nat} {got : List UInt8} {r : Except Errno (List UInt8) × List Arrival}
    (a : Arrival) (hle : a.bytes.length ≤ need) (h : RecvFull l (need - a.bytes.length) (got ++ a.bytes) r) :
    RecvFull (a :: l) need got r := by
  obtain ⟨_ | out, l'⟩ := r
  · obtain ⟨bytes, htaken, hlt, hwait⟩ := h
    refine ⟨a.bytes ++ bytes, htaken.cons a, by rw [length_append]; omega, fun hw => ?_⟩
    refine (hwait hw).imp_left fun hmem => ?_
    rw [length_append, waits]
    exact mem_append_right _ (mem_map_of_mem hmem)
  · obtain ⟨bytes, htaken, rfl, hlength⟩ := h
    exact ⟨a.bytes ++ bytes, htaken.cons a, append_assoc _ _ _, by rw [length_append]; omega⟩

theorem nxmbTcpRecvFull_spec (need : Nat) (got : List UInt8) :
    RecvFull l need got (nxmbTcpRecvFull l need got) := by
  induction l generalizing need got with
  | nil =>
    cases need with
    | zero => exact ⟨[], .refl _, (append_nil _).symm, rfl⟩
    | succ need => exact ⟨[], .refl _, Nat.succ_pos _, fun _ => .inr rfl⟩
  | cons a l ih =>
    cases need with
    | zero => exact ⟨[], .refl _, (append_nil _).symm, rfl⟩
    | succ need =>
      cases a with
      | silence =>
        exact ⟨[], .cons .silence (.refl _), Nat.succ_pos _, fun _ => .inl (mem_append_left _ mem_cons_self)⟩
      | selectFailed errno =>
        refine ⟨[], .cons (.selectFailed errno) (.refl _), Nat.succ_pos _, fun hwait => .inl ?_⟩
        simp [waits, Arrival.isWait, hwait]
      | recvFailed errno =>
        rw [nxmbTcpRecvFull]
        split_ifs with hretry
        · exact .cons _ (Nat.zero_le _) (by simpa [Arrival.bytes] using ih (need + 1) got)
        refine ⟨[], .cons (.recvFailed errno) (.refl _), Nat.succ_pos _, fun hwait => .inl ?_⟩
        have : errno = .timedOut := hwait.resolve_right fun h => hretry (.inl h)
        simp [waits, Arrival.isWait, this]
      | data piece =>
        rw [nxmbTcpRecvFull]
        split_ifs with hempty hle
        · subst hempty
          exact ⟨[], .cons (.data []) (.refl _), Nat.succ_pos _, fun hwait => by simp at hwait⟩
        · exact .cons _ hle (ih _ _)
        refine ⟨piece.take (need + 1), .split piece l (by omega), rfl, ?_⟩
        rw [length_take]
        omega

/-! ## Frames -/

/-- The header of a frame. -/
structure Mbap where
  transId : UInt16
  protoId : UInt16
  length : UInt16
  unitId : UInt8
  fc : UInt8
deriving DecidableEq

/-- `MBAP_FC_SIZE`. -/
abbrev mbapFcSize : Nat := 8

def nxmbTcpPutHeader (h : Mbap) : List UInt8 :=
  nxmbUtilPutU16Be h.transId ++ nxmbUtilPutU16Be h.protoId ++ nxmbUtilPutU16Be h.length ++ [h.unitId, h.fc]

def nxmbTcpGetHeader (hdr : List UInt8) : Mbap where
  transId := nxmbUtilGetU16Be (hdr.getD 0 0) (hdr.getD 1 0)
  protoId := nxmbUtilGetU16Be (hdr.getD 2 0) (hdr.getD 3 0)
  length := nxmbUtilGetU16Be (hdr.getD 4 0) (hdr.getD 5 0)
  unitId := hdr.getD 6 0
  fc := hdr.getD 7 0

@[simp] theorem length_nxmbTcpPutHeader (h : Mbap) : (nxmbTcpPutHeader h).length = mbapFcSize := rfl

@[simp] theorem nxmbTcpGetHeader_put (h : Mbap) : nxmbTcpGetHeader (nxmbTcpPutHeader h) = h := by
  simp [nxmbTcpGetHeader, nxmbTcpPutHeader, nxmbUtilPutU16Be]

section

variable {dataMax : Nat}

/-- A data unit with the transaction that it belongs to. -/
structure TcpFrame (dataMax : Nat) where
  transId : UInt16
  adu : Adu dataMax
deriving DecidableEq

namespace TcpFrame

def header (f : TcpFrame dataMax) : Mbap where
  transId := f.transId
  protoId := 0
  length := UInt16.ofNat f.adu.length
  unitId := f.adu.unitId
  fc := f.adu.fc

/-- The bytes of a frame, as `nxmb_tcp_send` writes them. -/
def bytes (f : TcpFrame dataMax) : List UInt8 := nxmbTcpPutHeader f.header ++ f.adu.data

end TcpFrame

/-- The bytes that a peer sends. -/
def wire (frames : List (TcpFrame dataMax)) : List UInt8 := frames.flatMap TcpFrame.bytes

theorem wire_cons (f : TcpFrame dataMax) (frames : List (TcpFrame dataMax)) :
    wire (f :: frames) = f.bytes ++ wire frames := rfl

theorem nxmbTcpRecvFull_length {l l' : List Arrival} {need : Nat} {out : List UInt8}
    (h : nxmbTcpRecvFull l need [] = (.ok out, l')) : out.length = need := by
  have hspec := nxmbTcpRecvFull_spec l need []
  rw [h] at hspec
  obtain ⟨bytes, -, rfl, hlength⟩ := hspec
  exact hlength

/-- `nxmb_tcp_read_frame` behind the header. -/
def readData (dataMax : Nat) (h : Mbap) (l : List Arrival) : Except Errno (TcpFrame dataMax) × Option (List Arrival) :=
  if h.protoId ≠ 0 then (.error .proto, none)
  else if h.length.toNat < 2 then (.error .inval, none)
  else if hmax : dataMax < h.length.toNat - 2 then (.error .msgSize, none)
  else
    match hdata : nxmbTcpRecvFull l (h.length.toNat - 2) [] with
    | (.error errno, _) => (.error errno, none)
    | (.ok data, l) =>
      (.ok ⟨h.transId, h.unitId, h.fc, data, nxmbTcpRecvFull_length hdata ▸ Nat.le_of_not_lt hmax⟩, some l)

/-- `nxmb_tcp_read_frame`: what it returns, and the connection unless it is closed. -/
def readFrame (dataMax : Nat) (l : List Arrival) : Except Errno (TcpFrame dataMax) × Option (List Arrival) :=
  match nxmbTcpRecvFull l mbapFcSize [] with
  | (.error errno, l) => if errno = .timedOut ∨ errno = .again then (.error .again, some l) else (.error errno, none)
  | (.ok hdr, l) => readData dataMax (nxmbTcpGetHeader hdr) l

/-! ## Frames that are awaited -/

/-- No wait inside the header of a frame is too long. -/
def TimelyHeaders (frames : List (TcpFrame dataMax)) (l : List Arrival) : Prop :=
  ∀ w ∈ waits l, ∀ done f behind, frames = done ++ f :: behind →
    ¬ ((wire done).length < w ∧ w < (wire done).length + mbapFcSize)

/-- What is to come on the connection is these frames, from the beginning of the first one. -/
structure Awaiting (frames : List (TcpFrame dataMax)) (l : List Arrival) : Prop where
  sends : arriving l <+: wire frames
  timely : TimelyHeaders frames l

variable {frames behind : List (TcpFrame dataMax)} {f : TcpFrame dataMax} {l l' : List Arrival}

theorem Awaiting.nothing (frames : List (TcpFrame dataMax)) : Awaiting frames [] where
  sends := nil_prefix
  timely := fun _ hw => nomatch hw

theorem Awaiting.skip (h : Awaiting frames l) (htaken : Taken l [] l') : Awaiting frames l' where
  sends := by
    have := h.sends
    rwa [htaken.arriving] at this
  timely := fun w hw => h.timely w (by simpa using htaken.waits w hw)

theorem Awaiting.advance (h : Awaiting (f :: behind) l) (htaken : Taken l f.bytes l') : Awaiting behind l' where
  sends := by
    have := h.sends
    rwa [htaken.arriving, wire_cons, prefix_append_right_inj] at this
  timely := fun w hw done g more hbehind => by
    have hlate := h.timely _ (htaken.waits w hw) (f :: done) g more (by rw [hbehind, cons_append])
    rw [wire_cons, length_append] at hlate
    omega

/-- What is taken in place of the first bytes of a frame is those bytes. -/
theorem eq_of_append_prefix {α : Type} {a b x y : List α} (hlength : a.length = b.length) (h : a ++ x <+: b ++ y) :
    a = b := by
  obtain ⟨t, ht⟩ := h
  rw [append_assoc] at ht
  exact (append_inj ht hlength).1

theorem length_header (f : TcpFrame dataMax) (hmax : dataMax + 2 < 2 ^ 16) :
    f.header.length.toNat = f.adu.data.length + 2 := by
  have := f.adu.fits
  rw [TcpFrame.header, UInt16.toNat_ofNat', Adu.length, Nat.mod_eq_of_lt (by omega), Nat.add_comm]

theorem Awaiting.wait {bytes : List UInt8} (h : Awaiting frames l) (htaken : Taken l bytes l')
    (hlt : bytes.length < mbapFcSize) (hwait : bytes.length ∈ waits l ∨ l' = []) : Awaiting frames l' := by
  rcases hwait with hwait | rfl
  · have hnil : bytes = [] := by
      cases frames with
      | nil =>
        have := prefix_nil.mp h.sends
        rw [htaken.arriving] at this
        exact (append_eq_nil_iff.mp this).1
      | cons f behind =>
        have := h.timely _ hwait [] f behind rfl
        exact eq_nil_of_length_eq_zero (by simp only [wire, flatMap_nil, length_nil] at this; omega)
    exact h.skip (hnil ▸ htaken)
  · exact .nothing _

/-- What reading a frame does to a connection on which frames are awaited. -/
def ReadFrame (frames : List (TcpFrame dataMax)) : Except Errno (TcpFrame dataMax) × Option (List Arrival) → Prop
  | (.ok f, l) => ∃ behind l', frames = f :: behind ∧ l = some l' ∧ Awaiting behind l'
  | (.error _, some l') => Awaiting frames l'
  | (.error _, none) => True

theorem readData_spec (hmax : dataMax + 2 < 2 ^ 16) (h : Awaiting (f :: behind) l)
    (htaken : Taken l (nxmbTcpPutHeader f.header) l') : ReadFrame (f :: behind) (readData dataMax f.header l') := by
  have hfits := f.adu.fits
  have hlength := length_header f hmax
  have hsends := h.sends
  rw [htaken.arriving, wire_cons, TcpFrame.bytes, append_assoc, prefix_append_right_inj] at hsends
  rw [readData, if_neg (fun hne => hne rfl), if_neg (by omega), dif_neg (by omega)]
  split
  · trivial
  rename_i data l₂ hdata
  have hspec := nxmbTcpRecvFull_spec l' (f.header.length.toNat - 2) []
  rw [hdata] at hspec
  obtain ⟨_, htaken', rfl, hbytes⟩ := hspec
  rw [htaken'.arriving] at hsends
  obtain rfl : data = f.adu.data := eq_of_append_prefix (by omega) hsends
  exact ⟨behind, l₂, rfl, rfl, h.advance (htaken.trans htaken')⟩

theorem readFrame_spec (hmax : dataMax + 2 < 2 ^ 16) (h : Awaiting frames l) :
    ReadFrame frames (readFrame dataMax l) := by
  have hheader := nxmbTcpRecvFull_spec l mbapFcSize []
  unfold readFrame
  generalize nxmbTcpRecvFull l mbapFcSize [] = header at hheader ⊢
  obtain ⟨errno | hdr, l₁⟩ := header
  · obtain ⟨bytes, htaken, hlt, hwait⟩ := hheader
    simp only
    split_ifs with herrno
    · exact h.wait htaken hlt (hwait herrno)
    · trivial
  obtain ⟨_, htaken, rfl, hlength⟩ := hheader
  have hsends := h.sends
  rw [htaken.arriving] at hsends
  cases frames with
  | nil =>
    obtain ⟨rfl, -⟩ := append_eq_nil_iff.mp (prefix_nil.mp hsends)
    cases hlength
  | cons f behind =>
    obtain rfl : hdr = nxmbTcpPutHeader f.header :=
      eq_of_append_prefix (hlength.trans (length_nxmbTcpPutHeader _).symm) hsends
    simp only [nxmbTcpGetHeader_put]
    exact readData_spec hmax h htaken

end

end Industry.Nxmodbus
