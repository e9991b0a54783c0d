-- SUMMARY: The multiplexer's decoder is a scan of the unread bytes.
import FruitClawApps.Lib.CircularBuffer

/-!
# Decoding frames

`cmux_decode_frame` in `netutils/cmux/cmux.c` moves the read pointer over the flag of a frame. If
the bytes behind it are not all there it returns, and the pointer stays. `scan` and `decode` say
this in terms of the unread bytes.
-/

namespace Netutils.Cmux

open Bytes CircularBuffer

/-- `CMUX_BUFFER_SZ`. -/
abbrev bufferSz : Nat := 1024

/-- `CMUX_MIN_FRAME_LEN`: address, control, length, FCS and flag. -/
abbrev minFrameLen : Nat := 5

/-- `CMUX_OPEN_FLAG` and `CMUX_CLOSE_FLAG`. -/
abbrev flag : UInt8 := 0xf9

abbrev frameTypeUih : UInt8 := 0xef
abbrev frameTypeUi : UInt8 := 0x03

/-- `CMUX_FRAME_TYPE`, which ignores `CMUX_CONTROL_FIELD_BIT_PF`. -/
def frameType (control : UInt8) : UInt8 := control &&& 0xef

/-- `crc8rohcincr` of the C library. -/
def crc8rohcincr (ch crc : UInt8) : UInt8 :=
  Nat.repeat (fun c => if c &&& 1 = 1 then c >>> 1 ^^^ 0xe0 else c >>> 1) 8 (crc ^^^ ch)

/-- `struct cmux_parse_s`. -/
structure Parse where
  address : UInt8
  control : UInt8
  data : List UInt8
deriving DecidableEq

/-- How a turn of the loop in `cmux_decode_frame` ends, and the buffer then. -/
inductive Turn (β : Type) where
  | error (b : β)
  | again (b : β)
  | ok (parse : Parse) (b : β)
deriving DecidableEq

def addressOf (octet : UInt8) : UInt8 := (octet &&& 0xfc) >>> 2

def dataLengthOf (octet : UInt8) : Nat := ((octet &&& 0xfe) >>> 1).toNat

/-- The checksum of a frame in front of the FCS. Only UI frames have their data in it. -/
def fcsOf (address control length : UInt8) (data : List UInt8) : UInt8 :=
  let fcs := crc8rohcincr length (crc8rohcincr control (crc8rohcincr address 0xff))
  if frameType control = frameTypeUi then data.foldl (fun fcs ch => crc8rohcincr ch fcs) fcs else fcs

/-! ## On the buffer -/

section

variable (b : CircularBuffer UInt8)

def byteAt (p : Nat) : UInt8 := b.items.getD p 0

/-- The loop that looks for a flag and goes over it. -/
def findFlag : Nat → CircularBuffer UInt8 → Bool × CircularBuffer UInt8
  | 0, b => (false, b)
  | fuel + 1, b =>
    if b.length > 0 then
      if byteAt b b.readp = flag then (true, b.seek (b.inc b.readp)) else findFlag fuel (b.seek (b.inc b.readp))
    else (false, b)

/-- The loop that goes over further flags. -/
def skipFlags : Nat → CircularBuffer UInt8 → CircularBuffer UInt8
  | 0, b => b
  | fuel + 1, b =>
    if b.length > 0 ∧ byteAt b b.readp = flag then skipFlags fuel (b.seek (b.inc b.readp)) else b

/-- The pointer behind the data. -/
def behindData (p dataLength : Nat) : Nat :=
  if dataLength > b.items.length - p then dataLength - (b.items.length - p)
  else if p + dataLength = b.items.length then 0
  else p + dataLength

/-- The frame behind the flags. -/
def decodeBehind : Turn (CircularBuffer UInt8) :=
  if b.length < minFrameLen then .error b
  else
    let pControl := b.inc b.readp
    let pLength := b.inc pControl
    let pData := b.inc pLength
    let dataLength := dataLengthOf (byteAt b pLength)
    -- the EA bit
    if byteAt b pLength &&& 1 = 0 then .again (b.seek pLength)
    else if b.length < minFrameLen + dataLength then .error b
    else
      let data := b.fetch pData dataLength
      let pFcs := behindData b pData dataLength
      if crc8rohcincr (byteAt b pFcs) (fcsOf (byteAt b b.readp) (byteAt b pControl) (byteAt b pLength) data) ≠ 0xcf then
        .again (b.seek pFcs)
      else
        let pFlag := b.inc pFcs
        if byteAt b pFlag ≠ flag then .again (b.seek pFlag)
        else .ok ⟨addressOf (byteAt b b.readp), byteAt b pControl, data⟩ (b.seek (b.inc pFlag))

def decodeTurn : Turn (CircularBuffer UInt8) :=
  match findFlag b.length b with
  | (false, b) => .error b
  | (true, b) => decodeBehind (skipFlags b.length b)

/-- The loop of `cmux_decode_frame`. Every turn moves the read pointer. -/
def decodeLoop : Nat → CircularBuffer UInt8 → Option Parse × CircularBuffer UInt8
  | 0, b => (none, b)
  | fuel + 1, b =>
    if b.length ≥ minFrameLen then
      match decodeTurn b with
      | .error b => (none, b)
      | .again b => decodeLoop fuel b
      | .ok parse b => (some parse, b)
    else (none, b)

def cmuxDecodeFrame : Option Parse × CircularBuffer UInt8 := decodeLoop b.length b

end

/-! ## On the unread bytes -/

/-- The bytes behind the first flag. -/
def behindFlag : List UInt8 → Option (List UInt8)
  | [] => none
  | x :: bytes => if x = flag then some bytes else behindFlag bytes

def scanBehind : List UInt8 → Turn (List UInt8)
  | address :: control :: length :: rest =>
    let dataLength := dataLengthOf length
    if rest.length < 2 then .error (address :: control :: length :: rest)
    else if length &&& 1 = 0 then .again (length :: rest)
    else if rest.length < 2 + dataLength then .error (address :: control :: length :: rest)
    else if crc8rohcincr (rest.getD dataLength 0) (fcsOf address control length (rest.take dataLength)) ≠ 0xcf then
      .again (rest.drop dataLength)
    else if rest.getD (dataLength + 1) 0 ≠ flag then .again (rest.drop (dataLength + 1))
    else .ok ⟨addressOf address, control, rest.take dataLength⟩ (rest.drop (dataLength + 2))
  | bytes => .error bytes

def scan (bytes : List UInt8) : Turn (List UInt8) :=
  match behindFlag bytes with
  | none => .error []
  | some bytes => scanBehind (bytes.dropWhile (· = flag))

def decodeWithin : Nat → List UInt8 → Option Parse × List UInt8
  | 0, bytes => (none, bytes)
  | fuel + 1, bytes =>
    if bytes.length ≥ minFrameLen then
      match scan bytes with
      | .error bytes => (none, bytes)
      | .again bytes => decodeWithin fuel bytes
      | .ok parse bytes => (some parse, bytes)
    else (none, bytes)

def decode (bytes : List UInt8) : Option Parse × List UInt8 := decodeWithin bytes.length bytes

/-! ## The one is the other -/

/-- A turn on the buffer is one on the unread bytes, and the array stays as it is. -/
def Turn.Refines (items : List UInt8) : Turn (CircularBuffer UInt8) → Turn (List UInt8) → Prop
  | .error b, .error bytes => b.items = items ∧ b.unread = bytes
  | .again b, .again bytes => b.items = items ∧ b.unread = bytes
  | .ok parse b, .ok parse' bytes => parse = parse' ∧ b.items = items ∧ b.unread = bytes
  | _, _ => False

section

variable {b : CircularBuffer UInt8}

theorem byteAt_unread {k : Nat} (h : k < b.length) :
    byteAt b ((b.readp + k) % b.items.length) = b.unread.getD k 0 := by
  rw [byteAt, List.getD_eq_getElem?_getD, List.getD_eq_getElem?_getD, getElem?_unread h]

theorem byteAt_readp (h : 0 < b.length) : byteAt b b.readp = b.unread.getD 0 0 := by
  rw [← byteAt_unread h, Nat.add_zero, Nat.mod_eq_of_lt b.readp_lt]

theorem inc_index (k : Nat) : b.inc ((b.readp + k) % b.items.length) = (b.readp + (k + 1)) % b.items.length := by
  rw [b.inc_eq (Nat.mod_lt _ b.items_pos), Nat.mod_add_mod, Nat.add_assoc]

theorem inc_readp : b.inc b.readp = (b.readp + 1) % b.items.length := b.inc_eq b.readp_lt

theorem behindData_index {k : Nat} (n : Nat) (hn : n < b.items.length) :
    behindData b ((b.readp + k) % b.items.length) n = (b.readp + (k + n)) % b.items.length := by
  have hlt := Nat.mod_lt (b.readp + k) b.items_pos
  rw [← Nat.add_assoc, ← Nat.mod_add_mod (b.readp + k), behindData]
  generalize (b.readp + k) % b.items.length = p at hlt ⊢
  split_ifs with hwrap hend
  · rw [Nat.mod_eq_sub_mod (by omega), Nat.mod_eq_of_lt (by omega)]
    omega
  · rw [hend, Nat.mod_self]
  · exact (Nat.mod_eq_of_lt (by omega)).symm

theorem unread_eq_cons (h : 0 < b.length) : b.unread = byteAt b b.readp :: (b.skip 1).unread := by
  rw [unread_skip h, byteAt_readp h]
  cases hunread : b.unread with
  | nil =>
    have hlength := b.length_unread
    rw [hunread, List.length_nil] at hlength
    omega
  | cons x rest => rfl

theorem seek_inc_readp : b.seek (b.inc b.readp) = b.skip 1 := seek_eq_skip inc_readp

theorem unread_eq_nil (h : b.length = 0) : b.unread = [] :=
  List.eq_nil_of_length_eq_zero (b.length_unread.trans h)

theorem findFlag_unread (fuel : Nat) (h : b.length ≤ fuel) :
    (findFlag fuel b).1 = (behindFlag b.unread).isSome ∧ (findFlag fuel b).2.items = b.items ∧
      (findFlag fuel b).2.unread = (behindFlag b.unread).getD [] := by
  induction fuel generalizing b with
  | zero =>
    have hnil : b.unread = [] := unread_eq_nil (by omega)
    rw [hnil]
    exact ⟨rfl, rfl, hnil⟩
  | succ fuel ih =>
    rw [findFlag]
    by_cases hpos : b.length > 0
    · have hskip : (b.skip 1).length = b.length - 1 := length_skip hpos
      rw [if_pos hpos, unread_eq_cons hpos, behindFlag, seek_inc_readp]
      split_ifs with hflag
      · exact ⟨rfl, rfl, rfl⟩
      · exact ih (by omega)
    · have hnil : b.unread = [] := unread_eq_nil (by omega)
      rw [if_neg hpos, hnil]
      exact ⟨rfl, rfl, rfl⟩

theorem skipFlags_unread (fuel : Nat) (h : b.length ≤ fuel) :
    (skipFlags fuel b).items = b.items ∧ (skipFlags fuel b).unread = b.unread.dropWhile (· = flag) := by
  induction fuel generalizing b with
  | zero =>
    have hnil : b.unread = [] := unread_eq_nil (by omega)
    rw [hnil]
    exact ⟨rfl, hnil⟩
  | succ fuel ih =>
    rw [skipFlags]
    by_cases hpos : b.length > 0
    · have hskip : (b.skip 1).length = b.length - 1 := length_skip hpos
      by_cases hflag : byteAt b b.readp = flag
      · rw [if_pos ⟨hpos, hflag⟩, unread_eq_cons hpos, List.dropWhile_cons, if_pos (decide_eq_true hflag),
          seek_inc_readp]
        exact ih (by omega)
      rw [if_neg fun h => hflag h.2]
      refine ⟨rfl, ?_⟩
      rw [unread_eq_cons hpos, List.dropWhile_cons, if_neg (by simpa using hflag)]
    · have hnil : b.unread = [] := unread_eq_nil (by omega)
      rw [if_neg fun h => hpos h.1, hnil]
      exact ⟨rfl, rfl⟩

theorem dataLengthOf_lt (octet : UInt8) : dataLengthOf octet < 128 := by
  have hlt := (octet &&& 0xfe).toNat_lt
  change _ >>> 1 < 128
  omega

theorem scanBehind_short {bytes : List UInt8} (h : bytes.length < minFrameLen) : scanBehind bytes = .error bytes := by
  match bytes, h with
  | address :: control :: length :: rest, h =>
    simp only [minFrameLen, List.length_cons] at h
    exact if_pos (by omega)
  | [], _ => rfl
  | [_], _ => rfl
  | [_, _], _ => rfl

/-- Behind the flags, the buffer is looked at as far as it is unread. -/
theorem refines_decodeBehind (hsize : b.items.length = bufferSz) :
    Turn.Refines b.items (decodeBehind b) (scanBehind b.unread) := by
  have hlen := b.length_unread
  rw [decodeBehind]
  by_cases hmin : b.length < minFrameLen
  · rw [if_pos hmin, scanBehind_short (by rwa [hlen])]
    exact ⟨rfl, rfl⟩
  rw [if_neg hmin]
  rw [minFrameLen] at hmin
  -- the bytes are in the cells from the read index on
  have hbyte (k : Nat) (hk : k < b.length) := @byteAt_unread b k hk
  have hrest (k : Nat) (hk : k ≤ b.length) := unread_skip hk
  have hfetch (n : Nat) (hn : 3 + n ≤ b.length) := fetch_unread hn
  have hfirst := @byteAt_readp b (by omega)
  generalize hunread : b.unread = bytes at hlen hbyte hrest hfetch hfirst ⊢
  obtain _ | ⟨address, _ | ⟨control, _ | ⟨length, rest⟩⟩⟩ := bytes
  · simp only [List.length_nil] at hlen
    omega
  · simp only [List.length_cons, List.length_nil] at hlen
    omega
  · simp only [List.length_cons, List.length_nil] at hlen
    omega
  simp only [List.length_cons] at hlen
  have hcontrol := hbyte 1 (by omega)
  have hlength := hbyte 2 (by omega)
  simp only [List.getD_cons_succ, List.getD_cons_zero] at hfirst hcontrol hlength
  simp only [inc_readp, inc_index, hfirst, hcontrol, hlength]
  rw [scanBehind, if_neg (by omega : ¬ rest.length < 2)]
  by_cases hea : length &&& 1 = 0
  · rw [if_pos hea, if_pos hea]
    exact ⟨rfl, by rw [seek_eq_skip rfl, hrest 2 (by omega)]; rfl⟩
  rw [if_neg hea, if_neg hea]
  have hsmall := dataLengthOf_lt length
  generalize dataLengthOf length = n at hsmall ⊢
  by_cases hwhole : b.length < minFrameLen + n
  · rw [if_pos hwhole, if_pos (by rw [minFrameLen] at hwhole; omega)]
    exact ⟨rfl, hunread⟩
  rw [if_neg hwhole]
  rw [minFrameLen] at hwhole
  have hdata := hfetch n (by omega)
  have hfcs := hbyte (3 + n) (by omega)
  have hflag := hbyte (3 + n + 1) (by omega)
  rw [show 3 + n = n + 2 + 1 by omega] at hfcs hflag
  simp only [List.getD_cons_succ] at hfcs hflag
  simp only [slice, List.drop_succ_cons, List.drop_zero] at hdata
  rw [if_neg (by omega : ¬ rest.length < 2 + n), behindData_index n (by rw [hsize, bufferSz]; omega), inc_index,
    inc_index, hdata, show 2 + 1 + n = n + 2 + 1 by omega, hfcs, hflag]
  by_cases hcrc : crc8rohcincr (rest.getD n 0) (fcsOf address control length (rest.take n)) ≠ 0xcf
  · rw [if_pos hcrc, if_pos hcrc]
    exact ⟨rfl, by rw [seek_eq_skip rfl, hrest _ (by omega)]; rfl⟩
  rw [if_neg hcrc, if_neg hcrc]
  by_cases hclose : rest.getD (n + 1) 0 ≠ flag
  · rw [if_pos hclose, if_pos hclose]
    exact ⟨rfl, by rw [seek_eq_skip rfl, hrest _ (by omega)]; rfl⟩
  · rw [if_neg hclose, if_neg hclose]
    exact ⟨rfl, rfl, by rw [seek_eq_skip rfl, hrest _ (by omega)]; rfl⟩

theorem refines_decodeTurn (hsize : b.items.length = bufferSz) :
    Turn.Refines b.items (decodeTurn b) (scan b.unread) := by
  obtain ⟨hfound, hitems, hunread⟩ := findFlag_unread b.length (Nat.le_refl b.length)
  rw [decodeTurn, scan]
  generalize findFlag b.length b = r at hfound hitems hunread
  obtain ⟨found, b'⟩ := r
  subst hfound
  cases hbehind : behindFlag b.unread with
  | none =>
    rw [hbehind] at hunread
    exact ⟨hitems, hunread⟩
  | some bytes =>
    rw [hbehind] at hunread
    obtain ⟨hitems', hunread'⟩ := skipFlags_unread b'.length (Nat.le_refl b'.length)
    have hrefines := refines_decodeBehind (b := skipFlags b'.length b') (by rw [hitems', hitems, hsize])
    rw [hitems', hitems, hunread', hunread] at hrefines
    exact hrefines

theorem refines_decodeLoop (fuel : Nat) (hsize : b.items.length = bufferSz) :
    (decodeLoop fuel b).1 = (decodeWithin fuel b.unread).1 ∧ (decodeLoop fuel b).2.items = b.items ∧
      (decodeLoop fuel b).2.unread = (decodeWithin fuel b.unread).2 := by
  induction fuel generalizing b with
  | zero => exact ⟨rfl, rfl, rfl⟩
  | succ fuel ih =>
    have hturn := refines_decodeTurn hsize
    rw [decodeLoop, decodeWithin, b.length_unread]
    split_ifs with hmin
    · generalize decodeTurn b = turn at hturn
      generalize scan b.unread = turn' at hturn
      cases turn with
      | error b' =>
        cases turn' with
        | error bytes => exact ⟨rfl, hturn.1, hturn.2⟩
        | again | ok => cases hturn
      | again b' =>
        cases turn' with
        | error bytes => cases hturn
        | again bytes =>
          obtain ⟨hitems, rfl⟩ := hturn
          have hrest := ih (b := b') (by rw [hitems, hsize])
          rw [hitems] at hrest
          exact hrest
        | ok parse bytes => cases hturn
      | ok parse b' =>
        cases turn' with
        | error | again => cases hturn
        | ok parse' bytes => exact ⟨congrArg some hturn.1, hturn.2.1, hturn.2.2⟩
    · exact ⟨rfl, rfl, rfl⟩

/-- `cmux_decode_frame` decodes the unread bytes. -/
theorem refines_cmuxDecodeFrame (hsize : b.items.length = bufferSz) :
    (cmuxDecodeFrame b).1 = (decode b.unread).1 ∧ (cmuxDecodeFrame b).2.items = b.items ∧
      (cmuxDecodeFrame b).2.unread = (decode b.unread).2 := by
  have h := refines_decodeLoop b.length hsize
  rw [cmuxDecodeFrame, decode, b.length_unread]
  exact h

end

end Netutils.Cmux
