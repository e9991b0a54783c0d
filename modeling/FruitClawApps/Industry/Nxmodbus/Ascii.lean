-- SUMMARY: Modbus ASCII framing: data units come back from their characters.
import FruitClawApps.Industry.Nxmodbus.Serial
import FruitClawApps.Lib.Mealy
import Mathlib.Data.UInt

/-!
# ASCII framing

`transport/nxmb_ascii.c` writes a colon, two hexadecimal digits for each byte, a carriage return and
a line feed. The receiver takes one character a call. A colon begins a frame in every state, and a
line feed ends it.
-/

namespace Industry.Nxmodbus

open Mealy Transition List

/-- `NXMB_ASCII_START_CHAR`. -/
abbrev startChar : UInt8 := 58

/-- `NXMB_ASCII_CR`. -/
abbrev cr : UInt8 := 13

/-- `NXMB_ASCII_LF`. -/
abbrev lf : UInt8 := 10

/-- `NXMB_ASCII_BIN_MAX`. -/
abbrev asciiBinMax (dataMax : Nat) : Nat := dataMax + 3

/-- `NXMB_ASCII_BUFLEN`. -/
abbrev asciiBuflen (dataMax : Nat) : Nat := asciiBinMax dataMax * 2 + 4

/-! ## Digits -/

def nxmbAsciiCharToHex (c : UInt8) : Option UInt8 :=
  if 48 ≤ c ∧ c ≤ 57 then some (c - 48)
  else if 65 ≤ c ∧ c ≤ 70 then some (c - 65 + 10)
  else if 97 ≤ c ∧ c ≤ 102 then some (c - 97 + 10)
  else none

def nxmbAsciiHexToChar (nibble : UInt8) : UInt8 := if nibble < 10 then 48 + nibble else 65 + (nibble - 10)

def nxmbAsciiEncode : List UInt8 → List UInt8
  | [] => []
  | b :: bin => nxmbAsciiHexToChar (b >>> 4) :: nxmbAsciiHexToChar (b &&& 0x0f) :: nxmbAsciiEncode bin

def nxmbAsciiDecode : List UInt8 → Option (List UInt8)
  | [] => some []
  | [_] => none
  | a :: b :: ascii =>
    match nxmbAsciiCharToHex a, nxmbAsciiCharToHex b with
    | some high, some low => (nxmbAsciiDecode ascii).map (((high <<< 4) ||| low) :: ·)
    | _, _ => none

theorem length_nxmbAsciiEncode (bin : List UInt8) : (nxmbAsciiEncode bin).length = 2 * bin.length := by
  induction bin with
  | nil => rfl
  | cons b bin ih =>
    simp only [nxmbAsciiEncode, length_cons, ih]
    omega

theorem nxmbAsciiEncode_append (bin more : List UInt8) :
    nxmbAsciiEncode (bin ++ more) = nxmbAsciiEncode bin ++ nxmbAsciiEncode more := by
  induction bin with
  | nil => rfl
  | cons b bin ih => simp only [cons_append, nxmbAsciiEncode, ih]

theorem length_nxmbAsciiDecode {ascii bin : List UInt8} (h : nxmbAsciiDecode ascii = some bin) :
    ascii.length = 2 * bin.length := by
  induction ascii using nxmbAsciiDecode.induct generalizing bin with
  | case1 =>
    cases h
    rfl
  | case2 => cases h
  | case3 a b ascii high low ha hb ih =>
    simp only [nxmbAsciiDecode, ha, hb, Option.map_eq_some_iff] at h
    obtain ⟨rest, hrest, rfl⟩ := h
    simp only [length_cons, ih hrest]
    omega
  | case4 a b ascii hno =>
    rw [nxmbAsciiDecode] at h
    split at h
    · exact absurd ‹nxmbAsciiCharToHex b = _› (hno _ _ ‹_›)
    · cases h

variable (b : UInt8)

theorem toNat_shiftRight_four : (b >>> 4).toNat = b.toNat / 16 := by
  exact Nat.shiftRight_eq_div_pow _ 4

theorem toNat_and_fifteen : (b &&& 0x0f).toNat = b.toNat % 16 := by
  exact Nat.and_two_pow_sub_one_eq_mod b.toNat 4

theorem nibbles : ((b >>> 4) <<< 4) ||| (b &&& 0x0f) = b := by
  have hb := b.toNat_lt
  have hlow : b.toNat % 16 < 2 ^ 4 := Nat.mod_lt _ (by decide)
  apply UInt8.toNat_inj.mp
  have hhigh : ((b >>> 4) <<< 4).toNat = (b.toNat / 16) <<< 4 := by
    rw [UInt8.toNat_shiftLeft, toNat_shiftRight_four]
    refine Nat.mod_eq_of_lt ?_
    change (b.toNat / 16) <<< 4 < 2 ^ 8
    omega
  rw [UInt8.toNat_or, hhigh, toNat_and_fifteen, ← Nat.shiftLeft_add_eq_or_of_lt hlow, Nat.shiftLeft_eq]
  omega

theorem charToHex_hexToChar {nibble : UInt8} (h : nibble.toNat < 16) :
    nxmbAsciiCharToHex (nxmbAsciiHexToChar nibble) = some nibble := by
  have hall : ∀ n : Fin 16, nxmbAsciiCharToHex (nxmbAsciiHexToChar (UInt8.ofNat n)) = some (UInt8.ofNat n) := by decide
  have := hall ⟨nibble.toNat, h⟩
  rwa [UInt8.ofNat_toNat] at this

theorem high_lt : (b >>> 4).toNat < 16 := by
  have hb := b.toNat_lt
  rw [toNat_shiftRight_four]
  omega

theorem low_lt : (b &&& 0x0f).toNat < 16 := by
  rw [toNat_and_fifteen]
  exact Nat.mod_lt _ (by decide)

theorem nxmbAsciiDecode_encode (bin : List UInt8) : nxmbAsciiDecode (nxmbAsciiEncode bin) = some bin := by
  induction bin with
  | nil => rfl
  | cons b bin ih =>
    simp only [nxmbAsciiEncode, nxmbAsciiDecode, charToHex_hexToChar (high_lt b), charToHex_hexToChar (low_lt b), ih,
      nibbles, Option.map_some]

/-! ## Frames -/

section

variable {dataMax : Nat} {bin rx done : List UInt8} {crc : UInt16} {adu : Adu dataMax}

/-- What a call finds on the line. -/
inductive ByteEvent where
  | byte (c : UInt8)
  /-- `select` times out, or there is nothing to be read. -/
  | silence
  /-- `select` or `read` fails. -/
  | failed (errno : Errno)
deriving DecidableEq

/-- `struct nxmb_ascii_state_s`. -/
structure AsciiState (dataMax : Nat) where
  inFrame : Bool
  /-- The first `rx_pos` bytes of `rx_buf`. -/
  rx : List UInt8
  room : rx.length ≤ asciiBuflen dataMax
deriving DecidableEq

/-- Outside of a frame, as `nxmb_ascii_init` leaves it. -/
def AsciiState.outside (dataMax : Nat) : AsciiState dataMax := ⟨false, [], Nat.zero_le _⟩

/-- The characters that `nxmb_ascii_send` writes. -/
def nxmbAsciiSend (adu : Adu dataMax) : List UInt8 :=
  let lrc := nxmbLrc adu.bytes
  startChar :: nxmbAsciiEncode adu.bytes ++ [nxmbAsciiHexToChar (lrc >>> 4), nxmbAsciiHexToChar (lrc &&& 0x0f), cr, lf]

/-- A frame that has been decoded. -/
def asciiFrame (bin : List UInt8) (hbin : bin.length ≤ asciiBinMax dataMax) : Received dataMax :=
  if bin.length < 3 then .nothing
  else
    let lrc := bin.getD (bin.length - 1) 0
    if nxmbLrc (bin.take (bin.length - 1)) ≠ lrc then .nothing
    else
      .frame
        { unitId := bin.getD 0 0
          fc := bin.getD 1 0
          data := (bin.drop 2).take (bin.length - 3)
          fits := Nat.le_trans (length_take_le _ _) (Nat.sub_le_of_le_add hbin) }
        lrc.toUInt16

/-- What `rx_buf` holds when a line feed is received. -/
def asciiLine (rx : List UInt8) : Received dataMax :=
  if h : rx.length < 7 ∨ rx.length > asciiBinMax dataMax * 2 + 1 ∨ rx.getLast? ≠ some cr then .nothing
  else
    match hbin : nxmbAsciiDecode rx.dropLast with
    | none => .nothing
    | some bin =>
      asciiFrame bin (by
        have := length_nxmbAsciiDecode hbin
        rw [length_dropLast] at this
        omega)

def nxmbAsciiReceive (s : AsciiState dataMax) : ByteEvent → Received dataMax × AsciiState dataMax
  | .silence => (.nothing, s)
  | .failed errno => (.failed errno, s)
  | .byte c =>
    if c = startChar then (.nothing, ⟨true, [], Nat.zero_le _⟩)
    else if s.inFrame = false then (.nothing, s)
    else if c = lf then (asciiLine s.rx, .outside dataMax)
    else if h : s.rx.length < asciiBuflen dataMax then
      (.nothing, ⟨true, s.rx ++ [c], by rw [length_append]; exact h⟩)
    else (.nothing, .outside dataMax)

/-! ## The frame that was written -/

theorem asciiFrame_bytes (adu : Adu dataMax) (lrc : UInt8) (h : (adu.bytes ++ [lrc]).length ≤ asciiBinMax dataMax) :
    asciiFrame (adu.bytes ++ [lrc]) h =
      if nxmbLrc adu.bytes ≠ lrc then .nothing else .frame adu lrc.toUInt16 := by
  have hlength : (adu.bytes ++ [lrc]).length = adu.data.length + 3 := by
    rw [length_append, Adu.length_bytes, Adu.length, length_singleton]
    omega
  have hlrc : (adu.bytes ++ [lrc]).getD (adu.data.length + 2) 0 = lrc := by simp [Adu.bytes]
  have hfront : (adu.bytes ++ [lrc]).take (adu.data.length + 2) = adu.bytes :=
    take_left' (by rw [Adu.length_bytes, Adu.length, Nat.add_comm])
  have hmid : ((adu.bytes ++ [lrc]).drop 2).take adu.data.length = adu.data := take_left
  simp only [asciiFrame, hlength, Nat.add_sub_cancel, Nat.reduceSubDiff, hlrc, hfront, hmid]
  rfl

theorem nxmbAsciiSend_eq (adu : Adu dataMax) :
    nxmbAsciiSend adu = startChar :: (nxmbAsciiEncode (adu.bytes ++ [nxmbLrc adu.bytes]) ++ [cr]) ++ [lf] := by
  simp [nxmbAsciiSend, nxmbAsciiEncode_append, nxmbAsciiEncode]

theorem asciiLine_decoded (hshort : 7 ≤ rx.length) (hlong : rx.length ≤ asciiBinMax dataMax * 2 + 1)
    (hcr : rx.getLast? = some cr) (hdecode : nxmbAsciiDecode rx.dropLast = some bin)
    (hbin : bin.length ≤ asciiBinMax dataMax) : asciiLine rx = asciiFrame bin hbin := by
  rw [asciiLine, dif_neg (by rw [hcr]; simp only [not_or, not_lt, ne_eq, not_true, not_false_eq_true, and_true]; omega)]
  split
  · rename_i hnone
    cases hdecode.symm.trans hnone
  rename_i hsome
  cases hdecode.symm.trans hsome
  rfl

theorem asciiLine_send (adu : Adu dataMax) :
    asciiLine (nxmbAsciiEncode (adu.bytes ++ [nxmbLrc adu.bytes]) ++ [cr]) =
      Received.frame adu (nxmbLrc adu.bytes).toUInt16 := by
  have hfits := adu.fits
  have hbin : (adu.bytes ++ [nxmbLrc adu.bytes]).length = adu.data.length + 3 := by
    rw [length_append, Adu.length_bytes, Adu.length, length_singleton]
    omega
  have hlength : (nxmbAsciiEncode (adu.bytes ++ [nxmbLrc adu.bytes]) ++ [cr]).length =
      2 * (adu.data.length + 3) + 1 := by
    rw [length_append, length_nxmbAsciiEncode, hbin, length_singleton]
  have hmax : (adu.bytes ++ [nxmbLrc adu.bytes]).length ≤ asciiBinMax dataMax := by
    rw [hbin]
    exact Nat.add_le_add_right hfits 3
  rw [asciiLine_decoded (by omega) _ getLast?_concat _ hmax, asciiFrame_bytes, if_neg (fun hne => hne rfl)]
  · omega
  · rw [dropLast_concat, nxmbAsciiDecode_encode]

theorem encoded_text {c : UInt8} (h : c ∈ nxmbAsciiEncode bin) : c ≠ startChar ∧ c ≠ lf := by
  have hdigit : ∀ nibble : UInt8, nibble.toNat < 16 →
      nxmbAsciiHexToChar nibble ≠ startChar ∧ nxmbAsciiHexToChar nibble ≠ lf := by
    intro nibble hnibble
    have hall : ∀ n : Fin 16,
        nxmbAsciiHexToChar (UInt8.ofNat n) ≠ startChar ∧ nxmbAsciiHexToChar (UInt8.ofNat n) ≠ lf := by decide
    have := hall ⟨nibble.toNat, hnibble⟩
    rwa [UInt8.ofNat_toNat] at this
  induction bin with
  | nil => cases h
  | cons b bin ih =>
    rcases mem_cons.mp h with rfl | h
    · exact hdigit _ (high_lt b)
    rcases mem_cons.mp h with rfl | h
    · exact hdigit _ (low_lt b)
    · exact ih h

/-- Characters that neither begin nor end a frame are gathered as long as there is room. -/
theorem outputs_text {cs : List UInt8} (hcs : ∀ c ∈ cs, c ≠ startChar ∧ c ≠ lf)
    (hroom : (rx ++ cs).length ≤ asciiBuflen dataMax) (hrx : rx.length ≤ asciiBuflen dataMax) (es : List ByteEvent) :
    outputs nxmbAsciiReceive ⟨true, rx, hrx⟩ (cs.map .byte ++ es) =
      replicate cs.length .nothing ++ outputs nxmbAsciiReceive ⟨true, rx ++ cs, hroom⟩ es := by
  induction cs generalizing rx with
  | nil => simp only [map_nil, nil_append, length_nil, replicate_zero, append_nil]
  | cons c cs ih =>
    obtain ⟨hc, hcs⟩ := forall_mem_cons.mp hcs
    have hlt : rx.length < asciiBuflen dataMax := by
      rw [length_append, length_cons] at hroom
      omega
    have hstep : nxmbAsciiReceive ⟨true, rx, hrx⟩ (.byte c) =
        (.nothing, ⟨true, rx ++ [c], by rw [length_append]; exact hlt⟩) := by
      simp only [nxmbAsciiReceive, if_neg hc.1, if_neg hc.2, dif_pos hlt, Bool.true_eq_false, if_false]
    rw [map_cons, cons_append, outputs_cons, Mealy.next, hstep, ih hcs (by rwa [append_assoc])]
    simp only [length_cons, replicate_succ, cons_append, append_assoc, nil_append]

/-- Whatever the state, the characters of a data unit have it reported at the line feed and not
before. -/
theorem outputs_send (s : AsciiState dataMax) (adu : Adu dataMax) :
    outputs nxmbAsciiReceive s ((nxmbAsciiSend adu).map .byte) =
      replicate ((nxmbAsciiSend adu).length - 1) .nothing ++ [.frame adu (nxmbLrc adu.bytes).toUInt16] := by
  have hfits := adu.fits
  have htext : ∀ c ∈ nxmbAsciiEncode (adu.bytes ++ [nxmbLrc adu.bytes]) ++ [cr], c ≠ startChar ∧ c ≠ lf := by
    intro c hc
    rcases mem_append.mp hc with hc | hc
    · exact encoded_text hc
    · obtain rfl := mem_singleton.mp hc
      decide
  have hroom : ([] ++ (nxmbAsciiEncode (adu.bytes ++ [nxmbLrc adu.bytes]) ++ [cr])).length ≤ asciiBuflen dataMax := by
    simp only [nil_append, length_append, length_nxmbAsciiEncode, Adu.length_bytes, Adu.length,
      length_singleton, asciiBuflen, asciiBinMax]
    omega
  have hbegin : nxmbAsciiReceive s (.byte startChar) = (.nothing, ⟨true, [], Nat.zero_le _⟩) := by
    rw [nxmbAsciiReceive, if_pos rfl]
  rw [nxmbAsciiSend_eq]
  generalize hline : nxmbAsciiEncode (adu.bytes ++ [nxmbLrc adu.bytes]) ++ [cr] = text at htext hroom
  have hend : nxmbAsciiReceive ⟨true, [] ++ text, hroom⟩ (.byte lf) =
      (.frame adu (nxmbLrc adu.bytes).toUInt16, .outside dataMax) := by
    rw [← asciiLine_send, hline]
    rfl
  rw [map_append, map_cons, cons_append, outputs_cons, Mealy.next, hbegin]
  rw [outputs_text htext hroom, map_singleton, outputs_cons, hend, outputs_nil, length_append,
    length_cons, length_singleton, Nat.add_sub_cancel, replicate_succ, cons_append]

/-! ## Frames that are reported -/

/-- The characters that are received. -/
def ByteEvent.bytes : ByteEvent → List UInt8
  | .byte c => [c]
  | .silence => []
  | .failed _ => []

/-- In a frame, the buffer holds what has been received behind a colon. -/
def Gathered (done : List UInt8) (s : AsciiState dataMax) : Prop :=
  s.inFrame = true → ∃ before, done = before ++ startChar :: s.rx

variable {s : AsciiState dataMax}

theorem gathered_next (h : Gathered done s) (e : ByteEvent) :
    Gathered (done ++ e.bytes) (next nxmbAsciiReceive s e) := by
  cases e with
  | silence | failed =>
    rw [ByteEvent.bytes, append_nil]
    exact h
  | byte c =>
    simp only [ByteEvent.bytes, Mealy.next, nxmbAsciiReceive]
    split_ifs with hc hin hlf hroom
    · exact fun _ => ⟨done, by rw [hc]⟩
    · exact fun hin' => absurd (hin'.symm.trans hin) (by decide)
    · exact fun hin' => absurd hin' Bool.false_ne_true
    · intro _
      obtain ⟨before, hdone⟩ := h (by simpa using hin)
      exact ⟨before, by rw [hdone, append_assoc, cons_append]⟩
    · exact fun hin' => absurd hin' Bool.false_ne_true

/-- The text between the colon and the carriage return is a data unit with the right checksum behind
it: together they have the sum zero. -/
def WellFormed (text : List UInt8) (adu : Adu dataMax) (crc : UInt16) : Prop :=
  ∃ lrc : UInt8, crc = lrc.toUInt16 ∧ nxmbAsciiDecode text = some (adu.bytes ++ [lrc]) ∧ adu.bytes.sum + lrc = 0

theorem sum_add_nxmbLrc (buf : List UInt8) : buf.sum + nxmbLrc buf = 0 := by
  rw [nxmbLrc, ← sum_eq_foldl, UInt8.add_right_neg]

theorem asciiFrame_frame {hbin : bin.length ≤ asciiBinMax dataMax} (h : asciiFrame bin hbin = .frame adu crc) :
    bin = adu.bytes ++ [nxmbLrc adu.bytes] ∧ crc = (nxmbLrc adu.bytes).toUInt16 := by
  obtain _ | ⟨unitId, _ | ⟨fc, rest⟩⟩ := bin
  · cases h
  · cases h
  obtain rfl | ⟨data, lrc, rfl⟩ := eq_nil_or_concat rest
  · cases h
  have hfits : data.length ≤ dataMax := by
    simp only [length_cons, length_concat, asciiBinMax] at hbin
    omega
  have hbytes : unitId :: fc :: data.concat lrc = (⟨unitId, fc, data, hfits⟩ : Adu dataMax).bytes ++ [lrc] := by
    rw [concat_eq_append, Adu.bytes, cons_append, cons_append]
  simp only [hbytes] at h
  rw [asciiFrame_bytes] at h
  split_ifs at h with hlrc
  cases h
  rw [not_not] at hlrc
  exact ⟨by rw [hbytes, hlrc], by rw [hlrc]⟩

theorem asciiLine_frame (h : asciiLine rx = .frame adu crc) : ∃ text, rx = text ++ [cr] ∧ WellFormed text adu crc := by
  rw [asciiLine] at h
  split_ifs at h with hbad
  split at h
  · cases h
  rename_i bin hbin
  obtain ⟨rfl, rfl⟩ := asciiFrame_frame h
  have hlast : rx.getLast? = some cr := by
    by_contra hne
    exact hbad (.inr (.inr hne))
  refine ⟨rx.dropLast, (dropLast_append_getLast? cr hlast).symm, _, rfl, hbin, sum_add_nxmbLrc _⟩

theorem nxmbAsciiReceive_frame (hs : Gathered done s) {e : ByteEvent} (h : (nxmbAsciiReceive s e).1 = .frame adu crc) :
    ∃ before text, done ++ e.bytes = before ++ startChar :: text ++ [cr, lf] ∧ WellFormed text adu crc := by
  cases e with
  | silence | failed => cases h
  | byte c =>
    rw [nxmbAsciiReceive] at h
    split_ifs at h with hc hin hlf hroom
    obtain ⟨text, htext, hwell⟩ := asciiLine_frame h
    obtain ⟨before, hdone⟩ := hs (by simpa using hin)
    refine ⟨before, text, ?_, hwell⟩
    rw [hdone, htext, hlf, ByteEvent.bytes]
    simp only [append_assoc, cons_append, nil_append]

theorem frame_mem_outputs (hs : Gathered done s) {es : List ByteEvent}
    (h : .frame adu crc ∈ outputs nxmbAsciiReceive s es) :
    ∃ before text behind, done ++ es.flatMap ByteEvent.bytes = before ++ startChar :: text ++ [cr, lf] ++ behind ∧
      WellFormed text adu crc := by
  induction es generalizing done s with
  | nil => cases h
  | cons e es ih =>
    rcases mem_cons.mp h with h | h
    · obtain ⟨before, text, hdone, hwell⟩ := nxmbAsciiReceive_frame hs h.symm
      exact ⟨before, text, es.flatMap ByteEvent.bytes, by rw [← hdone, flatMap_cons, append_assoc], hwell⟩
    · obtain ⟨before, text, behind, hdone, hwell⟩ := ih (gathered_next hs e) h
      exact ⟨before, text, behind, by rw [← hdone, flatMap_cons, append_assoc], hwell⟩

/-- A data unit comes back at the line feed of its frame and not before, whatever has happened on
the line. Every frame that is reported has been received between a colon and a line feed, its
checksum is right, and its data fit a data unit. -/
theorem nxmbAsciiReceive_send (dataMax : Nat) :
    (∀ (adu : Adu dataMax) (before : List ByteEvent),
      outputs nxmbAsciiReceive (run (next nxmbAsciiReceive) (.outside dataMax) before) ((nxmbAsciiSend adu).map .byte) =
        replicate ((nxmbAsciiSend adu).length - 1) .nothing ++ [.frame adu (nxmbLrc adu.bytes).toUInt16]) ∧
    ∀ (es : List ByteEvent) (adu : Adu dataMax) (crc : UInt16),
      .frame adu crc ∈ outputs nxmbAsciiReceive (.outside dataMax) es →
      adu.data.length ≤ dataMax ∧ ∃ before text behind,
        es.flatMap ByteEvent.bytes = before ++ startChar :: text ++ [cr, lf] ++ behind ∧ WellFormed text adu crc := by
  refine ⟨fun adu before => outputs_send _ adu, fun es adu crc h => ⟨adu.fits, ?_⟩⟩
  have hstart : Gathered [] (AsciiState.outside dataMax) := fun hin => absurd hin Bool.false_ne_true
  simpa only [nil_append] using frame_mem_outputs hstart h

end

end Industry.Nxmodbus
