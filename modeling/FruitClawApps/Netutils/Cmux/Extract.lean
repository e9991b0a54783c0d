-- SUMMARY: When the channels of the multiplexer get the data of every frame.
import FruitClawApps.Lib.Mealy
import FruitClawApps.Netutils.Cmux.Decoder
import Mathlib.Data.List.Basic

/-!
# Extracting frames

`cmux_extract` writes what has been read to the circular buffer and decodes frames until there is
none. If a read ends inside a frame of which five bytes are there, the decoder has gone over its
flag, and looks for another one in the next call. If a read fills the buffer, it looks empty. Both
lose bytes, and a delivered frame uses up its own, so then not all frames are delivered.
-/

namespace Netutils.Cmux

open Bytes CircularBuffer Mealy List

/-! ## The functions -/

/-- What `cmux_extract` does to the outside: it writes to a channel, or has `cmux_encode_frame` send
a frame. -/
inductive Effect where
  | write (address : UInt8) (data : List UInt8)
  | encode (address type : UInt8)
deriving DecidableEq

abbrev frameTypeUa : UInt8 := 0x63
abbrev frameTypeDm : UInt8 := 0x0f
abbrev frameTypeDisc : UInt8 := 0x43
abbrev frameTypeSabm : UInt8 := 0x2f

/-- `CMUX_CONTROL_FIELD_BIT_PF`. -/
abbrev controlPf : UInt8 := 0x10

/-- `struct cmux_ctl_s`. -/
structure Ctl where
  stream : CircularBuffer UInt8
  size : stream.items.length = bufferSz
  /-- The channels that are active. -/
  active : UInt8 → Bool

/-- `cmux_buffer_write`: what does not fit is cut off. -/
def cmuxBufferWrite (b : CircularBuffer UInt8) (input : List UInt8) : CircularBuffer UInt8 :=
  b.write (input.take b.free) ((length_take_le _ _).trans (Nat.le_of_add_left_le (Nat.le_of_eq b.length_add_free)))

/-- The body of the loop in `cmux_extract`. -/
def handleFrame (active : UInt8 → Bool) (parse : Parse) : List Effect × (UInt8 → Bool) :=
  let type := frameType parse.control
  if type = frameTypeUi ∨ type = frameTypeUih then
    (if parse.address > 0 then [.write parse.address parse.data] else [], active)
  else if type = frameTypeDm then ([], Function.update active parse.address false)
  else if type = frameTypeDisc then
    ([.encode parse.address ((if active parse.address then frameTypeUa else frameTypeDm) ||| controlPf)],
      Function.update active parse.address false)
  else if type = frameTypeSabm then
    ([.encode parse.address (frameTypeUa ||| controlPf)], Function.update active parse.address true)
  else ([], active)

/-- The loop in `cmux_extract`. Every frame takes bytes out of the buffer. -/
def extractLoop : Nat → CircularBuffer UInt8 → (UInt8 → Bool) → List Effect × CircularBuffer UInt8 × (UInt8 → Bool)
  | 0, b, active => ([], b, active)
  | fuel + 1, b, active =>
    match cmuxDecodeFrame b with
    | (none, b) => ([], b, active)
    | (some parse, b) =>
      let (effects, active) := handleFrame active parse
      let (more, b, active) := extractLoop fuel b active
      (effects ++ more, b, active)

/-- All frames in a list of bytes, and the bytes that are left. -/
def decodeAll : Nat → List UInt8 → List Parse × List UInt8
  | 0, bytes => ([], bytes)
  | fuel + 1, bytes =>
    match decode bytes with
    | (none, bytes) => ([], bytes)
    | (some parse, bytes) => (parse :: (decodeAll fuel bytes).1, (decodeAll fuel bytes).2)

/-- What is delivered to the channels. -/
def Effect.delivery : Effect → Option (UInt8 × List UInt8)
  | .write address data => some (address, data)
  | .encode _ _ => none

def Parse.delivery (parse : Parse) : Option (UInt8 × List UInt8) :=
  if (frameType parse.control = frameTypeUi ∨ frameType parse.control = frameTypeUih) ∧ parse.address > 0 then
    some (parse.address, parse.data)
  else none

theorem deliveries_handleFrame (active : UInt8 → Bool) (parse : Parse) :
    (handleFrame active parse).1.filterMap Effect.delivery = parse.delivery.toList := by
  rw [handleFrame, Parse.delivery]
  by_cases htype : frameType parse.control = frameTypeUi ∨ frameType parse.control = frameTypeUih
  · rw [if_pos htype]
    by_cases haddress : parse.address > 0
    · rw [if_pos haddress, if_pos ⟨htype, haddress⟩]
      rfl
    · rw [if_neg haddress, if_neg fun h => haddress h.2]
      rfl
  · have hno : ¬ ((frameType parse.control = frameTypeUi ∨ frameType parse.control = frameTypeUih) ∧
        parse.address > 0) := fun h => htype h.1
    split_ifs <;> rfl

variable {b : CircularBuffer UInt8} {n fuel : Nat}

/-- The loop delivers the data of the frames in the unread bytes. -/
theorem extractLoop_decodeAll (fuel : Nat) (hsize : b.items.length = bufferSz) (active : UInt8 → Bool) :
    (extractLoop fuel b active).1.filterMap Effect.delivery =
        (decodeAll fuel b.unread).1.filterMap Parse.delivery ∧
      (extractLoop fuel b active).2.1.items = b.items ∧
      (extractLoop fuel b active).2.1.unread = (decodeAll fuel b.unread).2 := by
  induction fuel generalizing b active with
  | zero => exact ⟨rfl, rfl, rfl⟩
  | succ fuel ih =>
    obtain ⟨hparse, hitems, hunread⟩ := refines_cmuxDecodeFrame hsize
    rw [extractLoop, decodeAll]
    generalize cmuxDecodeFrame b = r at hparse hitems hunread
    generalize decode b.unread = r' at hparse hunread
    obtain ⟨parse, b'⟩ := r
    obtain ⟨parse', bytes⟩ := r'
    subst hparse hunread
    cases parse with
    | none => exact ⟨rfl, hitems, rfl⟩
    | some parse =>
      obtain ⟨hmore, hitems', hunread'⟩ := ih (b := b') (by rw [hitems, hsize]) (handleFrame active parse).2
      refine ⟨?_, hitems'.trans hitems, hunread'⟩
      simp only [filterMap_append, deliveries_handleFrame, hmore]
      rw [filterMap_cons]
      cases parse.delivery <;> rfl

theorem length_take_free_le (b : CircularBuffer UInt8) (input : List UInt8) :
    (input.take b.free).length ≤ b.items.length :=
  (length_take_le _ _).trans (Nat.le_of_add_left_le (Nat.le_of_eq b.length_add_free))

theorem length_cmuxBufferWrite (hsize : b.items.length = bufferSz) (input : List UInt8) :
    (cmuxBufferWrite b input).items.length = bufferSz :=
  (length_store b.writep_lt (length_take_free_le b input)).trans hsize

/-- `cmux_extract`. -/
def cmuxExtract (ctl : Ctl) (input : List UInt8) : List Effect × Ctl :=
  let b := cmuxBufferWrite ctl.stream input
  let r := extractLoop b.length b ctl.active
  have hsize : b.items.length = bufferSz := length_cmuxBufferWrite ctl.size input
  (r.1,
    { stream := r.2.1
      size := by rw [(extractLoop_decodeAll b.length hsize ctl.active).2.1, hsize]
      active := r.2.2 })

/-- What the channels get from a sequence of reads. -/
def delivered (ctl : Ctl) (reads : List (List UInt8)) : List (UInt8 × List UInt8) :=
  (outputs cmuxExtract ctl reads).flatten.filterMap Effect.delivery

/-- The bytes that can be unread behind a write. -/
def buffered (unread input : List UInt8) : List UInt8 :=
  if unread.length + input.length < bufferSz then unread ++ input else []

theorem unread_cmuxBufferWrite (hsize : b.items.length = bufferSz) (input : List UInt8) :
    (cmuxBufferWrite b input).unread = buffered b.unread input := by
  have hroom := b.length_add_free
  rw [buffered, b.length_unread, cmuxBufferWrite]
  split_ifs with h
  · have htake : input.take b.free = input := take_of_length_le (by omega)
    rw [unread_write _ (by rw [htake, hsize]; exact h), htake]
  · refine unread_write_full _ ?_
    rw [length_take, Nat.min_eq_left (by omega), hroom]

/-- `cmux_extract` on the unread bytes: the frames, and what is left. -/
def extract (unread input : List UInt8) : List Parse × List UInt8 :=
  decodeAll (buffered unread input).length (buffered unread input)

theorem refines_cmuxExtract (ctl : Ctl) (input : List UInt8) :
    (cmuxExtract ctl input).1.filterMap Effect.delivery =
        (extract ctl.stream.unread input).1.filterMap Parse.delivery ∧
      (cmuxExtract ctl input).2.stream.unread = (extract ctl.stream.unread input).2 := by
  have hunread := unread_cmuxBufferWrite ctl.size input
  obtain ⟨hdeliveries, -, hrest⟩ := extractLoop_decodeAll (cmuxBufferWrite ctl.stream input).length
    (length_cmuxBufferWrite ctl.size input) ctl.active
  rw [extract, ← hunread, length_unread]
  exact ⟨hdeliveries, hrest⟩

/-- What is delivered from reads when so much is unread before them. -/
def deliveredFrom : List UInt8 → List (List UInt8) → List (UInt8 × List UInt8)
  | _, [] => []
  | unread, r :: reads =>
    (extract unread r).1.filterMap Parse.delivery ++ deliveredFrom (extract unread r).2 reads

theorem delivered_eq (ctl : Ctl) (reads : List (List UInt8)) :
    delivered ctl reads = deliveredFrom ctl.stream.unread reads := by
  induction reads generalizing ctl with
  | nil => rfl
  | cons r reads ih =>
    obtain ⟨hdeliveries, hunread⟩ := refines_cmuxExtract ctl r
    have hmore := ih (next cmuxExtract ctl r)
    rw [delivered] at hmore
    rw [delivered, outputs_cons, flatten_cons, filterMap_append, hdeliveries, hmore, deliveredFrom,
      Mealy.next, hunread]

/-! ## Bytes that frames use up -/

/-- The bytes of a frame with its flags. -/
def Parse.weight (parse : Parse) : Nat := 6 + parse.data.length

/-- What a turn leaves of so many bytes behind a flag. -/
def Turn.Within (n : Nat) : Turn (List UInt8) → Prop
  | .error bytes => bytes.length ≤ n
  | .again bytes => bytes.length ≤ n
  | .ok parse bytes => bytes.length + parse.data.length + 5 ≤ n

/-- What is left of so many bytes behind a flag when a frame has been looked for. -/
def DecodedWithin (n : Nat) : Option Parse × List UInt8 → Prop
  | (none, bytes) => bytes.length ≤ n
  | (some parse, bytes) => bytes.length + parse.data.length + 5 ≤ n

theorem Turn.Within.mono {n' : Nat} (h : n ≤ n') {turn : Turn (List UInt8)} (hturn : turn.Within n) :
    turn.Within n' := by
  cases turn with
  | error | again | ok => exact Nat.le_trans hturn h

theorem scanBehind_within (bytes : List UInt8) : (scanBehind bytes).Within bytes.length := by
  match bytes with
  | address :: control :: len :: rest =>
    rw [scanBehind]
    split_ifs with hmin hea hwhole hcrc hclose
    · exact Nat.le_refl _
    · simp [Turn.Within]
    · exact Nat.le_refl _
    · simp only [Turn.Within, length_drop, length_cons]
      omega
    · simp only [Turn.Within, length_drop, length_cons]
      omega
    · simp only [Turn.Within, length_drop, length_cons, length_take]
      omega
  | [] => exact Nat.le_refl _
  | [_] => exact Nat.le_refl _
  | [_, _] => exact Nat.le_refl _

theorem length_behindFlag {bytes rest : List UInt8} (h : behindFlag bytes = some rest) :
    rest.length < bytes.length := by
  induction bytes with
  | nil => cases h
  | cons x bytes ih =>
    rw [behindFlag] at h
    split_ifs at h
    · cases h
      exact Nat.lt_succ_self _
    · exact Nat.lt_succ_of_lt (ih h)

theorem scan_within (bytes : List UInt8) : (scan bytes).Within (bytes.length - 1) := by
  rw [scan]
  split
  · exact Nat.zero_le _
  rename_i rest hrest
  have hlt := length_behindFlag hrest
  have hdrop := (dropWhile_suffix (l := rest) (· = flag)).length_le
  exact (scanBehind_within _).mono (by omega)

theorem scan_within_of_flags (bytes : List UInt8) : (scan (flag :: flag :: bytes)).Within bytes.length := by
  have hscan : scan (flag :: flag :: bytes) = scanBehind (bytes.dropWhile (· = flag)) := rfl
  exact (scanBehind_within _).mono (dropWhile_suffix _).length_le

theorem decodeWithin_short (fuel : Nat) {bytes : List UInt8} (h : bytes.length < minFrameLen) :
    decodeWithin fuel bytes = (none, bytes) := by
  cases fuel with
  | zero => rfl
  | succ fuel => rw [decodeWithin, if_neg (by omega)]

theorem decodedWithin_of_scan (fuel : Nat) {bytes : List UInt8} (hmin : minFrameLen ≤ bytes.length)
    (h : (scan bytes).Within n) : DecodedWithin n (decodeWithin (fuel + 1) bytes) := by
  induction fuel generalizing n bytes with
  | zero =>
    rw [decodeWithin, if_pos hmin]
    generalize scan bytes = turn at h
    cases turn with
    | error | again | ok => exact h
  | succ fuel ih =>
    rw [decodeWithin, if_pos hmin]
    generalize scan bytes = turn at h
    cases turn with
    | error | ok => exact h
    | again rest =>
      simp only
      by_cases hrest : minFrameLen ≤ rest.length
      · exact ih hrest ((scan_within rest).mono ((Nat.sub_le _ _).trans h))
      · rw [decodeWithin_short _ (Nat.lt_of_not_le hrest)]
        exact h

theorem decode_within {bytes : List UInt8} (hmin : minFrameLen ≤ bytes.length) (h : (scan bytes).Within n) :
    DecodedWithin n (decode bytes) := by
  rw [decode]
  obtain ⟨fuel, hfuel⟩ : ∃ fuel, bytes.length = fuel + 1 := Nat.exists_eq_succ_of_ne_zero (by
    rw [minFrameLen] at hmin
    omega)
  rw [hfuel]
  exact decodedWithin_of_scan fuel hmin h

/-- The bytes that the frames have used up and those that are left. -/
def used (r : List Parse × List UInt8) : Nat := (r.1.map Parse.weight).sum + r.2.length

theorem used_decodeAll_succ {m : Nat} {bytes : List UInt8} (hrest : ∀ rest, used (decodeAll fuel rest) ≤ rest.length)
    (h : DecodedWithin m (decode bytes)) : used (decodeAll (fuel + 1) bytes) ≤ m + 1 := by
  rw [decodeAll]
  generalize decode bytes = r at h
  obtain ⟨_ | parse, rest⟩ := r
  · simp only [DecodedWithin] at h
    simp only [used, map_nil, sum_nil]
    omega
  have hused := hrest rest
  simp only [DecodedWithin] at h
  simp only [used, map_cons, sum_cons, Parse.weight] at hused ⊢
  omega

theorem used_decodeAll_le (fuel : Nat) (bytes : List UInt8) : used (decodeAll fuel bytes) ≤ bytes.length := by
  induction fuel generalizing bytes with
  | zero => exact Nat.le_of_eq (Nat.zero_add _)
  | succ fuel ih =>
    by_cases hmin : minFrameLen ≤ bytes.length
    · have hused := used_decodeAll_succ ih (decode_within hmin (scan_within bytes))
      rw [minFrameLen] at hmin
      omega
    · rw [decodeAll, decode, decodeWithin_short _ (by omega)]
      exact Nat.le_of_eq (Nat.zero_add _)

/-! ## Valid frames -/

theorem dataLengthOf_octet (h : n ≤ 127) :
    dataLengthOf (UInt8.ofNat (2 * n + 1)) = n ∧ UInt8.ofNat (2 * n + 1) &&& 1 ≠ 0 := by
  have hall : ∀ n : Fin 128, dataLengthOf (UInt8.ofNat (2 * n + 1)) = n ∧ UInt8.ofNat (2 * n + 1) &&& 1 ≠ 0 := by decide
  exact hall ⟨n, Nat.lt_succ_of_le h⟩

theorem scan_flag {address : UInt8} (h : address ≠ flag) (rest : List UInt8) :
    scan (flag :: address :: rest) = scanBehind (address :: rest) := by
  change scanBehind ((address :: rest).dropWhile (· = flag)) = _
  rw [dropWhile_cons, if_neg (by simpa using h)]

/-- A frame that is all there is decoded if its FCS is right. -/
theorem scan_frame {address : UInt8} {data : List UInt8} (h : address ≠ flag) (hfits : data.length ≤ 127)
    (control fcs : UInt8) (rest : List UInt8) :
    scan (flag :: address :: control :: UInt8.ofNat (2 * data.length + 1) :: (data ++ fcs :: flag :: rest)) =
      if crc8rohcincr fcs (fcsOf address control (UInt8.ofNat (2 * data.length + 1)) data) = 0xcf then
        .ok ⟨addressOf address, control, data⟩ rest
      else .again (fcs :: flag :: rest) := by
  obtain ⟨hlength, hea⟩ := dataLengthOf_octet hfits
  have hfcs : (data ++ fcs :: flag :: rest).getD data.length 0 = fcs := by simp
  have hflag : (data ++ fcs :: flag :: rest).getD (data.length + 1) 0 = flag := by simp
  have hdata : (data ++ fcs :: flag :: rest).take data.length = data := take_left
  have hrest : (data ++ fcs :: flag :: rest).drop (data.length + 2) = rest := by simp
  have hlen : (data ++ fcs :: flag :: rest).length = data.length + 2 + rest.length := by simp; omega
  rw [scan_flag h, scanBehind, hlength, if_neg (by omega), if_neg hea, if_neg (by omega), hfcs, hdata, hflag,
    if_neg (not_not.mpr rfl), hrest, drop_left, ite_not]

/-- A UIH frame with the octet of its address, any P/F bit and a right FCS. -/
structure UihFrame where
  address : UInt8
  control : UInt8
  data : List UInt8
  fcs : UInt8
  isUih : frameType control = frameTypeUih
  fits : data.length ≤ 127
  checked : crc8rohcincr fcs (fcsOf address control (UInt8.ofNat (2 * data.length + 1)) data) = 0xcf

namespace UihFrame

variable (f : UihFrame)

def lengthOctet : UInt8 := UInt8.ofNat (2 * f.data.length + 1)

def bytes : List UInt8 := flag :: f.address :: f.control :: f.lengthOctet :: f.data ++ [f.fcs, flag]

def parse : Parse := ⟨addressOf f.address, f.control, f.data⟩

/-- The channel that a frame is for. -/
def dlci : UInt8 := addressOf f.address

theorem length_bytes : f.bytes.length = f.parse.weight := by
  simp only [bytes, parse, Parse.weight, length_append, length_cons, length_nil]
  omega

theorem lengthOctet_spec : dataLengthOf f.lengthOctet = f.data.length ∧ f.lengthOctet &&& 1 ≠ 0 :=
  dataLengthOf_octet f.fits

theorem delivery_parse : f.parse.delivery = if f.dlci > 0 then some (f.dlci, f.data) else none := by
  by_cases hdlci : f.dlci > 0
  · rw [if_pos hdlci]
    exact if_pos ⟨.inr f.isUih, hdlci⟩
  · rw [if_neg hdlci]
    exact if_neg fun h => hdlci h.2

variable {f} {n : Nat}

theorem scan_append (h : f.address ≠ flag) (rest : List UInt8) : scan (f.bytes ++ rest) = .ok f.parse rest := by
  have hbytes : f.bytes ++ rest =
      flag :: f.address :: f.control :: f.lengthOctet :: (f.data ++ f.fcs :: flag :: rest) := by simp [bytes]
  rw [hbytes, lengthOctet, scan_frame h f.fits, if_pos f.checked]
  rfl

theorem scan_take (h : f.address ≠ flag) (hmin : minFrameLen ≤ n) (hn : n < f.bytes.length) :
    scan (f.bytes.take n) = .error ((f.bytes.take n).drop 1) := by
  obtain ⟨hlength, hea⟩ := f.lengthOctet_spec
  obtain ⟨k, rfl⟩ : ∃ k, n = k + 5 := ⟨n - 5, by rw [minFrameLen] at hmin; omega⟩
  have hbytes : f.bytes.take (k + 5) =
      flag :: f.address :: f.control :: f.lengthOctet :: (f.data ++ [f.fcs, flag]).take (k + 1) := rfl
  have hlen : ((f.data ++ [f.fcs, flag]).take (k + 1)).length = k + 1 := by
    rw [length_bytes, Parse.weight] at hn
    change k + 5 < 6 + f.data.length at hn
    rw [length_take, length_append, length_cons, length_singleton]
    omega
  rw [length_bytes, Parse.weight] at hn
  change k + 5 < 6 + f.data.length at hn
  rw [hbytes, scan_flag h, scanBehind, hlength, hlen, if_neg hea, if_pos (by omega : k + 1 < 2 + f.data.length)]
  split_ifs <;> rfl

theorem decode_append (h : f.address ≠ flag) (rest : List UInt8) : decode (f.bytes ++ rest) = (some f.parse, rest) := by
  have hlen : (f.bytes ++ rest).length = 5 + f.data.length + rest.length + 1 := by
    rw [length_append, length_bytes]
    change 6 + f.data.length + _ = _
    omega
  have hmin : minFrameLen ≤ (f.bytes ++ rest).length := by
    rw [hlen, minFrameLen]
    omega
  rw [decode, hlen, decodeWithin, if_pos hmin, scan_append h]

theorem decode_take (h : f.address ≠ flag) (hmin : minFrameLen ≤ n) (hn : n < f.bytes.length) :
    decode (f.bytes.take n) = (none, (f.bytes.take n).drop 1) := by
  have hlen : (f.bytes.take n).length = n := length_take_of_le (Nat.le_of_lt hn)
  obtain ⟨k, hk⟩ : ∃ k, n = k + 1 := ⟨n - 1, by rw [minFrameLen] at hmin; omega⟩
  rw [decode, hlen, hk, decodeWithin, ← hk, if_pos (by rwa [hlen]), scan_take h hmin hn]

/-- If the frame is not all there, or its address is taken for a flag, then bytes are lost. -/
theorem used_decodeAll_lt (fuel : Nat) (rest : List UInt8) (hmin : minFrameLen ≤ n) (hn : n ≤ (f.bytes ++ rest).length)
    (h : n < f.bytes.length ∨ f.address = flag) : used (decodeAll (fuel + 1) ((f.bytes ++ rest).take n)) < n := by
  have hlen : ((f.bytes ++ rest).take n).length = n := length_take_of_le hn
  have hmin' : minFrameLen ≤ ((f.bytes ++ rest).take n).length := by rwa [hlen]
  rw [minFrameLen] at hmin
  by_cases haddress : f.address = flag
  · -- both flags are gone over
    obtain ⟨k, rfl⟩ : ∃ k, n = k + 2 := ⟨n - 2, by omega⟩
    obtain ⟨tail, htail⟩ : ∃ tail, (f.bytes ++ rest).take (k + 2) = flag :: flag :: tail := by
      rw [bytes, haddress]
      exact ⟨_, rfl⟩
    rw [htail] at hlen hmin' ⊢
    have hused := used_decodeAll_succ (used_decodeAll_le fuel) (decode_within hmin' (scan_within_of_flags tail))
    simp only [length_cons] at hlen
    omega
  · have hpart : n < f.bytes.length := h.resolve_right haddress
    rw [take_append_of_le_length (Nat.le_of_lt hpart)] at hlen ⊢
    rw [decodeAll, decode_take haddress hmin hpart]
    simp only [used, map_nil, sum_nil, length_drop, hlen]
    omega

end UihFrame

/-! ## Streams of frames -/

/-- The bytes of frames, one behind the other. -/
def streamOf (frames : List UihFrame) : List UInt8 := frames.flatMap UihFrame.bytes

/-- The frames that are complete in the first bytes of a stream, those that are not, and how many of
the bytes are theirs. -/
def complete : List UihFrame → Nat → List UihFrame × List UihFrame × Nat
  | [], n => ([], [], n)
  | f :: frames, n =>
    if f.bytes.length ≤ n then
      let rest := complete frames (n - f.bytes.length)
      (f :: rest.1, rest.2)
    else ([], f :: frames, n)

/-- The reads do not fill the buffer, and each leaves fewer than five bytes of an incomplete frame
in it. Before the first one, so many bytes of the frames are in the buffer. -/
def Kept : List UihFrame → Nat → List (List UInt8) → Prop
  | _, _, [] => True
  | frames, k, r :: reads =>
    k + r.length < bufferSz ∧ (complete frames (k + r.length)).2.2 < minFrameLen ∧
      Kept (complete frames (k + r.length)).2.1 (complete frames (k + r.length)).2.2 reads

instance Kept.decidable : (frames : List UihFrame) → (k : Nat) → (reads : List (List UInt8)) →
    Decidable (Kept frames k reads)
  | _, _, [] => isTrue trivial
  | _, _, _ :: reads => @instDecidableAnd _ _ _ (@instDecidableAnd _ _ _ (Kept.decidable _ _ reads))

theorem complete_spec (frames : List UihFrame) (n : Nat) :
    frames = (complete frames n).1 ++ (complete frames n).2.1 ∧
      n = (streamOf (complete frames n).1).length + (complete frames n).2.2 := by
  induction frames generalizing n with
  | nil => exact ⟨rfl, (Nat.zero_add _).symm⟩
  | cons f frames ih =>
    rw [complete]
    split_ifs with h
    · obtain ⟨hframes, hn⟩ := ih (n - f.bytes.length)
      refine ⟨congrArg (f :: ·) hframes, ?_⟩
      simp only [streamOf, flatMap_cons, length_append] at hn ⊢
      omega
    · exact ⟨rfl, (Nat.zero_add _).symm⟩

theorem complete_cons {f : UihFrame} (h : f.bytes.length ≤ n) (frames : List UihFrame) : complete (f :: frames) n =
      (f :: (complete frames (n - f.bytes.length)).1, (complete frames (n - f.bytes.length)).2) := by
  rw [complete, if_pos h]

theorem decodeAll_short (fuel : Nat) {bytes : List UInt8} (h : bytes.length < minFrameLen) :
    decodeAll fuel bytes = ([], bytes) := by
  cases fuel with
  | zero => rfl
  | succ fuel => rw [decodeAll, decode, decodeWithin_short _ h]

theorem take_stream_cons {f : UihFrame} (h : f.bytes.length ≤ n) (frames : List UihFrame) :
    (streamOf (f :: frames)).take n = f.bytes ++ (streamOf frames).take (n - f.bytes.length) := by
  rw [streamOf, flatMap_cons, take_append, take_of_length_le h]
  rfl

/-- The frames in the first bytes of a stream: if no address is taken for a flag and few bytes are
left, they are all decoded and the rest stays. -/
theorem decodeAll_stream {frames : List UihFrame} (hfuel : n ≤ fuel) (hn : n ≤ (streamOf frames).length)
    (haddress : ∀ f ∈ (complete frames n).1, f.address ≠ flag) (hleft : (complete frames n).2.2 < minFrameLen) :
    decodeAll fuel ((streamOf frames).take n) =
      ((complete frames n).1.map UihFrame.parse, (streamOf (complete frames n).2.1).take (complete frames n).2.2) := by
  induction frames generalizing n fuel with
  | nil => exact decodeAll_short fuel (by simp [streamOf])
  | cons f frames ih =>
    by_cases hwhole : f.bytes.length ≤ n
    · rw [complete_cons hwhole] at haddress hleft ⊢
      obtain ⟨hfirst, hrest⟩ := forall_mem_cons.mp haddress
      have hpos : 0 < f.bytes.length := Nat.succ_pos _
      obtain ⟨fuel, rfl⟩ : ∃ k, fuel = k + 1 := ⟨fuel - 1, by omega⟩
      simp only [streamOf, flatMap_cons, length_append] at hn
      have hmore := @ih (n - f.bytes.length) fuel (by omega) (by rw [streamOf]; omega) hrest hleft
      rw [take_stream_cons hwhole, decodeAll, UihFrame.decode_append hfirst]
      simp only [hmore, map_cons]
    · rw [complete, if_neg hwhole] at hleft ⊢
      exact decodeAll_short fuel (Nat.lt_of_le_of_lt (length_take_le _ _) hleft)

theorem used_decodeAll_stream {frames : List UihFrame} (hfuel : n ≤ fuel) (hn : n ≤ (streamOf frames).length)
    (h : ¬ ((∀ f ∈ (complete frames n).1, f.address ≠ flag) ∧ (complete frames n).2.2 < minFrameLen)) :
    used (decodeAll fuel ((streamOf frames).take n)) < n := by
  induction frames generalizing n fuel with
  | nil =>
    obtain rfl : n = 0 := Nat.le_zero.mp hn
    exact absurd ⟨fun _ hf => absurd hf not_mem_nil, by decide⟩ h
  | cons f frames ih =>
    have hstream : streamOf (f :: frames) = f.bytes ++ streamOf frames := rfl
    have hlen : f.bytes.length = 6 + f.data.length := f.length_bytes
    by_cases hwhole : f.bytes.length ≤ n
    · obtain ⟨fuel, rfl⟩ : ∃ k, fuel = k + 1 := ⟨fuel - 1, by omega⟩
      by_cases hfirst : f.address = flag
      · exact UihFrame.used_decodeAll_lt fuel _ (by rw [minFrameLen]; omega) hn (.inr hfirst)
      rw [complete_cons hwhole] at h
      rw [hstream, length_append] at hn
      have hmore := @ih (n - f.bytes.length) fuel (by omega) (by omega)
        fun hgood => h ⟨forall_mem_cons.mpr ⟨hfirst, hgood.1⟩, hgood.2⟩
      rw [take_stream_cons hwhole, decodeAll, UihFrame.decode_append hfirst]
      simp only [used, map_cons, sum_cons] at hmore ⊢
      rw [← f.length_bytes]
      omega
    · rw [complete, if_neg hwhole] at h
      have hmin : minFrameLen ≤ n := Nat.le_of_not_lt fun hlt => h ⟨fun _ hf => absurd hf not_mem_nil, hlt⟩
      obtain ⟨fuel, rfl⟩ : ∃ k, fuel = k + 1 := ⟨fuel - 1, by rw [minFrameLen] at hmin; omega⟩
      exact UihFrame.used_decodeAll_lt fuel _ hmin hn (.inl (Nat.lt_of_not_le hwhole))

/-! ## Reads of a stream -/

/-- The bytes of what has been delivered. -/
def weightOf (deliveries : List (UInt8 × List UInt8)) : Nat := (deliveries.map fun d => 6 + d.2.length).sum

theorem weightOf_append (ds ds' : List (UInt8 × List UInt8)) : weightOf (ds ++ ds') = weightOf ds + weightOf ds' := by
  simp [weightOf]

theorem weightOf_deliveries_le (parses : List Parse) :
    weightOf (parses.filterMap Parse.delivery) ≤ (parses.map Parse.weight).sum := by
  induction parses with
  | nil => exact Nat.le_refl _
  | cons parse parses ih =>
    rw [filterMap_cons, map_cons, sum_cons]
    cases hdelivery : parse.delivery with
    | none => exact Nat.le_add_left_of_le ih
    | some d =>
      have hd : d = (parse.address, parse.data) := by
        rw [Parse.delivery] at hdelivery
        split_ifs at hdelivery
        exact (Option.some.inj hdelivery).symm
      subst hd
      exact Nat.add_le_add_left ih _

theorem length_buffered_le (unread input : List UInt8) :
    (buffered unread input).length ≤ unread.length + input.length := by
  rw [buffered]
  split_ifs
  · rw [length_append]
  · exact Nat.zero_le _

theorem weightOf_extract_le (unread input : List UInt8) :
    weightOf ((extract unread input).1.filterMap Parse.delivery) + (extract unread input).2.length ≤
      (buffered unread input).length :=
  (Nat.add_le_add_right (weightOf_deliveries_le _) _).trans (used_decodeAll_le _ _)

theorem weightOf_deliveredFrom_le (unread : List UInt8) (reads : List (List UInt8)) :
    weightOf (deliveredFrom unread reads) ≤ unread.length + reads.flatten.length := by
  induction reads generalizing unread with
  | nil => exact Nat.zero_le _
  | cons r reads ih =>
    have hread := weightOf_extract_le unread r
    have hbuffered := length_buffered_le unread r
    have hmore := ih (extract unread r).2
    rw [deliveredFrom, weightOf_append, flatten_cons, length_append]
    omega

section

variable {frames : List UihFrame} {k : Nat} {r : List UInt8} {reads : List (List UInt8)}

theorem buffered_stream (hroom : k + r.length < bufferSz) (hk : k ≤ (streamOf frames).length)
    (hr : (r :: reads).flatten = (streamOf frames).drop k) :
    buffered ((streamOf frames).take k) r = (streamOf frames).take (k + r.length) := by
  have hprefix : r = ((streamOf frames).drop k).take r.length := by
    rw [← hr, flatten_cons, take_left]
  rw [buffered, length_take_of_le hk, if_pos hroom, take_add, ← hprefix]

theorem length_reads (hk : k ≤ (streamOf frames).length) (hr : (r :: reads).flatten = (streamOf frames).drop k) :
    k + r.length + reads.flatten.length = (streamOf frames).length := by
  have hlen := congrArg List.length hr
  rw [flatten_cons, length_append, length_drop] at hlen
  omega

theorem flatten_left (hk : k ≤ (streamOf frames).length) (hr : (r :: reads).flatten = (streamOf frames).drop k) :
    reads.flatten = (streamOf (complete frames (k + r.length)).2.1).drop (complete frames (k + r.length)).2.2 ∧
      (complete frames (k + r.length)).2.2 ≤ (streamOf (complete frames (k + r.length)).2.1).length := by
  have hlen := length_reads hk hr
  have hbehind : reads.flatten = (streamOf frames).drop (k + r.length) := by
    rw [← drop_drop, ← hr, flatten_cons, drop_left]
  obtain ⟨hframes, hn⟩ := complete_spec frames (k + r.length)
  generalize complete frames (k + r.length) = c at hframes hn ⊢
  obtain ⟨done, left, k'⟩ := c
  simp only at hframes hn ⊢
  have hstream : streamOf frames = streamOf done ++ streamOf left := by
    rw [hframes]
    exact flatMap_append
  rw [hbehind, hn, hstream, ← drop_drop, drop_left]
  rw [hstream, length_append] at hlen
  exact ⟨rfl, by omega⟩

theorem eq_nil_of_short (h : (streamOf frames).length < minFrameLen) : frames = [] := by
  cases frames with
  | nil => rfl
  | cons f frames =>
    rw [streamOf, flatMap_cons, length_append, f.length_bytes, Parse.weight, minFrameLen] at h
    omega

/-- The frames that a read completes are delivered, and the bytes of the next one stay. -/
theorem extract_stream (hroom : k + r.length < bufferSz) (hk : k ≤ (streamOf frames).length)
    (hr : (r :: reads).flatten = (streamOf frames).drop k)
    (haddress : ∀ f ∈ (complete frames (k + r.length)).1, f.address ≠ flag)
    (hleft : (complete frames (k + r.length)).2.2 < minFrameLen) :
    extract ((streamOf frames).take k) r =
      ((complete frames (k + r.length)).1.map UihFrame.parse,
        (streamOf (complete frames (k + r.length)).2.1).take (complete frames (k + r.length)).2.2) := by
  have hlen := length_reads hk hr
  rw [extract, buffered_stream hroom hk hr]
  exact decodeAll_stream (by rw [length_take]; omega) (by omega) haddress hleft

/-- The data of frames, with their channels. The control channel has none. -/
def dataOf (frames : List UihFrame) : List (UInt8 × List UInt8) := frames.filterMap fun f => f.parse.delivery

theorem deliveredFrom_stream (hk : k ≤ (streamOf frames).length) (hshort : k < minFrameLen)
    (hr : reads.flatten = (streamOf frames).drop k) (haddress : ∀ f ∈ frames, f.address ≠ flag)
    (hkept : Kept frames k reads) : deliveredFrom ((streamOf frames).take k) reads = dataOf frames := by
  induction reads generalizing frames k with
  | nil =>
    have hlen := congrArg List.length hr
    rw [flatten_nil, length_nil, length_drop] at hlen
    obtain rfl : frames = [] := eq_nil_of_short (by omega)
    rfl
  | cons r reads ih =>
    obtain ⟨hroom, hleft, hmore⟩ := hkept
    obtain ⟨hframes, -⟩ := complete_spec frames (k + r.length)
    have haddress' := haddress
    rw [hframes, forall_mem_append] at haddress'
    obtain ⟨hflatten, hk'⟩ := flatten_left hk hr
    rw [deliveredFrom, extract_stream hroom hk hr haddress'.1 hleft, ih hk' hleft hflatten haddress'.2 hmore,
      filterMap_map]
    conv_rhs => rw [hframes]
    exact filterMap_append.symm

theorem sum_weight_parse (frames : List UihFrame) :
    ((frames.map UihFrame.parse).map Parse.weight).sum = (streamOf frames).length := by
  rw [streamOf, length_flatMap, map_map]
  exact congrArg (fun g => (frames.map g).sum) (funext fun f => f.length_bytes.symm)

/-- If a read fills the buffer or leaves too much of a frame in it, or an address is taken for a
flag, then less is delivered than the stream has. -/
theorem weightOf_deliveredFrom_lt (hk : k ≤ (streamOf frames).length) (hshort : k < minFrameLen)
    (hr : reads.flatten = (streamOf frames).drop k)
    (hlost : ¬ ((∀ f ∈ frames, f.address ≠ flag) ∧ Kept frames k reads)) :
    weightOf (deliveredFrom ((streamOf frames).take k) reads) < (streamOf frames).length := by
  induction reads generalizing frames k with
  | nil =>
    have hlen := congrArg List.length hr
    rw [flatten_nil, length_nil, length_drop] at hlen
    obtain rfl : frames = [] := eq_nil_of_short (by omega)
    exact absurd ⟨nofun, trivial⟩ hlost
  | cons r reads ih =>
    have hlen := length_reads hk hr
    rw [deliveredFrom, weightOf_append]
    by_cases hroom : k + r.length < bufferSz
    · by_cases hgood : (∀ f ∈ (complete frames (k + r.length)).1, f.address ≠ flag) ∧
          (complete frames (k + r.length)).2.2 < minFrameLen
      · obtain ⟨hframes, hn⟩ := complete_spec frames (k + r.length)
        obtain ⟨hflatten, hk'⟩ := flatten_left hk hr
        have hmore := ih hk' hgood.2 hflatten fun h =>
          hlost ⟨by rw [hframes, forall_mem_append]; exact ⟨hgood.1, h.1⟩, hroom, hgood.2, h.2⟩
        have hdone := weightOf_deliveries_le ((complete frames (k + r.length)).1.map UihFrame.parse)
        have hstream : (streamOf frames).length = (streamOf (complete frames (k + r.length)).1).length +
            (streamOf (complete frames (k + r.length)).2.1).length := by
          conv_lhs => rw [hframes, streamOf, flatMap_append, length_append]
          rfl
        rw [sum_weight_parse] at hdone
        rw [extract_stream hroom hk hr hgood.1 hgood.2]
        simp only
        omega
      · have hused := used_decodeAll_stream (Nat.le_refl _) (by omega) hgood
        have hread := weightOf_deliveries_le (extract ((streamOf frames).take k) r).1
        have hmore := weightOf_deliveredFrom_le (extract ((streamOf frames).take k) r).2 reads
        have hextract : extract ((streamOf frames).take k) r =
            decodeAll (k + r.length) ((streamOf frames).take (k + r.length)) := by
          rw [extract, buffered_stream hroom hk hr, length_take_of_le (by omega)]
        rw [hextract] at hread hmore ⊢
        rw [used] at hused
        omega
    · -- the buffer is full and looks empty
      have hnone : buffered ((streamOf frames).take k) r = [] := by
        rw [buffered, length_take_of_le hk, if_neg hroom]
      have hread := weightOf_extract_le ((streamOf frames).take k) r
      have hmore := weightOf_deliveredFrom_le (extract ((streamOf frames).take k) r).2 reads
      rw [hnone, length_nil] at hread
      rw [bufferSz] at hroom
      omega

theorem weightOf_dataOf (h : ∀ f ∈ frames, f.dlci ≠ 0) : weightOf (dataOf frames) = (streamOf frames).length := by
  induction frames with
  | nil => rfl
  | cons f frames ih =>
    obtain ⟨hfirst, hrest⟩ := forall_mem_cons.mp h
    have hdlci : f.dlci > 0 := UInt8.pos_iff_ne_zero.mpr hfirst
    have hdelivery : f.parse.delivery = some (f.dlci, f.data) := by rw [f.delivery_parse, if_pos hdlci]
    have hmore := ih hrest
    rw [dataOf] at hmore
    rw [dataOf, filterMap_cons, hdelivery, streamOf, flatMap_cons, length_append, f.length_bytes]
    simp only [weightOf, map_cons, sum_cons] at hmore ⊢
    rw [hmore]
    rfl

end

/-! ## A frame in two reads -/

/-- `cmux_stream_buffer_create`. -/
def createdStream : CircularBuffer UInt8 where
  items := replicate bufferSz 0
  readp := 0
  writep := 0
  readp_lt := by simp
  writep_lt := by simp

def createdCtl : Ctl := ⟨createdStream, length_replicate, fun _ => false⟩

theorem createdCtl_empty : createdCtl.stream.unread = [] := rfl

/-- The text `OK` for channel 1. -/
def okFrame : UihFrame where
  address := 0x05
  control := 0xef
  data := [0x4f, 0x4b]
  fcs := 0x51
  isUih := rfl
  fits := by decide
  checked := by decide +kernel

end Netutils.Cmux
