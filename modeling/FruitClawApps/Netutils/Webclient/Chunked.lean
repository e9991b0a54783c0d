-- SUMMARY: The chunked encoding of a body, and that the HTTP client gives it to the sink.
import FruitClawApps.Netutils.Webclient.Streaming

/-!
# Chunked bodies

The client reads the lines between the data of the chunks into a buffer of fixed size. A chunk
header that does not fit is taken as it stands if it has an extension, and the rest of its line is
taken for data.
-/

namespace Netutils.Webclient

open Transition List

/-! ## The encoding -/

def crlf : List Char := ['\r', '\n']

/-- The line in front of a chunk: its size in hexadecimal digits, and extensions. -/
structure SizeLine where
  size : List Char
  ext : List Char
  nonempty : size ≠ []
  digits : ∀ c ∈ size, (digitValue 16 c).isSome = true
  opened : ext = [] ∨ ext.head? = some ';'
  oneLine : '\n' ∉ ext

def SizeLine.value (l : SizeLine) : Nat := (scanDigits 16 0 l.size).1

def SizeLine.text (l : SizeLine) : List Char := l.size ++ l.ext ++ crlf

/-- A chunk that carries data. Its size can be written as an `uintmax_t`. -/
structure Chunk extends SizeLine where
  data : List Char
  full : data ≠ []
  sized : toSizeLine.value = data.length
  counted : data.length < 2 ^ 64

def Chunk.text (chunk : Chunk) : List Char := chunk.toSizeLine.text ++ chunk.data ++ crlf

/-- A field behind the last chunk. -/
structure Trailer where
  field : List Char
  nonempty : field ≠ []
  oneLine : '\n' ∉ field

def Trailer.text (t : Trailer) : List Char := t.field ++ crlf

/-- A chunked body. -/
structure Chunked where
  chunks : List Chunk
  last : SizeLine
  zero : last.value = 0
  trailers : List Trailer

namespace Chunked

def text (m : Chunked) : List Char :=
  m.chunks.flatMap Chunk.text ++ m.last.text ++ m.trailers.flatMap Trailer.text ++ crlf

def body (m : Chunked) : List Char := m.chunks.flatMap Chunk.data

/-- All lines of the encoding fit into the line buffer of the client. -/
def Fits (m : Chunked) : Prop :=
  (∀ chunk ∈ m.chunks, chunk.toSizeLine.text.length ≤ maxHttpLine) ∧ m.last.text.length ≤ maxHttpLine ∧
    ∀ t ∈ m.trailers, t.text.length ≤ maxHttpLine

instance (m : Chunked) : Decidable m.Fits := inferInstanceAs (Decidable (_ ∧ _ ∧ _))

end Chunked

/-! ## Reading a line -/

/-- The line buffer behind bytes that were written from an index on. -/
def overwrite (line : List Char) (ndx : Nat) : List Char → List Char
  | [] => line
  | c :: bytes => overwrite (line.set ndx c) (ndx + 1) bytes

theorem overwrite_append (line : List Char) (ndx : Nat) (xs ys : List Char) :
    overwrite line ndx (xs ++ ys) = overwrite (overwrite line ndx xs) (ndx + xs.length) ys := by
  induction xs generalizing line ndx with
  | nil => rfl
  | cons c xs ih =>
    rw [cons_append, overwrite, ih, overwrite, length_cons, Nat.add_assoc, Nat.add_comm 1]

@[simp] theorem overwrite_length (line : List Char) (ndx : Nat) (bytes : List Char) :
    (overwrite line ndx bytes).length = line.length := by
  induction bytes generalizing line ndx with
  | nil => rfl
  | cons c bytes ih => rw [overwrite, ih, length_set]

theorem overwrite_eq {buf bytes : List Char} {ndx : Nat} (h : ndx + bytes.length ≤ buf.length) :
    overwrite buf ndx bytes = buf.take ndx ++ bytes ++ buf.drop (ndx + bytes.length) := by
  induction bytes generalizing buf ndx with
  | nil => simp [overwrite]
  | cons c bytes ih =>
    rw [length_cons] at h
    rw [overwrite, ih (by rw [length_set]; omega)]
    have hset : (buf.set ndx c).take (ndx + 1) = buf.take ndx ++ [c] := by
      rw [take_set, take_add_one, set_append_right _ _ (by rw [length_take]; omega)]
      have hget : buf[ndx]? = some buf[ndx] := getElem?_eq_getElem (by omega)
      simp [hget, Nat.min_eq_left (show ndx ≤ buf.length by omega)]
    have hdrop : (buf.set ndx c).drop (ndx + 1 + bytes.length) = buf.drop (ndx + (c :: bytes).length) := by
      rw [drop_set_of_lt (by omega), length_cons, Nat.add_assoc, Nat.add_comm 1]
    rw [hset, hdrop]
    simp

/-- A parser that puts the bytes of a line into the line buffer. -/
def Writes (act : Char → Ws → Except Errno (Ws × Bool)) : Prop :=
  ∀ c ws, c ≠ '\n' → ws.ndx < maxHttpLine - 1 →
    act c ws = .ok ({ ws with line := ws.line.set ws.ndx c, ndx := ws.ndx + 1 }, false)

theorem writes_chunkheader : Writes chunkHeaderByte := by
  intro c ws hnl hndx
  have hfull : (ws.ndx == maxHttpLine - 1) = false := beq_false_of_ne (by omega)
  simp [chunkHeaderByte, hnl, hfull]

theorem writes_chunkenddata : Writes chunkEnddataByte := by
  intro c ws hnl _
  simp [chunkEnddataByte, hnl]

theorem writes_chunktrailer : Writes chunkTrailerByte := by
  intro c ws hnl _
  simp [chunkTrailerByte, hnl]

theorem onward_of_byteOf {ws : Ws} {act : Char → Ws → Except Errno (Ws × Bool)} (hact : byteOf ws.state = some act) :
    ws.onward = true := by
  obtain ⟨-, hdata, hchunk⟩ := byteOf_some hact
  simp [Ws.onward, hdata, hchunk]

section

variable {ws : Ws} {sunk : List Char}

variable {ws' : Ws} {act : Char → Ws → Except Errno (Ws × Bool)} {c : Char}

theorem feed_ok {done : Bool} (hact : byteOf ws.state = some act) (h : act c ws = .ok (ws', done))
    (hon : ws'.onward = true) : feed (ws, sunk) c = some (ws', sunk) := by
  simp only [feed, hact, h, hon, if_true]

/-- Bytes without a newline go to the line buffer as long as there is room for one more. -/
theorem reads_write (hact : byteOf ws.state = some act) (hwrites : Writes act) {bytes : List Char} (hnl : '\n' ∉ bytes)
    (hfits : ws.ndx + bytes.length ≤ maxHttpLine - 1) : reads (ws, sunk) bytes =
      some ({ ws with line := overwrite ws.line ws.ndx bytes, ndx := ws.ndx + bytes.length }, sunk) := by
  induction bytes generalizing ws with
  | nil => rfl
  | cons c bytes ih =>
    rw [mem_cons, not_or] at hnl
    rw [length_cons] at hfits
    have hfeed : feed (ws, sunk) c =
        some ({ ws with line := ws.line.set ws.ndx c, ndx := ws.ndx + 1 }, sunk) :=
      feed_ok hact (hwrites c ws (Ne.symm hnl.1) (by omega))
        (@onward_of_byteOf { ws with line := ws.line.set ws.ndx c, ndx := ws.ndx + 1 } act hact)
    rw [reads_cons, hfeed, Option.bind_some,
      @ih { ws with line := ws.line.set ws.ndx c, ndx := ws.ndx + 1 } hact hnl.2 (by dsimp only; omega),
      length_cons, Nat.add_assoc, Nat.add_comm 1]
    rfl

theorem reads_line (hact : byteOf ws.state = some act) (hwrites : Writes act) (hndx : ws.ndx = 0) {bytes : List Char}
    (hnl : '\n' ∉ bytes) (hfits : bytes.length + 2 ≤ maxHttpLine) : reads (ws, sunk) (bytes ++ crlf) =
      feed ({ ws with line := overwrite ws.line 0 (bytes ++ ['\r']), ndx := bytes.length + 1 }, sunk) '\n' := by
  have hnl' : '\n' ∉ bytes ++ ['\r'] := by simp [hnl]
  have hlen : (bytes ++ ['\r']).length = bytes.length + 1 := by simp
  have hwrite := @reads_write ws sunk act hact hwrites _ hnl' (by omega)
  have hcrlf : bytes ++ crlf = bytes ++ ['\r'] ++ ['\n'] := by simp [crlf]
  rw [hcrlf, reads_append, hwrite, hndx, hlen, Nat.zero_add, Option.bind_some, reads_cons]
  exact Option.bind_fun_some _

theorem written {line bytes : List Char} (hfits : bytes.length + 2 ≤ line.length) :
    (overwrite line 0 (bytes ++ ['\r'])).set (bytes.length + 1) '\n' =
      bytes ++ '\r' :: '\n' :: line.drop (bytes.length + 2) := by
  have hset : (overwrite line 0 (bytes ++ ['\r'])).set (bytes.length + 1) '\n' =
      overwrite line 0 (bytes ++ ['\r'] ++ ['\n']) := by
    rw [overwrite_append _ _ (bytes ++ ['\r'])]
    simp [overwrite]
  rw [hset, overwrite_eq (by simpa using hfits)]
  simp

theorem written_cr {line bytes : List Char} (hfits : bytes.length + 2 ≤ line.length) :
    ((overwrite line 0 (bytes ++ ['\r'])).set (bytes.length + 1) '\n')[bytes.length]? = some '\r' := by
  rw [written hfits, getElem?_append_right (Nat.le_refl _), Nat.sub_self]
  rfl

theorem reads_crlf (hact : byteOf ws.state = some act) (hwrites : Writes act) (hndx : ws.ndx = 0)
    (hbuf : ws.line.length = maxHttpLine) :
    reads (ws, sunk) crlf = feed ({ ws with line := overwrite ws.line 0 ['\r'], ndx := 1 }, sunk) '\n' ∧
      ((overwrite ws.line 0 ['\r']).set 1 '\n')[0]? = some '\r' :=
  ⟨@reads_line ws sunk act hact hwrites hndx [] not_mem_nil (by decide),
    @written_cr ws.line [] (by rw [hbuf]; decide)⟩

/-! ## The size of a chunk -/

variable {announced : Bool} (l : SizeLine)

theorem SizeLine.parse (hvalue : l.value < 2 ^ 64) : wgetParseint l.size 16 = .ok l.value := by
  have hsubject := strtoSubject_digits l.nonempty l.digits
  have hsmall : ¬ (scanDigits 16 0 l.size).1 ≥ 2 ^ 64 := Nat.not_le.mpr hvalue
  rw [wgetParseint, strtoUnsigned, hsubject]
  dsimp only
  rw [if_neg hsmall]
  rfl

/-- A complete line is cut behind the size. -/
theorem chunkSizeLine_text {old : List Char} (hline : ws.line = l.size ++ l.ext ++ '\r' :: '\n' :: old)
    (hndx : ws.ndx = (l.size ++ l.ext).length + 1) :
    ∃ line found, chunkSizeLine true ws = .ok (line, found) ∧ CStr.ofMem line = l.size := by
  have hstart : ws.line.head? ≠ some '\r' := by
    obtain ⟨d, rest, hsize⟩ := exists_cons_of_ne_nil l.nonempty
    have hd := l.digits d (by rw [hsize]; exact mem_cons_self)
    rw [hline, hsize]
    simpa using ne_of_digit hd rfl
  have hcr : ws.line[(l.size ++ l.ext).length]? = some '\r' := by
    rw [hline, getElem?_append_right (Nat.le_refl _), Nat.sub_self]
    rfl
  have hcut : ws.line.set (l.size ++ l.ext).length '\x00' = l.size ++ l.ext ++ '\x00' :: '\n' :: old := by
    rw [hline, set_append_right _ _ (Nat.le_refl _), Nat.sub_self]
    rfl
  have hplain {c : Char} (hc : digitValue 16 c = none) : c ∉ l.size :=
    fun hmem => ne_of_digit (l.digits c hmem) hc rfl
  unfold chunkSizeLine
  rw [if_neg (by omega), if_neg hstart]
  simp only [hndx, lineEnd, if_true, Nat.add_sub_cancel, hcr, hcut, ne_eq, not_true_eq_false, and_false, if_false]
  rcases l.opened with hnone | hsome
  · have hmem : CStr.ofMem (l.size ++ l.ext ++ '\x00' :: '\n' :: old) = l.size := by
      rw [hnone, append_nil, CStr.ofMem_append (hplain rfl)]
      exact append_nil _
    rw [hmem, if_neg (hplain rfl)]
    exact ⟨_, false, rfl, hmem⟩
  obtain ⟨rest, hext⟩ : ∃ rest, l.ext = ';' :: rest := head?_eq_some_iff.mp hsome
  have hmem : ';' ∈ CStr.ofMem (l.size ++ l.ext ++ '\x00' :: '\n' :: old) := by
    rw [hext, append_assoc, CStr.ofMem_append (hplain rfl)]
    simp [CStr.ofMem]
  have hidx : (l.size ++ l.ext ++ '\x00' :: '\n' :: old).findIdx (· == ';') = l.size.length := by
    have hnone : l.size.findIdx (· == ';') = l.size.length := by
      rw [findIdx_eq_length]
      intro c hc
      exact beq_false_of_ne (ne_of_digit (l.digits c hc) rfl)
    rw [hext, append_assoc, findIdx_append, hnone, if_neg (Nat.lt_irrefl _), cons_append,
      findIdx_cons]
    simp
  rw [if_pos hmem, hidx]
  refine ⟨_, true, rfl, ?_⟩
  rw [hext, append_assoc, set_append_right _ _ (Nat.le_refl _), Nat.sub_self,
    CStr.ofMem_append (hplain rfl)]
  exact append_nil _

/-- The client is about to read the header of a chunk. -/
structure AtHeader (ws : Ws) (announced : Bool) : Prop where
  state : ws.state = .chunkedHeader
  ndx : ws.ndx = 0
  unread : ws.unread = []
  line : ws.line.length = maxHttpLine
  served : ws.httpstatus ≠ .moved
  announced : ws.gotContentLength = announced

/-- The state behind the header of a chunk. -/
def Ws.sized (ws : Ws) (line : List Char) (len : Nat) : Ws :=
  if len ≠ 0 then { ws with line := line, ndx := 0, chunkLen := len, state := .chunkedData, chunkReceived := 0 }
  else { ws with line := line, ndx := 0, chunkLen := len, state := .chunkedTrailer }

theorem Ws.sized_onward (hserved : ws.httpstatus ≠ .moved) (line : List Char) (len : Nat) :
    (ws.sized line len).onward = true := by
  unfold Ws.sized
  split
  · simpa [Ws.onward, hserved, Nat.pos_iff_ne_zero]
  · simp [Ws.onward]

theorem chunkHeaderLine_text {old : List Char}
    (hline : ws.line = l.size ++ l.ext ++ '\r' :: '\n' :: old) (hndx : ws.ndx = (l.size ++ l.ext).length + 1)
    (hvalue : l.value < 2 ^ 64) :
    ∃ line, line.length = ws.line.length ∧ chunkHeaderLine true ws = .ok (ws.sized line l.value) := by
  obtain ⟨line, found, hsize, hmem⟩ := chunkSizeLine_text l hline hndx
  refine ⟨line, chunkSizeLine_length hsize, ?_⟩
  simp only [chunkHeaderLine, hsize, hmem, l.parse hvalue, Ws.sized, Bool.not_true, Bool.false_eq_true, false_and,
    if_false]
  split <;> rfl

theorem reads_sizeLine (h : AtHeader ws announced) (l : SizeLine)
    (hfits : l.text.length ≤ maxHttpLine) (hvalue : l.value < 2 ^ 64) :
    ∃ line, line.length = maxHttpLine ∧ reads (ws, sunk) l.text = some (ws.sized line l.value, sunk) := by
  have hact : byteOf ws.state = some chunkHeaderByte := by rw [h.state, byteOf]
  have hlen : (l.size ++ l.ext).length + 2 ≤ maxHttpLine := by simpa [SizeLine.text, crlf, Nat.add_assoc] using hfits
  have hnl : '\n' ∉ l.size ++ l.ext := by
    rw [mem_append, not_or]
    exact ⟨fun hmem => ne_of_digit (l.digits '\n' hmem) rfl rfl, l.oneLine⟩
  rw [SizeLine.text, reads_line hact writes_chunkheader h.ndx hnl hlen]
  -- the newline completes the line
  obtain ⟨line, hlength, hheader⟩ := @chunkHeaderLine_text
    { ws with
      line := (overwrite ws.line 0 (l.size ++ l.ext ++ ['\r'])).set ((l.size ++ l.ext).length + 1) '\n'
      ndx := (l.size ++ l.ext).length + 1 }
    l _ (written (by rw [h.line]; exact hlen)) rfl hvalue
  have hbyte : chunkHeaderByte '\n'
      { ws with line := overwrite ws.line 0 (l.size ++ l.ext ++ ['\r']), ndx := (l.size ++ l.ext).length + 1 } =
      .ok (ws.sized line l.value, true) := by
    simp only [chunkHeaderByte, beq_self_eq_true, Bool.true_or, if_true]
    rw [hheader]
    rfl
  refine ⟨line, ?_, feed_ok hact hbyte (Ws.sized_onward h.served line l.value)⟩
  rw [hlength, length_set, overwrite_length, h.line]

/-! ## Chunks and trailers -/

theorem reads_enddata (hstate : ws.state = .chunkedEnddata) (hndx : ws.ndx = 0) (hbuf : ws.line.length = maxHttpLine)
    (hchunk : ws.chunkLen ≠ 0) :
    ∃ line, line.length = maxHttpLine ∧
      reads (ws, sunk) crlf = some ({ ws with line := line, ndx := 0, state := .chunkedHeader }, sunk) := by
  have hact : byteOf ws.state = some chunkEnddataByte := by rw [hstate, byteOf]
  obtain ⟨hline, hcr⟩ := @reads_crlf ws sunk _ hact writes_chunkenddata hndx hbuf
  refine ⟨(overwrite ws.line 0 ['\r']).set 1 '\n', by rw [length_set, overwrite_length, hbuf], hline.trans ?_⟩
  have hbyte : chunkEnddataByte '\n' { ws with line := overwrite ws.line 0 ['\r'], ndx := 1 } =
      .ok ({ ws with
        line := (overwrite ws.line 0 ['\r']).set 1 '\n', ndx := 0, state := .chunkedHeader }, true) := by
    simp [chunkEnddataByte, hcr, hchunk]
  exact feed_ok hact hbyte rfl

/-- The data of a chunk and the line end behind it. -/
theorem reads_chunkData (hstate : ws.state = .chunkedData) (hunread : ws.unread = [])
    (hbuf : ws.line.length = maxHttpLine) (hserved : ws.httpstatus ≠ .moved) {data : List Char} (hdata : data ≠ [])
    (hstart : ws.chunkReceived = 0) (hlen : data.length = ws.chunkLen) :
    ∃ ws', AtHeader ws' ws.gotContentLength ∧ reads (ws, sunk) (data ++ crlf) = some (ws', sunk ++ data) := by
  have hend : ws.chunkReceived + data.length = ws.chunkLen := by rw [hstart, Nat.zero_add, hlen]
  have hpos : ws.chunkLen ≠ 0 := by
    rw [← hlen, ne_eq, length_eq_zero_iff]
    exact hdata
  obtain ⟨line, hline, henddata⟩ :=
    @reads_enddata { ws.took data.length with state := .chunkedEnddata, ndx := 0 } (sunk ++ data) rfl rfl hbuf hpos
  refine ⟨{ ws.took data.length with line := line, ndx := 0, state := .chunkedHeader }, ?_, ?_⟩
  · refine ⟨rfl, rfl, ?_, hline, hserved, rfl⟩
    simp [Ws.took, hunread]
  · rw [reads_append, reads_data hdata hstate hunread (Nat.le_of_eq hend), consume_end hstate hend]
    exact henddata

theorem reads_chunk (h : AtHeader ws announced) (chunk : Chunk) (hfits : chunk.toSizeLine.text.length ≤ maxHttpLine) :
    ∃ ws', AtHeader ws' announced ∧ reads (ws, sunk) chunk.text = some (ws', sunk ++ chunk.data) := by
  have hvalue : chunk.value < 2 ^ 64 := chunk.sized ▸ chunk.counted
  have hpos : chunk.value ≠ 0 := by
    rw [chunk.sized, ne_eq, length_eq_zero_iff]
    exact chunk.full
  obtain ⟨line, hline, hsize⟩ := @reads_sizeLine ws sunk _ h chunk.toSizeLine hfits hvalue
  rw [Ws.sized, if_pos hpos] at hsize
  obtain ⟨ws', h', hdata⟩ := @reads_chunkData
    { ws with line := line, ndx := 0, chunkLen := chunk.value, state := .chunkedData, chunkReceived := 0 }
    sunk rfl h.unread hline h.served chunk.data chunk.full rfl chunk.sized.symm
  refine ⟨ws', h.announced ▸ h', ?_⟩
  rw [Chunk.text, append_assoc, reads_append, hsize]
  exact hdata

theorem reads_chunks (h : AtHeader ws announced) {chunks : List Chunk}
    (hfits : ∀ chunk ∈ chunks, chunk.toSizeLine.text.length ≤ maxHttpLine) :
    ∃ ws', AtHeader ws' announced ∧
      reads (ws, sunk) (chunks.flatMap Chunk.text) = some (ws', sunk ++ chunks.flatMap Chunk.data) := by
  induction chunks generalizing ws sunk with
  | nil => exact ⟨ws, h, by simp⟩
  | cons chunk chunks ih =>
    obtain ⟨ws₁, h₁, hchunk⟩ := @reads_chunk ws sunk _ h chunk (hfits chunk mem_cons_self)
    obtain ⟨ws', h', hchunks⟩ := @ih ws₁ (sunk ++ chunk.data) h₁ fun c hc => hfits c (mem_cons_of_mem chunk hc)
    refine ⟨ws', h', ?_⟩
    rw [flatMap_cons, flatMap_cons, reads_append, hchunk, Option.bind_some, hchunks, append_assoc]

theorem reads_trailer (hstate : ws.state = .chunkedTrailer) (hndx : ws.ndx = 0) (hbuf : ws.line.length = maxHttpLine)
    (t : Trailer) (hfits : t.text.length ≤ maxHttpLine) :
    ∃ line, line.length = maxHttpLine ∧ reads (ws, sunk) t.text = some ({ ws with line := line, ndx := 0 }, sunk) := by
  have hact : byteOf ws.state = some chunkTrailerByte := by rw [hstate, byteOf]
  have hlen : t.field.length + 2 ≤ maxHttpLine := by simpa [Trailer.text, crlf] using hfits
  have hcr := @written_cr ws.line t.field (by rw [hbuf]; exact hlen)
  have hne : t.field.length ≠ 0 := by
    rw [ne_eq, length_eq_zero_iff]
    exact t.nonempty
  refine ⟨(overwrite ws.line 0 (t.field ++ ['\r'])).set (t.field.length + 1) '\n', ?_, ?_⟩
  · rw [length_set, overwrite_length, hbuf]
  have hbyte : chunkTrailerByte '\n'
      { ws with line := overwrite ws.line 0 (t.field ++ ['\r']), ndx := t.field.length + 1 } =
      .ok ({ ws with
        line := (overwrite ws.line 0 (t.field ++ ['\r'])).set (t.field.length + 1) '\n', ndx := 0 }, false) := by
    simp [chunkTrailerByte, hcr, t.nonempty]
  rw [Trailer.text, reads_line hact writes_chunktrailer hndx t.oneLine hlen]
  exact feed_ok hact hbyte (@onward_of_byteOf { ws with line := _, ndx := 0 } _ hact)

theorem reads_trailers (hstate : ws.state = .chunkedTrailer) (hndx : ws.ndx = 0) (hbuf : ws.line.length = maxHttpLine)
    {trailers : List Trailer} (hfits : ∀ t ∈ trailers, t.text.length ≤ maxHttpLine) :
    ∃ line, line.length = maxHttpLine ∧
      reads (ws, sunk) (trailers.flatMap Trailer.text) = some ({ ws with line := line, ndx := 0 }, sunk) := by
  induction trailers generalizing ws with
  | nil =>
    refine ⟨ws.line, hbuf, ?_⟩
    rw [flatMap_nil, reads_nil, ← hndx]
  | cons t trailers ih =>
    obtain ⟨line₁, hline₁, ht⟩ := @reads_trailer ws sunk hstate hndx hbuf t (hfits t mem_cons_self)
    obtain ⟨line, hline, hrest⟩ := @ih { ws with line := line₁, ndx := 0 } hstate rfl hline₁
      fun t' ht' => hfits t' (mem_cons_of_mem t ht')
    refine ⟨line, hline, ?_⟩
    rw [flatMap_cons, reads_append, ht, Option.bind_some, hrest]

theorem reads_end (hstate : ws.state = .chunkedTrailer) (hndx : ws.ndx = 0) (hbuf : ws.line.length = maxHttpLine) :
    ∃ ws', ws'.state = .waitClose ∧ ws'.gotContentLength = ws.gotContentLength ∧
      reads (ws, sunk) crlf = some (ws', sunk) := by
  have hact : byteOf ws.state = some chunkTrailerByte := by rw [hstate, byteOf]
  obtain ⟨hline, hcr⟩ := @reads_crlf ws sunk _ hact writes_chunktrailer hndx hbuf
  have hbyte : chunkTrailerByte '\n' { ws with line := overwrite ws.line 0 ['\r'], ndx := 1 } =
      .ok ({ ws with line := (overwrite ws.line 0 ['\r']).set 1 '\n', ndx := 1, state := .waitClose }, true) := by
    simp [chunkTrailerByte, hcr]
  refine ⟨_, ?_, ?_, hline.trans (feed_ok hact hbyte rfl)⟩
  · rfl
  · rfl

/-- A chunked body that fits is read to its end. -/
theorem reads_chunked (h : AtHeader ws announced) (m : Chunked) (hfits : m.Fits) :
    ∃ ws', ws'.state = .waitClose ∧ ws'.gotContentLength = announced ∧
      reads (ws, sunk) m.text = some (ws', sunk ++ m.body) := by
  obtain ⟨hchunks, hlast, htrailers⟩ := hfits
  obtain ⟨ws₁, h₁, hread₁⟩ := @reads_chunks ws sunk _ h m.chunks hchunks
  obtain ⟨line₂, hline₂, hread₂⟩ := @reads_sizeLine ws₁ (sunk ++ m.body) _ h₁ m.last hlast (by rw [m.zero]; decide)
  rw [Ws.sized, if_neg (not_not.mpr m.zero)] at hread₂
  obtain ⟨line₃, hline₃, hread₃⟩ := @reads_trailers
    { ws₁ with line := line₂, ndx := 0, chunkLen := m.last.value, state := .chunkedTrailer } (sunk ++ m.body)
    rfl rfl hline₂ m.trailers htrailers
  obtain ⟨ws', hstate, hannounced, hread₄⟩ := @reads_end
    { ws₁ with line := line₃, ndx := 0, chunkLen := m.last.value, state := .chunkedTrailer } (sunk ++ m.body)
    rfl rfl hline₃
  refine ⟨ws', hstate, hannounced.trans h₁.announced, ?_⟩
  rw [Chunked.text, reads_append, reads_append, reads_append, hread₁]
  dsimp only [Option.bind_some]
  rw [← Chunked.body, hread₂]
  dsimp only [Option.bind_some]
  rw [hread₃]
  exact hread₄

/-! ## The head of a response -/

/-- The parsers of a head, over all of its bytes. -/
def headPass (ws : Ws) : Except Errno Ws := do
  let ws ← inState .statusline wgetParsestatus ws
  inState .headers wgetParseheaders ws

/-- The client takes the bytes for the head of a response with a chunked body that is no redirect.
`announced` says whether the head has a `Content-Length` too. -/
def chunkedHead (ws : Ws) (head : List Char) (announced : Bool) : Bool :=
  match headPass { ws with unread := head } with
  | .error _ => false
  | .ok ws' =>
    ws'.state == .chunkedHeader && ws'.unread.isEmpty && ws'.httpstatus != .moved && ws'.gotContentLength == announced

theorem statusByte_state (h : statusByte c ws = .ok (ws', true)) : ws'.state = .headers := by
  unfold statusByte at h
  split at h
  · dsimp only at h
    split at h <;> cases h
    rfl
  · split at h <;> cases h

theorem headerByte_ndx (hstate : ws.state = .headers) (h : headerByte c ws = .ok (ws', true))
    (hstate' : ws'.state = .chunkedHeader) : ws'.ndx = 0 := by
  obtain ⟨line, -, htook⟩ := took_of_byte (by rw [hstate, byteOf]) h
  cases htook <;> first | rfl | cases hstate'

theorem pending_scan {parse : List Char → Ws → Except Errno Ws} (hscans : Scans parse act)
    (hact : byteOf ws.state = some act) (h : parse ws.unread ws = .ok ws') (hon : ws'.onward = true)
    (future : List Char) : pending ws sunk future = pending ws' sunk future := by
  obtain ⟨ws₁, done, rest, hrun, rfl⟩ := hscans.run h
  rw [pending_run hact, hrun]
  exact if_pos hon

/-- A head that leads to the header of a chunk has passed through the header lines. -/
theorem headPass_cases (h : headPass ws = .ok ws') (hstate : ws.state = .statusline)
    (hstate' : ws'.state = .chunkedHeader) : ∃ ws₁, ws₁.state = .headers ∧ wgetParsestatus ws.unread ws = .ok ws₁ ∧
      wgetParseheaders ws₁.unread ws₁ = .ok ws' := by
  obtain ⟨ws₁, hstatus, hheaders⟩ := Except.bind_eq_ok_iff.mp h
  rw [inState, if_pos hstate] at hstatus
  obtain ⟨ws₂, done, rest, hrun, rfl⟩ := scans_status.run hstatus
  rcases Scanner.run_post (P := (·.state = .statusline))
    (fun _ _ _ hs h => (byte_stays (by rw [hs, byteOf]) h).trans hs)
    (fun _ _ _ _ => statusByte_state) hstate hrun with hline | hend
  · -- the status line goes on, so no header has been looked at
    rw [inState, if_neg (by rw [hline]; decide)] at hheaders
    cases hheaders
    rw [hline] at hstate'
    cases hstate'
  · rw [inState, if_pos hend] at hheaders
    refine ⟨_, ?_, hstatus, hheaders⟩
    exact hend

/-- Behind the head of a response with a chunked body, the client reads the header of a chunk. -/
theorem headPass_chunked (h : headPass ws = .ok ws') (hstate : ws.state = .statusline)
    (hstate' : ws'.state = .chunkedHeader) :
    ws'.ndx = 0 ∧ ws'.line.length = ws.line.length ∧ ∀ future, pending ws sunk future = pending ws' sunk future := by
  obtain ⟨ws₁, hstate₁, hstatus, hheaders⟩ := headPass_cases h hstate hstate'
  refine ⟨?_, ?_, fun future => ?_⟩
  · obtain ⟨ws₂, done, rest, hrun, rfl⟩ := scans_headers.run hheaders
    rcases Scanner.run_post (P := (·.state = .headers)) (fun _ _ _ hs h => (byte_stays (by rw [hs, byteOf]) h).trans hs)
      (fun _ _ _ => headerByte_ndx) hstate₁ hrun with hline | hend
    · rw [hline] at hstate'
      cases hstate'
    · exact hend hstate'
  · obtain ⟨v, hv, hv'⟩ := Except.bind_eq_ok_iff.mp h
    have hstage := stage_line (show (WsState.statusline, wgetParsestatus) ∈ stages by simp [stages]) hv
    exact (stage_line (show (WsState.headers, wgetParseheaders) ∈ stages by simp [stages]) hv').trans hstage
  · have hact : byteOf ws.state = some statusByte := by rw [hstate, byteOf]
    have hact₁ : byteOf ws₁.state = some headerByte := by rw [hstate₁, byteOf]
    have hon' : ws'.onward = true := by simp [Ws.onward, hstate']
    rw [pending_scan scans_status hact hstatus (onward_of_byteOf hact₁), pending_scan scans_headers hact₁ hheaders hon']

theorem pending_head {head : List Char} (h : chunkedHead ws head announced = true)
    (hstate : ws.state = .statusline) (hbuf : ws.line.length = maxHttpLine) :
    ∃ ws', AtHeader ws' announced ∧ ∀ rest, reads (ws.drained, sunk) (head ++ rest) = reads (ws', sunk) rest := by
  unfold chunkedHead at h
  split at h
  · cases h
  rename_i ws' hpass
  simp only [Bool.and_eq_true, beq_iff_eq, bne_iff_ne, List.isEmpty_iff] at h
  obtain ⟨⟨⟨hstate', hunread'⟩, hserved⟩, hannounced⟩ := h
  obtain ⟨hndx, hline, hpending⟩ := @headPass_chunked { ws with unread := head } sunk ws' hpass hstate hstate'
  refine ⟨ws', ⟨hstate', hndx, hunread', hline.trans hbuf, hserved, hannounced⟩, fun rest => ?_⟩
  have hrest := hpending rest
  rwa [pending, pending, hunread', nil_append, Ws.drained_eq hunread'] at hrest

end

/-! ## Whole responses -/

/-- Whatever `recv` returns, a response whose lines fit into the line buffer hands exactly the body
to the sink. -/
theorem chunked_exact {ctx : Ctx} {alloc : Ret} {c₀ c : Client} {ls : List Answers}
    (hbegin : begin ctx alloc = .ok c₀) (hrun : run (step ctx) c₀ ls = c) (hwaiting : c.Waiting)
    {head : List Char} {announced : Bool}
    (hhead : chunkedHead c.ws head announced = true) (m : Chunked) (hfits : m.Fits) {ns : List Nat}
    (hns : (head ++ m.text).length + 2 ≤ ns.length) :
    (run (serve ctx) (c, head ++ m.text) ns).1.Ended ctx announced (c.sunk ++ m.body) := by
  have htidy : c.Tidy ctx := hrun ▸ run_tidy hbegin ls
  have hunread : c.ws.unread = [] := htidy.unread hwaiting.outside (by rw [hwaiting.here]; rfl)
  have hroom : 0 < ctx.buflen := htidy.room hwaiting.outside (by rw [hwaiting.here]; rfl)
  obtain ⟨ws₁, h₁, hread₁⟩ := @pending_head c.ws c.sunk announced head hhead hwaiting.here htidy.line
  obtain ⟨ws', hstate, hannounced, hread⟩ := @reads_chunked ws₁ c.sunk announced h₁ m hfits
  have hpending : pending c.ws c.sunk (head ++ m.text) = some (ws', c.sunk ++ m.body) := by
    rw [pending, hunread, nil_append, hread₁, hread]
  have hon : c.ws.onward = true := by simp [Ws.onward, hwaiting.here]
  have hended := @serve_ended ctx _ (c, head ++ m.text) hroom hstate ns ⟨hwaiting.running, .inr hwaiting.here⟩ hon
    hpending (by rw [hunread]; exact hns)
  rwa [hannounced] at hended

/-! ### A response on the wire -/

def sampleCtx : Ctx where
  method := "GET".toList
  url := "http://host/f".toList
  headers := []
  body := []
  http11 := true
  tls := false
  buflen := 512
  userAgent := "nsh".toList
  sink := fun _ _ => .ok ()

def sampleStart : Client := ⟨.fresh ⟨"http".toList, "host".toList, "/f".toList, 80⟩, false, ⟨0, []⟩, [], [], none⟩

theorem sampleStart_begin : begin sampleCtx (.ok ()) = .ok sampleStart := by
  rfl

/-- The connection is made and the request is sent at once. -/
def sampleAnswers : List Answers := replicate 5 ⟨.ok (), .ok (), .ok 512, .ok []⟩

def sampleClient : Client := run (step sampleCtx) sampleStart sampleAnswers

def sampleHead : List Char := "HTTP/1.1 200 OK\r\nTransfer-Encoding: chunked\r\n\r\n".toList

def lastLine : SizeLine where
  size := ['0']
  ext := []
  nonempty := nofun
  digits := by simp [digitValue]
  opened := .inl rfl
  oneLine := nofun

/-- A chunk of three bytes with an extension. -/
def shortExtension : Chunked where
  chunks :=
    [{ size := ['3'], ext := ";a=b".toList, nonempty := nofun, digits := by simp [digitValue], opened := .inr rfl,
       oneLine := by decide, data := "abc".toList, full := nofun, sized := rfl, counted := by decide }]
  last := lastLine
  zero := rfl
  trailers := [⟨"X: y".toList, nofun, by decide⟩]

theorem chunked_exact_short :
    (run (serve sampleCtx) (sampleClient, sampleHead ++ shortExtension.text) (replicate 100 7)).1.Ended
      sampleCtx false "abc".toList :=
  chunked_exact sampleStart_begin rfl ⟨by decide, by decide, by decide⟩
    (by decide) shortExtension (by decide) (by decide)

/-- A chunk of one byte whose header line does not fit into the line buffer. -/
def longExtension : Chunked where
  chunks :=
    [{ size := ['1'], ext := ';' :: replicate 199 'x', nonempty := nofun, digits := by simp [digitValue],
       opened := .inr rfl, oneLine := by decide, data := ['0'], full := nofun, sized := rfl,
       counted := by decide }]
  last := lastLine
  zero := rfl
  trailers := []

/-- The end of the extension is handed to the sink in the place of the body, and the request
succeeds. -/
theorem not_exact_longExtension :
    longExtension.body = ['0'] ∧ sampleClient.sunk = [] ∧ chunkedHead sampleClient.ws sampleHead false = true ∧
      (run (serve sampleCtx) (sampleClient, sampleHead ++ longExtension.text) (replicate 300 512)).1.sunk = ['x'] ∧
      (run (serve sampleCtx) (sampleClient, sampleHead ++ longExtension.text) (replicate 300 512)).1.result =
        some (.ok ()) := by
  decide +kernel

end Netutils.Webclient
