-- SUMMARY: Files of pictures are decoded to luminance and packed to four levels.
import FruitClawApps.System.Trmnl.Picture

/-!
# From the file to the display

The chunks are walked over one by one, the filters are reversed byte by byte, and each pixel is
converted and packed. At each of these loops the part that is done is that of the picture.
-/

namespace System.Trmnl

open Bytes Checked List

/-! ## Chunks -/

/-- The palette behind a chunk. -/
def Chunk.palette (old : List (UInt8 × UInt8 × UInt8)) (c : Chunk) : List (UInt8 × UInt8 × UInt8) :=
  if c.type = typePLTE then Scan.entries c.data else old

theorem entries_paletteData (entries : List (UInt8 × UInt8 × UInt8)) :
    Scan.entries (paletteData entries) = entries := by
  induction entries with
  | nil => rfl
  | cons entry entries ih => exact congrArg (entry :: ·) ih

theorem foldl_palette_of_ne {after : List Chunk} (h : ∀ c ∈ after, c.type ≠ typePLTE)
    (old : List (UInt8 × UInt8 × UInt8)) : after.foldl Chunk.palette old = old := by
  induction after with
  | nil => rfl
  | cons c after ih =>
    obtain ⟨hc, hafter⟩ := forall_mem_cons.mp h
    rw [foldl_cons, Chunk.palette, if_neg hc, ih hafter]

section Chunks

variable {env : Env} {png front rest : List UInt8} {c : Chunk} {s : Scan}

/-- The file in front of a chunk, the chunk and what is behind it, where the loop is at the
chunk. -/
structure At (png front : List UInt8) (c : Chunk) (rest : List UInt8) (s : Scan) : Prop where
  eq : png = front ++ (c.encode ++ rest)
  pos : s.pos = front.length
  lt : png.length + 12 < 2 ^ 32

variable (h : At png front c rest s)
include h

theorem At.length_eq : png.length = s.pos + 12 + c.data.length + rest.length := by
  rw [h.eq, h.pos]
  simp only [length_append, c.length_encode]
  omega

theorem At.len : s.len png = c.data.length := by
  have hlength := h.length_eq
  have hlt := h.lt
  have hslice : slice png s.pos 4 = be32 c.data.length := by
    rw [h.eq, h.pos, Chunk.encode, append_assoc]
    exact slice_mid front (be32 c.data.length) _
  rw [Scan.len, hslice, beNat_be32 (by omega)]

theorem At.load_type : load png (w32 (s.pos + 4)) 4 = .ok c.type := by
  have hlength := h.length_eq
  have hlt := h.lt
  have hslice : slice png (s.pos + 4) 4 = c.type := by
    have hmid := slice_mid (front ++ be32 c.data.length) c.type (c.data ++ c.crc ++ rest)
    rw [h.eq, h.pos]
    simpa [Chunk.encode, c.type_length] using hmid
  rw [w32_of_lt (by omega), load, require, if_pos (by omega), hslice]
  rfl

theorem At.load_data : load png (w32 (s.pos + 8)) c.data.length = .ok c.data := by
  have hlength := h.length_eq
  have hlt := h.lt
  have hslice : slice png (s.pos + 8) c.data.length = c.data := by
    have hmid := slice_mid (front ++ be32 c.data.length ++ c.type) c.data (c.crc ++ rest)
    rw [h.eq, h.pos]
    simpa [Chunk.encode, c.type_length] using hmid
  rw [w32_of_lt (by omega), load, require, if_pos (by omega), hslice]
  rfl

theorem At.chunk : s.chunk env png =
    if c.type = typeIEND then .ok none
    else s.take env png c.type >>= fun s' => .ok (some { s' with pos := (front ++ c.encode).length }) := by
  have hlength := h.length_eq
  have hlt := h.lt
  have hpos : (front ++ c.encode).length = s.pos + (12 + c.data.length) := by
    rw [h.pos]
    simp only [length_append, c.length_encode]
  have hload : load png s.pos 4 = .ok (slice png s.pos 4) := by
    rw [load, require, if_pos (by omega)]
    rfl
  have hend : w32 (s.pos + 12 + s.len png) ≤ png.length := by
    rw [h.len, w32_of_lt (by omega)]
    omega
  rw [Scan.chunk, hload, ok_bind, require, if_pos hend, ok_bind, h.load_type, ok_bind, h.len,
    w32_of_lt (by omega : 12 + c.data.length < 2 ^ 32), w32_of_lt (by omega), hpos]
  rfl

theorem At.take_header {pic : Picture} (htype : c.type = typeIHDR) (hdata : c.data = headerData pic) :
    s.take env png c.type = .ok { s with
      width := trmnlWidth, height := trmnlHeight
      bitDepth := pic.format.bitDepth, colorType := pic.format.colorType } := by
  have hlength : c.data.length = 13 := by
    rw [hdata]
    rfl
  have hload := h.load_data
  rw [hlength] at hload
  have hdepth : (UInt8.ofNat pic.format.bitDepth).toNat = pic.format.bitDepth := by
    cases pic.format with
    | gray depth => cases depth <;> rfl
    | palette depth => cases depth <;> rfl
    | _ => rfl
  have hcolor : (UInt8.ofNat pic.format.colorType).toNat = pic.format.colorType := by cases pic.format <;> rfl
  rw [Scan.take, if_pos htype, Scan.takeHeader, require, if_pos (h.len.trans hlength), ok_bind, hload, ok_bind, hdata,
    require, if_pos ⟨rfl, rfl, rfl⟩, ok_bind]
  change Except.ok { s with
    width := trmnlWidth, height := trmnlHeight, bitDepth := (UInt8.ofNat pic.format.bitDepth).toNat
    colorType := (UInt8.ofNat pic.format.colorType).toNat } = _
  rw [hdepth, hcolor]

/-- A chunk in between adds its data, or sets the palette. -/
theorem At.take_between (hbetween : c.Between) (hroom : s.idat.length ≤ s.pos) (hmax : png.length ≤ env.maxPng)
    (hmem : ∀ pos size, env.realloc pos size = true) :
    ∃ cap, s.take env png c.type =
      .ok { s with palette := c.palette s.palette, idat := s.idat ++ c.idat, idatCap := cap } := by
  have hlength := h.length_eq
  have henv := env.maxPng_lt
  rw [Scan.take, if_neg hbetween.1, Chunk.palette, Chunk.idat]
  by_cases hpalette : c.type = typePLTE
  · have hdata : c.type ≠ typeIDAT := by
      rw [hpalette]
      decide
    refine ⟨s.idatCap, ?_⟩
    rw [if_pos hpalette, if_pos hpalette, if_neg hdata, append_nil, Scan.takePalette, h.len, require,
      if_pos (hbetween.2.2 hpalette), ok_bind, h.load_data]
    rfl
  rw [if_neg hpalette, if_neg hpalette]
  by_cases hdata : c.type = typeIDAT
  · rw [if_pos hdata, if_pos hdata]
    have hneed : w32 (s.idat.length + c.data.length) = s.idat.length + c.data.length := w32_of_lt (by omega)
    refine ⟨if s.idatCap < s.idat.length + c.data.length then w32 (s.idat.length + c.data.length + 4096)
      else s.idatCap, ?_⟩
    simp only [Scan.takeData, h.len, hneed, h.load_data, ok_bind]
    rw [require, if_pos (by omega), ok_bind, require, if_pos (fun _ => hmem _ _), ok_bind, require, if_pos ?_]
    · rfl
    split
    · rw [w32_of_lt (by omega)]
      omega
    · omega
  · rw [if_neg hdata, if_neg hdata, append_nil]
    exact ⟨s.idatCap, rfl⟩

end Chunks

theorem chunks_between {env : Env} {png front rest : List UInt8} {between : List Chunk} {last : Chunk} {s : Scan}
    {fuel : Nat} (heq : png = front ++ (between.flatMap Chunk.encode ++ (last.encode ++ rest)))
    (hpos : s.pos = front.length) (hroom : s.idat.length ≤ s.pos) (hlast : last.type = typeIEND)
    (hbetween : ∀ c ∈ between, c.Between) (hmax : png.length ≤ env.maxPng)
    (hmem : ∀ pos size, env.realloc pos size = true) (hfuel : between.length < fuel) :
    ∃ pos cap, s.chunks env png fuel = some (.ok { s with
      pos := pos, palette := between.foldl Chunk.palette s.palette, idat := s.idat ++ between.flatMap Chunk.idat
      idatCap := cap }) := by
  have hlt : png.length + 12 < 2 ^ 32 := by
    have := env.maxPng_lt
    omega
  -- the guard holds at each chunk
  have hguard : ∀ {front c rest s}, At png front c rest s → w32 (s.pos + 12) ≤ png.length := by
    intro front c rest s h
    have hlength := h.length_eq
    rw [w32_of_lt (by omega)]
    omega
  induction between generalizing front s fuel with
  | nil =>
    obtain ⟨fuel, rfl⟩ : ∃ n, fuel = n + 1 := ⟨fuel - 1, by simp at hfuel; omega⟩
    have hat : At png front last rest s := ⟨heq, hpos, hlt⟩
    refine ⟨s.pos, s.idatCap, ?_⟩
    rw [Scan.chunks, if_pos (hguard hat), hat.chunk, if_pos hlast]
    simp
  | cons c between ih =>
    obtain ⟨fuel, rfl⟩ : ∃ n, fuel = n + 1 := ⟨fuel - 1, by simp at hfuel; omega⟩
    have hat : At png front c (between.flatMap Chunk.encode ++ (last.encode ++ rest)) s :=
      ⟨by rw [heq, flatMap_cons, append_assoc], hpos, hlt⟩
    obtain ⟨hc, hothers⟩ := forall_mem_cons.mp hbetween
    obtain ⟨cap, htake⟩ := hat.take_between hc hroom hmax hmem
    rw [Scan.chunks, if_pos (hguard hat), hat.chunk, if_neg hc.2.1, htake, ok_bind]
    have hidat : c.idat.length ≤ c.data.length := by
      rw [Chunk.idat]
      split
      · exact Nat.le_refl _
      · exact Nat.zero_le _
    have hfront : (front ++ c.encode).length = s.pos + 12 + c.data.length := by
      simp only [length_append, c.length_encode]
      omega
    obtain ⟨pos, cap', hrest⟩ := @ih (front ++ c.encode)
      { s with pos := (front ++ c.encode).length, palette := c.palette s.palette, idat := s.idat ++ c.idat
               idatCap := cap } fuel (by rw [heq]; simp) rfl
      (by simp only [length_append] at hfront ⊢; omega) hothers (by simp at hfuel; omega)
    refine ⟨pos, cap', ?_⟩
    simp only [hrest, flatMap_cons, foldl_cons, append_assoc]

/-- What is known when the chunks of a picture are walked over. -/
structure Scanned (pic : Picture) (compressed : List UInt8) (s : Scan) : Prop where
  width : s.width = trmnlWidth
  height : s.height = trmnlHeight
  bitDepth : s.bitDepth = pic.format.bitDepth
  colorType : s.colorType = pic.format.colorType
  idat : s.idat = compressed
  palette : ∀ depth entries hentries index hindex, pic = .palette depth entries hentries index hindex →
    s.palette = entries

theorem chunks_file {env : Env} {pic : Picture} {compressed rest : List UInt8} {first last : Chunk}
    {between : List Chunk} (hw : Written pic compressed first between last)
    (hmax : (file first between last rest).length ≤ env.maxPng) (hmem : ∀ pos size, env.realloc pos size = true)
    {fuel : Nat} (hfuel : (file first between last rest).length < fuel) :
    ∃ s, Scan.start.chunks env (file first between last rest) fuel = some (.ok s) ∧ Scanned pic compressed s := by
  obtain ⟨fuel, rfl⟩ : ∃ n, fuel = n + 1 := ⟨fuel - 1, by omega⟩
  have henv := env.maxPng_lt
  have hat : At (file first between last rest) sig first (between.flatMap Chunk.encode ++ (last.encode ++ rest))
      .start := ⟨rfl, rfl, by omega⟩
  have hlength := hat.length_eq
  have hcount : between.length ≤ (between.flatMap Chunk.encode).length := by
    have hpos : ∀ n ∈ between.map fun c => c.encode.length, 1 ≤ n := by
      intro n hn
      obtain ⟨c, -, rfl⟩ := mem_map.mp hn
      rw [Chunk.encode, length_append, length_be32]
      omega
    have hsum := length_le_sum_of_one_le _ hpos
    rwa [length_map, ← length_flatMap] at hsum
  have hfirst : first.type ≠ typeIEND := by
    rw [hw.first_type]
    decide
  have hguard : w32 (Scan.start.pos + 12) ≤ (file first between last rest).length := by
    rw [w32_of_lt (by omega)]
    omega
  rw [Scan.chunks, if_pos hguard, hat.chunk, if_neg hfirst, hat.take_header hw.first_type hw.first_data, ok_bind]
  obtain ⟨pos, cap, hrest⟩ := @chunks_between env _ (sig ++ first.encode) rest between last
    { Scan.start with
      pos := (sig ++ first.encode).length, width := trmnlWidth, height := trmnlHeight, bitDepth := pic.format.bitDepth
      colorType := pic.format.colorType } fuel (by simp [file]) rfl (Nat.zero_le _) hw.last_type hw.between_ok hmax hmem
    (by rw [length_append] at hlength; omega)
  refine ⟨_, hrest, rfl, rfl, rfl, rfl, ?_, ?_⟩
  · exact hw.data
  · intro depth entries hentries index hindex hpic
    obtain ⟨before, c, after, rfl, htype, hdata, hafter⟩ := hw.palette _ _ _ _ _ hpic
    simp only [foldl_append, foldl_cons, foldl_palette_of_ne hafter, Chunk.palette, if_pos htype, hdata,
      entries_paletteData]

/-! ## Filters -/

section Filters

variable {data data' : Nat → UInt8} {stride bpp y x : Nat}

/-- A prediction depends on earlier bytes only. -/
theorem prediction_congr (h : ∀ i < y * stride + x, data i = data' i) (hbpp : 0 < bpp) (hx : x < stride)
    (filter : UInt8) :
    prediction data stride bpp y x filter = prediction data' stride bpp y x filter := by
  have hprev : 0 < y → (y - 1) * stride + stride ≤ y * stride := by
    intro hy
    rw [← Nat.succ_mul]
    exact Nat.mul_le_mul_right _ (by omega)
  have hleft : left data stride bpp y x = left data' stride bpp y x := by
    rw [left, left]
    split
    · exact h _ (by omega)
    · rfl
  have habove : above data stride y x = above data' stride y x := by
    rw [above, above]
    split
    · rename_i hy
      exact h _ (by have := hprev hy; omega)
    · rfl
  have haboveLeft : aboveLeft data stride bpp y x = aboveLeft data' stride bpp y x := by
    rw [aboveLeft, aboveLeft]
    split
    · rename_i hy
      exact h _ (by have := hprev hy.1; omega)
    · rfl
  rw [prediction, prediction, hleft, habove, haboveLeft]

theorem predict_code (filter : Filter) (a b c : UInt8) :
    predict filter.code a b c = some (.ofNat (filter.predict a.toNat b.toNat c.toNat)) := by
  cases filter with
  | none | average => rfl
  | sub | up => simp [predict, Filter.code, Filter.predict]
  | paeth =>
    simp only [predict, Filter.code, Filter.predict, paethPredictor, Nat.le_min]
    split_ifs <;> simp_all

/-- The bytes from which predictions were taken come back, one by one. -/
theorem unfilter_correct {filtered raw : Buf UInt8} {target : Nat → UInt8} {filter : Nat → UInt8} {height : Nat}
    (hbpp : 0 < bpp) (hraw : raw.size = height * stride) (hfiltered : filtered.size = height * (stride + 1))
    (hfits : height * (stride + 1) < 2 ^ 32)
    (hfilter : ∀ y < height, filtered.data (y * (stride + 1)) = filter y)
    (hbytes : ∀ y < height, ∀ x < stride, ∃ p, prediction target stride bpp y x (filter y) = some p ∧
      filtered.data (y * (stride + 1) + 1 + x) = target (y * stride + x) - p) :
    Ends (fun _ => False) (fun raw => raw.size = height * stride ∧ ∀ i < height * stride, raw.data i = target i)
      (unfilter filtered height stride bpp raw) := by
  refine Ends.upTo
    (I := fun y (raw : Buf UInt8) => raw.size = height * stride ∧ ∀ i < y * stride, raw.data i = target i)
    ⟨hraw, fun i hi => by omega⟩ ?_
  rintro y hy raw ⟨hraw, hdone⟩
  refine Ends.bind (P := fun f => f = filter y) (ends_filter hfiltered hfits hy (hfilter y hy)) ?_
  rintro _ rfl
  rw [Nat.succ_mul]
  refine Ends.upTo (I := fun x (raw : Buf UInt8) => raw.size = height * stride ∧
    ∀ i < y * stride + x, raw.data i = target i) ⟨hraw, hdone⟩ ?_
  rintro x hx raw ⟨hraw, hdone⟩
  have hsame := prediction_congr hdone hbpp hx (filter y)
  obtain ⟨p, hp, hbyte⟩ := hbytes y hy x hx
  refine ends_unfilterByte hraw hfiltered hfits hy hx ?_ ?_
  · intro hnone
    rw [hsame, hp] at hnone
    cases hnone
  intro p' hp'
  rw [hsame, hp] at hp'
  cases hp'
  refine ⟨hraw, fun i hi => ?_⟩
  by_cases heq : i = y * stride + x
  · subst heq
    simp only [Function.update_self, hbyte, UInt8.sub_add_cancel]
  · simp only [Function.update_of_ne heq]
    exact hdone i (by omega)

end Filters

/-! ## The format of a picture -/

section Format

variable {pic : Picture} {compressed : List UInt8} {s : Scan}

theorem Scanned.bitspp (h : Scanned pic compressed s) : s.bitspp = s.channels * pic.format.bitDepth := by
  rw [Scan.bitspp, h.bitDepth]

theorem Scanned.format (h : Scanned pic compressed s) : s.FormatOk := by
  rw [Scan.FormatOk, h.colorType, h.bitDepth]
  cases pic.format with
  | gray depth => cases depth <;> decide
  | palette depth => cases depth <;> decide
  | _ => decide

theorem Scanned.sizes (h : Scanned pic compressed s) :
    s.stride = pic.format.rowLength ∧ s.bppFilter = pic.format.pixelLength ∧ s.width * s.bitspp + 7 < 2 ^ 32 := by
  rw [Scan.stride, Scan.bppFilter, h.bitspp, h.width, Scan.channels, h.colorType]
  cases pic.format with
  | gray depth => cases depth <;> decide
  | palette depth => cases depth <;> decide
  | _ => decide

theorem Format.rowLength_pos (f : Format) : 0 < f.rowLength ∧ f.rowLength ≤ 3200 := by
  cases f with
  | gray depth => cases depth <;> decide
  | palette depth => cases depth <;> decide
  | _ => decide

theorem Format.pixelLength_pos (f : Format) : 0 < f.pixelLength := by cases f <;> simp [pixelLength]

theorem Scanned.fits (h : Scanned pic compressed s) : s.Fits := by
  obtain ⟨hstride, -, hrow⟩ := h.sizes
  have hle := pic.format.rowLength_pos.2
  refine ⟨hrow, ?_, ?_⟩
  · rw [hstride, h.height]
    change 480 * (pic.format.rowLength + 1) < 2 ^ 32
    omega
  · rw [h.width, h.height]
    decide

theorem Scanned.check (h : Scanned pic compressed s) (hne : compressed ≠ []) : s.check = .ok () := by
  have hchannels : s.channels ≠ 0 := by
    rw [Scan.channels, h.colorType]
    cases pic.format <;> simp [Format.colorType]
  have hdepth : s.depthOk = true := by
    rw [Scan.depthOk, h.colorType, h.bitDepth]
    cases pic.format with
    | gray depth => cases depth <;> decide
    | palette depth => cases depth <;> decide
    | _ => decide
  have hpalette : s.colorType = 3 → s.palette.length ≠ 0 := by
    intro hcolor hzero
    rw [h.colorType] at hcolor
    cases pic with
    | palette depth entries hentries index hindex =>
      rw [h.palette _ _ _ _ _ rfl] at hzero
      have := hindex 0 0
      omega
    | _ => cases hcolor
  have hfirst : s.width ≠ 0 ∧ s.height ≠ 0 ∧ s.channels ≠ 0 ∧ s.idat.length ≠ 0 := by
    rw [h.width, h.height, h.idat]
    exact ⟨by decide, by decide, hchannels, fun hzero => hne (eq_nil_of_length_eq_zero hzero)⟩
  rw [Scan.check, require, if_pos hfirst, ok_bind, require, if_pos hdepth, ok_bind, require, if_pos hpalette]

end Format

/-! ## The rows of a picture -/

section Rows

variable {pic : Picture} {filter : Nat → Filter} {y x : Nat}

theorem raw_row (hx : x < pic.format.rowLength) : pic.raw (y * pic.format.rowLength + x) = pic.rowByte y x := by
  rw [Picture.raw, Nat.mul_comm, Nat.mul_add_div (Nat.zero_lt_of_lt hx), Nat.div_eq_of_lt hx, Nat.mul_add_mod,
    Nat.mod_eq_of_lt hx, Nat.add_zero]

theorem prediction_raw (hx : x < pic.format.rowLength) (filter : Filter) :
    prediction pic.raw pic.format.rowLength pic.format.pixelLength y x filter.code =
      some (.ofNat (filter.predict (pic.before 0 1 y x) (pic.before 1 0 y x) (pic.before 1 1 y x))) := by
  have hleft : (left pic.raw pic.format.rowLength pic.format.pixelLength y x).toNat = pic.before 0 1 y x := by
    simp only [left, Picture.before, Nat.zero_le, true_and, Nat.one_mul, Nat.sub_zero]
    split
    · rw [raw_row (by omega)]
    · rfl
  have habove : (above pic.raw pic.format.rowLength y x).toNat = pic.before 1 0 y x := by
    simp only [above, Picture.before, Nat.zero_mul, Nat.zero_le, and_true, Nat.succ_le_iff, Nat.sub_zero]
    split
    · rw [raw_row hx]
    · rfl
  have haboveLeft :
      (aboveLeft pic.raw pic.format.rowLength pic.format.pixelLength y x).toNat = pic.before 1 1 y x := by
    simp only [aboveLeft, Picture.before, Nat.one_mul, Nat.succ_le_iff]
    split
    · rw [raw_row (by omega)]
    · rfl
  rw [prediction, predict_code, hleft, habove, haboveLeft]

theorem size_bufOf (bytes : List UInt8) : (bufOf bytes).size = bytes.length := rfl

theorem length_filtered : (pic.filtered filter).length = trmnlHeight * (pic.format.rowLength + 1) := by
  rw [Picture.filtered, length_map, length_range]

theorem filtered_row {k : Nat} (hy : y < trmnlHeight) (hk : k < pic.format.rowLength + 1) :
    (bufOf (pic.filtered filter)).data (y * (pic.format.rowLength + 1) + k) = pic.filteredByte filter y k := by
  have hindex := index_lt hy hk
  have hdiv : (y * (pic.format.rowLength + 1) + k) / (pic.format.rowLength + 1) = y := by
    rw [Nat.mul_comm, Nat.mul_add_div (Nat.succ_pos _), Nat.div_eq_of_lt hk, Nat.add_zero]
  have hmod : (y * (pic.format.rowLength + 1) + k) % (pic.format.rowLength + 1) = k := by
    rw [Nat.mul_comm, Nat.mul_add_mod, Nat.mod_eq_of_lt hk]
  simp only [bufOf, Picture.filtered]
  rw [getD_eq_getElem?_getD, getElem?_map, getElem?_range hindex]
  simp only [Option.map_some, Option.getD_some, hdiv, hmod]

/-- The rows of a picture come back from the filtered ones. -/
theorem unfilter_picture {raw : Buf UInt8} (hraw : raw.size = trmnlHeight * pic.format.rowLength) :
    Ends (fun _ => False)
      (fun raw => raw.size = trmnlHeight * pic.format.rowLength ∧
        ∀ i < trmnlHeight * pic.format.rowLength, raw.data i = pic.raw i)
      (unfilter (bufOf (pic.filtered filter)) trmnlHeight pic.format.rowLength pic.format.pixelLength raw) := by
  have hle := pic.format.rowLength_pos.2
  have hsize : (bufOf (pic.filtered filter)).size = trmnlHeight * (pic.format.rowLength + 1) := by
    rw [size_bufOf, length_filtered]
  have hfits : trmnlHeight * (pic.format.rowLength + 1) < 2 ^ 32 := by
    change 480 * (pic.format.rowLength + 1) < 2 ^ 32
    omega
  refine @unfilter_correct pic.format.rowLength pic.format.pixelLength (bufOf (pic.filtered filter)) raw pic.raw
    (fun y => (filter y).code) trmnlHeight pic.format.pixelLength_pos hraw hsize hfits ?_ ?_
  · intro y hy
    exact filtered_row (k := 0) hy (Nat.succ_pos _)
  intro y hy x hx
  refine ⟨_, prediction_raw hx (filter y), ?_⟩
  rw [Nat.add_assoc, Nat.add_comm 1, filtered_row hy (by omega), raw_row hx, Picture.filteredByte]

end Rows

/-! ## Pixels -/

/-- A sample comes back from the byte it was packed into. -/
theorem sample_packByte (depth : Depth) {f : Nat → Nat} (hf : ∀ x, f x < 2 ^ depth.bits) (x : Nat) :
    ((packByte depth.bits f (x * depth.bits / 8)).toNat >>> (8 - depth.bits - x * depth.bits % 8)) % 2 ^ depth.bits =
      f x := by
  -- the byte holds the pixels from `j * n` on, and the pixel is the one with number `k` of them
  obtain ⟨j, k, hk, rfl⟩ : ∃ j k, k < 8 / depth.bits ∧ x = j * (8 / depth.bits) + k := by
    have hpos : 0 < 8 / depth.bits := by cases depth <;> decide
    exact ⟨x / (8 / depth.bits), x % (8 / depth.bits), Nat.mod_lt _ hpos, (Nat.div_add_mod' _ _).symm⟩
  have hdiv : (j * (8 / depth.bits) + k) * depth.bits / 8 = j := by cases depth <;> simp [Depth.bits] at * <;> omega
  have hmod : (j * (8 / depth.bits) + k) * depth.bits % 8 = k * depth.bits := by
    cases depth <;> simp [Depth.bits] at * <;> omega
  have hsamples := fun i => hf (j * (8 / depth.bits) + i)
  have h0 := hsamples 0
  have h1 := hsamples 1
  have h2 := hsamples 2
  have h3 := hsamples 3
  have h4 := hsamples 4
  have h5 := hsamples 5
  have h6 := hsamples 6
  have h7 := hsamples 7
  rw [hdiv, hmod, packByte]
  cases depth with
  | one | two | four | eight =>
    simp only [Depth.bits, Nat.reduceDiv, Nat.div_one, range, range.loop, List.foldl, UInt8.toNat_ofNat',
      Nat.shiftRight_eq_div_pow] at *
    interval_cases k <;> omega

section Pixels

variable {pic : Picture} {compressed : List UInt8} {s : Scan} {data : Nat → UInt8} {row y x : Nat}

theorem sampleOf_eq (depth : Depth) (hdepth : s.bitDepth = depth.bits) {f : Nat → Nat} (hf : ∀ x, f x < 2 ^ depth.bits)
    (hrow : ∀ j < trmnlWidth * depth.bits / 8, data (row + j) = packByte depth.bits f j) (hx : x < trmnlWidth) :
    sampleOf s data row x = f x := by
  have hsample := sample_packByte depth hf x
  have hwidth : trmnlWidth = 800 := rfl
  have hindex : x * depth.bits / 8 < trmnlWidth * depth.bits / 8 := by
    cases depth <;> simp only [Depth.bits] <;> omega
  rw [sampleOf, hdepth]
  split
  · rename_i height
    rw [height] at hsample hrow hindex
    simp only [Nat.sub_self, Nat.mul_mod_left, Nat.shiftRight_zero,
      Nat.mul_div_cancel x (Nat.succ_pos 7)] at hsample hindex
    rw [hrow x hindex, ← hsample, Nat.mod_eq_of_lt (UInt8.toNat_lt _)]
  · rw [hrow _ hindex]
    exact hsample

theorem scaleSample_eq (depth : Depth) (v : Nat) :
    scaleSample v depth.bits = .ofNat (v * (255 / (2 ^ depth.bits - 1))) := by
  cases depth with
  | one | two | four | eight => exact congrArg UInt8.ofNat (by simp only [Depth.bits]; omega)

theorem luma_eq (r g b : UInt8) : luma r g b = brightness (r, g, b) := by
  rw [luma, brightness]
  simp only [Nat.mul_comm]

theorem brightness_le (color : UInt8 × UInt8 × UInt8) : brightness color ≤ 255 := by
  have hr := color.1.toNat_lt
  have hg := color.2.1.toNat_lt
  have hb := color.2.2.toNat_lt
  rw [brightness]
  omega

theorem blend_le {value alpha : Nat} (hvalue : value ≤ 255) (halpha : alpha ≤ 255) : blend value alpha ≤ 255 := by
  have hmul : value * alpha ≤ 255 * alpha := Nat.mul_le_mul_right _ hvalue
  rw [blend]
  omega

theorem Picture.luminance_lt (pic : Picture) (y x : Nat) : pic.luminance y x < 256 := by
  have hbyte : ∀ b : UInt8, b.toNat ≤ 255 := fun b => Nat.le_of_lt_succ b.toNat_lt
  cases pic with
  | gray depth sample =>
    have hlt := (sample y x).isLt
    simp only [luminance]
    cases depth <;> simp only [Depth.bits] at hlt ⊢ <;> omega
  | palette | rgb => exact Nat.lt_succ_of_le (brightness_le _)
  | grayAlpha color => exact Nat.lt_succ_of_le (blend_le (hbyte _) (hbyte _))
  | rgba color => exact Nat.lt_succ_of_le (blend_le (brightness_le _) (hbyte _))

theorem div_channel {n k : Nat} (hk : k < n) : (x * n + k) / n = x ∧ (x * n + k) % n = k := by
  rw [Nat.mul_comm, Nat.mul_add_div (Nat.zero_lt_of_lt hk), Nat.div_eq_of_lt hk, Nat.mul_add_mod, Nat.mod_eq_of_lt hk]
  exact ⟨rfl, rfl⟩

/-- The grey value of a pixel is its luminance, if its row is that of the picture. -/
theorem grayOf_picture (h : Scanned pic compressed s)
    (hrow : ∀ j < pic.format.rowLength, data (row + j) = pic.rowByte y j) (hx : x < trmnlWidth) :
    grayOf s data row x = some (.ofNat (pic.luminance y x)) := by
  cases pic with
  | gray depth sample =>
    have hcolor : s.colorType = 0 := h.colorType
    have hdepth : s.bitDepth = depth.bits := h.bitDepth
    rw [grayOf, if_pos hcolor, sampleOf_eq depth hdepth (fun x => (sample y x).isLt) hrow hx, hdepth]
    exact congrArg some (scaleSample_eq depth _)
  | palette depth entries hentries index hindex =>
    have hcolor : s.colorType = 3 := h.colorType
    have hdepth : s.bitDepth = depth.bits := h.bitDepth
    rw [grayOf, if_neg (by omega), if_pos hcolor, sampleOf_eq depth hdepth (fun x => (index y x).isLt) hrow hx,
      h.palette _ _ _ _ _ rfl, getElem?_eq_getElem (hindex y x)]
    exact congrArg (fun v => some (UInt8.ofNat v)) (luma_eq _ _ _)
  | rgb color =>
    have hcolor : s.colorType = 2 := h.colorType
    have hchannels : s.channels = 3 := by simp [Scan.channels, hcolor]
    have hbyte (k : Nat) (hk : k < 3) : data (row + x * 3 + k) =
        if k = 0 then (color y x).1 else if k = 1 then (color y x).2.1 else (color y x).2.2 := by
      rw [Nat.add_assoc, hrow _ (index_lt hx hk), Picture.rowByte, (div_channel hk).1, (div_channel hk).2]
    simp only [grayOf, hcolor, hchannels, hbyte 0 (by decide), hbyte 1 (by decide), hbyte 2 (by decide), luma_eq]
    rfl
  | grayAlpha color =>
    have hcolor : s.colorType = 4 := h.colorType
    have hchannels : s.channels = 2 := by simp [Scan.channels, hcolor]
    have hbyte (k : Nat) (hk : k < 2) : data (row + x * 2 + k) = if k = 0 then (color y x).1 else (color y x).2 := by
      rw [Nat.add_assoc, hrow _ (index_lt hx hk), Picture.rowByte, (div_channel hk).1, (div_channel hk).2]
    simp only [grayOf, hcolor, hchannels, hbyte 0 (by decide), hbyte 1 (by decide)]
    rfl
  | rgba color =>
    have hcolor : s.colorType = 6 := h.colorType
    have hchannels : s.channels = 4 := by simp [Scan.channels, hcolor]
    have hbyte (k : Nat) (hk : k < 4) : data (row + x * 4 + k) =
        if k = 0 then (color y x).1 else if k = 1 then (color y x).2.1 else if k = 2 then (color y x).2.2.1
        else (color y x).2.2.2 := by
      rw [Nat.add_assoc, hrow _ (index_lt hx hk), Picture.rowByte, (div_channel hk).1, (div_channel hk).2]
    simp only [grayOf, hcolor, hchannels, hbyte 0 (by decide), hbyte 1 (by decide), hbyte 2 (by decide),
      hbyte 3 (by decide), luma_eq]
    rfl

theorem convert_picture {raw gray : Buf UInt8} (h : Scanned pic compressed s)
    (hraw : raw.size = trmnlHeight * pic.format.rowLength)
    (hbytes : ∀ i < trmnlHeight * pic.format.rowLength, raw.data i = pic.raw i)
    (hgray : gray.size = trmnlWidth * trmnlHeight) :
    Ends (fun _ => False)
      (fun gray => gray.size = trmnlWidth * trmnlHeight ∧ ∀ y < trmnlHeight, ∀ x < trmnlWidth,
        gray.data (y * trmnlWidth + x) = .ofNat (pic.luminance y x))
      (convert s raw gray) := by
  obtain ⟨hstride, -⟩ := h.sizes
  have hraw' : raw.size = s.height * s.stride := by rw [h.height, hstride, hraw]
  have hdone : Ends (fun _ => False)
      (fun gray => gray.size = trmnlWidth * trmnlHeight ∧ ∀ i < s.height * s.width,
        gray.data i = .ofNat (pic.luminance (i / trmnlWidth) (i % trmnlWidth))) (convert s raw gray) := by
    refine Ends.upTo_upTo (I := fun n (gray : Buf UInt8) => gray.size = trmnlWidth * trmnlHeight ∧
      ∀ i < n, gray.data i = .ofNat (pic.luminance (i / trmnlWidth) (i % trmnlWidth)))
      ⟨hgray, fun i hi => absurd hi (Nat.not_lt_zero i)⟩ ?_
    rintro y hy x hx gray ⟨hgray, hbefore⟩
    obtain ⟨hin, hoffset⟩ := row_le h.fits hraw' hy
    have hindex : y * s.width + x < s.height * s.width := index_lt hy hx
    rw [h.height] at hy
    rw [h.width] at hx
    have hrow : ∀ j < pic.format.rowLength, raw.data (y * s.stride + j) = pic.rowByte y j := by
      intro j hj
      rw [hstride, hbytes _ (index_lt hy hj), raw_row hj]
    rw [hoffset, pixel_eq h.fits h.format (h.width ▸ hx) hin, grayOf_picture h hrow hx, ok_bind]
    have hsize : s.height * s.width = trmnlWidth * trmnlHeight := by rw [h.height, h.width, Nat.mul_comm]
    have hlt : trmnlWidth * trmnlHeight < 2 ^ 32 := by decide
    rw [w32_of_lt (by omega : y * s.width < 2 ^ 32), w32_of_lt (by omega)]
    refine Buf.ends_write (by omega) ⟨hgray, fun i hi => ?_⟩
    by_cases heq : i = y * s.width + x
    · subst heq
      simp only [Function.update_self]
      rw [h.width, (div_channel hx).1, (div_channel hx).2]
    · simp only [Function.update_of_ne heq]
      exact hbefore i (by omega)
  refine hdone.mono fun gray hgray => ⟨hgray.1, fun y hy x hx => ?_⟩
  rw [hgray.2 _ (by rw [h.height, h.width]; exact index_lt hy hx), (div_channel hx).1, (div_channel hx).2]

end Pixels

/-! ## Packing -/

section Packing

/-- The two-bit field of a pixel. -/
def field (dst : Buf UInt8) (y x : Nat) : Nat := (dst.data (y * y2Stride + x / 4)).toNat >>> fieldShift x % 4

theorem level_lt (g : UInt8) : level g < 4 := by
  have := g.toNat_lt
  rw [level]
  omega

/-- The level is the nearest of four grey values. -/
theorem level_nearest (g : UInt8) (k : Nat) :
    ((85 * level g : Int) - g.toNat).natAbs ≤ ((85 * k : Int) - g.toNat).natAbs := by
  rw [level]
  omega

theorem field_or (old : UInt8) {lv k k' : Nat} (hlv : lv < 4) (hk : k < 4) (hk' : k' < 4) :
    (old ||| UInt8.ofNat (lv <<< ((3 - k) * 2))).toNat >>> ((3 - k') * 2) % 4 =
      if k' = k then (old.toNat >>> ((3 - k) * 2) % 4) ||| lv else old.toNat >>> ((3 - k') * 2) % 4 := by
  have hall : ∀ lv k k' : Fin 4, (UInt8.ofNat (lv.val <<< ((3 - k.val) * 2))).toNat >>> ((3 - k'.val) * 2) % 2 ^ 2 =
      if k'.val = k.val then lv.val else 0 := by decide +kernel
  have hnew : (UInt8.ofNat (lv <<< ((3 - k) * 2))).toNat >>> ((3 - k') * 2) % 2 ^ 2 = if k' = k then lv else 0 :=
    hall ⟨lv, hlv⟩ ⟨k, hk⟩ ⟨k', hk'⟩
  change _ % 2 ^ 2 = _
  rw [UInt8.toNat_or, Nat.shiftRight_or_distrib, Nat.or_mod_two_pow, hnew]
  split
  · rename_i heq
    rw [heq]
  · rw [Nat.or_zero]

/-- The field of each pixel that is packed has its level, and the fields of the others are empty. -/
def Packed (gray : Buf UInt8) (n : Nat) (dst : Buf UInt8) : Prop :=
  dst.size = y2Bytes ∧ ∀ y < trmnlHeight, ∀ x < trmnlWidth,
    field dst y x = if y * trmnlWidth + x < n then level (gray.data (y * trmnlWidth + x)) else 0

theorem Packed.step {gray dst : Buf UInt8} {y x : Nat} (h : Packed gray (y * trmnlWidth + x) dst)
    (hx : x < trmnlWidth) :
    Packed gray (y * trmnlWidth + x + 1) ⟨dst.size, Function.update dst.data (y * y2Stride + x / 4)
      (dst.data (y * y2Stride + x / 4) ||| .ofNat (level (gray.data (y * trmnlWidth + x)) <<< fieldShift x))⟩ := by
  refine ⟨h.1, fun y' hy' x' hx' => ?_⟩
  have hwidth : y * trmnlWidth = y * 800 ∧ y' * trmnlWidth = y' * 800 := ⟨rfl, rfl⟩
  have hstride : y * y2Stride = y * 200 ∧ y' * y2Stride = y' * 200 := ⟨rfl, rfl⟩
  change x < 800 at hx
  change x' < 800 at hx'
  have hold := h.2 y' hy' x' hx'
  simp only [field] at hold ⊢
  by_cases hbyte : y' * y2Stride + x' / 4 = y * y2Stride + x / 4
  · -- the pixels share a byte
    have hy : y' = y := by omega
    subst hy
    rw [hbyte] at hold ⊢
    rw [Function.update_self, fieldShift, fieldShift,
      field_or _ (level_lt _) (Nat.mod_lt _ (by decide)) (Nat.mod_lt _ (by decide))]
    by_cases hself : x' = x
    · subst hself
      rw [fieldShift, if_neg (Nat.lt_irrefl _)] at hold
      rw [if_pos rfl, hold, if_pos (Nat.lt_succ_self _), Nat.zero_or]
    have hother : x' % 4 ≠ x % 4 := by omega
    rw [if_neg hother, ← fieldShift, hold]
    split <;> split <;> first | rfl | omega
  · rw [Function.update_of_ne hbyte, hold]
    split <;> split <;> first | rfl | omega

/-- Each pixel ends up in its own field. -/
theorem packY2_levels {gray : Buf UInt8} (hgray : gray.size = trmnlWidth * trmnlHeight) :
    Ends (fun _ => False) (fun dst => dst.size = y2Bytes ∧ ∀ y < trmnlHeight, ∀ x < trmnlWidth,
      field dst y x = level (gray.data (y * trmnlWidth + x))) (packY2 gray) := by
  have hpacked : Ends (fun _ => False) (Packed gray (trmnlHeight * trmnlWidth)) (packY2 gray) := by
    refine Ends.upTo_upTo (I := Packed gray) ⟨rfl, fun y hy x hx => ?_⟩ ?_
    · simp [field, allocated]
    intro y hy x hx dst hdst
    have hsource : y * trmnlWidth + x < gray.size := by
      rw [hgray, Nat.mul_comm trmnlWidth]
      exact index_lt hy hx
    have htarget : y * y2Stride + x / 4 < dst.size := by
      rw [hdst.1, y2Bytes, Nat.mul_comm y2Stride]
      exact index_lt hy (by change x / 4 < 200; change x < 800 at hx; omega)
    refine Ends.bind (P := fun v => v = gray.data (y * trmnlWidth + x))
      (Buf.ends_read hsource rfl) ?_
    rintro _ rfl
    refine Ends.bind (P := fun v => v = dst.data (y * y2Stride + x / 4))
      (Buf.ends_read htarget rfl) ?_
    rintro _ rfl
    exact Buf.ends_write htarget (hdst.step hx)
  refine hpacked.mono fun dst hdst => ⟨hdst.1, fun y hy x hx => ?_⟩
  rw [hdst.2 y hy x hx, if_pos (index_lt hy hx)]

end Packing

/-! ## The whole way -/

section

variable {env : Env} {pic : Picture} {filter : Nat → Filter} {compressed : List UInt8} {s : Scan}

/-- Behind the loop over the chunks: the pixels of the image are those of the picture. -/
theorem decodeScanned_picture (h : Scanned pic compressed s) (hne : compressed ≠ []) (hmalloc : env.malloc = true)
    (hzlib : env.uncompress compressed (trmnlHeight * (pic.format.rowLength + 1)) = some (pic.filtered filter)) :
    ∃ gray, decodeScanned env s = .ok ⟨trmnlWidth, trmnlHeight, gray⟩ ∧ gray.size = trmnlWidth * trmnlHeight ∧
      ∀ y < trmnlHeight, ∀ x < trmnlWidth, gray.data (y * trmnlWidth + x) = .ofNat (pic.luminance y x) := by
  obtain ⟨hstride, hbpp, -⟩ := h.sizes
  have hlen : s.filteredLen = trmnlHeight * (pic.format.rowLength + 1) := by
    rw [filteredLen_eq h.fits, h.height, hstride]
  have hle := pic.format.rowLength_pos.2
  have hsize : w32 (trmnlHeight * pic.format.rowLength) = trmnlHeight * pic.format.rowLength := by
    apply w32_of_lt
    change 480 * pic.format.rowLength < 2 ^ 32
    omega
  have hnew : ∀ size, (allocated size).size = size := fun _ => rfl
  obtain ⟨raw, hraw, hrawSize, hbytes⟩ :=
    (@unfilter_picture pic filter _ (hnew (trmnlHeight * pic.format.rowLength))).exists_ok
  obtain ⟨gray, hgray, hgraySize, hpixels⟩ :=
    (convert_picture h hrawSize hbytes (hnew (trmnlWidth * trmnlHeight))).exists_ok
  refine ⟨gray, ?_, hgraySize, hpixels⟩
  rw [decodeScanned, h.check hne, ok_bind, require, if_pos hmalloc, ok_bind, hlen, h.idat, hzlib]
  simp only
  rw [require, if_pos length_filtered, ok_bind, h.height, h.width, hstride, hbpp, hsize, hraw, ok_bind,
    w32_of_lt (by decide), hgray]
  rfl

end

/-- A PNG file of any picture for the display, with any filters and any division into chunks:
decoding it gives the luminance of each pixel, and packing stores the nearest level of each pixel in
its field. -/
theorem display_picture (env : Env) (compress : List UInt8 → List UInt8)
    (hzlib : ∀ bytes size, bytes.length ≤ size → env.uncompress (compress bytes) size = some bytes)
    (hne : ∀ bytes, compress bytes ≠ []) (hrealloc : ∀ pos size, env.realloc pos size = true)
    (hmalloc : env.malloc = true) (pic : Picture) (filter : Nat → Filter) (first : Chunk) (between : List Chunk)
    (last : Chunk) (rest : List UInt8) (hw : Written pic (compress (pic.filtered filter)) first between last)
    (hmax : (file first between last rest).length ≤ env.maxPng) :
    ∃ image dst, (∀ fuel > (file first between last rest).length,
        pngDecodeGray env (file first between last rest) fuel = some (.ok image)) ∧
      image.width = trmnlWidth ∧ image.height = trmnlHeight ∧
      (∀ y < trmnlHeight, ∀ x < trmnlWidth, (image.gray.data (y * trmnlWidth + x)).toNat = pic.luminance y x) ∧
      packY2 image.gray = .ok dst ∧ dst.size = y2Bytes ∧
      ∀ y < trmnlHeight, ∀ x < trmnlWidth, field dst y x ≤ 3 ∧ ∀ k : Nat, k ≤ 3 →
        ((85 * field dst y x : Int) - pic.luminance y x).natAbs ≤ ((85 * k : Int) - pic.luminance y x).natAbs := by
  obtain ⟨s, hs, hscanned⟩ := chunks_file hw hmax hrealloc (Nat.lt_succ_self _)
  obtain ⟨gray, hdecode, hsize, hpixels⟩ := decodeScanned_picture hscanned (hne _) hmalloc
    (hzlib _ _ (Nat.le_of_eq length_filtered))
  obtain ⟨dst, hpack, hdst, hfields⟩ := (packY2_levels hsize).exists_ok
  have hlum : ∀ y < trmnlHeight, ∀ x < trmnlWidth, (gray.data (y * trmnlWidth + x)).toNat = pic.luminance y x := by
    intro y hy x hx
    rw [hpixels y hy x hx, UInt8.toNat_ofNat', Nat.mod_eq_of_lt (pic.luminance_lt y x)]
  refine ⟨⟨trmnlWidth, trmnlHeight, gray⟩, dst, ?_, rfl, rfl, hlum, hpack, hdst, ?_⟩
  · intro fuel hfuel
    have hsig : ¬ ((file first between last rest).length < 33 ∨ slice (file first between last rest) 0 8 ≠ sig) := by
      rintro (hshort | hother)
      · have hfirst : first.data.length = 13 := by
          rw [hw.first_data]
          rfl
        have hlength : sig.length = 8 := rfl
        simp only [file, length_append, first.length_encode] at hshort
        omega
      · exact hother (slice_mid [] sig _)
    rw [pngDecodeGray, if_neg hsig, Scan.chunks_mono hs hfuel, Option.map_some, ok_bind, hdecode]
  · intro y hy x hx
    rw [hfields y hy x hx, ← hlum y hy x hx]
    exact ⟨Nat.le_of_lt_succ (level_lt _), fun k _ => level_nearest _ k⟩

/-- An environment with data that is not compressed, but marked by a first byte. -/
private def stored : Env where
  maxPng := 1048576
  realloc := fun _ _ => true
  malloc := true
  uncompress := fun src size => if src.length ≤ size + 1 then some (src.drop 1) else none
  uncompress_le := by
    intro src size out h
    split at h <;> cases h
    rw [length_drop]
    omega
  maxPng_lt := (twoBytes 0 0).maxPng_lt

/-- A chequered picture. -/
private def chequered : Picture := .gray .one fun y x => if (y + x) % 2 = 0 then 0 else 1

/-- The data behind the mark, in two parts with a chunk of text in between. -/
private def parts (l : List UInt8) : List Chunk :=
  [⟨typeIDAT, [0], be32 0, rfl, rfl⟩, ⟨[0x74, 0x45, 0x58, 0x74], [0x61], be32 0, rfl, rfl⟩,
    ⟨typeIDAT, l, be32 0, rfl, rfl⟩]

private theorem data_parts (l : List UInt8) : (parts l).flatMap Chunk.idat = 0 :: l := by
  simp [parts, Chunk.idat, typeIDAT]

/-- Stated for any data, since the filtered rows would be evaluated. -/
private theorem length_parts (l : List UInt8) (h : l.length = trmnlHeight * (chequered.format.rowLength + 1)) :
    (file ⟨typeIHDR, headerData chequered, be32 0, rfl, rfl⟩ (parts l) ⟨typeIEND, [], be32 0, rfl, rfl⟩ []).length ≤
      stored.maxPng := by
  have hsig : sig.length = 8 := rfl
  have hheader : (headerData chequered).length = 13 := rfl
  have hrow : chequered.format.rowLength = 100 := rfl
  simp only [file, parts, flatMap_cons, flatMap_nil, length_append, Chunk.length_encode, hsig, hheader,
    length_cons, length_nil, h, hrow]
  decide

/-- The first two pixels are black and white. -/
theorem display_picture_chequered :
    ∃ (image : Image) (dst : Buf UInt8), packY2 image.gray = .ok dst ∧ field dst 0 0 = 0 ∧ field dst 0 1 = 3 := by
  obtain ⟨image, dst, -, -, -, -, hpack, -, hfields⟩ := display_picture stored (fun bytes => 0 :: bytes)
    (by
      intro bytes size h
      simp [stored, h])
    (fun bytes => cons_ne_nil _ _) (fun _ _ => rfl) rfl chequered (fun y => if y % 2 = 0 then .sub else .paeth)
    ⟨typeIHDR, headerData chequered, be32 0, rfl, rfl⟩ (parts (chequered.filtered _))
    ⟨typeIEND, [], be32 0, rfl, rfl⟩ []
    { first_type := rfl, first_data := rfl, last_type := rfl
      between_ok := by
        simp only [parts, forall_mem_cons]
        exact ⟨⟨by decide, by decide, fun h => absurd h (by decide)⟩,
          ⟨by decide, by decide, fun h => absurd h (by decide)⟩,
          ⟨by decide, by decide, fun h => absurd h (by decide)⟩, nofun⟩
      data := data_parts _
      palette := fun _ _ _ _ _ h => by cases h }
    (length_parts _ length_filtered)
  have hblack := (hfields 0 (by decide) 0 (by decide)).2 0 (by decide)
  have hwhite := (hfields 0 (by decide) 1 (by decide)).2 3 (by decide)
  have hfirst : chequered.luminance 0 0 = 0 := by decide
  have hsecond : chequered.luminance 0 1 = 255 := by decide
  rw [hfirst] at hblack
  rw [hsecond] at hwhite
  exact ⟨image, dst, hpack, by omega, by omega⟩

end System.Trmnl
