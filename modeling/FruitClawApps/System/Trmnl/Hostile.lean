-- SUMMARY: Decoding a hostile file ends and stays in its buffers if no length or size overflows.
import FruitClawApps.System.Trmnl.Png

/-!
# Files from a hostile server

The lengths of the chunks and the size of the image come from the file. A length near `2 ^ 32`
passes the check `pos + 12 + len > png_len` and lets the loop stay where it is, and products of the
dimensions may wrap around to small buffers. Without such an overflow every access is in its buffer.
-/

namespace System.Trmnl

open Bytes Checked List

/-- An error is returned, but nothing outside of a buffer is touched. -/
def NoFault (e : Stop Errno) : Prop := e ≠ .fault

theorem w32_of_lt {n : Nat} (h : n < 2 ^ 32) : w32 n = n := Nat.mod_eq_of_lt h

theorem noFault_error (e : Errno) : NoFault (.error e) := fun h => by cases h

theorem ends_load {png : List UInt8} {off n : Nat} {E : Stop Errno → Prop} (h : off + n ≤ png.length) :
    Ends E (fun bytes => bytes = slice png off n) (load png off n) :=
  Ends.bind (Ends.require fun hno => absurd h hno) fun _ _ => .ok rfl

/-! ## The loop over the chunks -/

namespace Scan

/-- The states in which a chunk is looked at, within some turns of the loop. -/
def visited (env : Env) (png : List UInt8) : Nat → Scan → List Scan
  | 0, _ => []
  | fuel + 1, s =>
    if w32 (s.pos + 12) ≤ png.length then
      s :: match s.chunk env png with
        | .ok (some s) => visited env png fuel s
        | _ => []
    else []

/-- The end of the chunk can be computed without overflow. -/
def LenFits (png : List UInt8) (s : Scan) : Prop := s.pos + 12 + s.len png < 2 ^ 32

instance (png : List UInt8) (s : Scan) : Decidable (s.LenFits png) := Nat.decLt _ _

/-- The position is in the file, and the data that was copied is from in front of it. -/
structure Sound (png : List UInt8) (s : Scan) : Prop where
  pos : s.pos ≤ png.length
  data : s.idat.length ≤ s.pos

variable {env : Env} {png : List UInt8} {s : Scan}

section Chunk

variable (hlen : png.length ≤ env.maxPng) (hin : s.pos + 12 + s.len png ≤ png.length)
include hlen hin

theorem load_data {n : Nat} (hn : n ≤ s.len png) {E : Stop Errno → Prop} :
    Ends E (fun bytes => bytes = slice png (s.pos + 8) n) (load png (w32 (s.pos + 8)) n) := by
  have hmax := env.maxPng_lt
  rw [w32_of_lt (by omega)]
  exact ends_load (by omega)

theorem ends_takeHeader :
    Ends NoFault (fun s' => s'.idat.length = s.idat.length) (takeHeader png s) := by
  refine Ends.bind (Ends.require fun _ => noFault_error _) fun _ hheader => ?_
  refine Ends.bind (load_data hlen hin (Nat.le_of_eq hheader.symm)) fun data _ => ?_
  refine Ends.bind (Ends.require fun _ => noFault_error _) fun _ _ => ?_
  exact Ends.ok rfl

theorem ends_takePalette :
    Ends NoFault (fun s' => s'.idat.length = s.idat.length) (takePalette png s) := by
  refine Ends.bind (Ends.require fun _ => noFault_error _) fun _ _ => ?_
  refine Ends.bind (load_data hlen hin (Nat.le_refl _)) fun data _ => ?_
  exact Ends.ok rfl

/-- The buffer for the compressed data is large enough, since the data is from the file. -/
theorem ends_takeData (h : Sound png s) :
    Ends NoFault (fun s' => s'.idat.length = s.idat.length + s.len png) (takeData env png s) := by
  have hmax := env.maxPng_lt
  have hdata := h.data
  have hneed : w32 (s.idat.length + s.len png) = s.idat.length + s.len png := w32_of_lt (by omega)
  refine Ends.bind (Ends.require fun _ => noFault_error _) fun _ _ => ?_
  refine Ends.bind (Ends.require fun _ => noFault_error _) fun _ _ => ?_
  refine Ends.bind (load_data hlen hin (Nat.le_refl _)) fun data heq => ?_
  have hlength : data.length = s.len png := by rw [heq, length_slice (by omega)]
  refine Ends.bind (Ends.require fun hno => absurd ?_ hno) fun _ _ => ?_
  · split
    · rw [w32_of_lt (by omega)]
      omega
    · omega
  · exact Ends.ok (by rw [length_append, hlength])

theorem ends_take (h : Sound png s) (type : List UInt8) :
    Ends NoFault (fun s' => s'.idat.length ≤ s.pos + s.len png) (s.take env png type) := by
  have hdata := h.data
  rw [take]
  split
  · exact (ends_takeHeader hlen hin).mono fun s' hs' => by omega
  split
  · exact (ends_takePalette hlen hin).mono fun s' hs' => by omega
  split
  · exact (ends_takeData hlen hin h).mono fun s' hs' => by omega
  · exact Ends.ok (by omega)

end Chunk

/-- A chunk whose end does not overflow is processed only if it is in the file, and the next one
starts behind it. -/
theorem Sound.chunk (h : Sound png s) (hlen : png.length ≤ env.maxPng) (hguard : w32 (s.pos + 12) ≤ png.length)
    (hfits : s.LenFits png) :
    Ends NoFault (fun r => s.pos + 12 + s.len png ≤ png.length ∧
      ∀ s' ∈ r, Sound png s' ∧ s.pos + 12 ≤ s'.pos) (s.chunk env png) := by
  have hmax := env.maxPng_lt
  have hpos := h.pos
  rw [w32_of_lt (by omega)] at hguard
  have hend : w32 (s.pos + 12 + s.len png) = s.pos + 12 + s.len png := w32_of_lt hfits
  rw [Scan.chunk, hend]
  refine Ends.bind (ends_load (by omega)) fun _ _ => ?_
  refine Ends.bind (Ends.require fun _ => noFault_error _) fun _ hin => ?_
  rw [w32_of_lt (by omega : s.pos + 4 < 2 ^ 32)]
  refine Ends.bind (ends_load (by omega)) fun type _ => ?_
  split
  · exact Ends.ok ⟨hin, fun s' hs' => by cases hs'⟩
  refine Ends.bind (ends_take hlen hin h type) fun s' hs' => ?_
  rw [w32_of_lt (by omega : 12 + s.len png < 2 ^ 32), w32_of_lt (by omega)]
  refine Ends.ok ⟨hin, fun s'' hs'' => ?_⟩
  cases Option.mem_some.mp hs''
  exact ⟨⟨by simp only; omega, by simp only; omega⟩, by simp only; omega⟩

/-- The loop ends. -/
theorem Sound.chunks {fuel : Nat} (h : Sound png s) (hlen : png.length ≤ env.maxPng) (hfuel : png.length < s.pos + fuel)
    (hfits : ∀ s' ∈ s.visited env png fuel, s'.LenFits png) :
    ∃ r, s.chunks env png fuel = some r ∧ Ends NoFault (fun _ => True) r := by
  induction fuel generalizing s with
  | zero =>
    have hpos := h.pos
    omega
  | succ fuel ih =>
    rw [Scan.chunks]
    rw [visited] at hfits
    by_cases hguard : w32 (s.pos + 12) ≤ png.length
    · rw [if_pos hguard] at hfits
      rw [if_pos hguard]
      obtain ⟨hself, hothers⟩ := forall_mem_cons.mp hfits
      have hchunk := h.chunk hlen hguard hself
      rcases hr : s.chunk env png with e | r
      · rw [hr, ends_error_iff] at hchunk
        exact ⟨_, rfl, .error hchunk⟩
      rw [hr, ends_ok_iff] at hchunk
      cases r with
      | none => exact ⟨_, rfl, .ok trivial⟩
      | some s' =>
        obtain ⟨hsound, hprogress⟩ := hchunk.2 s' rfl
        simp only [hr] at hothers
        exact ih hsound (by omega) hothers
    · rw [if_neg hguard]
      exact ⟨_, rfl, .ok trivial⟩

theorem len_lt (png : List UInt8) (s : Scan) : s.len png < 2 ^ 32 := by
  have hdigits : ∀ d ∈ ((slice png s.pos 4).reverse.map UInt8.toNat), d < 256 := by
    rw [forall_mem_map]
    exact fun b _ => b.toNat_lt
  have hlength : ((slice png s.pos 4).reverse.map UInt8.toNat).length ≤ 4 := by
    rw [length_map, length_reverse]
    exact length_take_le _ _
  calc s.len png < 256 ^ ((slice png s.pos 4).reverse.map UInt8.toNat).length :=
        Nat.ofDigits_lt_base_pow_length (by decide) hdigits
    _ ≤ 256 ^ 4 := Nat.pow_le_pow_right (by decide) hlength

/-- A length that overflows passes the check, since the end is then in front of the data. -/
theorem Sound.lenFits {fuel : Nat} (h : Sound png s) (hlen : png.length ≤ env.maxPng)
    (hinside : ∀ s' ∈ s.visited env png fuel, w32 (s'.pos + 12 + s'.len png) ≤ png.length →
      s'.pos + 12 + s'.len png ≤ png.length) : ∀ s' ∈ s.visited env png fuel, s'.LenFits png := by
  have hmax := env.maxPng_lt
  induction fuel generalizing s with
  | zero => nofun
  | succ fuel ih =>
    rw [visited] at hinside ⊢
    by_cases hguard : w32 (s.pos + 12) ≤ png.length
    · rw [if_pos hguard, forall_mem_cons] at hinside
      rw [if_pos hguard, forall_mem_cons]
      have hpos := h.pos
      have hlt := len_lt png s
      have hself : s.LenFits png := by
        obtain ⟨hself, -⟩ := hinside
        simp only [w32] at hguard hself
        rw [LenFits]
        omega
      refine ⟨hself, ?_⟩
      have hchunk := h.chunk hlen hguard hself
      rcases hr : s.chunk env png with e | (_ | s')
      · nofun
      · nofun
      rw [hr, ends_ok_iff] at hchunk
      simp only [hr] at hinside
      exact ih (hchunk.2 s' rfl).1 hinside.2
    · rw [if_neg hguard]
      nofun

theorem sound_start (h : 8 ≤ png.length) : Sound png start := ⟨h, Nat.zero_le _⟩

end Scan

/-! ## Filters -/

section Unfilter

variable (data : Nat → UInt8) (stride bpp y x : Nat)

/-- The bytes that the prediction of a byte is made of. -/
def left : UInt8 := if bpp ≤ x then data (y * stride + (x - bpp)) else 0

def above : UInt8 := if 0 < y then data ((y - 1) * stride + x) else 0

def aboveLeft : UInt8 := if 0 < y ∧ bpp ≤ x then data ((y - 1) * stride + (x - bpp)) else 0

def prediction (filter : UInt8) : Option UInt8 :=
  predict filter (left data stride bpp y x) (above data stride y x) (aboveLeft data stride bpp y x)

end Unfilter

section

variable {E : Stop Errno → Prop} {filtered raw : Buf UInt8} {height stride bpp y x : Nat} {filter : UInt8}

theorem ends_neighbour {Q : UInt8 → Prop} {c : Prop} [Decidable c] {b : Buf UInt8} {i : Nat} (h : c → i < b.size)
    (hQ : Q (if c then b.data i else 0)) : Ends E Q (neighbour c b i) := by
  rw [neighbour]
  split at hQ
  · rename_i hc
    rw [if_pos hc]
    exact Buf.ends_read (h hc) hQ
  rename_i hc
  rw [if_neg hc]
  exact Ends.ok hQ

/-- One byte is reconstructed from its neighbours. -/
theorem ends_unfilterByte {Q : Buf UInt8 → Prop} (hraw : raw.size = height * stride)
    (hfiltered : filtered.size = height * (stride + 1)) (hfits : height * (stride + 1) < 2 ^ 32) (hy : y < height)
    (hx : x < stride) (hnone : prediction raw.data stride bpp y x filter = none → E (.error .einval))
    (hsome : ∀ p, prediction raw.data stride bpp y x filter = some p →
      Q { raw with data := Function.update raw.data (y * stride + x) (filtered.data (y * (stride + 1) + 1 + x) + p) }) :
    Ends E Q (unfilterByte filtered stride bpp y filter x raw) := by
  have hindex : y * stride + x < height * stride := index_lt hy hx
  have hprev : (y - 1) * stride ≤ y * stride := Nat.mul_le_mul_right _ (Nat.sub_le _ _)
  have hsource : y * (stride + 1) + (x + 1) < height * (stride + 1) := index_lt hy (by omega)
  have hle : height * stride ≤ height * (stride + 1) := Nat.mul_le_mul_left _ (Nat.le_succ _)
  have hstride : stride + 1 < 2 ^ 32 :=
    Nat.lt_of_le_of_lt (Nat.le_mul_of_pos_left _ (Nat.zero_lt_of_lt hy)) hfits
  simp only [unfilterByte, w32_of_lt hstride, w32_of_lt (by omega : y * (stride + 1) < 2 ^ 32),
    w32_of_lt (by omega : y * stride < 2 ^ 32), w32_of_lt (by omega : (y - 1) * stride < 2 ^ 32)]
  refine Ends.bind (P := fun a => a = left raw.data stride bpp y x)
    (ends_neighbour (fun _ => by omega) rfl) fun a ha => ?_
  refine Ends.bind (P := fun b => b = above raw.data stride y x) (ends_neighbour (fun _ => by omega) rfl) fun b hb => ?_
  refine Ends.bind (P := fun c => c = aboveLeft raw.data stride bpp y x)
    (ends_neighbour (fun _ => by omega) rfl) fun c hc => ?_
  have hpredict : predict filter a b c = prediction raw.data stride bpp y x filter := by rw [ha, hb, hc, prediction]
  rw [hpredict]
  cases hp : prediction raw.data stride bpp y x filter with
  | none => exact .error (hnone hp)
  | some p =>
    refine Ends.bind (P := fun v => v = filtered.data (y * (stride + 1) + 1 + x))
      (Buf.ends_read (by omega) rfl) fun v hv => ?_
    rw [hv]
    exact Buf.ends_write (by omega) (hsome p hp)

theorem ends_filter {Q : UInt8 → Prop} (hfiltered : filtered.size = height * (stride + 1))
    (hfits : height * (stride + 1) < 2 ^ 32) (hy : y < height) (hQ : Q (filtered.data (y * (stride + 1)))) :
    Ends E Q (filtered.read (w32 (y * w32 (stride + 1)))) := by
  have hsource : y * (stride + 1) + 0 < height * (stride + 1) := index_lt hy (Nat.succ_pos _)
  have hstride : stride + 1 < 2 ^ 32 :=
    Nat.lt_of_le_of_lt (Nat.le_mul_of_pos_left _ (Nat.zero_lt_of_lt hy)) hfits
  rw [w32_of_lt hstride, w32_of_lt (by omega)]
  exact Buf.ends_read (by omega) hQ

/-- Whatever was uncompressed, reversing the filters stays in the two buffers. -/
theorem unfilter_noFault (hraw : raw.size = height * stride) (hfiltered : filtered.size = height * (stride + 1))
    (hfits : height * (stride + 1) < 2 ^ 32) :
    Ends NoFault (fun raw => raw.size = height * stride) (unfilter filtered height stride bpp raw) := by
  refine Ends.upTo (I := fun _ (raw : Buf UInt8) => raw.size = height * stride) hraw fun y hy raw hraw => ?_
  refine Ends.bind (P := fun _ => True) (ends_filter hfiltered hfits hy trivial) fun filter _ => ?_
  refine Ends.upTo (I := fun _ (raw : Buf UInt8) => raw.size = height * stride) hraw fun x hx raw hraw => ?_
  exact ends_unfilterByte hraw hfiltered hfits hy hx (fun _ => noFault_error _) fun p _ => hraw

end

/-! ## Pixels -/

namespace Scan

/-- The sizes of the buffers can be computed without overflow. -/
structure Fits (s : Scan) : Prop where
  row : s.width * s.bitspp + 7 < 2 ^ 32
  filtered : s.height * (s.stride + 1) < 2 ^ 32
  gray : s.width * s.height < 2 ^ 32

theorem Fits.stride {s : Scan} (h : s.Fits) : s.stride = (s.width * s.bitspp + 7) / 8 := by
  have := h.row
  rw [Scan.stride, w32_of_lt (by omega : s.width * s.bitspp < 2 ^ 32), w32_of_lt h.row]

/-- The formats that are left behind the checks. -/
def FormatOk (s : Scan) : Prop :=
  (s.colorType = 0 ∨ s.colorType = 3) ∧ (s.bitDepth = 1 ∨ s.bitDepth = 2 ∨ s.bitDepth = 4 ∨ s.bitDepth = 8) ∨
    (s.colorType = 2 ∨ s.colorType = 4 ∨ s.colorType = 6) ∧ s.bitDepth = 8

theorem ends_check {s : Scan} : Ends NoFault (fun _ => s.FormatOk) s.check := by
  refine Ends.bind (Ends.require fun _ => noFault_error _) fun _ hfirst => ?_
  refine Ends.bind (Ends.require fun _ => noFault_error _) fun _ hdepth => ?_
  refine (Ends.require fun _ => noFault_error _).mono fun _ _ => ?_
  have hchannels := hfirst.2.2.1
  simp only [depthOk] at hdepth
  split at hdepth
  · rename_i hcolor
    exact .inr ⟨hcolor, of_decide_eq_true hdepth⟩
  refine .inl ⟨?_, of_decide_eq_true hdepth⟩
  by_contra hno
  exact hchannels (by simp only [channels, if_neg hno]; rw [if_neg, if_neg, if_neg] <;> tauto)

end Scan

section Pixels

variable (s : Scan) (data : Nat → UInt8) (row x : Nat)

/-- The sample of a pixel with one channel. -/
def sampleOf : Nat :=
  if s.bitDepth = 8 then (data (row + x)).toNat
  else ((data (row + x * s.bitDepth / 8)).toNat >>> (8 - s.bitDepth - x * s.bitDepth % 8)) % 2 ^ s.bitDepth

/-- The grey value of a pixel, if it is in the palette. -/
def grayOf : Option UInt8 :=
  if s.colorType = 0 then some (scaleSample (sampleOf s data row x) s.bitDepth)
  else if s.colorType = 3 then (s.palette[sampleOf s data row x]?).map fun (r, g, b) => .ofNat (luma r g b)
  else
    let p (k : Nat) : UInt8 := data (row + x * s.channels + k)
    if s.colorType = 2 then some (.ofNat (luma (p 0) (p 1) (p 2)))
    else if s.colorType = 4 then some (overWhite (p 0).toNat (p 1))
    else some (overWhite (luma (p 0) (p 1) (p 2)) (p 3))

end Pixels

section

variable {s : Scan} {raw : Buf UInt8} {row x : Nat}

theorem read_eq {i : Nat} (h : i < raw.size) : (raw.read i : Result UInt8) = .ok (raw.data i) := if_pos h

theorem sample_eq (hfits : s.Fits) (hcolor : s.colorType = 0 ∨ s.colorType = 3)
    (hdepth : s.bitDepth = 1 ∨ s.bitDepth = 2 ∨ s.bitDepth = 4 ∨ s.bitDepth = 8) (hx : x < s.width)
    (hrow : row + s.stride ≤ raw.size) : sample s raw row x = .ok (sampleOf s raw.data row x) := by
  have hbitspp : s.bitspp = s.bitDepth := by
    rw [Scan.bitspp, Scan.channels, if_pos hcolor, Nat.one_mul]
  have hstride := hfits.stride
  have hwidth := hfits.row
  rw [hbitspp] at hstride hwidth
  have hbit : (x + 1) * s.bitDepth ≤ s.width * s.bitDepth := Nat.mul_le_mul_right _ hx
  rw [Nat.succ_mul] at hbit
  rw [sample, sampleOf]
  split
  · rename_i height
    rw [height] at hstride hbit
    rw [read_eq (by omega)]
    rfl
  simp only [getBits, w32_of_lt (by omega : x * s.bitDepth < 2 ^ 32)]
  rw [read_eq (by omega)]
  rfl

theorem channel_lt (hfits : s.Fits) (hdepth : s.bitDepth = 8) (hx : x < s.width) (hrow : row + s.stride ≤ raw.size)
    {k : Nat} (hk : k < s.channels) : x * s.channels < 2 ^ 32 ∧ row + x * s.channels + k < raw.size := by
  have hstride := hfits.stride
  have hwidth := hfits.row
  have hindex : x * s.channels + k < s.width * s.channels := index_lt hx hk
  rw [Scan.bitspp, hdepth, ← Nat.mul_assoc] at hstride hwidth
  omega

theorem ok_bind {ε α β : Type} (a : α) (f : α → Except ε β) : (Except.ok a >>= f) = f a := rfl

theorem pixel_eq (hfits : s.Fits) (hformat : s.FormatOk) (hx : x < s.width) (hrow : row + s.stride ≤ raw.size) :
    pixel s raw row x =
      match grayOf s raw.data row x with
      | none => fail .einval
      | some value => .ok value := by
  rcases hformat with ⟨hcolor, hdepth⟩ | ⟨hcolor, hdepth⟩
  · have hsample := sample_eq hfits hcolor hdepth hx hrow
    rw [pixel, grayOf, hsample]
    rcases hcolor with hcolor | hcolor
    · rw [if_pos hcolor, if_pos hcolor]
      rfl
    have hne : s.colorType ≠ 0 := by omega
    rw [if_neg hne, if_neg hne, if_pos hcolor, if_pos hcolor, ok_bind]
    cases s.palette[sampleOf s raw.data row x]? with
    | none | some => rfl
  have hread : ∀ k < s.channels,
      (raw.read (row + x * s.channels + k) : Result UInt8) = .ok (raw.data (row + x * s.channels + k)) :=
    fun k hk => read_eq (channel_lt hfits hdepth hx hrow hk).2
  have hfirst : 0 < s.channels →
      (raw.read (row + x * s.channels) : Result UInt8) = .ok (raw.data (row + x * s.channels)) :=
    fun hpos => hread 0 hpos
  have hw32 : 0 < s.channels → w32 (x * s.channels) = x * s.channels :=
    fun hpos => w32_of_lt (channel_lt hfits hdepth hx hrow hpos).1
  rcases hcolor with hcolor | hcolor | hcolor
  · have hchannels : s.channels = 3 := by simp [Scan.channels, hcolor]
    rw [hchannels] at hread hfirst hw32
    simp only [pixel, grayOf, hcolor, hchannels, hw32 (by decide), hfirst (by decide), hread 1 (by decide),
      hread 2 (by decide), ok_bind]
    rfl
  · have hchannels : s.channels = 2 := by simp [Scan.channels, hcolor]
    rw [hchannels] at hread hfirst hw32
    simp only [pixel, grayOf, hcolor, hchannels, hw32 (by decide), hfirst (by decide), hread 1 (by decide), ok_bind]
    rfl
  · have hchannels : s.channels = 4 := by simp [Scan.channels, hcolor]
    rw [hchannels] at hread hfirst hw32
    simp only [pixel, grayOf, hcolor, hchannels, hw32 (by decide), hfirst (by decide), hread 1 (by decide),
      hread 2 (by decide), hread 3 (by decide), ok_bind]
    rfl

theorem row_le {y : Nat} (hfits : s.Fits) (hraw : raw.size = s.height * s.stride) (hy : y < s.height) :
    y * s.stride + s.stride ≤ raw.size ∧ w32 (y * s.stride) = y * s.stride := by
  have hfiltered := hfits.filtered
  have hle : s.height * s.stride ≤ s.height * (s.stride + 1) := Nat.mul_le_mul_left _ (Nat.le_succ _)
  have hrow : (y + 1) * s.stride ≤ s.height * s.stride := Nat.mul_le_mul_right _ hy
  rw [Nat.succ_mul] at hrow
  exact ⟨by omega, w32_of_lt (by omega)⟩

theorem filteredLen_eq (hfits : s.Fits) : s.filteredLen = s.height * (s.stride + 1) := by
  have hrow := hfits.row
  have hstride : s.stride + 1 < 2 ^ 32 := by
    rw [hfits.stride]
    omega
  rw [Scan.filteredLen, w32_of_lt hstride, w32_of_lt hfits.filtered]

theorem convert_noFault {gray : Buf UInt8} (hfits : s.Fits) (hformat : s.FormatOk)
    (hraw : raw.size = s.height * s.stride) (hgray : gray.size = s.width * s.height) :
    Ends NoFault (fun gray => gray.size = s.width * s.height) (convert s raw gray) := by
  have hsize := hfits.gray
  refine Ends.upTo_upTo (I := fun _ (gray : Buf UInt8) => gray.size = s.width * s.height) hgray ?_
  intro y hy x hx gray hgray
  obtain ⟨hrow, hoffset⟩ := row_le hfits hraw hy
  rw [hoffset, pixel_eq hfits hformat hx hrow]
  have hindex : y * s.width + x < s.height * s.width := index_lt hy hx
  rw [Nat.mul_comm s.height] at hindex
  cases grayOf s raw.data (y * s.stride) x with
  | none => exact .error (noFault_error _)
  | some value =>
    rw [ok_bind, w32_of_lt (by omega : y * s.width < 2 ^ 32), w32_of_lt (by omega)]
    exact Buf.ends_write (by omega) hgray

end

/-- The part behind the loop over the chunks stays in its buffers if their sizes do not overflow. -/
theorem decodeScanned_noFault {env : Env} {s : Scan} (hfits : s.check = .ok () → s.Fits) :
    Ends NoFault (fun image => image.gray.size = image.width * image.height) (decodeScanned env s) := by
  have hcheck := s.ends_check
  rw [decodeScanned]
  cases hresult : s.check with
  | error e =>
    rw [hresult, ends_error_iff] at hcheck
    exact .error hcheck
  | ok u =>
    have hs := hfits hresult
    rw [hresult, ends_ok_iff] at hcheck
    have hfiltered := hs.filtered
    have hle : s.height * s.stride ≤ s.height * (s.stride + 1) := Nat.mul_le_mul_left _ (Nat.le_succ _)
    rw [ok_bind]
    refine Ends.bind (Ends.require fun _ => noFault_error _) fun _ _ => ?_
    cases env.uncompress s.idat s.filteredLen with
    | none => exact .error (noFault_error _)
    | some bytes =>
      refine Ends.bind (Ends.require fun _ => noFault_error _) fun _ hbytes => ?_
      rw [w32_of_lt (by omega : s.height * s.stride < 2 ^ 32), w32_of_lt hs.gray]
      refine Ends.bind (unfilter_noFault rfl (hbytes.trans (filteredLen_eq hs)) hfiltered) fun raw hraw => ?_
      exact Ends.bind (convert_noFault hs hcheck hraw rfl) fun gray hgray => .ok hgray

/-! ## Whole files -/

theorem Scan.chunks_mono {env : Env} {png : List UInt8} {s : Scan} {fuel more : Nat} {r : Result Scan}
    (h : s.chunks env png fuel = some r) (hle : fuel ≤ more) : s.chunks env png more = some r := by
  induction fuel generalizing s more with
  | zero => cases h
  | succ fuel ih =>
    obtain ⟨more, rfl⟩ : ∃ n, more = n + 1 := ⟨more - 1, by omega⟩
    rw [Scan.chunks] at h ⊢
    split at h
    · rename_i hguard
      rw [if_pos hguard]
      split at h
      · exact h
      · exact h
      · exact ih h (by omega)
    · rename_i hguard
      rw [if_neg hguard]
      exact h

/-- The states in which a chunk of the file is looked at. -/
def looked (env : Env) (png : List UInt8) : List Scan :=
  if png.length < 33 ∨ slice png 0 8 ≠ sig then [] else Scan.start.visited env png (png.length + 1)

/-- The loop over the chunks ends with a header that passes the checks. -/
structure HeaderOk (env : Env) (png : List UInt8) (s : Scan) : Prop where
  sig : ¬ (png.length < 33 ∨ slice png 0 8 ≠ sig)
  chunks : Scan.start.chunks env png (png.length + 1) = some (.ok s)
  check : s.check = .ok ()

/-- The chunks that are processed are in the file exactly if no length of a chunk that is looked at
makes its end overflow. Then a file of any content is decoded in a bounded number of turns, and
without an access outside of a buffer and with one grey value for each pixel if the sizes of the
buffers do not overflow. -/
theorem pngDecodeGray_safe (env : Env) (png : List UInt8) (hlen : png.length ≤ env.maxPng) :
    ((∀ s ∈ looked env png, w32 (s.pos + 12 + s.len png) ≤ png.length → s.pos + 12 + s.len png ≤ png.length) ↔
      ∀ s ∈ looked env png, s.LenFits png) ∧
    ((∀ s ∈ looked env png, s.LenFits png) →
      ∃ r, (∀ fuel > png.length, pngDecodeGray env png fuel = some r) ∧
        ((∀ s, HeaderOk env png s → s.Fits) →
          Ends NoFault (fun image => image.gray.size = image.width * image.height) r)) := by
  rw [looked]
  by_cases hsig : png.length < 33 ∨ slice png 0 8 ≠ sig
  · rw [if_pos hsig]
    exact ⟨iff_of_true nofun nofun, fun _ =>
      ⟨fail .einval, fun fuel _ => if_pos hsig, fun _ => .error (noFault_error _)⟩⟩
  have hstart : Scan.start.Sound png := Scan.sound_start (by omega)
  rw [if_neg hsig]
  refine ⟨⟨hstart.lenFits hlen, fun h s hs hcheck => ?_⟩, fun hchunks => ?_⟩
  · rwa [w32_of_lt (h s hs)] at hcheck
  obtain ⟨r, hr, hends⟩ := hstart.chunks hlen (by omega) hchunks
  refine ⟨r >>= decodeScanned env, fun fuel hfuel => ?_, fun hfits => ?_⟩
  · rw [pngDecodeGray, if_neg hsig, Scan.chunks_mono hr hfuel]
    rfl
  cases r with
  | error e => exact .error (ends_error_iff.mp hends)
  | ok s => exact decodeScanned_noFault fun hcheck => hfits s ⟨hsig, hr, hcheck⟩

/-- An environment in which two bytes can be uncompressed. -/
def twoBytes (first second : UInt8) : Env where
  maxPng := 1048576
  realloc := fun _ _ => true
  malloc := true
  uncompress := fun _ size => if 2 ≤ size then some [first, second] else none
  uncompress_le := by
    intro src size out h
    split at h <;> cases h
    assumption
  maxPng_lt := by decide

/-- A file with an image in shades of grey, of some width and one row, and one byte of compressed
data. -/
def oneRow (width : Nat) : List UInt8 :=
  sig ++ be32 13 ++ typeIHDR ++ be32 width ++ be32 1 ++ [8, 0, 0, 0, 0] ++ be32 0 ++ be32 1 ++ typeIDAT ++ [0] ++ be32 0

theorem pngDecodeGray_safe_onePixel :
    ∃ r, (∀ fuel > (oneRow 1).length, pngDecodeGray (twoBytes 0 7) (oneRow 1) fuel = some r) ∧
      Ends NoFault (fun image => image.gray.size = image.width * image.height) r := by
  obtain ⟨r, hr, hends⟩ := (pngDecodeGray_safe (twoBytes 0 7) (oneRow 1) (by decide)).2 (by decide +kernel)
  refine ⟨r, hr, hends fun s hs => ?_⟩
  cases hs.chunks
  exact ⟨by decide, by decide, by decide⟩

/-- The computation has touched something outside of a buffer. -/
def isFault {α : Type} : Result α → Bool
  | .error .fault => true
  | _ => false

/-- A file whose first chunk has the length `2 ^ 32 - 12`. -/
private def stuck : List UInt8 := sig ++ be32 0xfffffff4 ++ replicate 21 0x61

/-- The first file is never left, since its first chunk ends where it starts. In the second one a
row has one byte, but the image has a width of more than `2 ^ 29`. -/
theorem not_pngDecodeGray_safe :
    (∃ env png, png.length ≤ env.maxPng ∧ ∀ fuel, pngDecodeGray env png fuel = none) ∧
    ∃ env png fuel, png.length ≤ env.maxPng ∧ (pngDecodeGray env png fuel).any isFault = true := by
  constructor
  · refine ⟨twoBytes 0 7, stuck, by decide, fun fuel => ?_⟩
    have hloop : ∀ fuel, Scan.start.chunks (twoBytes 0 7) stuck fuel = none := by
      intro fuel
      induction fuel with
      | zero => rfl
      | succ fuel ih =>
        exact ih
    rw [pngDecodeGray, if_neg (by decide), hloop]
    rfl
  · exact ⟨twoBytes 0 7, oneRow 0x20000001, 59, by decide, by decide +kernel⟩

end System.Trmnl
