-- SUMMARY: The PNG decoder of the display client, in 32 bits with checked memory.
import FruitClawApps.Lib.Bytes
import FruitClawApps.Lib.Checked

/-!
# Decoding PNG files

`trmnl_png_decode_gray` in `system/trmnl/trmnl_main.c` collects the compressed data of the chunks,
lets zlib uncompress it, reverses the filters and converts each pixel to a grey value. `size_t`,
`unsigned int` and `long` have 32 bits.
-/

namespace System.Trmnl

open Bytes Checked

inductive Errno where
  | einval | enotsup | enospc | enomem
deriving DecidableEq

abbrev Result (α : Type) : Type := Except (Stop Errno) α

def fail {α : Type} (e : Errno) : Result α := .error (.error e)

/-- The value of an unsigned 32-bit expression. -/
def w32 (n : Nat) : Nat := n % 2 ^ 32

/-- What the decoder does not decide: how much memory there is, and what zlib makes of the data. -/
structure Env where
  /-- `CONFIG_SYSTEM_TRMNL_MAX_PNG`. -/
  maxPng : Nat
  /-- Whether the compressed data of the chunk at a position gets a buffer of the size it needs. -/
  realloc : Nat → Nat → Bool
  /-- Whether the three buffers of the image are there. -/
  malloc : Bool
  /-- `uncompress` into a buffer of a given size, if it returns `Z_OK`. -/
  uncompress : List UInt8 → Nat → Option (List UInt8)
  uncompress_le : ∀ src size out, uncompress src size = some out → out.length ≤ size
  maxPng_lt : maxPng + 4096 < 2 ^ 32

/-- Bytes of the file. -/
def load (png : List UInt8) (off n : Nat) : Result (List UInt8) := do
  require (off + n ≤ png.length) .fault
  return slice png off n

/-! ## Chunks -/

def sig : List UInt8 := [0x89, 0x50, 0x4e, 0x47, 0x0d, 0x0a, 0x1a, 0x0a]

def typeIHDR : List UInt8 := [0x49, 0x48, 0x44, 0x52]
def typePLTE : List UInt8 := [0x50, 0x4c, 0x54, 0x45]
def typeIDAT : List UInt8 := [0x49, 0x44, 0x41, 0x54]
def typeIEND : List UInt8 := [0x49, 0x45, 0x4e, 0x44]

/-- The variables of the loop over the chunks. -/
structure Scan where
  pos : Nat
  width : Nat
  height : Nat
  bitDepth : Nat
  colorType : Nat
  /-- The first `palette_entries` entries of the palette. -/
  palette : List (UInt8 × UInt8 × UInt8)
  /-- The first `idat_len` bytes of `idat`. -/
  idat : List UInt8
  idatCap : Nat
deriving DecidableEq

namespace Scan

def start : Scan := ⟨8, 0, 0, 0, 0, [], [], 0⟩

variable (png : List UInt8) (s : Scan)

/-- The length field of the chunk. -/
def len : Nat := beNat (slice png s.pos 4)

/-- The entries of a palette. -/
def entries : List UInt8 → List (UInt8 × UInt8 × UInt8)
  | r :: g :: b :: rest => (r, g, b) :: entries rest
  | _ => []

/-- The `IHDR` chunk. -/
def takeHeader : Result Scan := do
  require (s.len png = 13) (.error .einval)
  let data ← load png (w32 (s.pos + 8)) 13
  require (data.getD 10 0 = 0 ∧ data.getD 11 0 = 0 ∧ data.getD 12 0 = 0) (.error .enotsup)
  return { s with
    width := beNat (slice data 0 4), height := beNat (slice data 4 4)
    bitDepth := (data.getD 8 0).toNat, colorType := (data.getD 9 0).toNat }

/-- The `PLTE` chunk. -/
def takePalette : Result Scan := do
  require (s.len png % 3 = 0 ∧ s.len png / 3 ≤ 256) (.error .einval)
  let data ← load png (w32 (s.pos + 8)) (s.len png)
  return { s with palette := entries data }

/-- The `IDAT` chunk: the buffer grows if it has to, and the data is copied behind the other. -/
def takeData (env : Env) (png : List UInt8) (s : Scan) : Result Scan := do
  let need := w32 (s.idat.length + s.len png)
  require (need ≤ env.maxPng) (.error .enospc)
  let cap := if s.idatCap < need then w32 (need + 4096) else s.idatCap
  require (s.idatCap < need → env.realloc s.pos cap = true) (.error .enomem)
  let data ← load png (w32 (s.pos + 8)) (s.len png)
  require (s.idat.length + data.length ≤ cap) .fault
  return { s with idat := s.idat ++ data, idatCap := cap }

/-- What a chunk that is not the last one is good for. -/
def take (env : Env) (png : List UInt8) (s : Scan) (type : List UInt8) : Result Scan :=
  if type = typeIHDR then takeHeader png s
  else if type = typePLTE then takePalette png s
  else if type = typeIDAT then takeData env png s
  else .ok s

/-- One chunk: the state behind it, or none at the end of the image. -/
def chunk (env : Env) (png : List UInt8) (s : Scan) : Result (Option Scan) := do
  let _ ← load png s.pos 4
  require (w32 (s.pos + 12 + s.len png) ≤ png.length) (.error .einval)
  let type ← load png (w32 (s.pos + 4)) 4
  if type = typeIEND then return none
  else
    let s' ← s.take env png type
    return some { s' with pos := w32 (s.pos + w32 (12 + s.len png)) }

/-- `while (pos + 12 <= png_len)`. There is no result if the loop does not end within some turns. -/
def chunks (env : Env) (png : List UInt8) : Nat → Scan → Option (Result Scan)
  | 0, _ => none
  | fuel + 1, s =>
    if w32 (s.pos + 12) ≤ png.length then
      match s.chunk env png with
      | .error e => some (.error e)
      | .ok none => some (.ok s)
      | .ok (some s) => chunks env png fuel s
    else some (.ok s)

variable (s : Scan)

/-- `trmnl_png_channels`. -/
def channels : Nat :=
  if s.colorType = 0 ∨ s.colorType = 3 then 1
  else if s.colorType = 2 then 3
  else if s.colorType = 4 then 2
  else if s.colorType = 6 then 4
  else 0

/-- The depths that are supported. -/
def depthOk : Bool :=
  if s.colorType = 2 ∨ s.colorType = 4 ∨ s.colorType = 6 then s.bitDepth = 8
  else s.bitDepth = 1 ∨ s.bitDepth = 2 ∨ s.bitDepth = 4 ∨ s.bitDepth = 8

/-- The checks behind the loop. -/
def check : Result Unit := do
  require (s.width ≠ 0 ∧ s.height ≠ 0 ∧ s.channels ≠ 0 ∧ s.idat.length ≠ 0) (.error .einval)
  require (s.depthOk = true) (.error .enotsup)
  require (s.colorType = 3 → s.palette.length ≠ 0) (.error .einval)

def bitspp : Nat := s.channels * s.bitDepth

def stride : Nat := w32 (w32 (s.width * s.bitspp) + 7) / 8

def bppFilter : Nat := if 8 ≤ s.bitspp then s.bitspp / 8 else 1

def filteredLen : Nat := w32 (s.height * w32 (s.stride + 1))

end Scan

/-! ## Filters -/

/-- What a filter adds to a byte, from the bytes to the left, above, and above to the left. -/
def predict (filter : UInt8) (a b c : UInt8) : Option UInt8 :=
  if filter = 0 then some 0
  else if filter = 1 then some a
  else if filter = 2 then some b
  else if filter = 3 then some (.ofNat ((a.toNat + b.toNat) / 2))
  else if filter = 4 then
    let p : Int := (a.toNat : Int) + b.toNat - c.toNat
    let pa := (p - a.toNat).natAbs
    let pb := (p - b.toNat).natAbs
    let pc := (p - c.toNat).natAbs
    some (if pa ≤ pb ∧ pa ≤ pc then a else if pb ≤ pc then b else c)
  else none

/-- A byte that counts as 0 if it is not in the image. -/
def neighbour (c : Prop) [Decidable c] (b : Buf UInt8) (i : Nat) : Result UInt8 := if c then b.read i else .ok 0

/-- The body of the inner loop of `trmnl_png_unfilter`. -/
def unfilterByte (filtered : Buf UInt8) (stride bpp y : Nat) (filter : UInt8) (x : Nat) (raw : Buf UInt8) :
    Result (Buf UInt8) := do
  let dst := w32 (y * stride)
  let prev := w32 ((y - 1) * stride)
  let a ← neighbour (bpp ≤ x) raw (dst + (x - bpp))
  let b ← neighbour (0 < y) raw (prev + x)
  let c ← neighbour (0 < y ∧ bpp ≤ x) raw (prev + (x - bpp))
  match predict filter a b c with
  | none => fail .einval
  | some p =>
    let v ← filtered.read (w32 (y * w32 (stride + 1)) + 1 + x)
    raw.write (dst + x) (v + p)

/-- `trmnl_png_unfilter`. -/
def unfilter (filtered : Buf UInt8) (height stride bpp : Nat) (raw : Buf UInt8) : Result (Buf UInt8) :=
  upTo height (fun y raw => do
    let filter ← filtered.read (w32 (y * w32 (stride + 1)))
    upTo stride (unfilterByte filtered stride bpp y filter) raw) raw

/-! ## Pixels -/

/-- `trmnl_png_get_bits` in the row that starts at an offset. -/
def getBits (raw : Buf UInt8) (row x bits : Nat) : Result Nat := do
  let bit := w32 (x * bits)
  let byte ← raw.read (row + bit / 8)
  return (byte.toNat >>> (8 - bits - bit % 8)) % 2 ^ bits

/-- `trmnl_scale_sample`. -/
def scaleSample (value bits : Nat) : UInt8 :=
  if bits = 8 then .ofNat value else .ofNat (value * 255 / (2 ^ bits - 1))

/-- The weights of the colours. -/
def luma (r g b : UInt8) : Nat := (r.toNat * 30 + g.toNat * 59 + b.toNat * 11) / 100

/-- A value with an alpha channel, over white. -/
def overWhite (value : Nat) (alpha : UInt8) : UInt8 :=
  .ofNat ((value * alpha.toNat + 255 * (255 - alpha.toNat)) / 255)

/-- A sample of an image with one channel. -/
def sample (s : Scan) (raw : Buf UInt8) (row x : Nat) : Result Nat :=
  if s.bitDepth = 8 then return (← raw.read (row + x)).toNat else getBits raw row x s.bitDepth

/-- The grey value of a pixel. -/
def pixel (s : Scan) (raw : Buf UInt8) (row x : Nat) : Result UInt8 :=
  if s.colorType = 0 then return scaleSample (← sample s raw row x) s.bitDepth
  else if s.colorType = 3 then do
    let idx ← sample s raw row x
    match s.palette[idx]? with
    | none => fail .einval
    | some (r, g, b) => return .ofNat (luma r g b)
  else if s.colorType = 2 then do
    let p := row + w32 (x * 3)
    return .ofNat (luma (← raw.read p) (← raw.read (p + 1)) (← raw.read (p + 2)))
  else if s.colorType = 4 then do
    let p := row + w32 (x * 2)
    return overWhite (← raw.read p).toNat (← raw.read (p + 1))
  else do
    let p := row + w32 (x * 4)
    return overWhite (luma (← raw.read p) (← raw.read (p + 1)) (← raw.read (p + 2))) (← raw.read (p + 3))

/-- The loops over the pixels. -/
def convert (s : Scan) (raw gray : Buf UInt8) : Result (Buf UInt8) :=
  upTo s.height (fun y gray => upTo s.width (fun x gray => do
    let value ← pixel s raw (w32 (y * s.stride)) x
    gray.write (w32 (w32 (y * s.width) + x)) value) gray) gray

/-- `struct trmnl_png`. -/
structure Image where
  width : Nat
  height : Nat
  gray : Buf UInt8

/-- Memory that was just allocated. What is in it does not matter. -/
def allocated (size : Nat) : Buf UInt8 := ⟨size, fun _ => 0⟩

def bufOf (bytes : List UInt8) : Buf UInt8 := ⟨bytes.length, fun i => bytes.getD i 0⟩

/-- The part of `trmnl_png_decode_gray` behind the loop over the chunks. -/
def decodeScanned (env : Env) (s : Scan) : Result Image := do
  s.check
  require (env.malloc = true) (.error .enomem)
  match env.uncompress s.idat s.filteredLen with
  | none => fail .einval
  | some bytes =>
    require (bytes.length = s.filteredLen) (.error .einval)
    let raw ← unfilter (bufOf bytes) s.height s.stride s.bppFilter (allocated (w32 (s.height * s.stride)))
    let gray ← convert s raw (allocated (w32 (s.width * s.height)))
    return ⟨s.width, s.height, gray⟩

/-- `trmnl_png_decode_gray`, if its first loop ends within some turns. -/
def pngDecodeGray (env : Env) (png : List UInt8) (fuel : Nat) : Option (Result Image) :=
  if png.length < 33 ∨ slice png 0 8 ≠ sig then some (fail .einval)
  else (Scan.start.chunks env png fuel).map fun r => r >>= decodeScanned env

/-! ## Packing -/

abbrev trmnlWidth : Nat := 800
abbrev trmnlHeight : Nat := 480

/-- `TRMNL_Y2_STRIDE`. -/
abbrev y2Stride : Nat := trmnlWidth / 4

/-- `TRMNL_Y2_BYTES`. -/
abbrev y2Bytes : Nat := y2Stride * trmnlHeight

/-- One of four levels. -/
def level (gray : UInt8) : Nat := (gray.toNat * 3 + 127) / 255

/-- The shift of the field of a pixel in its byte. -/
def fieldShift (x : Nat) : Nat := (3 - x % 4) * 2

/-- `trmnl_pack_y2`. -/
def packY2 (gray : Buf UInt8) : Result (Buf UInt8) :=
  upTo trmnlHeight (fun y dst => upTo trmnlWidth (fun x dst => do
    let i := y * y2Stride + x / 4
    let value ← gray.read (y * trmnlWidth + x)
    let old ← dst.read i
    dst.write i (old ||| .ofNat (level value <<< fieldShift x))) dst) (allocated y2Bytes)

end System.Trmnl
