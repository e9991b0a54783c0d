-- SUMMARY: Pictures, their luminance, and the ways to write them as PNG files.
import FruitClawApps.System.Trmnl.Hostile

/-!
# Pictures and files

A picture is written as rows of bytes, with the leftmost pixel in the highest bits. Each row is
filtered, and the rows are compressed. The compressed data may be cut into chunks in any way, with
other chunks in between.
-/

namespace System.Trmnl

open Bytes Checked

/-! ## Pictures -/

/-- The bits of a sample in pictures with one channel. -/
inductive Depth where
  | one | two | four | eight
deriving DecidableEq

def Depth.bits : Depth → Nat
  | .one => 1
  | .two => 2
  | .four => 4
  | .eight => 8

/-- The colour types, with the depths that they can have. -/
inductive Format where
  | gray (depth : Depth)
  | palette (depth : Depth)
  | rgb
  | grayAlpha
  | rgba
deriving DecidableEq

namespace Format

def colorType : Format → Nat
  | .gray _ => 0
  | .rgb => 2
  | .palette _ => 3
  | .grayAlpha => 4
  | .rgba => 6

def bitDepth : Format → Nat
  | .gray depth => depth.bits
  | .palette depth => depth.bits
  | _ => 8

/-- The bytes of a row of the display. -/
def rowLength : Format → Nat
  | .gray depth => trmnlWidth * depth.bits / 8
  | .palette depth => trmnlWidth * depth.bits / 8
  | .rgb => trmnlWidth * 3
  | .grayAlpha => trmnlWidth * 2
  | .rgba => trmnlWidth * 4

/-- The distance of a byte from the same byte of the pixel to the left. -/
def pixelLength : Format → Nat
  | .rgb => 3
  | .grayAlpha => 2
  | .rgba => 4
  | _ => 1

end Format

/-- A pixel is given by its row and its column. -/
inductive Picture where
  | gray (depth : Depth) (sample : Nat → Nat → Fin (2 ^ depth.bits))
  | palette (depth : Depth) (entries : List (UInt8 × UInt8 × UInt8)) (hentries : entries.length ≤ 256)
      (index : Nat → Nat → Fin (2 ^ depth.bits)) (hindex : ∀ y x, (index y x : Nat) < entries.length)
  | rgb (color : Nat → Nat → UInt8 × UInt8 × UInt8)
  | grayAlpha (color : Nat → Nat → UInt8 × UInt8)
  | rgba (color : Nat → Nat → UInt8 × UInt8 × UInt8 × UInt8)

/-- A part of the way from white, which is 255, to a value. -/
def blend (value alpha : Nat) : Nat := (value * alpha + 255 * (255 - alpha)) / 255

/-- The luminance of a colour: 30 parts of red, 59 of green and 11 of blue. -/
def brightness (color : UInt8 × UInt8 × UInt8) : Nat :=
  (30 * color.1.toNat + 59 * color.2.1.toNat + 11 * color.2.2.toNat) / 100

/-- The luminance of a pixel. -/
def Picture.luminance : Picture → Nat → Nat → Nat
  | .gray depth sample, y, x => sample y x * (255 / (2 ^ depth.bits - 1))
  | .palette _ entries _ index hindex, y, x =>
    brightness (entries.get ⟨index y x, hindex y x⟩)
  | .rgb color, y, x => brightness (color y x)
  | .grayAlpha color, y, x => blend (color y x).1.toNat (color y x).2.toNat
  | .rgba color, y, x => blend (brightness ((color y x).1, (color y x).2.1, (color y x).2.2.1)) (color y x).2.2.2.toNat

/-! ## Filters -/

/-- The filter types of the PNG format. -/
inductive Filter where
  | none | sub | up | average | paeth
deriving DecidableEq

/-- The byte in front of a filtered row. -/
def Filter.code : Filter → UInt8
  | .none => 0
  | .sub => 1
  | .up => 2
  | .average => 3
  | .paeth => 4

/-- Which of three values is nearest to `a + b - c`. The first one counts if several are. -/
def paethPredictor (a b c : Nat) : Nat :=
  let dist (v : Nat) : Nat := ((a : Int) + b - c - v).natAbs
  if dist a ≤ min (dist b) (dist c) then a else if dist b ≤ dist c then b else c

/-- What a filter takes from a byte, given the bytes to the left, above, and above to the left. -/
def Filter.predict : Filter → Nat → Nat → Nat → Nat
  | .none, _, _, _ => 0
  | .sub, a, _, _ => a
  | .up, _, b, _ => b
  | .average, a, b, _ => (a + b) / 2
  | .paeth, a, b, c => paethPredictor a b c

/-! ## Rows -/

/-- The byte of a row that holds the samples from `j * (8 / bits)` on. -/
def packByte (bits : Nat) (sample : Nat → Nat) (j : Nat) : UInt8 :=
  .ofNat ((List.range (8 / bits)).foldl (fun acc k => acc * 2 ^ bits + sample (j * (8 / bits) + k)) 0)

namespace Picture

def format : Picture → Format
  | .gray depth _ => .gray depth
  | .palette depth .. => .palette depth
  | .rgb .. => .rgb
  | .grayAlpha .. => .grayAlpha
  | .rgba .. => .rgba

/-- The bytes of a row. -/
def rowByte : Picture → Nat → Nat → UInt8
  | .gray depth sample, y, j => packByte depth.bits (fun x => sample y x) j
  | .palette depth _ _ index _, y, j => packByte depth.bits (fun x => index y x) j
  | .rgb color, y, j =>
    let c := color y (j / 3)
    if j % 3 = 0 then c.1 else if j % 3 = 1 then c.2.1 else c.2.2
  | .grayAlpha color, y, j =>
    let c := color y (j / 2)
    if j % 2 = 0 then c.1 else c.2
  | .rgba color, y, j =>
    let c := color y (j / 4)
    if j % 4 = 0 then c.1 else if j % 4 = 1 then c.2.1 else if j % 4 = 2 then c.2.2.1 else c.2.2.2

variable (pic : Picture)

/-- The rows, one behind the other. -/
def raw (i : Nat) : UInt8 := pic.rowByte (i / pic.format.rowLength) (i % pic.format.rowLength)

/-- The byte some rows above and some pixels to the left, or 0 if that is not in the picture. -/
def before (rows pixels y x : Nat) : Nat :=
  if rows ≤ y ∧ pixels * pic.format.pixelLength ≤ x then
    (pic.rowByte (y - rows) (x - pixels * pic.format.pixelLength)).toNat
  else 0

/-- A filtered row: the filter, and what is left of each byte. -/
def filteredByte (filter : Nat → Filter) (y : Nat) : Nat → UInt8
  | 0 => (filter y).code
  | x + 1 => pic.rowByte y x -
    .ofNat ((filter y).predict (pic.before 0 1 y x) (pic.before 1 0 y x) (pic.before 1 1 y x))

/-- The data to compress. -/
def filtered (filter : Nat → Filter) : List UInt8 :=
  (List.range (trmnlHeight * (pic.format.rowLength + 1))).map fun i =>
    pic.filteredByte filter (i / (pic.format.rowLength + 1)) (i % (pic.format.rowLength + 1))

end Picture

/-! ## Chunks -/

structure Chunk where
  type : List UInt8
  data : List UInt8
  crc : List UInt8
  type_length : type.length = 4
  crc_length : crc.length = 4

namespace Chunk

def encode (c : Chunk) : List UInt8 := be32 c.data.length ++ (c.type ++ (c.data ++ c.crc))

@[simp] theorem length_encode (c : Chunk) : c.encode.length = 12 + c.data.length := by
  simp only [encode, List.length_append, length_be32, c.type_length, c.crc_length]
  omega

/-- Chunks between the first and the last one. A palette has at most 256 entries. -/
def Between (c : Chunk) : Prop :=
  c.type ≠ typeIHDR ∧ c.type ≠ typeIEND ∧ (c.type = typePLTE → c.data.length % 3 = 0 ∧ c.data.length / 3 ≤ 256)

/-- The data of a chunk of compressed data. -/
def idat (c : Chunk) : List UInt8 := if c.type = typeIDAT then c.data else []

end Chunk

/-- The first chunk. -/
def headerData (pic : Picture) : List UInt8 :=
  be32 trmnlWidth ++ (be32 trmnlHeight ++ [.ofNat pic.format.bitDepth, .ofNat pic.format.colorType, 0, 0, 0])

/-- The data of a palette chunk. -/
def paletteData (entries : List (UInt8 × UInt8 × UInt8)) : List UInt8 := entries.flatMap fun (r, g, b) => [r, g, b]

/-- The chunks are those of the picture: they start and end as they should, the compressed data is
put together from the parts in between, and the last palette is that of a picture with a palette. -/
structure Written (pic : Picture) (compressed : List UInt8) (first : Chunk) (between : List Chunk) (last : Chunk) :
    Prop where
  first_type : first.type = typeIHDR
  first_data : first.data = headerData pic
  last_type : last.type = typeIEND
  between_ok : ∀ c ∈ between, c.Between
  data : between.flatMap Chunk.idat = compressed
  palette : ∀ depth entries hentries index hindex, pic = .palette depth entries hentries index hindex →
    ∃ before c after, between = before ++ c :: after ∧ c.type = typePLTE ∧ c.data = paletteData entries ∧
      ∀ c' ∈ after, c'.type ≠ typePLTE

/-- The bytes of a file, with anything behind the last chunk. -/
def file (first : Chunk) (between : List Chunk) (last : Chunk) (rest : List UInt8) : List UInt8 :=
  sig ++ (first.encode ++ (between.flatMap Chunk.encode ++ (last.encode ++ rest)))

end System.Trmnl
