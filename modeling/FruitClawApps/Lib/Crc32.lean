-- SUMMARY: The CRC-32 of a byte array, computed in parts.
import FruitClawApps.Lib.Bytes

/-!
# CRC-32

The table-driven CRC of the library that the system provides. An entry of the table is what
eight shifts make of its index, so the table is not written out.
-/

namespace Crc32

/-- One shift of the register, with the reflected polynomial. -/
def shift (crc : Nat) : Nat := if crc &&& 1 = 1 then (crc >>> 1) ^^^ 0xedb88320 else crc >>> 1

/-- `crc32_tab`. -/
def table (i : Nat) : Nat := shift^[8] i

/-- `crc32part`, which carries the register from one part of the data to the next. -/
def crc32part (src : List UInt8) (crc : Nat) : Nat :=
  src.foldl (fun crc b => table ((crc ^^^ b.toNat) &&& 0xff) ^^^ (crc >>> 8)) crc

/-- The CRC-32 of all of the data. -/
def crc32 (data : List UInt8) : Nat := 0xffffffff ^^^ crc32part data 0xffffffff

theorem crc32part_append (a b : List UInt8) (crc : Nat) : crc32part (a ++ b) crc = crc32part b (crc32part a crc) :=
  List.foldl_append

example : crc32 [49, 50, 51, 52, 53, 54, 55, 56, 57] = 0xcbf43926 := by decide +kernel

end Crc32
