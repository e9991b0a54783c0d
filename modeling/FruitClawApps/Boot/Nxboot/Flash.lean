-- SUMMARY: The flash of the bootloader: slots, and operations that power can fail between.
import FruitClawApps.Lib.Bytes
import FruitClawApps.Lib.Crash

/-!
# The flash of the bootloader

`boot/nxboot/loader/flash.c` reads and writes partitions within their bounds. A write and the
erasure of a sector are single operations. A driver that fails is not modelled.
-/

namespace Boot.Nxboot

open Bytes Crash

/-- `OK` and `ERROR`. -/
inductive Result where
  | ok | error
deriving DecidableEq

/-- A partition with the geometry that the driver reports. The size is that of all erase
sectors, and it is an `int`. -/
structure Partition where
  blocksize : Nat
  erasesize : Nat
  bytes : List UInt8
  block_pos : 0 < blocksize
  erase_pos : 0 < erasesize
  whole_blocks : blocksize ∣ erasesize
  whole_sectors : erasesize ∣ bytes.length
  int_size : bytes.length < 2 ^ 31
deriving DecidableEq

namespace Partition

variable (p : Partition)

def size : Nat := p.bytes.length

/-- The partition with other bytes, if they are as many. -/
def setBytes (bytes : List UInt8) : Partition :=
  if h : bytes.length = p.bytes.length then
    { p with
      bytes := bytes
      whole_sectors := h ▸ p.whole_sectors
      int_size := h ▸ p.int_size }
  else p

/-- `flash_partition_read`. -/
def read (count off : Nat) : Option (List UInt8) :=
  if count + off > p.size then none else some (slice p.bytes off count)

/-- What `flash_partition_write` leaves, if it is within bounds. -/
def write (data : List UInt8) (off : Nat) : Option Partition :=
  if data.length + off > p.size then none else some (p.setBytes (splice p.bytes off data))

/-- `flash_partition_erase_first_sector`. -/
def eraseFirstSector : Partition :=
  p.setBytes (overlay (List.replicate p.erasesize 0xff) p.bytes p.erasesize)

variable {p : Partition} {bytes other : List UInt8}

@[simp] theorem setBytes_blocksize : (p.setBytes bytes).blocksize = p.blocksize := by
  unfold setBytes
  split <;> rfl

@[simp] theorem setBytes_size : (p.setBytes bytes).size = p.size := by
  unfold setBytes size
  split
  · assumption
  · rfl

theorem setBytes_bytes (h : bytes.length = p.size) : (p.setBytes bytes).bytes = bytes := by
  have hlen : bytes.length = p.bytes.length := h
  rw [setBytes, dif_pos hlen]

theorem setBytes_setBytes (h : bytes.length = p.size) (hother : other.length = p.size) :
    (p.setBytes bytes).setBytes other = p.setBytes other := by
  have hlen : bytes.length = p.bytes.length := h
  have hlen' : other.length = p.bytes.length := hother
  simp [setBytes, hlen, hlen']

theorem setBytes_self : p.setBytes p.bytes = p := by
  rw [setBytes, dif_pos rfl]

@[simp] theorem eraseFirstSector_blocksize : p.eraseFirstSector.blocksize = p.blocksize := setBytes_blocksize

@[simp] theorem eraseFirstSector_size : p.eraseFirstSector.size = p.size := setBytes_size

end Partition

/-! ## Slots -/

inductive Slot where
  | primary | secondary | tertiary
deriving DecidableEq

/-- `NXBOOT_PRIMARY_SLOT_NUM` and the others. -/
def Slot.num : Slot → Nat
  | .primary => 0
  | .secondary => 1
  | .tertiary => 2

theorem Slot.num_inj {s t : Slot} : s.num = t.num ↔ s = t := by
  cases s <;> cases t <;> decide

instance Slot.decidableForall {P : Slot → Prop} [∀ s, Decidable (P s)] : Decidable (∀ s, P s) :=
  decidable_of_iff (P .primary ∧ P .secondary ∧ P .tertiary)
    ⟨fun ⟨hp, hs, ht⟩ s => Slot.casesOn s hp hs ht, fun h => ⟨h _, h _, h _⟩⟩

structure Flash where
  primary : Partition
  secondary : Partition
  tertiary : Partition
deriving DecidableEq

namespace Flash

def get (σ : Flash) : Slot → Partition
  | .primary => σ.primary
  | .secondary => σ.secondary
  | .tertiary => σ.tertiary

def set (σ : Flash) (s : Slot) (p : Partition) : Flash :=
  match s with
  | .primary => { σ with primary := p }
  | .secondary => { σ with secondary := p }
  | .tertiary => { σ with tertiary := p }

variable {σ : Flash} {s t : Slot} {p q : Partition}

@[simp] theorem get_set_self : (σ.set s p).get s = p := by
  cases s <;> rfl

theorem get_set_of_ne (h : t ≠ s) : (σ.set s p).get t = σ.get t := by
  cases s <;> cases t <;> first | rfl | exact absurd rfl h

theorem get_set : (σ.set s p).get t = if t = s then p else σ.get t := by
  split
  · subst t
    exact get_set_self
  · exact get_set_of_ne ‹_›

@[simp] theorem set_set : (σ.set s p).set s q = σ.set s q := by
  cases s <;> rfl

@[simp] theorem set_get : σ.set s (σ.get s) = σ := by
  cases s <;> rfl

end Flash

/-! ## Operations -/

def flashPartitionRead (s : Slot) (count off : Nat) : Prog Flash (Option (List UInt8)) := do
  return ((← Crash.get).get s).read count off

def flashPartitionWrite (s : Slot) (data : List UInt8) (off : Nat) : Prog Flash Result := do
  match ((← Crash.get).get s).write data off with
  | none => return .error
  | some p =>
    modify (·.set s p)
    return .ok

def flashPartitionEraseFirstSector (s : Slot) : Prog Flash Unit :=
  modify fun σ => σ.set s (σ.get s).eraseFirstSector

end Boot.Nxboot
