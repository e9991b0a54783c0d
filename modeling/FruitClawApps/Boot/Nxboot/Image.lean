-- SUMMARY: Image headers and their validation, and exactly when it is sound.
import FruitClawApps.Lib.Crc32
import FruitClawApps.Boot.Nxboot.Flash

/-!
# Images and their validation

An image begins with a header of 128 bytes. The CRC in it covers everything behind it. The
length of the image is the sum of two header fields, computed in 32 bits and kept in an `int`,
and the CRC computation reports its failures as CRC values.
-/

namespace Boot.Nxboot

open Bytes Crc32

/-- The configuration: `CONFIG_NXBOOT_PLATFORM_IDENTIFIER` and `CONFIG_NXBOOT_PREVENT_DOWNGRADE`. -/
structure Config where
  identifier : Nat
  preventDowngrade : Bool

/-- `NXBOOT_HEADER_MAGIC`. -/
def headerMagic : Nat := 0x534f584e

/-- `NXBOOT_HEADER_MAGIC_INT`. -/
def headerMagicInt : Nat := 0xaca0abb0

/-- `IS_INTERNAL_MAGIC`. -/
def isInternalMagic (magic : Nat) : Bool := magic &&& 0xfffffff0 = headerMagicInt

/-! ## Headers -/

/-- `struct nxboot_img_version`. -/
structure Version where
  major : Nat
  minor : Nat
  patch : Nat
  preRelease : List UInt8
deriving DecidableEq

/-- The fields of `struct nxboot_img_header` that the loader reads. -/
structure Header where
  magic : Nat
  headerSize : Nat
  crc : Nat
  size : Nat
  identifier : Nat
  version : Version
deriving DecidableEq

/-- `sizeof(struct nxboot_img_header)`. -/
def headerLength : Nat := 128

/-- The offset of what the CRC covers. -/
def crcEnd : Nat := 12

def Header.decode (buf : List UInt8) : Header where
  magic := leNat (slice buf 0 4)
  headerSize := leNat (slice buf 6 2)
  crc := leNat (slice buf 8 4)
  size := leNat (slice buf 12 4)
  identifier := leNat (slice buf 16 8)
  version := ⟨leNat (slice buf 28 2), leNat (slice buf 30 2), leNat (slice buf 32 2), slice buf 34 94⟩

/-- The length of the image, in unbounded numbers. -/
def Header.extent (h : Header) : Nat := h.headerSize + h.size

/-- `get_image_header`. A partition that cannot be read counts as empty. -/
@[irreducible] def getImageHeader (p : Partition) : Header :=
  .decode ((p.read headerLength 0).getD (List.replicate headerLength 0))

def validateImageHeader (cfg : Config) (h : Header) : Bool :=
  (h.magic == headerMagic || isInternalMagic h.magic) && h.identifier == cfg.identifier

/-! ## The CRC -/

/-- The loop of `calculate_crc`. There is no result if a read fails. -/
def crcLoop (p : Partition) : Nat → Nat → Nat → Nat → Option Nat
  | 0, _, _, crc => some crc
  | fuel + 1, off, remain, crc =>
    if remain = 0 then some crc
    else
      let readsiz := if remain > p.blocksize then p.blocksize else remain
      match p.read readsiz off with
      | none => none
      | some buf => crcLoop p fuel (off + readsiz) (remain - readsiz) (crc32part buf crc)

/-- `calculate_crc`. It is `ready` if the geometry is known and the buffer was allocated. -/
def calculateCrc (ready : Bool) (p : Partition) (h : Header) : Nat :=
  if !ready then 0
  else
    -- the sum of the fields has 32 bits, and it goes to an `int`
    let remain := ((h.size + h.headerSize : Int) - crcEnd).bmod (2 ^ 32)
    match crcLoop p remain.toNat crcEnd remain.toNat 0xffffffff with
    | none => 0xffffffff
    | some crc => 0xffffffff ^^^ crc

@[irreducible] def validateImage (cfg : Config) (ready : Bool) (p : Partition) : Bool :=
  let h := getImageHeader p
  validateImageHeader cfg h && calculateCrc ready p h == h.crc

/-- The loop takes all bytes in its way, or it fails at the end of the partition. -/
theorem crcLoop_eq (p : Partition) {fuel remain : Nat} (hfuel : remain ≤ fuel) (off crc : Nat) :
    crcLoop p fuel off remain crc =
      if remain = 0 ∨ off + remain ≤ p.size then some (crc32part (slice p.bytes off remain) crc) else none := by
  induction fuel generalizing off remain crc with
  | zero =>
    obtain rfl : remain = 0 := Nat.le_zero.mp hfuel
    simp [crcLoop, slice, crc32part]
  | succ fuel ih =>
    rw [crcLoop]
    by_cases hzero : remain = 0
    · simp [hzero, slice, crc32part]
    obtain ⟨n, hn⟩ : ∃ n, n = if remain > p.blocksize then p.blocksize else remain := ⟨_, rfl⟩
    have hle : 0 < n ∧ n ≤ remain := by
      have := p.block_pos
      split at hn <;> omega
    simp only [if_neg hzero, ← hn, Partition.read]
    by_cases hread : n + off > p.size
    · rw [if_pos hread, if_neg (by omega)]
    rw [if_neg hread]
    dsimp only
    rw [ih (by omega), ← crc32part_append, slice_append_slice, Nat.add_sub_cancel' hle.2]
    refine if_congr ?_ rfl rfl
    omega

theorem calculateCrc_eq (p : Partition) (h : Header) :
    calculateCrc true p h =
      let remain := ((h.extent : Int) - crcEnd).bmod (2 ^ 32)
      if 0 < remain ∧ p.size < crcEnd + remain.toNat then 0xffffffff
      else 0xffffffff ^^^ crc32part (slice p.bytes crcEnd remain.toNat) 0xffffffff := by
  have hsum : (h.size + h.headerSize : Int) = (h.extent : Int) := by
    rw [Header.extent]
    omega
  simp only [calculateCrc, hsum, crcLoop_eq p (Nat.le_refl _), Bool.not_true, Bool.false_eq_true, if_false]
  split
  · rename_i hloop
    split at hloop
    · cases hloop
    · rw [if_pos (by omega)]
  rename_i hloop
  split at hloop
  · cases hloop
    rw [if_neg (by omega)]
  · cases hloop

/-! ## Soundness -/

section

variable (cfg : Config) (ready : Bool) (p : Partition) (h : Header)

/-- What a validated image has to be. -/
def Sound : Prop :=
  crcEnd < h.extent ∧ h.extent ≤ p.size ∧ crc32 (slice p.bytes crcEnd (h.extent - crcEnd)) = h.crc

/-- The headers that are taken for those of an image although they are not: no CRC could be
computed and the field is zero; the length is too small or negative and the field is zero, the
CRC of nothing; the length is too large and the field is that of a failed read; or the length
has wrapped around and the field is the CRC of a smaller part. -/
def Misleads : Prop :=
  let length := h.extent % 2 ^ 32
  (ready = false ∧ h.crc = 0 ∧ ¬ Sound p h) ∨
    (ready = true ∧
      (((length ≤ crcEnd ∨ 2 ^ 31 + crcEnd ≤ length) ∧ h.crc = 0) ∨
        (crcEnd < length ∧ length < 2 ^ 31 + crcEnd ∧ p.size < length ∧ h.crc = 0xffffffff) ∨
        (2 ^ 32 ≤ h.extent ∧ crcEnd < length ∧ length ≤ p.size ∧
          crc32 (slice p.bytes crcEnd (length - crcEnd)) = h.crc)))

end

section

variable {cfg : Config} {ready : Bool} {p : Partition} {h : Header}

theorem bmod_of_short (hshort : h.extent % 2 ^ 32 ≤ crcEnd ∨ 2 ^ 31 + crcEnd ≤ h.extent % 2 ^ 32) :
    (((h.extent : Int) - crcEnd).bmod (2 ^ 32)).toNat = 0 ∧ ¬ 0 < ((h.extent : Int) - crcEnd).bmod (2 ^ 32) := by
  simp only [crcEnd, Int.bmod] at *
  omega

theorem bmod_of_long (hlong : crcEnd < h.extent % 2 ^ 32) (hint : h.extent % 2 ^ 32 < 2 ^ 31 + crcEnd) :
    ((h.extent : Int) - crcEnd).bmod (2 ^ 32) = ((h.extent % 2 ^ 32 - crcEnd : Nat) : Int) := by
  simp only [crcEnd, Int.bmod] at *
  omega

theorem calculateCrc_of_short (hshort : h.extent % 2 ^ 32 ≤ crcEnd ∨ 2 ^ 31 + crcEnd ≤ h.extent % 2 ^ 32) :
    calculateCrc true p h = 0 := by
  obtain ⟨hzero, hneg⟩ := bmod_of_short hshort
  rw [calculateCrc_eq]
  simp only [hzero, hneg, false_and, if_false, slice, List.take_zero]
  rfl

theorem calculateCrc_of_long (hlong : crcEnd < h.extent % 2 ^ 32) (hint : h.extent % 2 ^ 32 < 2 ^ 31 + crcEnd) :
    calculateCrc true p h =
      if p.size < h.extent % 2 ^ 32 then 0xffffffff
      else crc32 (slice p.bytes crcEnd (h.extent % 2 ^ 32 - crcEnd)) := by
  rw [calculateCrc_eq, bmod_of_long hlong hint]
  refine if_congr ?_ rfl rfl
  omega

/-- The computation takes a header in by exactly the ways of `Misleads`. -/
theorem calculateCrc_misleads_iff : (calculateCrc ready p h = h.crc ∧ ¬ Sound p h) ↔ Misleads ready p h := by
  have hsize := p.int_size
  change p.size < _ at hsize
  cases ready with
  | false => simp [Misleads, calculateCrc, eq_comm]
  | true =>
    simp only [Misleads, Bool.true_eq_false, false_and, false_or, true_and]
    by_cases hshort : h.extent % 2 ^ 32 ≤ crcEnd ∨ 2 ^ 31 + crcEnd ≤ h.extent % 2 ^ 32
    · have hunsound : ¬ Sound p h := by
        rintro ⟨hmin, hmax, -⟩
        omega
      rw [calculateCrc_of_short hshort]
      have hno : ¬ (crcEnd < h.extent % 2 ^ 32 ∧ h.extent % 2 ^ 32 < 2 ^ 31 + crcEnd) := by omega
      have hno' : ¬ (crcEnd < h.extent % 2 ^ 32 ∧ h.extent % 2 ^ 32 ≤ p.size) := by omega
      constructor
      · rintro ⟨hcrc, -⟩
        exact .inl ⟨hshort, hcrc.symm⟩
      rintro (⟨-, hcrc⟩ | ⟨hmin, hmax, -⟩ | ⟨-, hmin, hmax, -⟩)
      · exact ⟨hcrc.symm, hunsound⟩
      · exact absurd ⟨hmin, hmax⟩ hno
      · exact absurd ⟨hmin, hmax⟩ hno'
    rw [not_or, Nat.not_le, Nat.not_le] at hshort
    rw [calculateCrc_of_long hshort.1 hshort.2]
    by_cases hbeyond : p.size < h.extent % 2 ^ 32
    · have hunsound : ¬ Sound p h := by
        rintro ⟨-, hmax, -⟩
        omega
      rw [if_pos hbeyond]
      constructor
      · rintro ⟨hcrc, -⟩
        exact .inr (.inl ⟨hshort.1, hshort.2, hbeyond, hcrc.symm⟩)
      rintro (⟨hmin, -⟩ | ⟨-, -, -, hcrc⟩ | ⟨-, -, hmax, -⟩)
      · omega
      · exact ⟨hcrc.symm, hunsound⟩
      · omega
    rw [if_neg hbeyond]
    by_cases hwrap : 2 ^ 32 ≤ h.extent
    · have hunsound : ¬ Sound p h := by
        rintro ⟨-, hmax, -⟩
        omega
      constructor
      · rintro ⟨hcrc, -⟩
        exact .inr (.inr ⟨hwrap, hshort.1, by omega, hcrc⟩)
      rintro (⟨hmin, -⟩ | ⟨-, -, hmax, -⟩ | ⟨-, -, -, hcrc⟩)
      · omega
      · omega
      · exact ⟨hcrc, hunsound⟩
    · have hexact : h.extent % 2 ^ 32 = h.extent := Nat.mod_eq_of_lt (by omega)
      rw [hexact] at hshort hbeyond ⊢
      constructor
      · rintro ⟨hcrc, hunsound⟩
        exact absurd ⟨hshort.1, by omega, hcrc⟩ hunsound
      · rintro (⟨hmin, -⟩ | ⟨-, -, hmax, -⟩ | ⟨hmax, -⟩)
        all_goals omega

/-- Every accepted partition holds an image within its bounds with the CRC of its header,
unless the header misleads the validation. -/
theorem validateImage_sound_iff (cfg : Config) (ready : Bool) (p : Partition) :
    (validateImage cfg ready p = true → Sound p (getImageHeader p)) ↔
      ¬ (validateImageHeader cfg (getImageHeader p) = true ∧ Misleads ready p (getImageHeader p)) := by
  rw [← calculateCrc_misleads_iff, validateImage, Bool.and_eq_true, beq_iff_eq]
  tauto

end

/-- A partition of which only the magic is written, and the rest is zero. -/
def bareMagic : Partition where
  blocksize := 64
  erasesize := 64
  bytes := le32 headerMagic ++ List.replicate 124 0
  block_pos := by decide
  erase_pos := by decide
  whole_blocks := by decide
  whole_sectors := by decide +kernel
  int_size := by decide +kernel

theorem not_sound_bareMagic :
    validateImage ⟨0, false⟩ true bareMagic = true ∧ ¬ Sound bareMagic (getImageHeader bareMagic) := by
  refine ⟨by decide +kernel, fun h => ?_⟩
  have hextent : (getImageHeader bareMagic).extent = 0 := by decide +kernel
  rw [Sound, hextent] at h
  exact absurd h.1 (Nat.not_lt_zero _)

/-! ## Images that are what their header says -/

section

variable {cfg : Config} {p : Partition}

/-- For a length within the partition the validation is what it is meant to be. -/
theorem validateImage_iff_of_extent (hmin : crcEnd < (getImageHeader p).extent)
    (hmax : (getImageHeader p).extent ≤ p.size) :
    validateImage cfg true p = true ↔
      validateImageHeader cfg (getImageHeader p) = true ∧ Sound p (getImageHeader p) := by
  have hsize := p.int_size
  change p.size < _ at hsize
  have hexact : (getImageHeader p).extent % 2 ^ 32 = (getImageHeader p).extent := Nat.mod_eq_of_lt (by omega)
  have hcrc := calculateCrc_of_long (p := p) (h := getImageHeader p) (by omega) (by omega)
  rw [hexact, if_neg (by omega)] at hcrc
  rw [validateImage, Bool.and_eq_true, beq_iff_eq, hcrc, Sound]
  tauto

end

end Boot.Nxboot
