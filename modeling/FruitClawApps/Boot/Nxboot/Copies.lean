-- SUMMARY: What the copy loops of the bootloader leave, whole or cut short.
import FruitClawApps.Boot.Nxboot.Contents

/-!
# Copies

A copy loop writes an image from the front to the back. Wherever the power fails, the slot holds the
beginning of the image and behind it what it held before. The header is there from the first block
on.
-/

namespace Boot.Nxboot

open Bytes Crash Crc32 List

/-! ## The shape of the flash -/

/-- The same partitions with other bytes. -/
def Flash.Like (σ τ : Flash) : Prop :=
  ∀ s, (τ.get s).blocksize = (σ.get s).blocksize ∧ (τ.get s).size = (σ.get s).size

/-- Blocks hold the magic and the CRC of a header, slots hold a header, and every slot is as large
as a block of every other. -/
def Flash.Regular (σ : Flash) : Prop :=
  ∀ s, crcEnd ≤ (σ.get s).blocksize ∧ headerLength ≤ (σ.get s).size ∧ ∀ t, (σ.get s).blocksize ≤ (σ.get t).size

/-- The image of a partition has a whole header and fits every slot. -/
def Flash.Fitting (σ : Flash) (p : Partition) : Prop :=
  headerLength ≤ (getImageHeader p).headerSize ∧ ∀ s, (getImageHeader p).extent ≤ (σ.get s).size

instance (σ : Flash) : Decidable σ.Regular := inferInstanceAs (Decidable (∀ _, _))

instance (σ : Flash) (p : Partition) : Decidable (σ.Fitting p) := inferInstanceAs (Decidable (_ ∧ _))

section

variable {σ τ υ : Flash} {s dst : Slot} {image : List UInt8} {m n off magic : Nat}

theorem Flash.Like.refl (σ : Flash) : σ.Like σ := fun _ => ⟨rfl, rfl⟩

theorem Flash.Like.trans (h : σ.Like τ) (h' : τ.Like υ) : σ.Like υ :=
  fun s => ⟨(h' s).1.trans (h s).1, (h' s).2.trans (h s).2⟩

variable {p : Partition} (src : List UInt8)

theorem Flash.Like.set (hblock : p.blocksize = (σ.get s).blocksize) (hsize : p.size = (σ.get s).size) :
    σ.Like (σ.set s p) := by
  intro t
  rw [get_set]
  split
  · subst t
    exact ⟨hblock, hsize⟩
  · exact ⟨rfl, rfl⟩

theorem Flash.Like.regular (h : σ.Like τ) (hσ : σ.Regular) : τ.Regular := by
  intro s
  obtain ⟨hblock, hsize⟩ := h s
  obtain ⟨hmin, hheader, hfits⟩ := hσ s
  refine ⟨by omega, by omega, fun t => ?_⟩
  have := (h t).2
  have := hfits t
  omega

theorem Flash.Like.fitting (h : σ.Like τ) (hp : σ.Fitting p) : τ.Fitting p :=
  ⟨hp.1, fun s => by rw [(h s).2]; exact hp.2 s⟩

/-! ## Writing from the front -/

/-- The flash after the first `m` bytes of an image were written to a slot. -/
def Flash.overlaid (σ : Flash) (dst : Slot) (image : List UInt8) (m : Nat) : Flash :=
  σ.set dst ((σ.get dst).setBytes (overlay image (σ.get dst).bytes m))

theorem Flash.overlaid_zero : σ.overlaid dst image 0 = σ := by
  rw [overlaid, overlay, take_zero, nil_append, drop_zero, Partition.setBytes_self, set_get]

theorem Flash.Like.overlaid : σ.Like (σ.overlaid dst image m) :=
  .set Partition.setBytes_blocksize Partition.setBytes_size

theorem Flash.overlaid_get_of_ne (h : s ≠ dst) : (σ.overlaid dst image m).get s = σ.get s := get_set_of_ne h

theorem wpc_flashPartitionRead {s : Slot} {count : Nat} {Q : Option (List UInt8) → Flash → Prop} {C : Flash → Prop}
    (h : Q ((σ.get s).read count off) σ) : wpc (flashPartitionRead s count off) Q C σ :=
  wpc_bind (wpc_get (wpc_pure h))

theorem wpc_flashPartitionWrite {Q : Result → Flash → Prop} {C : Flash → Prop} (himage : m + n ≤ image.length)
    (hm : m ≤ (σ.get dst).size) (hC : C (σ.overlaid dst image m))
    (herror : (σ.get dst).size < m + n → Q .error (σ.overlaid dst image m))
    (hok : m + n ≤ (σ.get dst).size → Q .ok (σ.overlaid dst image (m + n))) :
    wpc (flashPartitionWrite dst (slice image m n) m) Q C (σ.overlaid dst image m) := by
  have hlength : (overlay image (σ.get dst).bytes m).length = (σ.get dst).size := length_overlay (by omega) hm
  have hget : (σ.overlaid dst image m).get dst = (σ.get dst).setBytes (overlay image (σ.get dst).bytes m) :=
    Flash.get_set_self
  refine wpc_bind (wpc_get ?_)
  rw [hget, Partition.write, Partition.setBytes_size, length_slice himage]
  split_ifs with hbound
  · exact wpc_pure (herror (by omega))
  refine wpc_bind (wpc_modify hC (wpc_pure ?_))
  have hnext : (overlay image (σ.get dst).bytes (m + n)).length = (σ.get dst).size :=
    length_overlay himage (by change _ ≤ (σ.get dst).size; omega)
  have hset : (σ.overlaid dst image m).set dst
      (((σ.get dst).setBytes (overlay image (σ.get dst).bytes m)).setBytes
        (splice ((σ.get dst).setBytes (overlay image (σ.get dst).bytes m)).bytes m (slice image m n))) =
      σ.overlaid dst image (m + n) := by
    rw [Partition.setBytes_bytes hlength, splice_overlay himage, Partition.setBytes_setBytes hlength hnext]
    exact Flash.set_set
  rw [hset]
  exact hok (by omega)

/-- How far a loop of writes has come that started behind `off` bytes and writes at least `first`
more in its first step. -/
def Flash.Reached (σ : Flash) (dst : Slot) (image : List UInt8) (off first m : Nat) (τ : Flash) : Prop :=
  (m = off ∨ off + first ≤ m) ∧ m ≤ image.length ∧ m ≤ (σ.get dst).size ∧ τ = σ.overlaid dst image m

/-- The loop that copies blocks writes the image that the source slot holds. -/
theorem wpc_copyBlocks {src : Slot} {blocksize fuel remain : Nat} (hne : src ≠ dst) (hblock : 0 < blocksize)
    (hfuel : remain ≤ fuel) (hlength : image.length = (σ.get src).size)
    (hagree : ∀ o k, off ≤ o → slice (σ.get src).bytes o k = slice image o k) (himage : off ≤ image.length)
    (hoff : off ≤ (σ.get dst).size) : wpc (copyBlocks src dst blocksize fuel off remain)
      (fun r τ => ∃ m, σ.Reached dst image off (min blocksize remain) m τ ∧ (r = .ok → m = off + remain) ∧
        (off + remain ≤ image.length → off + remain ≤ (σ.get dst).size → r = .ok))
      (fun τ => ∃ m, σ.Reached dst image off (min blocksize remain) m τ)
      (σ.overlaid dst image off) := by
  induction fuel generalizing off remain with
  | zero =>
    obtain rfl : remain = 0 := Nat.le_zero.mp hfuel
    exact wpc_pure ⟨off, ⟨.inl rfl, himage, hoff, rfl⟩, fun _ => rfl, fun _ _ => rfl⟩
  | succ fuel ih =>
    rw [copyBlocks]
    by_cases hzero : remain = 0
    · rw [if_pos hzero]
      exact wpc_pure ⟨off, ⟨.inl rfl, himage, hoff, rfl⟩, fun _ => by omega, fun _ _ => rfl⟩
    rw [if_neg hzero]
    have hmin : (if remain > blocksize then blocksize else remain) = min blocksize remain := by
      split <;> omega
    rw [hmin]
    obtain ⟨n, hn⟩ : ∃ n, n = min blocksize remain := ⟨_, rfl⟩
    rw [← hn]
    refine wpc_bind (wpc_flashPartitionRead ?_)
    rw [Flash.overlaid_get_of_ne hne, Partition.read]
    split_ifs with hread
    · exact wpc_pure ⟨off, ⟨.inl rfl, himage, hoff, rfl⟩, (fun h => by cases h), fun hend _ => by omega⟩
    rw [hagree off n (Nat.le_refl _)]
    refine wpc_bind (wpc_flashPartitionWrite (by omega) hoff ⟨off, .inl rfl, himage, hoff, rfl⟩ (fun hbound => ?_)
      fun hbound => ?_)
    · exact wpc_pure ⟨off, ⟨.inl rfl, himage, hoff, rfl⟩, (fun h => by cases h), fun _ hend => by omega⟩
    refine wpc_mono ?_ ?_ (ih (by omega) (fun o k ho => hagree o k (by omega)) (by omega) hbound)
    · rintro r τ ⟨m, ⟨hm, hmi, hms, hτ⟩, hok, hend⟩
      exact ⟨m, ⟨.inr (by omega), hmi, hms, hτ⟩, fun hr => by have := hok hr; omega,
        fun h₁ h₂ => hend (by omega) (by omega)⟩
    · rintro τ ⟨m, hm, hmi, hms, hτ⟩
      exact ⟨m, .inr (by omega), hmi, hms, hτ⟩

/-- The image of a slot with another magic. -/
def patched (magic : Nat) (src : List UInt8) : List UInt8 := le32 magic ++ src.drop 4

theorem length_patched {src : List UInt8} (h : 4 ≤ src.length) : (patched magic src).length = src.length := by
  rw [patched, length_append, length_drop]
  change 4 + _ = _
  omega

theorem slice_patched (h : 4 ≤ off) (n : Nat) :
    slice (patched magic src) off n = slice src off n := by
  obtain ⟨k, rfl⟩ : ∃ k, off = 4 + k := ⟨off - 4, by omega⟩
  have hlength : (le32 magic).length = 4 := rfl
  rw [slice, patched, drop_append, drop_eq_nil_of_le (by omega), nil_append, hlength,
    Nat.add_sub_cancel_left, drop_drop, slice]

theorem take_patched {n : Nat} (h : 4 ≤ n) :
    le32 magic ++ (src.take n).drop 4 = (patched magic src).take n := by
  have hlength : (le32 magic).length = 4 := rfl
  rw [patched, take_append, drop_take, hlength, take_of_length_le (by omega : (le32 magic).length ≤ n)]

/-- What a copy of a slot writes. -/
def Flash.copyImage (σ : Flash) (src : Slot) (update : Option Slot) : List UInt8 :=
  patched (copyMagic (getImageHeader (σ.get src)).magic update) (σ.get src).bytes

/-- A copy of which at least the first block is there. -/
def Flash.Begun (σ : Flash) (src dst : Slot) (update : Option Slot) (m : Nat) (τ : Flash) : Prop :=
  crcEnd ≤ m ∧ m ≤ (σ.get src).size ∧ m ≤ (σ.get dst).size ∧ τ = σ.overlaid dst (σ.copyImage src update) m

theorem bmod_of_fitting (h : σ.Fitting p) :
    (((getImageHeader p).size + (getImageHeader p).headerSize : Int)).bmod (2 ^ 32) = (getImageHeader p).extent := by
  have hint := (σ.get .primary).int_size
  have hle := h.2 .primary
  simp only [Partition.size, Header.extent, Int.bmod] at *
  omega

/-- A copy leaves the slot as it was, or at least its first block is written. It ends well if the
image fits both slots. -/
theorem wpc_copyPartition {src : Slot} (hregular : σ.Regular) (hne : src ≠ dst) (update : Option Slot) :
    wpc (copyPartition src dst update)
      (fun r τ =>
        ((r = .error ∧ τ = σ) ∨
          ∃ m, σ.Begun src dst update m τ ∧
            (r = .ok → σ.Fitting (σ.get src) → (getImageHeader (σ.get src)).extent ≤ m)) ∧
        (σ.Fitting (σ.get src) → r = .ok))
      (fun τ => τ = σ ∨ ∃ m, σ.Begun src dst update m τ) σ := by
  obtain ⟨hblock, hheader, hfits⟩ := hregular dst
  obtain ⟨-, hheader', -⟩ := hregular src
  have hfirst := hfits src
  have hfirst' := hfits dst
  simp only [crcEnd, headerLength] at hblock hheader hheader'
  have hlength : (σ.copyImage src update).length = (σ.get src).size :=
    length_patched (by change 4 ≤ (σ.get src).size; omega)
  refine wpc_bind (wpc_get ?_)
  dsimp only
  split_ifs with hlarge
  · refine wpc_pure ⟨.inl ⟨rfl, rfl⟩, fun hfitting => ?_⟩
    have := hfitting.2 dst
    rw [bmod_of_fitting hfitting] at hlarge
    omega
  refine wpc_bind (wpc_flashPartitionRead ?_)
  rw [Partition.read, if_neg (by omega)]
  dsimp only
  have hmagic : (le32 (copyMagic (getImageHeader (σ.get src)).magic update)).take (σ.get dst).blocksize =
      le32 (copyMagic (getImageHeader (σ.get src)).magic update) :=
    take_of_length_le (by change 4 ≤ _; omega)
  have hdata : le32 (copyMagic (getImageHeader (σ.get src)).magic update) ++
      (slice (σ.get src).bytes 0 (σ.get dst).blocksize).drop
        (le32 (copyMagic (getImageHeader (σ.get src)).magic update)).length =
      slice (σ.copyImage src update) 0 (σ.get dst).blocksize := take_patched _ (by omega)
  rw [hmagic, hdata]
  have hstart : σ.overlaid dst (σ.copyImage src update) 0 = σ := Flash.overlaid_zero
  have hwrite : wpc (flashPartitionWrite dst (slice (σ.copyImage src update) 0 (σ.get dst).blocksize) 0)
      (fun r τ => r = .ok ∧ τ = σ.overlaid dst (σ.copyImage src update) (σ.get dst).blocksize) (fun τ => τ = σ)
      (σ.overlaid dst (σ.copyImage src update) 0) := by
    refine wpc_flashPartitionWrite (by omega) (Nat.zero_le _) hstart (fun h => by omega) fun _ => ⟨rfl, ?_⟩
    rw [Nat.zero_add]
  rw [hstart] at hwrite
  refine wpc_bind (wpc_mono ?_ (fun τ hτ => .inl hτ) hwrite)
  rintro _ _ ⟨rfl, rfl⟩
  refine wpc_mono ?_ ?_ (wpc_copyBlocks hne (by omega) (Nat.le_refl _) hlength
    (fun o k ho => (slice_patched _ (by omega) k).symm) (by omega) hfirst')
  · rintro r τ ⟨m, ⟨hm, hmi, hms, hτ⟩, hok, hend⟩
    refine ⟨.inr ⟨m, ⟨by simp only [crcEnd]; omega, by omega, hms, hτ⟩, fun hr hfitting => ?_⟩, fun hfitting => ?_⟩
    · have := hok hr
      rw [bmod_of_fitting hfitting] at this
      omega
    have := hfitting.2 src
    have := hfitting.2 dst
    rw [bmod_of_fitting hfitting] at hend
    exact hend (by omega) (by omega)
  · rintro τ ⟨m, hm, hmi, hms, hτ⟩
    exact .inr ⟨m, by simp only [crcEnd]; omega, by omega, hms, hτ⟩

/-! ## What is read in a copy -/

theorem slice_slice_zero {l : List UInt8} {k n : Nat} (h : off + n ≤ k) :
    slice (slice l 0 k) off n = slice l off n := by
  rw [slice_slice h, Nat.zero_add]

theorem getImageHeader_eq (h : headerLength ≤ p.size) : getImageHeader p = .decode p.bytes := by
  rw [getImageHeader, Partition.read, if_neg (by omega), Option.getD_some]
  simp only [Header.decode, headerLength, slice_slice_zero (show 0 + 4 ≤ 128 by decide),
    slice_slice_zero (show 6 + 2 ≤ 128 by decide), slice_slice_zero (show 8 + 4 ≤ 128 by decide),
    slice_slice_zero (show 12 + 4 ≤ 128 by decide), slice_slice_zero (show 16 + 8 ≤ 128 by decide),
    slice_slice_zero (show 28 + 2 ≤ 128 by decide), slice_slice_zero (show 30 + 2 ≤ 128 by decide),
    slice_slice_zero (show 32 + 2 ≤ 128 by decide), slice_slice_zero (show 34 + 94 ≤ 128 by decide)]

theorem decode_patched (h : magic < 2 ^ 32) :
    Header.decode (patched magic src) = { Header.decode src with magic := magic } := by
  have hmagic : leNat (slice (patched magic src) 0 4) = magic := leNat_le32 h
  simp only [Header.decode, hmagic, slice_patched src (show 4 ≤ 6 by decide), slice_patched src (show 4 ≤ 8 by decide),
    slice_patched src (show 4 ≤ 12 by decide), slice_patched src (show 4 ≤ 16 by decide),
    slice_patched src (show 4 ≤ 28 by decide), slice_patched src (show 4 ≤ 30 by decide),
    slice_patched src (show 4 ≤ 32 by decide), slice_patched src (show 4 ≤ 34 by decide)]

theorem copyMagic_lt (magic : Nat) (update : Option Slot) : copyMagic magic update < 2 ^ 32 := by
  unfold copyMagic
  split
  all_goals rcases update with _ | _ | _ | _ <;> decide

theorem ofMagic_copyMagic (magic : Nat) : Mark.ofMagic (copyMagic magic none) = (Mark.ofMagic magic).flip := by
  unfold copyMagic
  rw [Mark.isInternalMagic_eq]
  cases Mark.ofMagic magic with
  | internal pointer =>
    rw [Mark.isInternal, Mark.flip, if_pos rfl]
    decide
  | standard | blank => decide

theorem ofMagic_copyMagic_update (h : Mark.ofMagic magic = .standard) (update : Slot) :
    Mark.ofMagic (copyMagic magic (some update)) = .internal update.num := by
  unfold copyMagic
  rw [Mark.isInternalMagic_eq, h]
  cases update <;> decide

variable {cfg : Config} {p : Partition}

theorem getImageHeader_overlay (hheader : headerLength ≤ p.size) (himage : m ≤ image.length) (hsize : m ≤ p.size) :
    getImageHeader (p.setBytes (overlay image p.bytes m)) = .decode (overlay image p.bytes m) := by
  rw [getImageHeader_eq (by rwa [Partition.setBytes_size]), Partition.setBytes_bytes (length_overlay himage hsize)]

theorem content_overlay (cfg : Config) (hheader : headerLength ≤ p.size) (hm : crcEnd ≤ m) (himage : m ≤ image.length)
    (hsize : m ≤ p.size) :
    (content cfg (p.setBytes (overlay image p.bytes m))).mark = .ofMagic (Header.decode image).magic ∧
      (content cfg (p.setBytes (overlay image p.bytes m))).crc = (Header.decode image).crc := by
  have hcrc : 8 + 4 ≤ m := hm
  simp only [content, getImageHeader_overlay hheader himage hsize, Header.decode,
    slice_overlay (show 0 + 4 ≤ m by omega) himage, slice_overlay hcrc himage, and_self]

theorem validateImageHeader_iff {h : Header} :
    validateImageHeader cfg h = true ↔ Mark.ofMagic h.magic ≠ .blank ∧ h.identifier = cfg.identifier := by
  simp only [validateImageHeader, Bool.and_eq_true, Bool.or_eq_true, beq_iff_eq, Mark.magic_eq_iff,
    Mark.isInternalMagic_eq]
  refine and_congr_left' ?_
  cases Mark.ofMagic h.magic <;> simp [Mark.isInternal]

/-- A slot that has the body of a valid image and its header, but for the magic, holds that
image. -/
theorem content_of_body {src : Partition} (hmagic : magic < 2 ^ 32) (hmark : Mark.ofMagic magic ≠ .blank)
    (hvalid : validateImage cfg true src = true) (hheader : headerLength ≤ (getImageHeader src).headerSize)
    (hsrc : (getImageHeader src).extent ≤ src.size) (hsize : (getImageHeader src).extent ≤ p.size)
    (hfirst : slice p.bytes 0 4 = le32 magic) (hlength : slice p.bytes 6 2 = slice src.bytes 6 2)
    (hcrc : slice p.bytes 8 4 = slice src.bytes 8 4)
    (hbody : slice p.bytes crcEnd ((getImageHeader src).extent - crcEnd) =
      slice src.bytes crcEnd ((getImageHeader src).extent - crcEnd)) :
    (content cfg p).valid = true ∧ (content cfg p).body = (content cfg src).body := by
  have hlong : headerLength ≤ (getImageHeader src).extent := by
    rw [Header.extent]
    omega
  simp only [headerLength, crcEnd] at hlong hheader hbody
  have hpart (off n : Nat) (hoff : 12 ≤ off) (hn : off + n ≤ 128) : slice p.bytes off n = slice src.bytes off n := by
    obtain ⟨k, rfl⟩ : ∃ k, off = 12 + k := ⟨off - 12, by omega⟩
    have hsub := congrArg (slice · k n) hbody
    simp only [slice_slice (show k + n ≤ (getImageHeader src).extent - 12 by omega)] at hsub
    exact hsub
  have hget : getImageHeader p = { getImageHeader src with magic := magic } := by
    rw [getImageHeader_eq (p := p) (by simp only [headerLength]; omega),
      getImageHeader_eq (p := src) (by simp only [headerLength]; omega)]
    simp only [Header.decode, hfirst, hlength, hcrc, leNat_le32 hmagic, hpart 12 4 (by decide) (by decide),
      hpart 16 8 (by decide) (by decide), hpart 28 2 (by decide) (by decide), hpart 30 2 (by decide) (by decide),
      hpart 32 2 (by decide) (by decide), hpart 34 94 (by decide) (by decide)]
  have hsame : (getImageHeader p).extent = (getImageHeader src).extent := by
    rw [hget]
    rfl
  obtain ⟨hid, hsound⟩ := (validateImage_iff_of_extent (by simp only [crcEnd]; omega) hsrc).mp hvalid
  constructor
  · refine (validateImage_iff_of_extent (by rw [hsame]; simp only [crcEnd]; omega) (by rw [hsame]; exact hsize)).mpr
      ⟨?_, ?_⟩
    · rw [validateImageHeader_iff] at hid ⊢
      rw [hget]
      exact ⟨hmark, hid.2⟩
    · rw [Sound, hsame, crcEnd, hbody, hget]
      exact ⟨hsound.1, hsize, hsound.2.2⟩
  · simp only [content]
    rw [hsame, crcEnd, hbody]

/-- A copy over a slot is a valid image if all of it is there, or if the slot has held the same
image before. -/
theorem content_overlay_patched {src : Partition} (hmagic : magic < 2 ^ 32) (hmark : Mark.ofMagic magic ≠ .blank)
    (hvalid : validateImage cfg true src = true) (hheader : headerLength ≤ (getImageHeader src).headerSize)
    (hfits : (getImageHeader src).extent ≤ src.size) (hfits' : (getImageHeader src).extent ≤ p.size) (hm : crcEnd ≤ m)
    (hsrc : m ≤ src.size) (hsize : m ≤ p.size)
    (hsame : (getImageHeader src).extent ≤ m ∨
      slice src.bytes crcEnd ((getImageHeader src).extent - crcEnd) =
        slice p.bytes crcEnd ((getImageHeader src).extent - crcEnd)) :
    (content cfg (p.setBytes (overlay (patched magic src.bytes) p.bytes m))).valid = true ∧
      (content cfg (p.setBytes (overlay (patched magic src.bytes) p.bytes m))).body = (content cfg src).body := by
  simp only [crcEnd] at hm
  have hlength : (patched magic src.bytes).length = src.size := length_patched (by change 4 ≤ src.size; omega)
  have himage : m ≤ (patched magic src.bytes).length := by omega
  have hbytes := Partition.setBytes_bytes (p := p) (length_overlay himage hsize)
  refine content_of_body hmagic hmark hvalid hheader hfits (by rwa [Partition.setBytes_size]) ?_ ?_ ?_ ?_
  · rw [hbytes, slice_overlay (by omega) himage]
    rfl
  · rw [hbytes, slice_overlay (by omega) himage, slice_patched _ (by decide)]
  · rw [hbytes, slice_overlay (by omega) himage, slice_patched _ (by decide)]
  rw [hbytes]
  rcases hsame with hextent | hsame
  · have hlong : headerLength ≤ (getImageHeader src).extent := by
      rw [Header.extent]
      omega
    rw [slice_overlay (by simp only [crcEnd]; omega) himage, slice_patched _ (by decide)]
  · rw [slice_overlay_of_agree himage (by rw [slice_patched _ (by decide)]; exact hsame), slice_patched _ (by decide)]

variable {src : Slot} {update : Option Slot}

theorem Flash.overlaid_contents : (σ.overlaid dst image m).contents cfg dst =
    content cfg ((σ.get dst).setBytes (overlay image (σ.get dst).bytes m)) := by
  rw [Flash.contents, overlaid, get_set_self]

theorem Flash.Begun.like (h : σ.Begun src dst update m τ) : σ.Like τ := by
  obtain ⟨-, -, -, rfl⟩ := h
  exact .overlaid

theorem Flash.Begun.contents (h : σ.Begun src dst update m τ) :
    τ.contents cfg = (σ.contents cfg).put dst (τ.contents cfg dst) := by
  obtain ⟨-, -, -, rfl⟩ := h
  rw [overlaid, contents_set, Slots.put_self]

theorem Flash.Begun.copied (cfg : Config) (hregular : σ.Regular) (h : σ.Begun src dst update m τ) :
    Copied (.ofMagic (copyMagic (getImageHeader (σ.get src)).magic update)) (σ.contents cfg src)
      (τ.contents cfg dst) := by
  obtain ⟨hm, hsrc, hdst, rfl⟩ := h
  have hheader := (hregular src).2.1
  have hlength : (σ.copyImage src update).length = (σ.get src).size :=
    length_patched (by change 4 ≤ (σ.get src).size; simp only [headerLength] at hheader; omega)
  have hcontent := content_overlay cfg (hregular dst).2.1 hm (by omega : m ≤ (σ.copyImage src update).length) hdst
  rw [copyImage, decode_patched _ (copyMagic_lt _ _)] at hcontent
  rw [overlaid_contents]
  refine ⟨hcontent.1, hcontent.2.trans ?_⟩
  rw [crc_contents, getImageHeader_eq hheader]

theorem Flash.Begun.cloned (cfg : Config) (hregular : σ.Regular) (h : σ.Begun src dst update m τ)
    (hfitting : σ.Fitting (σ.get src))
    (hvalid : (σ.contents cfg src).valid = true)
    (hmark : Mark.ofMagic (copyMagic (getImageHeader (σ.get src)).magic update) ≠ .blank)
    (hsame : (getImageHeader (σ.get src)).extent ≤ m ∨
      slice (σ.get src).bytes crcEnd ((getImageHeader (σ.get src)).extent - crcEnd) =
        slice (σ.get dst).bytes crcEnd ((getImageHeader (σ.get src)).extent - crcEnd)) :
    Cloned (.ofMagic (copyMagic (getImageHeader (σ.get src)).magic update)) (σ.contents cfg src)
      (τ.contents cfg dst) := by
  have hcopied := h.copied cfg hregular
  obtain ⟨hm, hsrc, hdst, rfl⟩ := h
  have hwhole := content_overlay_patched (copyMagic_lt _ _) hmark hvalid hfitting.1 (hfitting.2 src) (hfitting.2 dst) hm
    hsrc hdst hsame
  rw [← overlaid_contents] at hwhole
  exact ⟨hcopied, hwhole.1, hwhole.2⟩

theorem Flash.slice_eq_of_body (hfitting : σ.Fitting (σ.get src)) (hfitting' : σ.Fitting (σ.get dst))
    (h : (σ.contents cfg dst).body = (σ.contents cfg src).body) :
    slice (σ.get src).bytes crcEnd ((getImageHeader (σ.get src)).extent - crcEnd) =
      slice (σ.get dst).bytes crcEnd ((getImageHeader (σ.get src)).extent - crcEnd) := by
  have hlong : headerLength ≤ (getImageHeader (σ.get src)).extent := Nat.le_add_right_of_le hfitting.1
  have hlong' : headerLength ≤ (getImageHeader (σ.get dst)).extent := Nat.le_add_right_of_le hfitting'.1
  have hsrc := hfitting.2 src
  have hdst := hfitting'.2 dst
  simp only [headerLength, Partition.size] at hlong hlong' hsrc hdst
  have hbody : slice (σ.get dst).bytes 12 ((getImageHeader (σ.get dst)).extent - 12) =
      slice (σ.get src).bytes 12 ((getImageHeader (σ.get src)).extent - 12) := h
  have hextent := congrArg List.length hbody
  rw [length_slice (by omega), length_slice (by omega)] at hextent
  rw [crcEnd, ← hbody, hextent]

theorem ofMagic_decode_erased {n : Nat} (h : crcEnd ≤ n) :
    Mark.ofMagic (Header.decode (replicate n 0xff)).magic = .blank := by
  have hmagic : slice (replicate n (0xff : UInt8)) 0 4 = replicate 4 0xff := by
    simp only [crcEnd] at h
    rw [slice, drop_zero, take_replicate, Nat.min_eq_left (by omega)]
  simp only [Header.decode, hmagic]
  decide

theorem content_eraseFirstSector (hblock : crcEnd ≤ p.blocksize) (hheader : headerLength ≤ p.size) :
    (content cfg p.eraseFirstSector).mark = .blank := by
  have hsector : crcEnd ≤ p.erasesize := Nat.le_trans hblock (Nat.le_of_dvd p.erase_pos p.whole_blocks)
  have hsize : p.erasesize ≤ p.size := by
    refine Nat.le_of_dvd ?_ p.whole_sectors
    exact Nat.lt_of_lt_of_le (by decide) hheader
  have hlength : (replicate p.erasesize (0xff : UInt8)).length = p.erasesize := length_replicate
  have hmark := (content_overlay cfg hheader hsector (Nat.le_of_eq hlength.symm) hsize).1
  exact hmark.trans (ofMagic_decode_erased hsector)

end

end Boot.Nxboot
