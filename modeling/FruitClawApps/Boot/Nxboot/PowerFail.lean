-- SUMMARY: Wherever the power fails, the next boot ends with a valid image in the primary slot.
import FruitClawApps.Boot.Nxboot.Refinement

/-!
# Power failures

Uploads, confirmations and boots follow in any order, and the power fails in any of them. Between
two steps the primary image is valid, or the roles of the slots lead the next boot to a valid one.
-/

namespace Boot.Nxboot

open Bytes Crash Transition

namespace Slots

variable {cfg : Config} {c d : Slots}

/-! ## Roles -/

/-- Both slots look like a recovery, so the CRC decides which of them is for updates. -/
def Paired (c : Slots) : Prop := (c .secondary).mark.isInternal = true ∧ (c .tertiary).mark.isInternal = true

theorem roles (c : Slots) :
    (c.update = .secondary ∧ c.recovery = .tertiary) ∨ (c.update = .tertiary ∧ c.recovery = .secondary) := by
  unfold recovery update
  split_ifs <;> simp [recoverySlot]

theorem recovery_eq (h : d.update = c.update) : d.recovery = c.recovery := by
  rw [recovery, h, recovery]

theorem update_of_not_paired (h : ¬ c.Paired) :
    c.update = if (c .tertiary).mark = .standard ∨ (c .secondary).mark.isInternal = true then .tertiary
      else .secondary := by
  unfold update
  refine if_congr (or_congr_right (and_iff_left_of_imp fun hs ht => absurd ⟨hs, ht⟩ h)) rfl rfl

theorem update_congr (hmark : ∀ s, (d s).mark = (c s).mark) (hcrc : ∀ s, (d s).crc = (c s).crc) :
    d.update = c.update := by
  simp only [update, hmark, hcrc]

theorem update_congr_of_not_paired (hs : (d .secondary).mark = (c .secondary).mark)
    (ht : (d .tertiary).mark = (c .tertiary).mark) (h : ¬ c.Paired) : d.update = c.update := by
  rw [update_of_not_paired h, update_of_not_paired, hs, ht]
  rwa [Paired, hs, ht]

theorem update_of_paired_standard (h : c.Paired) (hprimary : (c .primary).mark = .standard) :
    c.update = if (c .primary).crc = (c .secondary).crc then .tertiary else .secondary := by
  have hprimary' : (c .primary).mark.isInternal ≠ true := by
    rw [hprimary]
    decide
  simp [update, h.1, h.2, Mark.ne_standard h.2, hprimary']

theorem not_paired_of_update (h : (d c.update).mark.isInternal = false) : ¬ d.Paired := by
  rintro ⟨hs, ht⟩
  rcases c.roles with ⟨hu, -⟩ | ⟨hu, -⟩
  · rw [hu, hs] at h
    cases h
  · rw [hu, ht] at h
    cases h

theorem update_of_recovery (hr : (d c.recovery).mark.isInternal = true) (hu : (d c.update).mark.isInternal = false) :
    d.update = c.update := by
  rw [update_of_not_paired (not_paired_of_update hu)]
  rcases c.roles with ⟨hupdate, hrecovery⟩ | ⟨hupdate, hrecovery⟩
  · rw [hupdate] at hu ⊢
    rw [hrecovery] at hr
    rw [if_neg]
    rintro (hstandard | hs)
    · exact Mark.ne_standard hr hstandard
    · rw [hu] at hs
      cases hs
  · rw [hrecovery] at hr
    rw [hupdate, if_pos (.inr hr)]

/-! ## The invariant -/

/-- The primary image is valid, or the next boot finds one to put in its place. -/
inductive Safe (c : Slots) : Prop
  | running (hvalid : (c .primary).valid = true)
      (hpaired : c.Paired → (c .primary).crc = (c .secondary).crc ∨ (c .primary).crc = (c .tertiary).crc)
  | updating (h : c.Uploaded)
  | reverting (h : c.Recoverable) (hmark : (c .primary).mark = .standard) (hcrc : (c .primary).crc = (c c.recovery).crc)

/-- No two valid images have the same CRC. -/
def Distinct (c : Slots) : Prop :=
  ∀ s t, (c s).valid = true → (c t).valid = true → (c s).crc = (c t).crc → (c s).body = (c t).body

instance (c : Slots) : Decidable c.Distinct := inferInstanceAs (Decidable (∀ _, _))

theorem Uploaded.not_paired (h : c.Uploaded) : ¬ c.Paired :=
  not_paired_of_update (c := c) (by rw [h.1]; rfl)

theorem crc_eq_or {x : Nat} (h : x = (d c.recovery).crc ∨ x = (d c.update).crc) :
    x = (d .secondary).crc ∨ x = (d .tertiary).crc := by
  rcases c.roles with ⟨hu, hr⟩ | ⟨hu, hr⟩
  · rw [hu, hr] at h
    exact h.symm
  · rwa [hu, hr] at h

/-- If the CRC decides, it is that of one of the slots. -/
theorem Safe.crc_of_paired (h : c.Safe) (hpaired : c.Paired) :
    (c .primary).crc = (c c.recovery).crc ∨ (c .primary).crc = (c c.update).crc := by
  cases h with
  | running _ h =>
    rcases c.roles with ⟨hu, hr⟩ | ⟨hu, hr⟩
    · rw [hu, hr]
      exact (h hpaired).symm
    · rw [hu, hr]
      exact h hpaired
  | updating h => exact absurd hpaired h.not_paired
  | reverting _ _ hcrc => exact .inl hcrc

theorem Safe.clears (h : c.Safe) (hclear : c.Clears cfg d) : d.Safe := by
  cases hclear with
  | kept => exact h
  | erased hdup x hx =>
    refine .running ?_ fun hpaired => absurd hpaired (not_paired_of_update (c := c) ?_)
    · rw [put_of_ne update_ne_primary.symm]
      exact hdup.2.2.2
    · rw [put_self, hx]
      rfl

theorem Safe.update_reverting {x : Content} (h : c.Safe) (hdistinct : c.Distinct) (hdue : c.due cfg = .revert)
    (hclear : c.Clears cfg d) (hx : Copied (c c.recovery).mark.flip (c c.recovery) x)
    (hsame : (c .primary).valid = true → (c .primary).body = (c c.recovery).body → x.valid = true)
    (hinvalid : x.valid ≠ true) : (d.put .primary x).update = c.update := by
  obtain ⟨⟨hrmark, hrvalid⟩, -⟩ := revert_of_due hdue
  have hsecondary : (d.put .primary x) .secondary = d .secondary := put_of_ne (by decide)
  have htertiary : (d.put .primary x) .tertiary = d .tertiary := put_of_ne (by decide)
  cases hclear with
  | erased _ y hy =>
    refine update_of_recovery ?_ ?_
    · rwa [put_of_ne recovery_ne_primary, put_of_ne recovery_ne_update]
    · rw [put_of_ne update_ne_primary, put_self, hy]
      rfl
  | kept =>
    by_cases hpaired : c.Paired
    · have hnew := update_of_paired_standard (c := c.put .primary x) (by rwa [Paired, hsecondary, htertiary])
        (by rw [put_self, hx.mark_eq, Mark.flip_of_internal hrmark])
      rw [hnew, put_self, hsecondary, hx.crc_eq]
      rcases c.roles with ⟨hu, hr⟩ | ⟨hu, hr⟩
      · -- with the recovery in the tertiary slot, the secondary one must not have its CRC
        rw [hu, if_neg]
        intro hcrc
        have hprimary : (c .primary).crc = (c c.recovery).crc := by
          rcases h.crc_of_paired hpaired with h | h
          · exact h
          · rw [h, hu, hcrc]
        cases h with
        | running hvalid => exact hinvalid (hsame hvalid (hdistinct _ _ hvalid hrvalid hprimary))
        | updating h => exact h.not_paired hpaired
        | reverting _ hmark =>
          rw [update_of_paired_standard hpaired hmark, if_pos (hprimary.trans hcrc)] at hu
          cases hu
      · rw [hr, if_pos rfl, hu]
    · exact update_congr_of_not_paired (by rw [hsecondary]) (by rw [htertiary]) hpaired

theorem Uploaded.installing {fits : Prop} {x : Content} (h : c.Uploaded) (hsave : c.Saves fits d) :
    (d.put .primary x).Uploaded := by
  have hsecondary : (d.put .primary x) .secondary = d .secondary := put_of_ne (by decide)
  have htertiary : (d.put .primary x) .tertiary = d .tertiary := put_of_ne (by decide)
  cases hsave with
  | kept =>
    have hupdate : (c.put .primary x).update = c.update :=
      update_congr_of_not_paired (by rw [hsecondary]) (by rw [htertiary]) h.not_paired
    rwa [Uploaded, hupdate, put_of_ne update_ne_primary]
  | saved hneeds y hy hvalid =>
    obtain ⟨e, he⟩ : ∃ e, e = (c.put c.recovery y).put .primary x := ⟨_, rfl⟩
    have hu : e c.update = c c.update := by
      rw [he, put_of_ne update_ne_primary, put_of_ne recovery_ne_update.symm]
    have hr : e c.recovery = y := by
      rw [he, put_of_ne recovery_ne_primary, put_self]
    have hupdate := update_of_not_paired (not_paired_of_update (c := c) (d := e) (by rw [hu, h.1]; rfl))
    rw [← he]
    rcases c.roles with ⟨hc, hc'⟩ | ⟨hc, hc'⟩
    · -- an internal primary image comes as an update into the tertiary slot
      rw [hc] at hu
      rw [hc'] at hr
      have hinternal : (e .secondary).mark.isInternal ≠ true := by
        rw [hu, ← hc, h.1]
        decide
      by_cases hstandard : (e .tertiary).mark = .standard
      · rw [if_pos (.inl hstandard)] at hupdate
        rw [Uploaded, hupdate]
        exact ⟨hstandard, by rwa [hr]⟩
      rw [if_neg (not_or.mpr ⟨hstandard, hinternal⟩)] at hupdate
      rw [Uploaded, hupdate, hu, ← hc]
      exact h
    · rw [hc] at hu
      rw [if_pos (.inl (by rw [hu, ← hc]; exact h.1))] at hupdate
      rw [Uploaded, hupdate, hu, ← hc]
      exact h

/-- A boot keeps the invariant, wherever it is cut. -/
theorem Safe.passes {fits : Prop} {checkOnly : Bool} (h : c.Safe) (hdistinct : c.Distinct) (hfits : fits)
    (hpass : c.Passes cfg fits checkOnly d) : d.Safe := by
  cases hpass with
  | start => exact h
  | cleared hclear => exact h.clears hclear
  | reverting hdue hgo hclear x hx hsame =>
    by_cases hvalid : x.valid = true
    · refine .running (by rwa [put_self]) fun _ => crc_eq_or (c := c) (.inl ?_)
      rw [put_self, put_of_ne recovery_ne_primary, hclear.of_ne recovery_ne_update, hx.crc_eq]
    have hupdate := h.update_reverting hdistinct hdue hclear hx (hsame hfits) hvalid
    obtain ⟨hrecoverable, -⟩ := revert_of_due hdue
    have hr : (_ : Slots).put .primary x c.recovery = c c.recovery :=
      (put_of_ne recovery_ne_primary).trans (hclear.of_ne recovery_ne_update)
    refine .reverting ?_ ?_ ?_
    · rwa [Recoverable, recovery_eq hupdate, hr]
    · rw [put_self, hx.mark_eq, Mark.flip_of_internal hrecoverable.1]
    · rw [put_self, recovery_eq hupdate, hr, hx.crc_eq]
  | saving hdue _ hneeds x =>
    refine .running ?_ fun hpaired => absurd hpaired (not_paired_of_update (c := c) ?_)
    · rw [put_of_ne recovery_ne_primary.symm]
      exact hneeds.2.2
    · rw [put_of_ne recovery_ne_update.symm, (duplicate_of_due hdue).1.1]
      rfl
  | installing hdue _ hsave => exact .updating ((duplicate_of_due hdue).1.installing hsave)
  | installed hdue _ hsave x _ hwhole y hy =>
    refine .running ?_ fun hpaired => absurd hpaired (not_paired_of_update (c := c) ?_)
    · rw [put_of_ne update_ne_primary.symm, put_self]
      exact (hwhole hfits).valid
    · rw [put_self, hy]
      rfl

theorem Safe.uploads (h : c.Safe) (hvalid : (c .primary).valid = true) (hupload : c.Uploads cfg d) : d.Safe := by
  cases hupload with
  | start => exact h
  | cleared hclear => exact h.clears hclear
  | writing x hx =>
    refine .running (by rwa [put_of_ne update_ne_primary.symm]) fun hpaired =>
      absurd hpaired (not_paired_of_update (c := c) ?_)
    rw [put_self, hx]
    rfl

theorem Safe.confirms (h : c.Safe) (hvalid : (c .primary).valid = true) (hconfirm : c.Confirms cfg d) : d.Safe := by
  cases hconfirm with
  | start => exact h
  | cleared hclear => exact h.clears hclear
  | writing _ x hx =>
    refine .running (by rwa [put_of_ne update_ne_primary.symm]) fun _ => crc_eq_or (c := c) (.inr ?_)
    rw [put_of_ne update_ne_primary.symm, put_self, hx.crc_eq]

/-- A boot that is not cut ends with a valid primary image. -/
theorem Safe.ends (h : c.Safe) (hend : c.Ends cfg false d) : (d .primary).valid = true := by
  cases hend with
  | idle hdue hclear =>
    rw [hclear.of_ne update_ne_primary.symm]
    rcases hdue with hdue | hgo
    · by_contra hinvalid
      have hback : c.Unwanted := .inr (Bool.eq_false_of_not_eq_true hinvalid)
      cases h with
      | running hvalid => exact hinvalid hvalid
      | updating h =>
        rw [due_of_new h fun hdup => hinvalid hdup.2.2.2] at hdue
        cases hdue
      | reverting h =>
        have hnot : c.due cfg ≠ .update := by
          rw [hdue]
          decide
        have hrevert := due_of_unwanted hnot h hback
        rw [hdue] at hrevert
        cases hrevert
    · exact absurd goes_false hgo
  | reverted _ _ _ x hx =>
    exact hx.valid
  | installed _ _ _ x hx =>
    rw [put_of_ne update_ne_primary.symm, put_self]
    exact hx.valid

end Slots

/-! ## Runs -/

def Partition.Erased (p : Partition) : Prop := ∀ b ∈ p.bytes, b = 0xff

instance (p : Partition) : Decidable p.Erased := inferInstanceAs (Decidable (∀ _ ∈ _, _))

theorem Partition.Erased.mark {p : Partition} (h : p.Erased) (hsize : headerLength ≤ p.size) (cfg : Config) :
    (content cfg p).mark = .blank := by
  have hbytes : p.bytes = List.replicate p.bytes.length 0xff := List.eq_replicate_of_mem h
  rw [content, getImageHeader_eq hsize, hbytes]
  refine ofMagic_decode_erased ?_
  exact Nat.le_trans (by decide) hsize

/-- How a system starts: an image in the primary slot, and the other slots erased. -/
structure Fresh (cfg : Config) (σ : Flash) : Prop where
  regular : σ.Regular
  valid : validateImage cfg true σ.primary = true
  secondary : σ.secondary.Erased
  tertiary : σ.tertiary.Erased

/-- The images fit every slot, and no two of them have the same CRC. -/
def Flash.Proper (cfg : Config) (σ : Flash) : Prop := σ.Fits cfg ∧ (σ.contents cfg).Distinct

instance (cfg : Config) (σ : Flash) : Decidable (σ.Proper cfg) := inferInstanceAs (Decidable (_ ∧ _))

/-- An application runs only if there is a valid primary image. -/
def Attended (cfg : Config) (σ : Flash) (l : Action × Option Nat) : Prop :=
  match l.1 with
  | .boot _ => True
  | _ => validateImage cfg true σ.primary = true

instance (cfg : Config) (σ : Flash) : (l : Action × Option Nat) → Decidable (Attended cfg σ l)
  | (.boot _, _) => inferInstanceAs (Decidable True)
  | (.upload _, _) => inferInstanceAs (Decidable (_ = _))
  | (.confirm, _) => inferInstanceAs (Decidable (_ = _))

section

variable {cfg : Config} {σ : Flash} {ls : List (Action × Option Nat)}

theorem Fresh.safe (h : Fresh cfg σ) : (σ.contents cfg).Safe := by
  refine .running h.valid fun hpaired => ?_
  have hblank := h.secondary.mark (h.regular .secondary).2.1 cfg
  have hinternal : (content cfg σ.secondary).mark.isInternal = true := hpaired.1
  rw [hblank] at hinternal
  cases hinternal

/-- The invariant of the flash between two steps. -/
def Flash.Safe (cfg : Config) (σ : Flash) : Prop := σ.Regular ∧ (σ.contents cfg).Safe

theorem step_safe (l : Action × Option Nat) (h : σ.Safe cfg) (hattended : Attended cfg σ l) (hproper : σ.Proper cfg) :
    (step cfg σ l).Safe cfg := by
  obtain ⟨hregular, hsafe⟩ := h
  obtain ⟨hlike, hleaves⟩ := step_leaves cfg hregular l
  refine ⟨hlike.regular hregular, ?_⟩
  obtain ⟨action, cut⟩ := l
  cases action with
  | upload image => exact hsafe.uploads hattended hleaves
  | confirm => exact hsafe.confirms hattended hleaves
  | boot checkOnly => exact hsafe.passes hproper.2 hproper.1 hleaves

theorem run_safe (hfresh : Fresh cfg σ) (hattended : Meets (step cfg) (Attended cfg) σ ls)
    (hproper : Always (step cfg) (Flash.Proper cfg) σ ls) : (run (step cfg) σ ls).Safe cfg :=
  run_induct (I := Flash.Safe cfg) (fun _ l hsafe hC => step_safe l hsafe hC.1 hC.2) ⟨hfresh.regular, hfresh.safe⟩
    (hattended.and hproper.meets)

/-- Wherever the power has failed, the next boot ends with a valid image in the primary slot. -/
theorem nxbootPerformUpdate_ok (hfresh : Fresh cfg σ) (hattended : Meets (step cfg) (Attended cfg) σ ls)
    (hproper : Always (step cfg) (Flash.Proper cfg) σ ls) :
    (nxbootPerformUpdate cfg false (run (step cfg) σ ls)).value = .ok ∧
      validateImage cfg true (nxbootPerformUpdate cfg false (run (step cfg) σ ls)).final.primary = true := by
  obtain ⟨hregular, hsafe⟩ := run_safe hfresh hattended hproper
  obtain ⟨⟨⟨-, hend⟩, hok⟩, -⟩ := wpc_nxbootPerformUpdate cfg hregular false
  have hvalid := hsafe.ends (hend hproper.last.1)
  exact ⟨hok.mpr hvalid, hvalid⟩

end

/-! ## An example -/

/-- A header and nothing else, with a version and a fill byte. -/
def sampleBytes (major fill : UInt8) : List UInt8 :=
  let body := le32 0 ++ List.replicate 12 0 ++ [major, 0, 0, 0, 0, 0] ++ List.replicate 94 fill
  le32 headerMagic ++ [0, 0, 128, 0] ++ le32 (Crc32.crc32 body) ++ body

def sampleImage (major fill : UInt8) : Image where
  bytes := sampleBytes major fill
  long := by
    rw [sampleBytes]
    simp [le32, headerLength]
  standard := leNat_le32 (by decide)

/-- Two blocks in one sector. -/
def samplePartition (bytes : List UInt8) (h : bytes.length = 128) : Partition where
  blocksize := 64
  erasesize := 128
  bytes := bytes
  block_pos := bareMagic.block_pos
  erase_pos := by decide
  whole_blocks := by decide
  whole_sectors := by rw [h]
  int_size := by
    rw [h]
    decide

def sampleErased : Partition := samplePartition (List.replicate 128 0xff) List.length_replicate

def sampleFlash : Flash := ⟨samplePartition (sampleBytes 1 0) (by decide +kernel), sampleErased, sampleErased⟩

def sampleConfig : Config := ⟨0, false⟩

/-- An update is uploaded, and the boot is cut in the middle of its installation. -/
def cutUpdate : List (Action × Option Nat) := [(.upload (sampleImage 2 7), none), (.boot false, some 3)]

theorem sampleFlash_fresh : Fresh sampleConfig sampleFlash := by
  constructor <;> decide +kernel

theorem nxbootPerformUpdate_ok_cutUpdate :
    Fresh sampleConfig sampleFlash ∧ Meets (step sampleConfig) (Attended sampleConfig) sampleFlash cutUpdate ∧
      Always (step sampleConfig) (Flash.Proper sampleConfig) sampleFlash cutUpdate ∧
      (nxbootPerformUpdate sampleConfig false (run (step sampleConfig) sampleFlash cutUpdate)).value = .ok := by
  have hattended : Meets (step sampleConfig) (Attended sampleConfig) sampleFlash cutUpdate := by
    decide +kernel
  have hproper : Always (step sampleConfig) (Flash.Proper sampleConfig) sampleFlash cutUpdate := by
    decide +kernel
  exact ⟨sampleFlash_fresh, hattended, hproper, (nxbootPerformUpdate_ok sampleFlash_fresh hattended hproper).1⟩

/-- A confirmation in the middle of an update, for which there is no running application, takes
the last valid image: it overwrites the head of the update. -/
theorem not_ok_confirmInUpdate :
    Fresh sampleConfig sampleFlash ∧
      Always (step sampleConfig) (Flash.Proper sampleConfig) sampleFlash (cutUpdate ++ [(.confirm, none)]) ∧
      (nxbootPerformUpdate sampleConfig false
        (run (step sampleConfig) sampleFlash (cutUpdate ++ [(.confirm, none)]))).value = .error := by
  refine ⟨sampleFlash_fresh, ?_, ?_⟩
  all_goals decide +kernel

end Boot.Nxboot
