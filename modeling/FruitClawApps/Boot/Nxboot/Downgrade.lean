-- SUMMARY: Exactly when downgrade prevention keeps a lower version out.
import FruitClawApps.Boot.Nxboot.PowerFail

/-!
# Downgrades

An update whose CRC is that of the primary image is taken out of its slot if `compare_versions`
finds a greater field in the first version. An update with another CRC is installed whatever its
version is.
-/

namespace Boot.Nxboot

open Bytes Crash

/-- The order of (major, minor, patch). -/
def Version.Lower (v w : Version) : Prop :=
  v.major < w.major ∨ v.major = w.major ∧ (v.minor < w.minor ∨ v.minor = w.minor ∧ v.patch < w.patch)

instance (v w : Version) : Decidable (v.Lower w) := inferInstanceAs (Decidable (_ ∨ _))

section

variable {cfg : Config} {σ : Flash} {checkOnly : Bool}

/-- A lower version has a field that is less. -/
theorem Version.Lower.compareVersions {v w : Version} (h : v.Lower w) (hprevent : cfg.preventDowngrade = true) :
    compareVersions cfg w v = true := by
  simp only [Nxboot.compareVersions, hprevent, Bool.not_true, Bool.false_eq_true, if_false, Bool.or_eq_true,
    decide_eq_true_iff]
  rcases h with h | ⟨-, h | ⟨-, h⟩⟩
  · exact .inl (.inl h)
  · exact .inl (.inr h)
  · exact .inr h

/-- The image in the slot for updates has a lower version than the one in the primary slot. -/
def Flash.Downgrade (cfg : Config) (σ : Flash) : Prop :=
  (getImageHeader (σ.get (nxbootGetState cfg σ).value.update)).version.Lower (getImageHeader σ.primary).version

/-- A boot, cut or not, that changes the primary slot for an update does not lower the version. -/
def Flash.Upholds (cfg : Config) (checkOnly : Bool) (σ : Flash) : Prop :=
  ∀ cut : Option Nat, (nxbootGetState cfg σ).value.nextBoot = .update →
    (step cfg σ (.boot checkOnly, cut)).primary ≠ σ.primary → ¬ σ.Downgrade cfg

/-- A valid image with the standard magic is in the slot for updates, which has another CRC. -/
def Flash.Offered (cfg : Config) (σ : Flash) : Prop :=
  let update := σ.get (nxbootGetState cfg σ).value.update
  (getImageHeader update).magic = headerMagic ∧ validateImage cfg true update = true ∧
    (getImageHeader update).crc ≠ (getImageHeader σ.primary).crc

theorem Flash.offered_iff :
    σ.Offered cfg ↔ (σ.contents cfg).Uploaded ∧
      (σ.contents cfg .primary).crc ≠ (σ.contents cfg (σ.contents cfg).update).crc := by
  rw [Offered, nxbootGetState_value, Mark.magic_eq_iff, ← and_assoc]
  exact and_congr_right' ne_comm

/-- The update is not offered if it has the CRC of a primary image with a higher version. -/
theorem Flash.offered_of_due (hprevent : cfg.preventDowngrade = true) (hvalid : validateImage cfg true σ.primary = true)
    (hdue : (σ.contents cfg).due cfg = .update) (hlower : σ.Downgrade cfg) : σ.Offered cfg := by
  obtain ⟨huploaded, hnew⟩ := Slots.duplicate_of_due hdue
  refine offered_iff.mpr ⟨huploaded, fun hcrc => hnew ⟨huploaded, hcrc, ?_, hvalid⟩⟩
  rw [Downgrade, nxbootGetState_value] at hlower
  exact hlower.compareVersions hprevent

theorem Flash.upholds_of_checkOnly (hvalid : validateImage cfg true σ.primary = true) : σ.Upholds cfg true := by
  intro cut hdue hchanged
  rw [nxbootGetState_value] at hdue
  have hidle : ¬ (σ.contents cfg).Goes true := fun hgo => hgo ⟨rfl, hvalid⟩
  refine absurd ?_ hchanged
  refine congrArg primary ((wpc_nxbootPerformUpdate_idle (.inr hidle)).cut (C := fun τ => τ = σ) ?_ cut)
  rintro _ _ rfl
  exact cleared_of_due hdue

/-- A boot with an update ends with its CRC in the primary slot. -/
theorem Slots.Ends.crc_of_due {c d : Slots} (h : c.Ends cfg false d) (hdue : c.due cfg = .update) :
    (d .primary).crc = (c c.update).crc := by
  cases h with
  | idle hidle =>
    rcases hidle with hnone | hgo
    · rw [hdue] at hnone
      cases hnone
    · exact absurd goes_false hgo
  | reverted hrevert =>
    rw [hdue] at hrevert
    cases hrevert
  | installed _ _ _ x hx =>
    rw [put_of_ne update_ne_primary.symm, put_self]
    exact hx.crc_eq

/-- An update with another CRC is installed, so the primary slot changes. -/
theorem Flash.primary_ne_of_offered (hregular : σ.Regular) (hfits : σ.Fits cfg) (h : σ.Offered cfg) :
    (σ.contents cfg).due cfg = .update ∧ (step cfg σ (.boot false, none)).primary ≠ σ.primary := by
  obtain ⟨huploaded, hcrc⟩ := offered_iff.mp h
  have hdue : (σ.contents cfg).due cfg = .update := Slots.due_of_new huploaded fun hdup => hcrc hdup.2.1
  refine ⟨hdue, fun hsame => hcrc ?_⟩
  obtain ⟨⟨⟨-, hend⟩, -⟩, -⟩ := wpc_nxbootPerformUpdate cfg hregular false
  have hprimary : (step cfg σ (.boot false, none)).contents cfg .primary = σ.contents cfg .primary :=
    congrArg (content cfg) hsame
  rw [← hprimary]
  exact (hend hfits).crc_of_due hdue

/-- With downgrade prevention, a boot with a valid primary image does not install a lower version
if it only checks, or if no such version is offered with another CRC. If the images fit the slots,
it does in every other case. -/
theorem nxbootPerformUpdate_downgrade (hprevent : cfg.preventDowngrade = true)
    (hvalid : validateImage cfg true σ.primary = true) :
    ((checkOnly = true ∨ ¬ (σ.Offered cfg ∧ σ.Downgrade cfg)) → σ.Upholds cfg checkOnly) ∧
      (σ.Regular → σ.Fits cfg → σ.Upholds cfg checkOnly → checkOnly = true ∨ ¬ (σ.Offered cfg ∧ σ.Downgrade cfg)) := by
  constructor
  · rintro (rfl | hno)
    · exact Flash.upholds_of_checkOnly hvalid
    intro cut hdue _ hlower
    rw [nxbootGetState_value] at hdue
    exact hno ⟨Flash.offered_of_due hprevent hvalid hdue hlower, hlower⟩
  intro hregular hfits hupholds
  cases checkOnly with
  | true => exact .inl rfl
  | false =>
    refine .inr fun ⟨hoffered, hlower⟩ => ?_
    obtain ⟨hdue, hchanged⟩ := Flash.primary_ne_of_offered hregular hfits hoffered
    exact hupholds none (by rw [nxbootGetState_value]; exact hdue) hchanged hlower

end

/-- A flash with an update in its slot. -/
def offeringFlash (primary update : UInt8) (fill : UInt8) : Flash :=
  ⟨samplePartition (sampleBytes primary 0) (by simp [sampleBytes, le32]),
    samplePartition (sampleBytes update fill) (by simp [sampleBytes, le32]), sampleErased⟩

instance (cfg : Config) (σ : Flash) : Decidable (σ.Offered cfg) := inferInstanceAs (Decidable (_ ∧ _))

instance (cfg : Config) (σ : Flash) : Decidable (σ.Downgrade cfg) := inferInstanceAs (Decidable (Version.Lower _ _))

theorem nxbootPerformUpdate_downgrade_newer : (offeringFlash 1 2 7).Upholds ⟨0, true⟩ false :=
  (nxbootPerformUpdate_downgrade rfl (by decide +kernel)).1 (.inr (by decide +kernel))

/-- Version 1 is installed over version 2. -/
theorem not_upholds_older :
    validateImage ⟨0, true⟩ true (offeringFlash 2 1 7).primary = true ∧
      ¬ (offeringFlash 2 1 7).Upholds ⟨0, true⟩ false := by
  refine ⟨by decide +kernel, fun h => ?_⟩
  exact h none (by decide +kernel) (by decide +kernel) (by decide +kernel)

end Boot.Nxboot
