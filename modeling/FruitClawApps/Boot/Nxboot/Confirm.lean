-- SUMMARY: A confirmation counts and lasts, unless an image carries an internal magic.
import FruitClawApps.Boot.Nxboot.PowerFail

/-!
# Confirmations

A confirmation writes the head of the primary image to the slot for updates. It counts if the magic
of the image names that slot, which `Orderly` says. A boot that copies a confirmed update to its
recovery turns the magic there into the standard one: the slots change their roles, and the
invariant breaks.
-/

namespace Boot.Nxboot

open Bytes Crash Transition

namespace Slots

variable {cfg : Config} {c d : Slots} {y : Content} {checkOnly : Bool} {fits : Prop}

theorem confirmed_iff : c.Confirmed ↔ (c .primary).mark = .standard ∨
    ∃ s : Slot, s ≠ .primary ∧ (c .primary).mark = .internal s.num ∧ (c s).mark.isInternal = true ∧
      (c .primary).crc = (c s).crc := by
  constructor
  · rintro (hstandard | ⟨hmark, hinternal, hcrc⟩ | ⟨hmark, hinternal, hcrc⟩)
    · exact .inl hstandard
    · exact .inr ⟨.secondary, by decide, hmark, hinternal, hcrc⟩
    · exact .inr ⟨.tertiary, by decide, hmark, hinternal, hcrc⟩
  rintro (hstandard | ⟨s, hs, hmark, hinternal, hcrc⟩)
  · exact .inl hstandard
  cases s with
  | primary => exact absurd rfl hs
  | secondary => exact .inr (.inl ⟨hmark, hinternal, hcrc⟩)
  | tertiary => exact .inr (.inr ⟨hmark, hinternal, hcrc⟩)

theorem Confirmed.standard (h : c.Confirmed) (hinternal : (c .primary).mark.isInternal ≠ true) :
    (c .primary).mark = .standard := by
  rcases confirmed_iff.mp h with hstandard | ⟨s, -, hmark, -⟩
  · exact hstandard
  · rw [hmark] at hinternal
    exact absurd rfl hinternal

theorem not_confirmed {s : Slot} (hmark : (c .primary).mark = .internal s.num) (hs : (c s).mark.isInternal = false) :
    ¬ c.Confirmed := by
  rw [confirmed_iff]
  rintro (hstandard | ⟨t, -, hmark', hinternal, -⟩)
  · rw [hmark] at hstandard
    cases hstandard
  rw [hmark, Mark.internal.injEq, Slot.num_inj] at hmark'
  rw [← hmark', hs] at hinternal
  cases hinternal

theorem tertiary_of_update (h : c.update = .secondary) : (c .tertiary).mark ≠ .standard := by
  intro hstandard
  rw [update, if_pos (.inl hstandard)] at h
  cases h

theorem Confirmed.put_update (h : c.Confirmed) (y : Content) : (c.put c.update y).Confirmed := by
  rw [confirmed_iff] at h ⊢
  rw [put_of_ne update_ne_primary.symm]
  rcases h with hstandard | ⟨s, hs, hmark, hinternal, hcrc⟩
  · exact .inl hstandard
  have hne : s ≠ c.update := by
    cases s with
    | primary => exact absurd rfl hs
    | secondary =>
      rw [update, if_pos (.inr ⟨hinternal, fun _ => ⟨hcrc, fun _ => hmark⟩⟩)]
      decide
    | tertiary =>
      rw [update, if_neg]
      · decide
      rintro (hstandard | ⟨-, h⟩)
      · exact Mark.ne_standard hinternal hstandard
      have hone := (h hinternal).2 (by rw [hmark]; rfl)
      rw [hmark] at hone
      cases hone
  exact .inr ⟨s, hs, hmark, by rwa [put_of_ne hne], by rwa [put_of_ne hne]⟩

theorem Confirmed.clears (h : c.Confirmed) (hclear : c.Clears cfg d) : d.Confirmed := by
  cases hclear with
  | kept => exact h
  | erased _ x => exact h.put_update x

/-! ## The invariant -/

/-- What the marks of the slots say of the primary image. -/
structure Orderly (c : Slots) : Prop where
  /-- An update in the tertiary slot has a recovery beside it. -/
  tertiary : (c .tertiary).mark = .standard → (c .secondary).mark.isInternal = true
  /-- An image that is not confirmed has come from the slot for updates. -/
  unconfirmed : ¬ c.Confirmed → (c .primary).mark = .internal c.update.num ∧ (c c.update).mark.isInternal = false

theorem Orderly.of_standard (hprimary : (c .primary).mark = .standard)
    (htertiary : (c .tertiary).mark = .standard → (c .secondary).mark.isInternal = true) : c.Orderly :=
  ⟨htertiary, fun h => absurd (.inl hprimary) h⟩

theorem Orderly.recovery_of_tertiary (h : c.Orderly) (hu : c.update = .tertiary) :
    (c .secondary).mark.isInternal = true := by
  unfold update at hu
  split_ifs at hu with hcase
  rcases hcase with hstandard | ⟨hinternal, -⟩
  · exact h.tertiary hstandard
  · exact hinternal

theorem Orderly.update_put (h : c.Orderly) (hy : y.mark.isInternal = false) : (c.put c.update y).update = c.update := by
  have hu : ((c.put c.update y) c.update).mark.isInternal = false := by rwa [put_self]
  rcases c.roles with ⟨hc, -⟩ | ⟨hc, hr⟩
  · rw [update_of_not_paired (not_paired_of_update hu), hc]
    rw [hc] at hu
    rw [if_neg]
    rintro (hstandard | hinternal)
    · exact tertiary_of_update hc hstandard
    · rw [hu] at hinternal
      cases hinternal
  · refine update_of_recovery ?_ hu
    rw [put_of_ne recovery_ne_update, hr]
    exact h.recovery_of_tertiary hc

theorem Orderly.put_update (h : c.Orderly) (hy : y.mark.isInternal = false) : (c.put c.update y).Orderly where
  tertiary hstandard := by
    rcases c.roles with ⟨hc, -⟩ | ⟨hc, -⟩
    · rw [hc, put_of_ne (by decide)] at hstandard
      exact absurd hstandard (tertiary_of_update hc)
    · rw [hc, put_of_ne (by decide)]
      exact h.recovery_of_tertiary hc
  unconfirmed hopen := by
    rw [h.update_put hy, put_self, put_of_ne update_ne_primary.symm]
    exact ⟨(h.unconfirmed fun hconfirmed => hopen (hconfirmed.put_update y)).1, hy⟩

theorem Orderly.clears (h : c.Orderly) (hclear : c.Clears cfg d) : d.Orderly := by
  cases hclear with
  | kept => exact h
  | erased _ x hx => exact h.put_update (by rw [hx]; rfl)

theorem Orderly.uploads (h : c.Orderly) (hupload : c.Uploads cfg d) : d.Orderly := by
  cases hupload with
  | start => exact h
  | cleared hclear => exact h.clears hclear
  | writing x hx => exact h.put_update (by rw [hx]; rfl)

theorem Orderly.confirmed_put (h : c.Orderly) (hopen : ¬ c.Confirmed) (hy : Copied (c .primary).mark (c .primary) y) :
    (c.put c.update y).Confirmed := by
  obtain ⟨hmark, -⟩ := h.unconfirmed hopen
  refine confirmed_iff.mpr (.inr ⟨c.update, update_ne_primary, ?_⟩)
  rw [put_self, put_of_ne update_ne_primary.symm, hy.mark_eq, hmark]
  exact ⟨rfl, rfl, hy.crc_eq.symm⟩

theorem Orderly.confirms (h : c.Orderly) (hconfirm : c.Confirms cfg d) : d.Orderly := by
  cases hconfirm with
  | start => exact h
  | cleared hclear => exact h.clears hclear
  | writing hopen x hx =>
    refine ⟨fun hstandard => ?_, fun hno => absurd (h.confirmed_put hopen hx) hno⟩
    rcases c.roles with ⟨hc, -⟩ | ⟨hc, -⟩
    · rw [hc, put_of_ne (by decide)] at hstandard
      exact absurd hstandard (tertiary_of_update hc)
    · rw [hc, put_self, hx.mark_eq, (h.unconfirmed hopen).1] at hstandard
      cases hstandard

theorem recovery_put (hy : y.mark.isInternal = true) :
    (c.put c.recovery y .tertiary).mark = .standard → (c.put c.recovery y .secondary).mark.isInternal = true := by
  intro hstandard
  rcases c.roles with ⟨-, hr⟩ | ⟨-, hr⟩
  · rw [hr, put_self] at hstandard
    exact absurd hstandard (Mark.ne_standard hy)
  · rwa [hr, put_self]

/-- A boot that makes a recovery of an image with an internal magic. -/
def Mislabels (cfg : Config) (checkOnly : Bool) (c : Slots) : Prop :=
  c.Goes checkOnly ∧ c.due cfg = .update ∧ c.NeedsRecovery ∧ (c .primary).mark.isInternal = true

theorem flip_of_not_mislabels (hno : ¬ c.Mislabels cfg checkOnly) (hgo : c.Goes checkOnly) (hdue : c.due cfg = .update)
    (hneeds : c.NeedsRecovery) : (c .primary).mark = .standard ∧ (c .primary).mark.flip = .internal 0 := by
  have hmark : (c .primary).mark = .standard :=
    hneeds.2.1.standard fun hinternal => hno ⟨hgo, hdue, hneeds, hinternal⟩
  exact ⟨hmark, by rw [hmark]; rfl⟩

theorem Orderly.saves (h : c.Orderly) (hno : ¬ c.Mislabels cfg checkOnly) (hgo : c.Goes checkOnly)
    (hdue : c.due cfg = .update) (hsave : c.Saves fits d) :
    ((d .tertiary).mark = .standard → (d .secondary).mark.isInternal = true) ∧ d.update = c.update ∧
      d c.update = c c.update := by
  cases hsave with
  | kept => exact ⟨h.tertiary, rfl, rfl⟩
  | saved hneeds y hy =>
    have hinternal : y.mark.isInternal = true := by
      rw [hy.mark_eq, (flip_of_not_mislabels hno hgo hdue hneeds).2]
      rfl
    have hupdate : c.put c.recovery y c.update = c c.update := put_of_ne recovery_ne_update.symm
    refine ⟨recovery_put hinternal, update_of_recovery (by rwa [put_self]) ?_, hupdate⟩
    rw [hupdate, (duplicate_of_due hdue).1.1]
    rfl

theorem Orderly.installing {x : Content} (h : c.Orderly) (hno : ¬ c.Mislabels cfg checkOnly) (hgo : c.Goes checkOnly)
    (hdue : c.due cfg = .update) (hsave : c.Saves fits d) (hx : Copied (.internal c.update.num) (c c.update) x) :
    (d.put .primary x).Orderly ∧ (d.put .primary x).update = c.update := by
  obtain ⟨htertiary, hupdate, hsame⟩ := h.saves hno hgo hdue hsave
  have hstandard : (d c.update).mark.isInternal = false := by
    rw [hsame, (duplicate_of_due hdue).1.1]
    rfl
  have hsecondary' : (d.put .primary x) .secondary = d .secondary := put_of_ne (by decide)
  have htertiary' : (d.put .primary x) .tertiary = d .tertiary := put_of_ne (by decide)
  have hupdate' : (d.put .primary x).update = c.update :=
    (update_congr_of_not_paired (by rw [hsecondary']) (by rw [htertiary'])
      (not_paired_of_update hstandard)).trans hupdate
  refine ⟨⟨by rwa [hsecondary', htertiary'], fun _ => ?_⟩, hupdate'⟩
  rw [hupdate', put_self, put_of_ne update_ne_primary]
  exact ⟨hx.mark_eq, hstandard⟩

theorem Orderly.passes (h : c.Orderly) (hno : ¬ c.Mislabels cfg checkOnly) (hpass : c.Passes cfg fits checkOnly d) :
    d.Orderly := by
  cases hpass with
  | start => exact h
  | cleared hclear => exact h.clears hclear
  | reverting hdue _ hclear x hx =>
    refine .of_standard ?_ ?_
    · rw [put_self, hx.mark_eq, Mark.flip_of_internal (revert_of_due hdue).1.1]
    · exact (h.clears hclear).tertiary
  | saving hdue hgo hneeds x hx =>
    obtain ⟨hmark, hflip⟩ := flip_of_not_mislabels hno hgo hdue hneeds
    refine .of_standard ?_ (recovery_put ?_)
    · rwa [put_of_ne recovery_ne_primary.symm]
    · rw [hx.mark_eq, hflip]
      rfl
  | installing hdue hgo hsave x hx => exact (h.installing hno hgo hdue hsave hx).1
  | installed hdue hgo hsave x hx _ y hy =>
    obtain ⟨horderly, hupdate⟩ := h.installing hno hgo hdue hsave hx
    rw [← hupdate]
    exact horderly.put_update (by rw [hy]; rfl)

/-! ## What follows -/

/-- A confirmed image without an update beside it. -/
structure Settled (cfg : Config) (c : Slots) : Prop where
  orderly : c.Orderly
  valid : (c .primary).valid = true
  confirmed : c.Confirmed
  due : c.due cfg ≠ .update

theorem Settled.due_eq (h : c.Settled cfg) : c.due cfg = .none := by
  cases hdue : c.due cfg with
  | none => rfl
  | update => exact absurd hdue h.due
  | revert =>
    rcases (revert_of_due hdue).2 with ⟨-, hopen⟩ | hinvalid
    · exact absurd h.confirmed hopen
    · rw [h.valid] at hinvalid
      cases hinvalid

theorem Settled.clears (h : c.Settled cfg) (hclear : c.Clears cfg d) : d.Settled cfg := by
  cases hclear with
  | kept => exact h
  | erased hdup x hx =>
    have hconfirmed := h.confirmed.clears (.erased hdup x hx)
    have hinternal : x.mark.isInternal = false := by
      rw [hx]
      rfl
    refine ⟨h.orderly.put_update hinternal, ?_, hconfirmed, fun hdue => ?_⟩
    · rw [put_of_ne update_ne_primary.symm]
      exact h.valid
    have hstandard := (duplicate_of_due hdue).1.1
    rw [h.orderly.update_put hinternal, put_self, hx] at hstandard
    cases hstandard

end Slots

/-! ## Runs -/

/-- The step is a boot that makes a recovery of an image with an internal magic. -/
def Mislabels (cfg : Config) (σ : Flash) (l : Action × Option Nat) : Prop :=
  match l.1 with
  | .boot checkOnly => (σ.contents cfg).Mislabels cfg checkOnly
  | _ => False

section

variable {cfg : Config} {σ : Flash} {ls : List (Action × Option Nat)}

theorem Fresh.orderly (h : Fresh cfg σ) (hstandard : (getImageHeader σ.primary).magic = headerMagic) :
    (σ.contents cfg).Orderly := by
  refine .of_standard (Mark.magic_eq_iff.mp hstandard) fun hno => ?_
  have hblank : (σ.contents cfg .tertiary).mark = .blank := h.tertiary.mark (h.regular .tertiary).2.1 cfg
  rw [hblank] at hno
  cases hno

/-- The invariant of the flash between two steps. -/
def Flash.Orderly (cfg : Config) (σ : Flash) : Prop := σ.Regular ∧ (σ.contents cfg).Orderly

theorem step_orderly (l : Action × Option Nat) (h : σ.Orderly cfg) (hlabels : ¬ Mislabels cfg σ l) :
    (step cfg σ l).Orderly cfg := by
  obtain ⟨hregular, horderly⟩ := h
  obtain ⟨hlike, hleaves⟩ := step_leaves cfg hregular l
  refine ⟨hlike.regular hregular, ?_⟩
  obtain ⟨action, cut⟩ := l
  cases action with
  | upload image => exact horderly.uploads hleaves
  | confirm => exact horderly.confirms hleaves
  | boot checkOnly => exact horderly.passes hlabels hleaves

theorem run_orderly (hfresh : Fresh cfg σ) (hstandard : (getImageHeader σ.primary).magic = headerMagic)
    (hlabels : Meets (step cfg) (fun σ l => ¬ Mislabels cfg σ l) σ ls) : (run (step cfg) σ ls).Orderly cfg :=
  run_induct (fun _ => step_orderly) ⟨hfresh.regular, hfresh.orderly hstandard⟩ hlabels

/-- A confirmation that ends well leaves a confirmed image. -/
theorem Flash.Orderly.confirmed (h : σ.Orderly cfg) (hok : (nxbootConfirm cfg σ).value = .ok) :
    (nxbootConfirm cfg σ).final.Orderly cfg ∧ ((nxbootConfirm cfg σ).final.contents cfg).Confirmed := by
  obtain ⟨hregular, horderly⟩ := h
  obtain ⟨⟨⟨hlike, hconfirms⟩, hdone, hnew⟩, -⟩ := wpc_nxbootConfirm cfg hregular
  refine ⟨⟨hlike.regular hregular, horderly.confirms hconfirms⟩, ?_⟩
  by_cases hconfirmed : (σ.contents cfg).Confirmed
  · exact hconfirmed.clears (hdone hconfirmed)
  obtain ⟨x, hx, hcontents⟩ := hnew hok hconfirmed
  rw [hcontents]
  exact horderly.confirmed_put hconfirmed hx

/-- A settled flash with the given primary slot. -/
def Flash.Settled (cfg : Config) (p : Partition) (σ : Flash) : Prop :=
  σ.Regular ∧ (σ.contents cfg).Settled cfg ∧ σ.primary = p

theorem boot_settled {p : Partition} {checkOnly : Bool} {cut : Option Nat} (h : σ.Settled cfg p) :
    (step cfg σ (.boot checkOnly, cut)).Settled cfg p := by
  obtain ⟨hregular, hsettled, hprimary⟩ := h
  have hcleared : (σ.cleared cfg).Settled cfg p :=
    ⟨(Flash.Like.cleared cfg σ).regular hregular, hsettled.clears (Flash.cleared_clears cfg hregular),
      (Flash.cleared_get Slots.update_ne_primary.symm).trans hprimary⟩
  have hboot : wpc (nxbootPerformUpdate cfg checkOnly) (fun _ => Flash.Settled cfg p) (Flash.Settled cfg p) σ := by
    refine wpc_mono ?_ ?_ (wpc_nxbootPerformUpdate_idle (.inl hsettled.due_eq))
    · rintro _ _ rfl
      exact hcleared
    · rintro _ rfl
      exact ⟨hregular, hsettled, hprimary⟩
  exact hboot.cut (fun _ _ h => h) cut

/-- A confirmation that ends well with a valid primary image counts, and if no update is waiting,
boots leave the primary slot as it is, wherever they are cut. -/
theorem nxbootConfirm_lasts (hfresh : Fresh cfg σ) (hstandard : (getImageHeader σ.primary).magic = headerMagic)
    (hlabels : Meets (step cfg) (fun σ l => ¬ Mislabels cfg σ l) σ ls) {τ : Flash}
    (hτ : τ = (nxbootConfirm cfg (run (step cfg) σ ls)).final)
    (hok : (nxbootConfirm cfg (run (step cfg) σ ls)).value = .ok) (hvalid : validateImage cfg true τ.primary = true) :
    (nxbootGetConfirm τ).value = 1 ∧
      ((nxbootGetState cfg τ).value.nextBoot ≠ .update →
        ∀ bs : List (Action × Option Nat), (∀ b ∈ bs, ∃ checkOnly, b.1 = .boot checkOnly) →
          (run (step cfg) τ bs).primary = τ.primary) := by
  subst hτ
  obtain ⟨⟨hregular, horderly⟩, hconfirmed⟩ := (run_orderly hfresh hstandard hlabels).confirmed hok
  refine ⟨nxbootGetConfirm_of_confirmed hconfirmed, fun hdue bs hboots => ?_⟩
  rw [nxbootGetState_value] at hdue
  refine (run_induct (I := Flash.Settled cfg _) ?_ ⟨hregular, ⟨horderly, hvalid, hconfirmed, hdue⟩, rfl⟩
    (Meets.of_labels hboots)).2.2
  rintro σ ⟨action, cut⟩ hsettled ⟨checkOnly, rfl⟩
  exact boot_settled hsettled

end

/-! ## The two queries -/

/-- If the primary image has the CRC of the slot that its pointer is taken for, then the pointer is
a slot number and the slot holds an internal image. -/
def Slots.Traced (c : Slots) : Prop :=
  ∀ pointer, (c .primary).mark = .internal pointer → pointer ≠ 0 → (c .primary).crc = (c (pointed pointer)).crc →
    pointer ≤ 2 ∧ (c (pointed pointer)).mark.isInternal = true

/-- Only `nxboot_get_state` looks at the magic of the recovery slot, and only it tells the pointers
2 and 3 apart. -/
theorem nxbootGetConfirm_iff_state (cfg : Config) (σ : Flash) :
    ((nxbootGetConfirm σ).value = 1 ↔ (nxbootGetState cfg σ).value.primaryConfirmed = true) ↔
      (σ.contents cfg).Traced := by
  rw [nxbootGetState_value, Slots.state_confirmed]
  refine ⟨fun h pointer hmark hpointer hcrc => ?_, fun h => ⟨fun hone => ?_, nxbootGetConfirm_of_confirmed⟩⟩
  · have hconfirmed := h.mp ((nxbootGetConfirm_eq_one_iff cfg).mpr (.inr ⟨pointer, hmark, hpointer, hcrc⟩))
    rw [Slots.Confirmed, hmark] at hconfirmed
    rcases hconfirmed with h | ⟨h, hinternal, -⟩ | ⟨h, hinternal, -⟩
    · cases h
    · cases h
      exact ⟨by decide, hinternal⟩
    · cases h
      exact ⟨by decide, hinternal⟩
  · rcases (nxbootGetConfirm_eq_one_iff cfg).mp hone with hmark | ⟨pointer, hmark, hpointer, hcrc⟩
    · exact .inl hmark
    obtain ⟨hle, hinternal⟩ := h pointer hmark hpointer hcrc
    have hcases : pointer = 1 ∨ pointer = 2 := by omega
    rcases hcases with rfl | rfl
    · exact .inr (.inl ⟨hmark, hinternal, hcrc⟩)
    · exact .inr (.inr ⟨hmark, hinternal, hcrc⟩)

set_option maxRecDepth 20000 in
/-- An image that is uploaded again over the recovery that the primary image points to. -/
theorem not_nxbootGetConfirm_iff_state :
    let σ : Flash := ⟨samplePartition (patched (headerMagicInt + 1) (sampleBytes 1 0)) (by decide),
      samplePartition (sampleBytes 1 0) (by decide), sampleErased⟩
    validateImage sampleConfig true σ.primary = true ∧ (nxbootGetConfirm σ).value = 1 ∧
      (nxbootGetState sampleConfig σ).value.primaryConfirmed = false := by
  decide +kernel

/-! ## An example -/

instance (cfg : Config) (checkOnly : Bool) (c : Slots) : Decidable (c.Mislabels cfg checkOnly) :=
  inferInstanceAs (Decidable (¬ _ ∧ _))

instance (cfg : Config) (σ : Flash) : (l : Action × Option Nat) → Decidable (Mislabels cfg σ l)
  | (.boot _, _) => inferInstanceAs (Decidable (Slots.Mislabels ..))
  | (.upload _, _) => inferInstanceAs (Decidable False)
  | (.confirm, _) => inferInstanceAs (Decidable False)

/-- A first update, and a confirmation that is cut behind the first block of the header. -/
def cutConfirm : List (Action × Option Nat) :=
  [(.upload (sampleImage 2 7), none), (.boot false, none), (.confirm, some 1)]

theorem nxbootConfirm_lasts_cutConfirm :
    (nxbootGetConfirm (nxbootConfirm sampleConfig (run (step sampleConfig) sampleFlash cutConfirm)).final).value = 1 :=
  (nxbootConfirm_lasts sampleFlash_fresh (by decide +kernel) (by decide +kernel) rfl (by decide +kernel)
    (by decide +kernel)).1

/-- After another update the confirmation ends well and does not count: the recovery of the first
update has taken the role of the update. -/
theorem not_counted_afterCutConfirm :
    Fresh sampleConfig sampleFlash ∧
      (let τ := run (step sampleConfig) sampleFlash
          (cutConfirm ++ [(.upload (sampleImage 3 9), none), (.boot false, none)])
       validateImage sampleConfig true τ.primary = true ∧ (nxbootConfirm sampleConfig τ).value = .ok ∧
        (nxbootGetConfirm (nxbootConfirm sampleConfig τ).final).value = 0) := by
  refine ⟨sampleFlash_fresh, ?_⟩
  decide +kernel

end Boot.Nxboot
