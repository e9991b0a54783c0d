-- SUMMARY: Until an update is confirmed, a copy of the old image is kept and put back.
import FruitClawApps.Boot.Nxboot.Confirm

/-!
# Rollback

The image to return to is the last one that was valid and confirmed between two steps. A run
carries it along as a ghost. It is in the primary slot, or the slot with the role of the recovery
has a valid copy of it.
-/

namespace Boot.Nxboot

open Bytes Crash Transition

namespace Slots

variable {cfg : Config} {c d : Slots} {g : List UInt8} {checkOnly : Bool} {fits : Prop}

/-- The primary slot holds a valid image that is confirmed. -/
def Approved (c : Slots) : Prop := (c .primary).valid = true ∧ c.Confirmed

instance (c : Slots) : Decidable c.Approved := inferInstanceAs (Decidable (_ ∧ _))

/-- The image to return to, once a step has led to these slots. -/
def approve (g : List UInt8) (c : Slots) : List UInt8 := if c.Approved then (c .primary).body else g

/-- A recovery of the image to return to. -/
structure Backed (g : List UInt8) (c : Slots) : Prop where
  recoverable : c.Recoverable
  body : (c c.recovery).body = g

/-- Where the image to return to is. -/
inductive Guarded (g : List UInt8) (c : Slots) : Prop
  | approved (h : c.Approved) (hbody : (c .primary).body = g)
  | updated (hopen : ¬ c.Confirmed) (h : c.Backed g)
  | reverting (hmark : (c .primary).mark = .standard) (hinvalid : (c .primary).valid = false)
      (hcrc : (c .primary).crc = (c c.recovery).crc) (h : c.Backed g)

theorem Guarded.of_approved (h : c.Approved) : c.Guarded (c.approve g) :=
  .approved h (if_pos h).symm

theorem approve_of_not (h : ¬ c.Approved) : c.approve g = g := if_neg h

theorem Guarded.of_open (hopen : ¬ c.Confirmed) (h : c.Backed g) : c.Guarded (c.approve g) := by
  rw [approve_of_not fun happroved => hopen happroved.2]
  exact .updated hopen h

theorem Backed.congr (h : c.Backed g) (hupdate : d.update = c.update) (hrecovery : d c.recovery = c c.recovery) :
    d.Backed g := by
  refine ⟨?_, ?_⟩
  · rw [Recoverable, recovery_eq hupdate, hrecovery]
    exact h.recoverable
  · rw [recovery_eq hupdate, hrecovery]
    exact h.body

theorem Guarded.put_update {y : Content} (h : c.Guarded g) (horderly : c.Orderly)
    (hvalid : (c .primary).valid = true) (hy : y.mark.isInternal = false) :
    (c.put c.update y).Guarded ((c.put c.update y).approve g) := by
  have hprimary : c.put c.update y .primary = c .primary := put_of_ne update_ne_primary.symm
  cases h with
  | approved happroved _ => exact .of_approved ⟨by rwa [hprimary], happroved.2.put_update y⟩
  | updated hopen hbacked =>
    refine .of_open (not_confirmed (s := c.update) ?_ ?_)
      (hbacked.congr (horderly.update_put hy) (put_of_ne recovery_ne_update))
    · rw [hprimary]
      exact (horderly.unconfirmed hopen).1
    · rwa [put_self]
  | reverting _ hinvalid =>
    rw [hvalid] at hinvalid
    cases hinvalid

theorem Guarded.start (h : c.Guarded g) : c.Guarded (c.approve g) := by
  by_cases happroved : c.Approved
  · exact .of_approved happroved
  · rwa [approve_of_not happroved]

theorem Guarded.clears (h : c.Guarded g) (horderly : c.Orderly) (hclear : c.Clears cfg d) :
    d.Guarded (d.approve g) := by
  cases hclear with
  | kept => exact h.start
  | erased hdup x hx => exact h.put_update horderly hdup.2.2.2 (by rw [hx]; rfl)

theorem Guarded.uploads (h : c.Guarded g) (horderly : c.Orderly) (hvalid : (c .primary).valid = true)
    (hupload : c.Uploads cfg d) : d.Guarded (d.approve g) := by
  cases hupload with
  | start => exact h.start
  | cleared hclear => exact h.clears horderly hclear
  | writing x hx => exact h.put_update horderly hvalid (by rw [hx]; rfl)

theorem Guarded.confirms (h : c.Guarded g) (horderly : c.Orderly) (hvalid : (c .primary).valid = true)
    (hconfirm : c.Confirms cfg d) : d.Guarded (d.approve g) := by
  cases hconfirm with
  | start => exact h.start
  | cleared hclear => exact h.clears horderly hclear
  | writing hopen x hx =>
    exact .of_approved ⟨by rwa [put_of_ne update_ne_primary.symm], horderly.confirmed_put hopen hx⟩

theorem Orderly.recovery_internal (h : c.Orderly) (hvalid : (c c.recovery).mark ≠ .blank) :
    (c c.recovery).mark.isInternal = true := by
  rcases c.roles with ⟨hu, hr⟩ | ⟨hu, hr⟩
  · rw [hr] at hvalid ⊢
    have hstandard := tertiary_of_update hu
    cases hmark : (c .tertiary).mark with
    | standard => exact absurd hmark hstandard
    | internal => rfl
    | blank => exact absurd hmark hvalid
  · rw [hr]
    exact h.recovery_of_tertiary hu

/-- When an update goes to the primary slot there is a recovery of the image to return to. -/
theorem Guarded.saves (h : c.Guarded g) (horderly : c.Orderly) (hdistinct : c.Distinct)
    (hmarked : ∀ s, (c s).valid = true → (c s).mark ≠ .blank) (hno : ¬ c.Mislabels cfg checkOnly)
    (hgo : c.Goes checkOnly) (hdue : c.due cfg = .update) (hfits : fits) (hsave : c.Saves fits d) : d.Backed g := by
  have hroles := (horderly.saves hno hgo hdue hsave).2.1
  cases h with
  | approved happroved hbody =>
    cases hsave with
    | kept hneeds =>
      have hpresent : (c .primary).crc = (c c.recovery).crc ∧ (c c.recovery).valid = true := by
        have hno : ¬ c.NeedsRecovery := hneeds hfits
        simp only [NeedsRecovery, happroved.1, happroved.2, and_true, not_or, not_not, Bool.not_eq_false] at hno
        exact hno
      obtain ⟨hcrc, hvalid⟩ := hpresent
      refine ⟨⟨horderly.recovery_internal (hmarked _ hvalid), hvalid⟩, ?_⟩
      rw [← hbody, hdistinct _ _ happroved.1 hvalid hcrc]
    | saved hneeds y hy _ hwhole =>
      have hcloned := hwhole hfits
      refine ⟨⟨?_, ?_⟩, ?_⟩
      · rw [recovery_eq hroles, put_self, hy.mark_eq, (flip_of_not_mislabels hno hgo hdue hneeds).2]
        rfl
      · rw [recovery_eq hroles, put_self]
        exact hcloned.valid
      · rw [recovery_eq hroles, put_self, hcloned.body, hbody]
  | updated hopen hbacked =>
    cases hsave with
    | kept => exact hbacked
    | saved hneeds => exact absurd hneeds.2.1 hopen
  | reverting _ hinvalid _ hbacked =>
    cases hsave with
    | kept => exact hbacked
    | saved hneeds =>
      rw [hneeds.2.2] at hinvalid
      cases hinvalid

theorem Backed.installing {x : Content} (h : d.Backed g) (horderly : c.Orderly) (hno : ¬ c.Mislabels cfg checkOnly)
    (hgo : c.Goes checkOnly) (hdue : c.due cfg = .update) (hsave : c.Saves fits d)
    (hx : Copied (.internal c.update.num) (c c.update) x) : (d.put .primary x).Guarded g := by
  obtain ⟨-, hroles, hsame⟩ := horderly.saves hno hgo hdue hsave
  have hroles' := (horderly.installing hno hgo hdue hsave hx).2
  refine .updated (not_confirmed (s := c.update) ?_ ?_)
    (h.congr (hroles'.trans hroles.symm) (put_of_ne recovery_ne_primary))
  · exact hx.mark_eq
  · rw [put_of_ne update_ne_primary, hsame, (duplicate_of_due hdue).1.1]
    rfl

theorem Guarded.update_reverting {x : Content} (h : c.Guarded g) (horderly : c.Orderly) (hdue : c.due cfg = .revert)
    (hclear : c.Clears cfg d) (hx : Copied (c c.recovery).mark.flip (c c.recovery) x) :
    c.Backed g ∧ (d.put .primary x).update = c.update := by
  obtain ⟨hrecoverable, hunwanted⟩ := revert_of_due hdue
  cases h with
  | approved happroved =>
    rcases hunwanted with ⟨-, hopen⟩ | hinvalid
    · exact absurd happroved.2 hopen
    · rw [happroved.1] at hinvalid
      cases hinvalid
  | updated hopen hbacked =>
    refine ⟨hbacked, update_of_recovery ?_ ?_⟩
    · rw [put_of_ne recovery_ne_primary, hclear.of_ne recovery_ne_update]
      exact hrecoverable.1
    rw [put_of_ne update_ne_primary]
    cases hclear with
    | kept => exact (horderly.unconfirmed hopen).2
    | erased _ y hy =>
      rw [put_self, hy]
      rfl
  | reverting hmark hinvalid hcrc hbacked =>
    refine ⟨hbacked, ?_⟩
    cases hclear with
    | erased hdup =>
      rw [hdup.2.2.2] at hinvalid
      cases hinvalid
    | kept =>
      -- the head of the recovery is in the primary slot already
      have hhead (s : Slot) : (c.put .primary x s).mark = (c s).mark ∧ (c.put .primary x s).crc = (c s).crc := by
        by_cases hs : s = .primary
        · rw [hs, put_self, hx.mark_eq, hx.crc_eq, Mark.flip_of_internal hrecoverable.1, hmark, hcrc]
          exact ⟨rfl, rfl⟩
        · rw [put_of_ne hs]
          exact ⟨rfl, rfl⟩
      exact update_congr (fun s => (hhead s).1) fun s => (hhead s).2

/-- A boot keeps the image to return to, wherever it is cut. -/
theorem Guarded.passes (h : c.Guarded g) (horderly : c.Orderly) (hdistinct : c.Distinct)
    (hmarked : ∀ s, (c s).valid = true → (c s).mark ≠ .blank) (hno : ¬ c.Mislabels cfg checkOnly) (hfits : fits)
    (hpass : c.Passes cfg fits checkOnly d) : d.Guarded (d.approve g) := by
  cases hpass with
  | start => exact h.start
  | cleared hclear => exact h.clears horderly hclear
  | reverting hdue _ hclear x hx =>
    have hmark : x.mark = .standard := by
      rw [hx.mark_eq, Mark.flip_of_internal (revert_of_due hdue).1.1]
    by_cases hvalid : x.valid = true
    · refine .of_approved ⟨by rwa [put_self], .inl ?_⟩
      rwa [put_self]
    obtain ⟨hbacked, hroles⟩ := h.update_reverting horderly hdue hclear hx
    have hsame := (put_of_ne recovery_ne_primary (x := x)).trans (hclear.of_ne recovery_ne_update)
    rw [approve_of_not fun happroved => hvalid (by rw [← put_self (x := x)]; exact happroved.1)]
    refine .reverting ?_ ?_ ?_ (hbacked.congr hroles hsame)
    · rwa [put_self]
    · exact Bool.eq_false_of_not_eq_true hvalid
    · rw [put_self, recovery_eq hroles, hsame, hx.crc_eq]
  | saving hdue hgo hneeds x =>
    have hmark := (flip_of_not_mislabels hno hgo hdue hneeds).1
    refine .of_approved ⟨?_, .inl ?_⟩
    · rw [put_of_ne recovery_ne_primary.symm]
      exact hneeds.2.2
    · rwa [put_of_ne recovery_ne_primary.symm]
  | installing hdue hgo hsave x hx =>
    have hbacked := h.saves horderly hdistinct hmarked hno hgo hdue hfits hsave
    exact (hbacked.installing horderly hno hgo hdue hsave hx).start
  | installed hdue hgo hsave x hx hwhole y hy =>
    have hbacked := h.saves horderly hdistinct hmarked hno hgo hdue hfits hsave
    obtain ⟨horderly', hroles⟩ := horderly.installing hno hgo hdue hsave hx
    have hguarded := (hbacked.installing horderly hno hgo hdue hsave hx).put_update horderly'
      (by rw [put_self]; exact (hwhole hfits).valid) (y := y) (by rw [hy]; rfl)
    rwa [hroles] at hguarded

theorem Guarded.held (h : c.Guarded g) : ∃ s, (c s).valid = true ∧ (c s).body = g := by
  cases h with
  | approved h hbody => exact ⟨_, h.1, hbody⟩
  | updated _ h => exact ⟨_, h.recoverable.2, h.body⟩
  | reverting _ _ _ h => exact ⟨_, h.recoverable.2, h.body⟩

/-- A boot without an update puts it back. -/
theorem Guarded.ends (h : c.Guarded g) (hopen : ¬ c.Approved) (horderly : c.Orderly) (hdue : c.due cfg ≠ .update)
    (hend : c.Ends cfg false d) : (d .primary).valid = true ∧ (d .primary).body = g := by
  obtain ⟨hbacked, hunwanted⟩ : c.Backed g ∧ c.Unwanted := by
    cases h with
    | approved happroved => exact absurd happroved hopen
    | updated hopen hbacked =>
      refine ⟨hbacked, .inl ⟨?_, hopen⟩⟩
      rw [(horderly.unconfirmed hopen).1]
      rfl
    | reverting _ hinvalid _ hbacked => exact ⟨hbacked, .inr hinvalid⟩
  have hrevert := due_of_unwanted hdue hbacked.recoverable hunwanted
  cases hend with
  | idle hidle =>
    rcases hidle with hnone | hgo
    · rw [hrevert] at hnone
      cases hnone
    · exact absurd goes_false hgo
  | reverted _ _ _ x hx =>
    exact ⟨hx.valid, hx.body.trans hbacked.body⟩
  | installed hupdate => exact absurd hupdate hdue

end Slots

/-! ## Runs -/

/-- A step that keeps the last image which was valid and confirmed. -/
def trackedStep (cfg : Config) (s : Flash × List UInt8) (l : Action × Option Nat) : Flash × List UInt8 :=
  (step cfg s.1 l, ((step cfg s.1 l).contents cfg).approve s.2)

section

variable {cfg : Config} {σ : Flash} {ls : List (Action × Option Nat)}

/-- The invariant of a tracked flash. -/
def Tracked (cfg : Config) (s : Flash × List UInt8) : Prop :=
  s.1.Orderly cfg ∧ (s.1.contents cfg).Guarded s.2

theorem Flash.contents_marked (s : Slot) (h : (σ.contents cfg s).valid = true) : (σ.contents cfg s).mark ≠ .blank := by
  rw [Flash.valid_contents, validateImage, Bool.and_eq_true, validateImageHeader_iff] at h
  exact h.1.1

theorem trackedStep_tracked (s : Flash × List UInt8) (l : Action × Option Nat) (h : Tracked cfg s)
    (hattended : Attended cfg s.1 l) (hlabels : ¬ Mislabels cfg s.1 l) (hproper : s.1.Proper cfg) :
    Tracked cfg (trackedStep cfg s l) := by
  obtain ⟨horderly, hguarded⟩ := h
  refine ⟨step_orderly l horderly hlabels, ?_⟩
  have hleaves := (step_leaves cfg horderly.1 l).2
  obtain ⟨action, cut⟩ := l
  cases action with
  | upload image => exact hguarded.uploads horderly.2 hattended hleaves
  | confirm => exact hguarded.confirms horderly.2 hattended hleaves
  | boot checkOnly =>
    exact hguarded.passes horderly.2 hproper.2 Flash.contents_marked hlabels hproper.1 hleaves

theorem run_tracked (hfresh : Fresh cfg σ) (hstandard : (getImageHeader σ.primary).magic = headerMagic)
    (hattended : Meets (step cfg) (Attended cfg) σ ls)
    (hlabels : Meets (step cfg) (fun σ l => ¬ Mislabels cfg σ l) σ ls)
    (hproper : Always (step cfg) (Flash.Proper cfg) σ ls) :
    (run (trackedStep cfg) (σ, (σ.contents cfg .primary).body) ls).1 = run (step cfg) σ ls ∧
      Tracked cfg (run (trackedStep cfg) (σ, (σ.contents cfg .primary).body) ls) := by
  have happroved : (σ.contents cfg).Approved := ⟨hfresh.valid, .inl (Mark.magic_eq_iff.mp hstandard)⟩
  -- the tracked run simulates the run, label by label
  suffices hrun : (run (trackedStep cfg) (σ, (σ.contents cfg .primary).body) (ls.map id)).1 = run (step cfg) σ ls ∧
      Tracked cfg (run (trackedStep cfg) (σ, (σ.contents cfg .primary).body) (ls.map id)) by
    rwa [List.map_id] at hrun
  have hstart : Tracked cfg (σ, (σ.contents cfg .primary).body) :=
    ⟨⟨hfresh.regular, hfresh.orderly hstandard⟩, .approved happroved rfl⟩
  refine run_related (R := fun σ s => s.1 = σ ∧ Tracked cfg s) ?_ ⟨rfl, hstart⟩
    ((hattended.and hlabels).and hproper.meets)
  rintro _ s l ⟨rfl, htracked⟩ ⟨⟨hattended, hlabels⟩, hproper⟩
  exact ⟨rfl, trackedStep_tracked s l htracked hattended hlabels hproper⟩

/-- As long as no boot makes a recovery of an image with an internal magic, some slot holds the
last image that was valid and confirmed. If another one runs and no update is waiting, the next boot
puts it back. -/
theorem rollback_possible (hfresh : Fresh cfg σ) (hstandard : (getImageHeader σ.primary).magic = headerMagic)
    (hattended : Meets (step cfg) (Attended cfg) σ ls)
    (hlabels : Meets (step cfg) (fun σ l => ¬ Mislabels cfg σ l) σ ls)
    (hproper : Always (step cfg) (Flash.Proper cfg) σ ls) {τ : Flash} {g : List UInt8}
    (hrun : run (trackedStep cfg) (σ, (σ.contents cfg .primary).body) ls = (τ, g)) :
    (∃ s, (τ.contents cfg s).valid = true ∧ (τ.contents cfg s).body = g) ∧
      (¬ (τ.contents cfg).Approved → (nxbootGetState cfg τ).value.nextBoot ≠ .update →
        let υ := (nxbootPerformUpdate cfg false τ).final
        (υ.contents cfg .primary).valid = true ∧ (υ.contents cfg .primary).body = g) := by
  obtain ⟨hτ, htracked⟩ := run_tracked hfresh hstandard hattended hlabels hproper
  rw [hrun] at hτ htracked
  obtain ⟨⟨hregular, horderly⟩, hguarded⟩ := htracked
  refine ⟨hguarded.held, fun hopen hdue => ?_⟩
  rw [nxbootGetState_value] at hdue
  obtain ⟨⟨⟨-, hend⟩, -⟩, -⟩ := wpc_nxbootPerformUpdate cfg hregular false
  have hfits : τ.Fits cfg := by
    have hlast := hproper.last.1
    rwa [← hτ] at hlast
  exact hguarded.ends hopen horderly hdue (hend hfits)

end

/-! ## An example -/

/-- An update that is not confirmed. -/
def openUpdate : List (Action × Option Nat) := [(.upload (sampleImage 2 7), none), (.boot false, none)]

theorem rollback_possible_openUpdate :
    ∃ s, ((run (trackedStep sampleConfig) (sampleFlash, (sampleFlash.contents sampleConfig .primary).body)
      openUpdate).1.contents sampleConfig s).valid = true := by
  have hattended : Meets (step sampleConfig) (Attended sampleConfig) sampleFlash openUpdate := by
    decide +kernel
  have hheld := (rollback_possible sampleFlash_fresh (by decide +kernel) hattended (by decide +kernel)
    (by decide +kernel) rfl).1
  exact hheld.imp fun _ h => h.1

/-- Behind a confirmation that was cut, the recovery of the confirmed update is cut behind its first
block. The next boot takes the image for one that is not confirmed and overwrites the last copy. -/
theorem not_held_cutRecovery :
    Fresh sampleConfig sampleFlash ∧
      (let s := run (trackedStep sampleConfig) (sampleFlash, (sampleFlash.contents sampleConfig .primary).body)
          (cutConfirm ++ [(.upload (sampleImage 3 9), none), (.boot false, some 1), (.boot false, none)])
       ∀ t, ¬ ((s.1.contents sampleConfig t).valid = true ∧ (s.1.contents sampleConfig t).body = s.2)) := by
  refine ⟨sampleFlash_fresh, ?_⟩
  decide +kernel

end Boot.Nxboot
