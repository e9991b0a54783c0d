-- SUMMARY: What programs do on the flash refines the relations on the slots' contents.
import FruitClawApps.Boot.Nxboot.Copies

/-!
# From the flash to the slots

Each operation of the bootloader is followed through its copies and erasures, once. What the
power can leave of the flash is then known in terms of the contents of the slots.
-/

namespace Boot.Nxboot

open Bytes Crash

/-- Every valid image has a whole header and fits every slot. -/
def Flash.Fits (cfg : Config) (σ : Flash) : Prop :=
  ∀ s, (σ.contents cfg s).valid = true → σ.Fitting (σ.get s)

instance (cfg : Config) (σ : Flash) : Decidable (σ.Fits cfg) := inferInstanceAs (Decidable (∀ _, _))

namespace Slots

variable {cfg : Config} {c d : Slots}

theorem update_ne_primary : c.update ≠ .primary := by
  unfold update
  split <;> decide

theorem recovery_ne_primary : c.recovery ≠ .primary := by
  unfold recovery recoverySlot
  split <;> decide

theorem recovery_ne_update : c.recovery ≠ c.update := by
  unfold recovery recoverySlot update
  split_ifs <;> decide

theorem Clears.of_ne (h : c.Clears cfg d) {s : Slot} (hs : s ≠ c.update) : d s = c s := by
  cases h with
  | kept => rfl
  | erased _ x => exact put_of_ne hs

theorem Clears.put_update (h : c.Clears cfg d) (x : Content) : d.put c.update x = c.put c.update x := by
  cases h with
  | kept => rfl
  | erased => exact put_put

theorem duplicate_of_due (h : c.due cfg = .update) : c.Uploaded ∧ ¬ c.Duplicate cfg := by
  unfold due at h
  split_ifs at h with hnew
  exact hnew

theorem due_of_unwanted (h : c.due cfg ≠ .update) (hback : c.Recoverable) (hunwanted : c.Unwanted) :
    c.due cfg = .revert := by
  have hnew : ¬ (c.Uploaded ∧ ¬ c.Duplicate cfg) := fun hnew => h (due_of_new hnew.1 hnew.2)
  rw [due, if_neg hnew, if_pos ⟨hback, hunwanted⟩]

theorem goes_false : c.Goes false := by
  rintro ⟨hcheck, -⟩
  cases hcheck

theorem revert_of_due (h : c.due cfg = .revert) : c.Recoverable ∧ c.Unwanted := by
  unfold due at h
  split_ifs at h with _ hback
  exact hback

end Slots

section

variable {cfg : Config} {σ τ : Flash} {u : Slot} {checkOnly : Bool}

/-! ## Clearing a duplicate -/

theorem Flash.Like.cleared (cfg : Config) (σ : Flash) : σ.Like (σ.cleared cfg) := by
  unfold Flash.cleared
  split
  · exact .set Partition.eraseFirstSector_blocksize Partition.eraseFirstSector_size
  · exact .refl σ

theorem Flash.cleared_get {s : Slot} (h : s ≠ (σ.contents cfg).update) : (σ.cleared cfg).get s = σ.get s := by
  unfold cleared
  split
  · exact get_set_of_ne h
  · rfl

theorem Flash.cleared_clears (cfg : Config) (hregular : σ.Regular) :
    (σ.contents cfg).Clears cfg ((σ.cleared cfg).contents cfg) := by
  unfold cleared
  split
  · rename_i hdup
    obtain ⟨hblock, hheader, -⟩ := hregular (σ.contents cfg).update
    rw [contents_set]
    exact .erased hdup _ (content_eraseFirstSector hblock hheader)
  · exact .kept ‹_›

theorem Flash.cleared_of_due (h : (σ.contents cfg).due cfg = .update) : σ.cleared cfg = σ := by
  rw [cleared, if_neg (Slots.duplicate_of_due h).2]

/-! ## Installing an update -/

theorem Flash.Begun.installing {m : Nat} (hregular : σ.Regular) (hstandard : (σ.contents cfg u).mark = .standard)
    (h : σ.Begun u .primary (some u) m τ) : Copied (.internal u.num) (σ.contents cfg u) (τ.contents cfg .primary) := by
  have hcopied := h.copied cfg hregular
  rwa [ofMagic_copyMagic_update hstandard] at hcopied

theorem Flash.Begun.installed {m : Nat} (hregular : σ.Regular) (hstandard : (σ.contents cfg u).mark = .standard)
    (hvalid : (σ.contents cfg u).valid = true) (h : σ.Begun u .primary (some u) m τ) (hfitting : σ.Fitting (σ.get u))
    (hextent : (getImageHeader (σ.get u)).extent ≤ m) :
    Cloned (.internal u.num) (σ.contents cfg u) (τ.contents cfg .primary) := by
  have hmark := ofMagic_copyMagic_update hstandard u
  have hcloned := h.cloned cfg hregular hfitting hvalid (by rw [hmark]; nofun) (.inl hextent)
  rwa [hmark] at hcloned

/-- What the installation of an update leaves. -/
def Installs (fits : Prop) (u : Slot) (c d : Slots) : Prop :=
  d = c ∨ ∃ x, Copied (.internal u.num) (c u) x ∧
    (d = c.put .primary x ∨
      ((fits → Cloned (.internal u.num) (c u) x) ∧ ∃ y : Content, y.mark = .blank ∧ d = (c.put .primary x).put u y))

theorem wpc_installUpdate (fits : Prop) (hregular : σ.Regular) (hu : u ≠ .primary)
    (hstandard : (σ.contents cfg u).mark = .standard)
    (hfits : fits → (σ.contents cfg u).valid = true → σ.Fitting (σ.get u)) : wpc (installUpdate cfg u)
      (fun _ τ => (σ.Like τ ∧ Installs fits u (σ.contents cfg) (τ.contents cfg)) ∧
        (fits → (σ.contents cfg u).valid = true → ∃ x y : Content, Cloned (.internal u.num) (σ.contents cfg u) x ∧
          y.mark = .blank ∧ τ.contents cfg = ((σ.contents cfg).put .primary x).put u y))
      (fun τ => σ.Like τ ∧ Installs fits u (σ.contents cfg) (τ.contents cfg)) σ := by
  have hcrash (τ : Flash) (h : τ = σ ∨ ∃ m, σ.Begun u .primary (some u) m τ) :
      σ.Like τ ∧ Installs fits u (σ.contents cfg) (τ.contents cfg) := by
    rcases h with rfl | ⟨m, hbegun⟩
    · exact ⟨.refl τ, .inl rfl⟩
    · exact ⟨hbegun.like, .inr ⟨_, hbegun.installing hregular hstandard, .inl hbegun.contents⟩⟩
  refine wpc_bind (wpc_get ?_)
  split
  · rename_i hvalid
    refine wpc_bind (wpc_mono ?_ hcrash (wpc_copyPartition hregular hu (some u)))
    rintro r τ ⟨hτ, hok⟩
    cases r with
    | error =>
      refine wpc_pure ⟨hcrash τ ?_, fun hf hv => ?_⟩
      · rcases hτ with ⟨-, rfl⟩ | ⟨m, hbegun, -⟩
        · exact .inl rfl
        · exact .inr ⟨m, hbegun⟩
      · cases hok (hfits hf hv)
    | ok =>
      obtain ⟨hno, -⟩ | ⟨m, hbegun, hextent⟩ := hτ
      · cases hno
      have hwhole (hf : fits) : Cloned (.internal u.num) (σ.contents cfg u) (τ.contents cfg .primary) :=
        hbegun.installed hregular hstandard hvalid (hfits hf hvalid) (hextent rfl (hfits hf hvalid))
      have hlike : σ.Like (τ.set u (τ.get u).eraseFirstSector) :=
        hbegun.like.trans (.set Partition.eraseFirstSector_blocksize Partition.eraseFirstSector_size)
      obtain ⟨hblock, hheader, -⟩ := hbegun.like.regular hregular u
      have hblank : (content cfg (τ.get u).eraseFirstSector).mark = .blank := content_eraseFirstSector hblock hheader
      have hcontents : (τ.set u (τ.get u).eraseFirstSector).contents cfg =
          ((σ.contents cfg).put .primary (τ.contents cfg .primary)).put u (content cfg (τ.get u).eraseFirstSector) := by
        rw [Flash.contents_set, ← hbegun.contents]
      refine wpc_modify (hcrash τ (.inr ⟨m, hbegun⟩)) ⟨⟨hlike, .inr ⟨_, hbegun.installing hregular hstandard, .inr
        ⟨hwhole, _, hblank, hcontents⟩⟩⟩, fun hf _ => ⟨_, _, hwhole hf, hblank, hcontents⟩⟩
  · rename_i hvalid
    exact wpc_pure ⟨hcrash σ (.inl rfl), fun _ hv => absurd hv hvalid⟩

/-! ## Boots -/

theorem Slots.Passes.of_installs {fits : Prop} {c d e : Slots} (hdue : c.due cfg = .update) (hgo : c.Goes checkOnly)
    (hsave : c.Saves fits d) (hstart : c.Passes cfg fits checkOnly d) (hu : d c.update = c c.update)
    (h : Installs fits c.update d e) : c.Passes cfg fits checkOnly e := by
  rw [Installs, hu] at h
  rcases h with rfl | ⟨x, hx, rfl | ⟨hwhole, y, hy, rfl⟩⟩
  · exact hstart
  · exact .installing hdue hgo hsave x hx
  · exact .installed hdue hgo hsave x hx hwhole y hy

theorem needsRecovery_iff (c : Slots) :
    (((!(c.state cfg).recoveryPresent) = true ∨ (!(c.state cfg).recoveryValid) = true) ∧
      (c.state cfg).primaryConfirmed = true ∧ (c .primary).valid = true) ↔ c.NeedsRecovery := by
  simp [Slots.state, Slots.NeedsRecovery]

/-- What a boot leaves, and where it ends. -/
def Boots (cfg : Config) (checkOnly : Bool) (σ τ : Flash) : Prop :=
  σ.Like τ ∧ (σ.contents cfg).Passes cfg (σ.Fits cfg) checkOnly (τ.contents cfg)

/-- What a boot leaves that is not cut. -/
def Booted (cfg : Config) (checkOnly : Bool) (σ τ : Flash) : Prop :=
  Boots cfg checkOnly σ τ ∧ (σ.Fits cfg → (σ.contents cfg).Ends cfg checkOnly (τ.contents cfg))

theorem wpc_revert (hregular : σ.Regular) (hdue : (σ.contents cfg).due cfg = .revert)
    (hgo : (σ.contents cfg).Goes checkOnly) : wpc (copyPartition (σ.contents cfg).recovery .primary none)
      (fun _ => Booted cfg checkOnly σ) (Boots cfg checkOnly σ) (σ.cleared cfg) := by
  have hclears := Flash.cleared_clears cfg hregular
  have hlike := Flash.Like.cleared cfg σ
  have hregular' := hlike.regular hregular
  have hsource : (σ.cleared cfg).get (σ.contents cfg).recovery = σ.get (σ.contents cfg).recovery :=
    Flash.cleared_get Slots.recovery_ne_update
  have hcontent : (σ.cleared cfg).contents cfg (σ.contents cfg).recovery =
      σ.contents cfg (σ.contents cfg).recovery := hclears.of_ne Slots.recovery_ne_update
  have hprimary : (σ.cleared cfg).contents cfg .primary = σ.contents cfg .primary :=
    hclears.of_ne Slots.update_ne_primary.symm
  have hvalid : (σ.contents cfg (σ.contents cfg).recovery).valid = true := (Slots.revert_of_due hdue).1.2
  have hfitting (hfits : σ.Fits cfg) :
      (σ.cleared cfg).Fitting ((σ.cleared cfg).get (σ.contents cfg).recovery) := by
    rw [hsource]
    exact hlike.fitting (hfits _ hvalid)
  have hmark : Mark.ofMagic (copyMagic (getImageHeader ((σ.cleared cfg).get (σ.contents cfg).recovery)).magic none) ≠
      .blank := by
    rw [ofMagic_copyMagic]
    cases Mark.ofMagic _ <;> nofun
  have hcopied {m : Nat} {τ : Flash} (h : (σ.cleared cfg).Begun (σ.contents cfg).recovery .primary none m τ) :
      Boots cfg checkOnly σ τ := by
    have hcopied := h.copied cfg hregular'
    rw [ofMagic_copyMagic, ← Flash.mark_contents cfg, hcontent] at hcopied
    refine ⟨hlike.trans h.like, ?_⟩
    rw [h.contents]
    refine .reverting hdue hgo hclears _ hcopied fun hfits hvalid' hbody => ?_
    rw [← hprimary, ← hcontent] at hbody
    have hfitting' : (σ.cleared cfg).Fitting ((σ.cleared cfg).get .primary) := by
      rw [Flash.cleared_get Slots.update_ne_primary.symm]
      exact hlike.fitting (hfits _ hvalid')
    exact (h.cloned cfg hregular' (hfitting hfits) (by rw [hcontent]; exact hvalid) hmark
      (.inr (Flash.slice_eq_of_body (hfitting hfits) hfitting' hbody))).valid
  have hcrash (τ : Flash)
      (h : τ = σ.cleared cfg ∨ ∃ m, (σ.cleared cfg).Begun (σ.contents cfg).recovery .primary none m τ) :
      Boots cfg checkOnly σ τ := by
    rcases h with rfl | ⟨m, hbegun⟩
    · exact ⟨hlike, .cleared hclears⟩
    · exact hcopied hbegun
  refine wpc_mono ?_ hcrash (wpc_copyPartition hregular' Slots.recovery_ne_primary none)
  rintro r τ ⟨hτ, hok⟩
  constructor
  · rcases hτ with ⟨-, rfl⟩ | ⟨m, hbegun, -⟩
    · exact hcrash _ (.inl rfl)
    · exact hcopied hbegun
  intro hfits
  have hr := hok (hfitting hfits)
  rcases hτ with ⟨hr', -⟩ | ⟨m, hbegun, hextent⟩
  · rw [hr] at hr'
    cases hr'
  have hcloned := hbegun.cloned cfg hregular' (hfitting hfits) (by rw [hcontent]; exact hvalid) hmark
    (.inl (hextent hr (hfitting hfits)))
  rw [ofMagic_copyMagic, ← Flash.mark_contents cfg, hcontent] at hcloned
  rw [hbegun.contents]
  exact .reverted hdue hgo hclears _ hcloned

/-- The installation of an update over a primary image that is kept as a recovery, if need be. -/
theorem wpc_install {d : Slots} (hregular : σ.Regular) (hlike : σ.Like τ) (hdue : (σ.contents cfg).due cfg = .update)
    (hgo : (σ.contents cfg).Goes checkOnly) (hd : τ.contents cfg = d) (hsave : (σ.contents cfg).Saves (σ.Fits cfg) d)
    (hsave' : σ.Fits cfg → (σ.contents cfg).Saves True d)
    (hstart : (σ.contents cfg).Passes cfg (σ.Fits cfg) checkOnly d)
    (hsame : τ.get (σ.contents cfg).update = σ.get (σ.contents cfg).update) :
    wpc (installUpdate cfg (σ.contents cfg).update)
      (fun _ => Booted cfg checkOnly σ) (Boots cfg checkOnly σ) τ := by
  obtain ⟨hstandard, hvalid⟩ := (Slots.duplicate_of_due hdue).1
  subst hd
  have hu : τ.contents cfg (σ.contents cfg).update = σ.contents cfg (σ.contents cfg).update := by
    rw [Flash.contents, hsame]
    rfl
  have hinstalls {υ : Flash}
      (h : τ.Like υ ∧ Installs (σ.Fits cfg) (σ.contents cfg).update (τ.contents cfg) (υ.contents cfg)) :
      Boots cfg checkOnly σ υ := ⟨hlike.trans h.1, .of_installs hdue hgo hsave hstart hu h.2⟩
  refine wpc_mono ?_ (fun _ => hinstalls) (wpc_installUpdate (σ.Fits cfg) (hlike.regular hregular)
    Slots.update_ne_primary (by rw [hu]; exact hstandard) fun hfits _ => ?_)
  · rintro _ υ ⟨hυ, hend⟩
    refine ⟨hinstalls hυ, fun hfits => ?_⟩
    obtain ⟨x, y, hx, hy, hcontents⟩ := hend hfits (by rw [hu]; exact hvalid)
    rw [hcontents]
    rw [hu] at hx
    exact .installed hdue hgo (hsave' hfits) x hx y hy
  · rw [hsame]
    exact hlike.fitting (hfits _ hvalid)

theorem wpc_performUpdate (hregular : σ.Regular) (hdue : (σ.contents cfg).due cfg ≠ .none) (checkOnly : Bool) :
    wpc (performUpdate cfg ((σ.contents cfg).state cfg) checkOnly)
      (fun _ => Booted cfg checkOnly σ) (Boots cfg checkOnly σ) (σ.cleared cfg) := by
  have hclears := Flash.cleared_clears cfg hregular
  have hprimary : validateImage cfg true ((σ.cleared cfg).get .primary) = (σ.contents cfg .primary).valid := by
    rw [Flash.cleared_get Slots.update_ne_primary.symm]
    rfl
  refine wpc_bind (wpc_get ?_)
  dsimp only
  rw [hprimary]
  split
  · rename_i hrevert
    have hgo : (σ.contents cfg).Goes checkOnly := by
      rintro ⟨hcheck, hvalid⟩
      simp [hcheck, hvalid] at hrevert
    have hvalid : ((σ.contents cfg).state cfg).recoveryValid = true := (Slots.revert_of_due hrevert.1).1.2
    rw [if_pos hvalid]
    exact wpc_bind (wpc_mono (fun _ _ h => wpc_pure h) (fun _ h => h) (wpc_revert hregular hrevert.1 hgo))
  rename_i hrevert
  split
  · rename_i hskip
    exact wpc_pure ⟨⟨.cleared cfg σ, .cleared hclears⟩, fun _ => .idle (.inr fun hgo => hgo ⟨hskip.2, hskip.1⟩) hclears⟩
  rename_i hskip
  have hgo : (σ.contents cfg).Goes checkOnly := fun h => hskip ⟨h.2, h.1⟩
  have hupdate : (σ.contents cfg).due cfg = .update := by
    cases hcase : (σ.contents cfg).due cfg with
    | none => exact absurd hcase hdue
    | update => rfl
    | revert =>
      refine absurd ⟨hcase, ?_⟩ hrevert
      by_contra hno
      rw [not_or, Bool.not_eq_true', Bool.not_eq_true', Bool.not_eq_false, Bool.not_eq_false] at hno
      exact hgo hno
  rw [Flash.cleared_of_due hupdate]
  split
  · rename_i hneeds
    rw [needsRecovery_iff] at hneeds
    have hne : Slot.primary ≠ (σ.contents cfg).recovery := Slots.recovery_ne_primary.symm
    have hsaving {m : Nat} {τ : Flash} (h : σ.Begun .primary (σ.contents cfg).recovery none m τ) :
        Copied (σ.contents cfg .primary).mark.flip (σ.contents cfg .primary)
          (τ.contents cfg (σ.contents cfg).recovery) := by
      have hcopied := h.copied cfg hregular
      rwa [ofMagic_copyMagic, ← Flash.mark_contents cfg] at hcopied
    have hcrash (τ : Flash) (h : τ = σ ∨ ∃ m, σ.Begun .primary (σ.contents cfg).recovery none m τ) :
        Boots cfg checkOnly σ τ := by
      rcases h with rfl | ⟨m, hbegun⟩
      · exact ⟨.refl τ, .start⟩
      refine ⟨hbegun.like, ?_⟩
      rw [hbegun.contents]
      exact .saving hupdate hgo hneeds _ (hsaving hbegun)
    refine wpc_bind (wpc_mono ?_ hcrash (wpc_copyPartition hregular hne none))
    rintro r τ ⟨hτ, hok⟩
    refine wpc_bind (wpc_get ?_)
    rcases hτ with ⟨hr, rfl⟩ | ⟨m, hbegun, hextent⟩
    · -- the copy was refused, so the images do not fit
      have hunfit : ¬ τ.Fits cfg := by
        intro hfits
        rw [hok (hfits _ hneeds.2.2)] at hr
        cases hr
      split
      · exact wpc_install hregular (.refl τ) hupdate hgo rfl (.kept fun h => absurd h hunfit)
          (fun h => absurd h hunfit) .start rfl
      · exact wpc_pure ⟨⟨.refl τ, .start⟩, fun h => absurd h hunfit⟩
    have hwhole (hfits : σ.Fits cfg) : Cloned (σ.contents cfg .primary).mark.flip (σ.contents cfg .primary)
        (τ.contents cfg (σ.contents cfg).recovery) := by
      have hfitting := hfits _ hneeds.2.2
      have hcloned := hbegun.cloned cfg hregular hfitting hneeds.2.2
        (by rw [ofMagic_copyMagic]; cases Mark.ofMagic _ <;> nofun) (.inl (hextent (hok hfitting) hfitting))
      rwa [ofMagic_copyMagic, ← Flash.mark_contents cfg] at hcloned
    split
    · rename_i hvalid
      have hsame : τ.get (σ.contents cfg).update = σ.get (σ.contents cfg).update := by
        obtain ⟨-, -, -, rfl⟩ := hbegun
        exact Flash.overlaid_get_of_ne Slots.recovery_ne_update.symm
      exact wpc_install hregular hbegun.like hupdate hgo hbegun.contents
        (.saved hneeds _ (hsaving hbegun) hvalid hwhole)
        (fun hfits => .saved hneeds _ (hsaving hbegun) hvalid fun _ => hwhole hfits)
        (.saving hupdate hgo hneeds _ (hsaving hbegun)) hsame
    · rename_i hinvalid
      exact wpc_pure ⟨hcrash τ (.inr ⟨m, hbegun⟩), fun hfits => absurd (hwhole hfits).valid hinvalid⟩
  · rename_i hneeds
    rw [needsRecovery_iff] at hneeds
    exact wpc_install hregular (.refl σ) hupdate hgo rfl (.kept fun _ => hneeds)
      (fun _ => .kept fun _ => hneeds) .start rfl

/-- A boot on the flash is one of the slots. It ends well exactly if there is a valid image. -/
theorem wpc_nxbootPerformUpdate (cfg : Config) (hregular : σ.Regular) (checkOnly : Bool) :
    wpc (nxbootPerformUpdate cfg checkOnly)
      (fun r τ => Booted cfg checkOnly σ τ ∧ (r = .ok ↔ (τ.contents cfg .primary).valid = true))
      (Boots cfg checkOnly σ) σ := by
  have hresult (τ : Flash) (h : Booted cfg checkOnly σ τ) :
      wpc (do return if validateImage cfg true ((← Crash.get).get .primary) then Result.ok else .error)
        (fun r τ => Booted cfg checkOnly σ τ ∧ (r = .ok ↔ (τ.contents cfg .primary).valid = true))
        (Boots cfg checkOnly σ) τ := by
    refine wpc_bind (wpc_get (wpc_pure ⟨h, ?_⟩))
    rw [Flash.valid_contents]
    split <;> simp [*]
  have hclears := Flash.cleared_clears cfg hregular
  refine wpc_bind (wpc_nxbootGetState (fun _ => ⟨.refl σ, .start⟩) ?_)
  by_cases hdue : ((σ.contents cfg).state cfg).nextBoot = .none
  · rw [if_neg (not_not.mpr hdue)]
    refine wpc_bind (wpc_pure (hresult _ ⟨⟨.cleared cfg σ, .cleared hclears⟩, fun _ => .idle (.inl hdue) hclears⟩))
  · rw [if_pos hdue]
    exact wpc_bind (wpc_mono (fun _ => hresult) (fun _ h => h) (wpc_performUpdate hregular hdue checkOnly))

/-- A boot that has nothing to do, or only looks at a valid image, takes at most a duplicate
away. -/
theorem wpc_nxbootPerformUpdate_idle (hidle : (σ.contents cfg).due cfg = .none ∨ ¬ (σ.contents cfg).Goes checkOnly) :
    wpc (nxbootPerformUpdate cfg checkOnly) (fun _ τ => τ = σ.cleared cfg) (fun τ => τ = σ) σ := by
  refine wpc_bind (wpc_nxbootGetState (fun _ => rfl) ?_)
  by_cases hnext : ((σ.contents cfg).state cfg).nextBoot = .none
  · rw [if_neg (not_not.mpr hnext)]
    exact wpc_bind (wpc_pure (wpc_bind (wpc_get (wpc_pure rfl))))
  rw [if_pos hnext]
  obtain ⟨hcheck, hvalid⟩ := not_not.mp (hidle.resolve_left hnext)
  have hprimary : validateImage cfg true ((σ.cleared cfg).get .primary) = true := by
    rw [Flash.cleared_get Slots.update_ne_primary.symm]
    exact hvalid
  refine wpc_bind (wpc_bind (wpc_get ?_))
  rw [hprimary, hcheck, if_neg (by simp), if_pos ⟨rfl, rfl⟩]
  exact wpc_pure (wpc_bind (wpc_get (wpc_pure rfl)))

/-! ## Uploads -/

/-- An image as it is uploaded: it has a whole header with the standard magic. -/
structure Image where
  bytes : List UInt8
  long : headerLength ≤ bytes.length
  standard : (Header.decode bytes).magic = headerMagic

theorem wpc_uploadBlocks {dst : Slot} {image : List UInt8} {blocksize fuel off : Nat} (hblock : 0 < blocksize)
    (hfuel : image.length ≤ off + fuel) (himage : off ≤ image.length) (hoff : off ≤ (σ.get dst).size) :
    wpc (uploadBlocks dst blocksize image fuel off)
      (fun _ τ => ∃ m, σ.Reached dst image off (min blocksize (image.length - off)) m τ)
      (fun τ => ∃ m, σ.Reached dst image off (min blocksize (image.length - off)) m τ)
      (σ.overlaid dst image off) := by
  have hstart : ∃ m, σ.Reached dst image off (min blocksize (image.length - off)) m (σ.overlaid dst image off) :=
    ⟨off, .inl rfl, himage, hoff, rfl⟩
  induction fuel generalizing off with
  | zero => exact wpc_pure hstart
  | succ fuel ih =>
    rw [uploadBlocks]
    by_cases hend : image.length ≤ off
    · rw [if_pos hend]
      exact wpc_pure hstart
    rw [if_neg hend]
    obtain ⟨n, hn⟩ : ∃ n, n = min blocksize (image.length - off) := ⟨_, rfl⟩
    have hslice : slice image off blocksize = slice image off n := by
      rw [slice, slice, List.take_eq_take_iff, List.length_drop]
      omega
    dsimp only
    rw [hslice, length_slice (by omega : off + n ≤ image.length)]
    rw [← hn] at hstart ⊢
    refine wpc_bind (wpc_flashPartitionWrite (by omega) hoff hstart (fun _ => wpc_pure hstart) fun hbound => ?_)
    have hnext {τ : Flash} (h : ∃ m, σ.Reached dst image (off + n) (min blocksize (image.length - (off + n))) m τ) :
        ∃ m, σ.Reached dst image off n m τ := by
      obtain ⟨m, hm, himage', hsize, hτ⟩ := h
      exact ⟨m, .inr (by omega), himage', hsize, hτ⟩
    exact wpc_mono (fun _ _ => hnext) (fun _ => hnext)
      (ih (by omega) (by omega) hbound ⟨off + n, .inl rfl, by omega, hbound, rfl⟩)

/-- An upload on the flash is one of the slots. -/
theorem wpc_upload (hregular : σ.Regular) (image : Image) :
    wpc (upload cfg image.bytes)
      (fun _ τ => σ.Like τ ∧ (σ.contents cfg).Uploads cfg (τ.contents cfg))
      (fun τ => σ.Like τ ∧ (σ.contents cfg).Uploads cfg (τ.contents cfg)) σ := by
  have hclears := Flash.cleared_clears cfg hregular
  have hlike := Flash.Like.cleared cfg σ
  obtain ⟨hblock, hheader, -⟩ := hlike.regular hregular (σ.contents cfg).update
  have hlong := image.long
  simp only [crcEnd, headerLength] at hblock hlong
  have hreached {τ : Flash} (h : ∃ m, (σ.cleared cfg).Reached (σ.contents cfg).update image.bytes 0
      (min ((σ.cleared cfg).get (σ.contents cfg).update).blocksize (image.bytes.length - 0)) m τ) :
      σ.Like τ ∧ (σ.contents cfg).Uploads cfg (τ.contents cfg) := by
    obtain ⟨m, hm, himage, hsize, rfl⟩ := h
    refine ⟨hlike.trans .overlaid, ?_⟩
    rcases hm with rfl | hm
    · rw [Flash.overlaid_zero]
      exact .cleared hclears
    have hmark := (content_overlay cfg hheader (by simp only [crcEnd]; omega) himage hsize).1
    rw [image.standard] at hmark
    rw [Flash.overlaid, Flash.contents_set, hclears.put_update]
    exact .writing _ hmark
  have hopen : wpc (nxbootOpenUpdatePartition cfg) (fun s τ => s = (σ.contents cfg).update ∧ τ = σ.cleared cfg)
      (fun τ => σ.Like τ ∧ (σ.contents cfg).Uploads cfg (τ.contents cfg)) σ :=
    wpc_bind (wpc_nxbootGetState (fun _ => ⟨.refl σ, .start⟩) (wpc_pure ⟨rfl, rfl⟩))
  refine wpc_bind (wpc_mono ?_ (fun _ h => h) hopen)
  rintro _ _ ⟨rfl, rfl⟩
  refine wpc_bind (wpc_get ?_)
  have hwrite : wpc (uploadBlocks (σ.contents cfg).update ((σ.cleared cfg).get (σ.contents cfg).update).blocksize
      image.bytes image.bytes.length 0) _ _ ((σ.cleared cfg).overlaid (σ.contents cfg).update image.bytes 0) :=
    wpc_uploadBlocks (by omega) (by omega) (Nat.zero_le _) (Nat.zero_le _)
  rw [Flash.overlaid_zero] at hwrite
  exact wpc_mono (fun _ _ => hreached) (fun _ => hreached) hwrite

/-! ## Confirmations -/

/-- A confirmation on the flash is one of the slots. If it ends well, the head of the primary image
is in the slot for updates. -/
theorem wpc_nxbootConfirm (cfg : Config) (hregular : σ.Regular) :
    wpc (nxbootConfirm cfg)
      (fun r τ => (σ.Like τ ∧ (σ.contents cfg).Confirms cfg (τ.contents cfg)) ∧
        ((σ.contents cfg).Confirmed → (σ.contents cfg).Clears cfg (τ.contents cfg)) ∧
        (r = .ok → ¬ (σ.contents cfg).Confirmed →
          ∃ x, Copied (σ.contents cfg .primary).mark (σ.contents cfg .primary) x ∧
          τ.contents cfg = (σ.contents cfg).put (σ.contents cfg).update x))
      (fun τ => σ.Like τ ∧ (σ.contents cfg).Confirms cfg (τ.contents cfg)) σ := by
  have hclears := Flash.cleared_clears cfg hregular
  have hlike := Flash.Like.cleared cfg σ
  obtain ⟨hblock, hheader, -⟩ := hlike.regular hregular (σ.contents cfg).update
  simp only [crcEnd] at hblock
  refine wpc_bind (wpc_nxbootGetState (fun _ => ⟨.refl σ, .start⟩) ?_)
  by_cases hconfirmed : (σ.contents cfg).Confirmed
  · rw [if_pos ((Slots.state_confirmed ..).mpr hconfirmed)]
    exact wpc_pure ⟨⟨hlike, .cleared hclears⟩, fun _ => hclears, fun _ h => absurd hconfirmed h⟩
  rw [if_neg (fun h => hconfirmed ((Slots.state_confirmed ..).mp h))]
  refine wpc_bind (wpc_get ?_)
  obtain ⟨u, hu⟩ : ∃ u, u = (σ.cleared cfg).get (σ.contents cfg).update := ⟨_, rfl⟩
  rw [← hu] at hblock
  have hsector : u.blocksize ≤ u.erasesize := Nat.le_of_dvd u.erase_pos u.whole_blocks
  have hprimary : (σ.cleared cfg).get .primary = σ.get .primary := Flash.cleared_get Slots.update_ne_primary.symm
  have hwritten {m : Nat} (hm : crcEnd ≤ m) (himage : m ≤ (σ.get .primary).bytes.length) (hsize : m ≤ u.size) :
      ∃ x, Copied (σ.contents cfg .primary).mark (σ.contents cfg .primary) x ∧
        ((σ.cleared cfg).overlaid (σ.contents cfg).update (σ.get .primary).bytes m).contents cfg =
          (σ.contents cfg).put (σ.contents cfg).update x := by
    have hcontent := content_overlay cfg hheader hm himage (by rw [← hu]; exact hsize)
    rw [← getImageHeader_eq (hregular .primary).2.1] at hcontent
    refine ⟨_, ⟨hcontent.1, hcontent.2⟩, ?_⟩
    rw [Flash.overlaid, Flash.contents_set, hclears.put_update]
  have hreached {τ : Flash} (h : ∃ m, (σ.cleared cfg).Reached (σ.contents cfg).update (σ.get .primary).bytes 0
      (min u.blocksize u.erasesize) m τ) :
      σ.Like τ ∧ (σ.contents cfg).Confirms cfg (τ.contents cfg) := by
    obtain ⟨m, hm, himage, hsize, rfl⟩ := h
    refine ⟨hlike.trans .overlaid, ?_⟩
    rcases hm with rfl | hm
    · rw [Flash.overlaid_zero]
      exact .cleared hclears
    obtain ⟨x, hx, hcontents⟩ := hwritten (by simp only [crcEnd]; omega) himage (by rw [hu]; exact hsize)
    rw [hcontents]
    exact .writing hconfirmed x hx
  have hcopy : wpc (copyBlocks .primary (σ.contents cfg).update u.blocksize u.erasesize 0 u.erasesize) _ _
      ((σ.cleared cfg).overlaid (σ.contents cfg).update (σ.get .primary).bytes 0) := wpc_copyBlocks
    Slots.update_ne_primary.symm u.block_pos (Nat.le_refl _) (by rw [hprimary]; rfl)
      (by rw [hprimary]; exact fun _ _ _ => rfl)
    (Nat.zero_le _) (Nat.zero_le _)
  rw [Flash.overlaid_zero] at hcopy
  rw [Slots.state_update, ← hu]
  refine wpc_mono ?_ (fun _ => hreached) hcopy
  rintro r τ ⟨m, hm, hok, -⟩
  refine ⟨hreached ⟨m, hm⟩, fun h => absurd h hconfirmed, fun hr _ => ?_⟩
  obtain ⟨-, himage, hsize, rfl⟩ := hm
  have hend := hok hr
  exact hwritten (by simp only [crcEnd]; omega) himage (by rw [hu]; exact hsize)

end

/-! ## Systems -/

/-- What happens to the flash: an application stores an image or confirms the one that runs, or
the board boots. -/
inductive Action where
  | upload (image : Image)
  | confirm
  | boot (checkOnly : Bool)

variable (cfg : Config)

def Action.prog : Action → Prog Flash Result
  | .upload image => Nxboot.upload cfg image.bytes
  | .confirm => nxbootConfirm cfg
  | .boot checkOnly => nxbootPerformUpdate cfg checkOnly

/-- A step is an action that is cut by a power failure, or not. -/
abbrev step : Flash → Action × Option Nat → Flash := Crash.step (Action.prog cfg)

/-- What an action can leave of the slots. -/
def Leaves (fits : Prop) (c : Slots) : Action → Slots → Prop
  | .upload _ => c.Uploads cfg
  | .confirm => c.Confirms cfg
  | .boot checkOnly => c.Passes cfg fits checkOnly

theorem step_leaves {σ : Flash} (hregular : σ.Regular) (l : Action × Option Nat) :
    σ.Like (step cfg σ l) ∧ Leaves cfg (σ.Fits cfg) (σ.contents cfg) l.1 ((step cfg σ l).contents cfg) := by
  obtain ⟨action, cut⟩ := l
  cases action with
  | upload image => exact (wpc_upload hregular image).cut (fun _ _ h => h) cut
  | confirm => exact (wpc_nxbootConfirm cfg hregular).cut (fun _ _ h => h.1) cut
  | boot checkOnly => exact (wpc_nxbootPerformUpdate cfg hregular checkOnly).cut (fun _ _ h => h.1.1) cut

end Boot.Nxboot
