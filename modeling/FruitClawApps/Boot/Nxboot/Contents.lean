-- SUMMARY: The slots as the bootloader's decisions see them, and what a boot does to them.
import FruitClawApps.Boot.Nxboot.Loader
import Mathlib.Logic.Function.Basic

/-!
# The contents of the slots

The bootloader decides by three things in a slot: what the magic says, the CRC and the version in
the header, and whether the image is valid. The relations at the end say what a boot, an upload and
a confirmation can leave of the slots if they are cut between any two operations.
-/

namespace Boot.Nxboot

open Bytes Crash

/-! ## Marks -/

/-- What the magic of a slot says. -/
inductive Mark where
  | standard
  | internal (pointer : Nat)
  | blank
deriving DecidableEq

namespace Mark

def ofMagic (magic : Nat) : Mark :=
  if magic = headerMagic then .standard
  else if isInternalMagic magic then .internal (recoveryPointer magic)
  else .blank

def isInternal : Mark → Bool
  | .internal _ => true
  | _ => false

/-- The mark of a copy. -/
def flip : Mark → Mark
  | .internal _ => .standard
  | _ => .internal 0

theorem ne_standard {m : Mark} (h : m.isInternal = true) : m ≠ .standard := by
  rintro rfl
  cases h

theorem flip_of_internal {m : Mark} (h : m.isInternal = true) : m.flip = .standard := by
  cases m with
  | internal => rfl
  | standard | blank => cases h

theorem magic_eq_iff {magic : Nat} : magic = headerMagic ↔ ofMagic magic = .standard := by
  unfold ofMagic
  split_ifs <;> simp_all

/-- The code tells internal magics as the marks do. -/
theorem isInternalMagic_eq (magic : Nat) : isInternalMagic magic = (ofMagic magic).isInternal := by
  unfold ofMagic
  split_ifs with hstandard hinternal
  · subst hstandard
    decide
  · rw [hinternal]
    rfl
  · rw [Bool.eq_false_of_not_eq_true hinternal]
    rfl

theorem ofMagic_eq_internal (magic pointer : Nat) :
    ofMagic magic = .internal pointer ↔ (ofMagic magic).isInternal = true ∧ recoveryPointer magic = pointer := by
  unfold ofMagic
  split_ifs <;> simp [isInternal]

end Mark

/-! ## Contents -/

/-- What is read in a slot. The body is what the CRC covers. -/
structure Content where
  mark : Mark
  crc : Nat
  version : Version
  valid : Bool
  body : List UInt8

def content (cfg : Config) (p : Partition) : Content where
  mark := .ofMagic (getImageHeader p).magic
  crc := (getImageHeader p).crc
  version := (getImageHeader p).version
  valid := validateImage cfg true p
  body := slice p.bytes crcEnd ((getImageHeader p).extent - crcEnd)

/-- The contents of the three slots. -/
abbrev Slots := Slot → Content

def Flash.contents (cfg : Config) (σ : Flash) : Slots := fun s => content cfg (σ.get s)

section

variable (cfg : Config) (σ : Flash) (s : Slot)

theorem Flash.mark_contents : (σ.contents cfg s).mark = .ofMagic (getImageHeader (σ.get s)).magic := rfl

theorem Flash.crc_contents : (σ.contents cfg s).crc = (getImageHeader (σ.get s)).crc := rfl

theorem Flash.version_contents : (σ.contents cfg s).version = (getImageHeader (σ.get s)).version := rfl

theorem Flash.valid_contents : (σ.contents cfg s).valid = validateImage cfg true (σ.get s) := rfl

end

namespace Slots

variable (cfg : Config) (c : Slots)

/-- The slot for updates: the one with a standard image, or the one that is not the recovery of
the primary image. -/
def update : Slot :=
  if (c .tertiary).mark = .standard ∨
      ((c .secondary).mark.isInternal = true ∧
        ((c .tertiary).mark.isInternal = true →
          (c .primary).crc = (c .secondary).crc ∧
            ((c .primary).mark.isInternal = true → (c .primary).mark = .internal 1))) then .tertiary
  else .secondary

def recovery : Slot := recoverySlot c.update

/-- The primary image is confirmed: it is the only one there ever was, or its recovery is marked. -/
def Confirmed : Prop :=
  (c .primary).mark = .standard ∨
    ((c .primary).mark = .internal 1 ∧ (c .secondary).mark.isInternal = true ∧
      (c .primary).crc = (c .secondary).crc) ∨
    ((c .primary).mark = .internal 2 ∧ (c .tertiary).mark.isInternal = true ∧ (c .primary).crc = (c .tertiary).crc)

/-- There is an update in its slot. -/
def Uploaded : Prop := (c c.update).mark = .standard ∧ (c c.update).valid = true

/-- The update in its slot is the one that runs. -/
def Duplicate : Prop :=
  c.Uploaded ∧ (c .primary).crc = (c c.update).crc ∧
    compareVersions cfg (c .primary).version (c c.update).version = true ∧ (c .primary).valid = true

/-- An image in the primary slot that has to go: it is not confirmed, or it is no image. -/
def Unwanted : Prop := ((c .primary).mark.isInternal = true ∧ ¬ c.Confirmed) ∨ (c .primary).valid = false

def Recoverable : Prop := (c c.recovery).mark.isInternal = true ∧ (c c.recovery).valid = true

instance : Decidable c.Confirmed := inferInstanceAs (Decidable (_ ∨ _))

instance : Decidable c.Uploaded := inferInstanceAs (Decidable (_ ∧ _))

instance : Decidable (c.Duplicate cfg) := inferInstanceAs (Decidable (_ ∧ _))

instance : Decidable c.Unwanted := inferInstanceAs (Decidable (_ ∨ _))

instance : Decidable c.Recoverable := inferInstanceAs (Decidable (_ ∧ _))

/-- What the next boot does. -/
def due : UpdateType :=
  if c.Uploaded ∧ ¬ c.Duplicate cfg then .update
  else if c.Recoverable ∧ c.Unwanted then .revert
  else .none

variable {cfg c}

theorem due_of_new (h : c.Uploaded) (hnew : ¬ c.Duplicate cfg) : c.due cfg = .update := if_pos ⟨h, hnew⟩

theorem due_of_duplicate (h : c.Duplicate cfg) :
    c.due cfg = if c.Recoverable ∧ c.Unwanted then .revert else .none :=
  if_neg fun hnew => hnew.2 h

theorem due_of_not_uploaded (h : ¬ c.Uploaded) :
    c.due cfg = if c.Recoverable ∧ c.Unwanted then .revert else .none :=
  if_neg fun hnew => h hnew.1

variable (cfg c)

/-- The primary image has no recovery and is worth one. -/
def NeedsRecovery : Prop :=
  ((c .primary).crc ≠ (c c.recovery).crc ∨ (c c.recovery).valid = false) ∧ c.Confirmed ∧ (c .primary).valid = true

instance : Decidable c.NeedsRecovery := inferInstanceAs (Decidable (_ ∧ _))

/-- `nxboot_get_state`. -/
def state : State where
  update := c.update
  recovery := c.recovery
  recoveryValid := (c c.recovery).valid
  recoveryPresent := (c .primary).crc == (c c.recovery).crc
  primaryConfirmed := c.Confirmed
  nextBoot := c.due cfg

theorem state_update : (c.state cfg).update = c.update := rfl

/-- The state says whether the primary image is confirmed. -/
theorem state_confirmed : (c.state cfg).primaryConfirmed = true ↔ c.Confirmed := decide_eq_true_iff

end Slots

/-! ## The decisions of the code -/

section

variable (cfg : Config) (σ : Flash)

/-- The flash without the head of an update that runs already. -/
def Flash.cleared : Flash :=
  if (σ.contents cfg).Duplicate cfg then
    σ.set (σ.contents cfg).update (σ.get (σ.contents cfg).update).eraseFirstSector
  else σ

/-- The slot for updates depends on the contents only. -/
theorem updateSlot_eq :
    updateSlot (getImageHeader (σ.get .primary)) (getImageHeader (σ.get .secondary))
      (getImageHeader (σ.get .tertiary)) =
      (σ.contents cfg).update := by
  have hone := Mark.ofMagic_eq_internal (getImageHeader (σ.get .primary)).magic 1
  simp only [updateSlot, Slots.update, Flash.mark_contents, Flash.crc_contents, Mark.magic_eq_iff,
    Mark.isInternalMagic_eq, Slot.num, hone]
  by_cases htertiary : Mark.ofMagic (getImageHeader (σ.get .tertiary)).magic = .standard
  · simp [htertiary]
  cases (Mark.ofMagic (getImageHeader (σ.get .secondary)).magic).isInternal with
  | false => simp [htertiary]
  | true =>
    cases (Mark.ofMagic (getImageHeader (σ.get .tertiary)).magic).isInternal with
    | false => simp [htertiary]
    | true =>
      cases (Mark.ofMagic (getImageHeader (σ.get .primary)).magic).isInternal with
      | false => simp [htertiary]
      | true =>
        simp only [htertiary, if_false, true_and, and_self, if_true, false_or, true_implies]
        exact if_congr and_comm rfl rfl

/-- So does the confirmation. -/
theorem primaryConfirmed_eq :
    primaryConfirmed (getImageHeader (σ.get .primary)) (getImageHeader (σ.get .secondary))
        (getImageHeader (σ.get .tertiary)) =
      decide (σ.contents cfg).Confirmed := by
  have hone := Mark.ofMagic_eq_internal (getImageHeader (σ.get .primary)).magic 1
  have htwo := Mark.ofMagic_eq_internal (getImageHeader (σ.get .primary)).magic 2
  simp only [primaryConfirmed, Slots.Confirmed, Flash.mark_contents, Flash.crc_contents, Mark.magic_eq_iff,
    Mark.isInternalMagic_eq, Slot.num, hone, htwo]
  rw [Bool.eq_iff_iff, decide_eq_true_iff]
  split_ifs <;> simp_all

/-- The update that is due is found, and a duplicate is cleared. -/
theorem wpc_getUpdateType :
    wpc (getUpdateType cfg (σ.contents cfg).update (σ.contents cfg (σ.contents cfg).recovery).valid
        (decide (σ.contents cfg).Confirmed) (getImageHeader (σ.get .primary))
        (getImageHeader (σ.get (σ.contents cfg).update)) (getImageHeader (σ.get (σ.contents cfg).recovery)))
      (fun r τ => r = (σ.contents cfg).due cfg ∧ τ = σ.cleared cfg)
      (fun τ => (σ.contents cfg).Duplicate cfg ∧ τ = σ) σ := by
  have hrevert : ((σ.contents cfg (σ.contents cfg).recovery).mark.isInternal = true ∧
      (σ.contents cfg (σ.contents cfg).recovery).valid = true ∧
      ((σ.contents cfg .primary).mark.isInternal = true ∧ (!decide (σ.contents cfg).Confirmed) = true ∨
        (!(σ.contents cfg .primary).valid) = true)) ↔ (σ.contents cfg).Recoverable ∧ (σ.contents cfg).Unwanted := by
    rw [← and_assoc, Slots.Recoverable, Slots.Unwanted, Bool.not_eq_true', Bool.not_eq_true', decide_eq_false_iff_not]
  refine wpc_bind (wpc_get ?_)
  simp only [Mark.magic_eq_iff, Mark.isInternalMagic_eq, ← Flash.mark_contents cfg, ← Flash.crc_contents cfg,
    ← Flash.version_contents cfg, ← Flash.valid_contents cfg, hrevert, ← Slots.Uploaded.eq_1]
  split
  · rename_i huploaded
    split
    · rename_i hnew
      have hdup : ¬ (σ.contents cfg).Duplicate cfg := by
        rintro ⟨-, hcrc, hversion, hvalid⟩
        simp [hcrc, hversion, hvalid] at hnew
      refine wpc_pure ⟨(Slots.due_of_new huploaded hdup).symm, ?_⟩
      rw [Flash.cleared, if_neg hdup]
    rename_i hnew
    have hdup : (σ.contents cfg).Duplicate cfg := by
      simp only [not_or, not_not, Bool.not_eq_true', Bool.not_eq_false] at hnew
      exact ⟨huploaded, hnew⟩
    have hcleared : σ.set (σ.contents cfg).update (σ.get (σ.contents cfg).update).eraseFirstSector = σ.cleared cfg := by
      rw [Flash.cleared, if_pos hdup]
    rw [Slots.due_of_duplicate hdup]
    refine wpc_bind (wpc_modify ⟨hdup, rfl⟩ ?_)
    split_ifs
    all_goals exact wpc_pure ⟨rfl, hcleared⟩
  · rename_i huploaded
    have hcleared : σ = σ.cleared cfg := by
      rw [Flash.cleared, if_neg fun h => huploaded h.1]
    rw [Slots.due_of_not_uploaded huploaded]
    split_ifs
    all_goals exact wpc_pure ⟨rfl, hcleared⟩

variable {cfg σ}

theorem wpc_nxbootGetState {Q : State → Flash → Prop} {C : Flash → Prop}
    (hC : (σ.contents cfg).Duplicate cfg → C σ) (hQ : Q ((σ.contents cfg).state cfg) (σ.cleared cfg)) :
    wpc (nxbootGetState cfg) Q C σ := by
  refine wpc_bind (wpc_get (wpc_bind ?_))
  rw [updateSlot_eq cfg, primaryConfirmed_eq cfg, ← Flash.valid_contents]
  refine wpc_mono ?_ ?_ (wpc_getUpdateType cfg σ)
  · rintro nextBoot τ ⟨hdue, hτ⟩
    rw [hdue, hτ]
    exact wpc_pure hQ
  · rintro _ ⟨hdup, rfl⟩
    exact hC hdup

/-- `nxboot_get_state` returns the state of the contents. -/
theorem nxbootGetState_value : (nxbootGetState cfg σ).value = (σ.contents cfg).state cfg :=
  (wpc_nxbootGetState (Q := fun r _ => r = (σ.contents cfg).state cfg) (C := fun _ => True) (fun _ => trivial) rfl).1

/-- The slot that `nxboot_get_confirm` takes a recovery pointer for. -/
def pointed (pointer : Nat) : Slot := if pointer = Slot.secondary.num then .secondary else .tertiary

variable (cfg) in
/-- The magic of the slot behind the pointer is not looked at. -/
theorem nxbootGetConfirm_eq_one_iff :
    (nxbootGetConfirm σ).value = 1 ↔
      (σ.contents cfg .primary).mark = .standard ∨
        ∃ pointer, (σ.contents cfg .primary).mark = .internal pointer ∧ pointer ≠ 0 ∧
          (σ.contents cfg .primary).crc = (σ.contents cfg (pointed pointer)).crc := by
  simp only [nxbootGetConfirm, bind_apply, get_apply, Flash.mark_contents, Flash.crc_contents, Mark.magic_eq_iff,
    Mark.isInternalMagic_eq, Mark.ofMagic_eq_internal, pointed]
  by_cases hstandard : Mark.ofMagic (getImageHeader (σ.get .primary)).magic = .standard
  · simp [hstandard]
  by_cases hinternal : (Mark.ofMagic (getImageHeader (σ.get .primary)).magic).isInternal = true
  · by_cases hpointer : recoveryPointer (getImageHeader (σ.get .primary)).magic = 0
    · simp [hstandard, hinternal, hpointer]
    by_cases hsecondary : recoveryPointer (getImageHeader (σ.get .primary)).magic = 1
    · simp [hstandard, hinternal, hsecondary, Slot.num]
    · simp [hstandard, hinternal, hpointer, hsecondary, Slot.num]
  · simp [hstandard, hinternal]

theorem nxbootGetConfirm_of_confirmed (h : (σ.contents cfg).Confirmed) : (nxbootGetConfirm σ).value = 1 := by
  rw [nxbootGetConfirm_eq_one_iff cfg]
  rcases h with h | ⟨hmark, -, hcrc⟩ | ⟨hmark, -, hcrc⟩
  · exact .inl h
  · exact .inr ⟨1, hmark, by decide, hcrc⟩
  · exact .inr ⟨2, hmark, by decide, hcrc⟩

end

/-! ## What can be left of the slots -/

/-- A copy of a slot, or its beginning: at least the header is there. -/
structure Copied (mark : Mark) (src x : Content) : Prop where
  mark_eq : x.mark = mark
  crc_eq : x.crc = src.crc

/-- A whole copy of a slot. -/
structure Cloned (mark : Mark) (src x : Content) : Prop extends Copied mark src x where
  valid : x.valid = true
  body : x.body = src.body

namespace Slots

/-- The slots with a new content of one of them. -/
def put (c : Slots) (s : Slot) (x : Content) : Slots := Function.update c s x

@[simp] theorem put_self {c : Slots} {s : Slot} {x : Content} : c.put s x s = x := Function.update_self ..

theorem put_of_ne {c : Slots} {s t : Slot} {x : Content} (h : t ≠ s) : c.put s x t = c t := Function.update_of_ne h ..

@[simp] theorem put_put {c : Slots} {s : Slot} {x y : Content} : (c.put s x).put s y = c.put s y :=
  Function.update_idem ..

/-- The update that runs already is taken out of its slot. -/
inductive Clears (cfg : Config) (c : Slots) : Slots → Prop
  | kept (h : ¬ c.Duplicate cfg) : Clears cfg c c
  | erased (h : c.Duplicate cfg) (x : Content) (hx : x.mark = .blank) : Clears cfg c (c.put c.update x)

/-- The boot does not leave a valid primary image alone. -/
def Goes (checkOnly : Bool) (c : Slots) : Prop := ¬ (checkOnly = true ∧ (c .primary).valid = true)

/-- A recovery is made, if one is needed. If the images fit the slots, it is a whole one. -/
inductive Saves (fits : Prop) (c : Slots) : Slots → Prop
  | kept (h : fits → ¬ c.NeedsRecovery) : Saves fits c c
  | saved (h : c.NeedsRecovery) (x : Content) (hx : Copied (c .primary).mark.flip (c .primary) x)
      (hvalid : x.valid = true) (hwhole : fits → Cloned (c .primary).mark.flip (c .primary) x) :
      Saves fits c (c.put c.recovery x)

/-- What a boot can leave when the power fails, and at its end. A revert to the image that is
there already does no harm. -/
inductive Passes (cfg : Config) (fits : Prop) (checkOnly : Bool) (c : Slots) : Slots → Prop
  | start : Passes cfg fits checkOnly c c
  | cleared {d : Slots} (hclear : c.Clears cfg d) : Passes cfg fits checkOnly c d
  | reverting {d : Slots} (hdue : c.due cfg = .revert) (hgo : c.Goes checkOnly) (hclear : c.Clears cfg d)
      (x : Content) (hx : Copied (c c.recovery).mark.flip (c c.recovery) x)
      (hsame : fits → (c .primary).valid = true → (c .primary).body = (c c.recovery).body → x.valid = true) :
      Passes cfg fits checkOnly c (d.put .primary x)
  | saving (hdue : c.due cfg = .update) (hgo : c.Goes checkOnly) (hneeds : c.NeedsRecovery) (x : Content)
      (hx : Copied (c .primary).mark.flip (c .primary) x) : Passes cfg fits checkOnly c (c.put c.recovery x)
  | installing {d : Slots} (hdue : c.due cfg = .update) (hgo : c.Goes checkOnly) (hsave : c.Saves fits d)
      (x : Content) (hx : Copied (.internal c.update.num) (c c.update) x) :
      Passes cfg fits checkOnly c (d.put .primary x)
  | installed {d : Slots} (hdue : c.due cfg = .update) (hgo : c.Goes checkOnly) (hsave : c.Saves fits d)
      (x : Content) (hx : Copied (.internal c.update.num) (c c.update) x)
      (hwhole : fits → Cloned (.internal c.update.num) (c c.update) x) (y : Content) (hy : y.mark = .blank) :
      Passes cfg fits checkOnly c ((d.put .primary x).put c.update y)

/-- What a boot leaves at its end if the images fit the slots. -/
inductive Ends (cfg : Config) (checkOnly : Bool) (c : Slots) : Slots → Prop
  | idle {d : Slots} (hdue : c.due cfg = .none ∨ ¬ c.Goes checkOnly) (hclear : c.Clears cfg d) :
      Ends cfg checkOnly c d
  | reverted {d : Slots} (hdue : c.due cfg = .revert) (hgo : c.Goes checkOnly) (hclear : c.Clears cfg d)
      (x : Content) (hx : Cloned (c c.recovery).mark.flip (c c.recovery) x) :
      Ends cfg checkOnly c (d.put .primary x)
  | installed {d : Slots} (hdue : c.due cfg = .update) (hgo : c.Goes checkOnly) (hsave : c.Saves True d)
      (x : Content) (hx : Cloned (.internal c.update.num) (c c.update) x) (y : Content) (hy : y.mark = .blank) :
      Ends cfg checkOnly c ((d.put .primary x).put c.update y)

/-- What an upload can leave. -/
inductive Uploads (cfg : Config) (c : Slots) : Slots → Prop
  | start : Uploads cfg c c
  | cleared {d : Slots} (hclear : c.Clears cfg d) : Uploads cfg c d
  | writing (x : Content) (hx : x.mark = .standard) : Uploads cfg c (c.put c.update x)

/-- What a confirmation can leave. -/
inductive Confirms (cfg : Config) (c : Slots) : Slots → Prop
  | start : Confirms cfg c c
  | cleared {d : Slots} (hclear : c.Clears cfg d) : Confirms cfg c d
  | writing (hopen : ¬ c.Confirmed) (x : Content) (hx : Copied (c .primary).mark (c .primary) x) :
      Confirms cfg c (c.put c.update x)

end Slots

/-- A write to a slot changes the content of this slot only. -/
theorem Flash.contents_set (cfg : Config) (σ : Flash) (s : Slot) (p : Partition) :
    (σ.set s p).contents cfg = (σ.contents cfg).put s (content cfg p) := by
  funext t
  simp only [contents, Flash.get_set, Slots.put, Function.update_apply]
  split <;> rfl

end Boot.Nxboot
