-- SUMMARY: The offset of the local clock from four time stamps, and the clock it is applied to.
import FruitClawApps.Lib.Bytes
import Mathlib.Tactic.Ring

/-!
# Clock correction

Times are fixed-point numbers, with seconds in the upper half and a fraction in the lower half. The
offset is the mean of two differences, each halved before. The seconds are rounded down, so the
fraction is to be added, but the shift that isolates it is signed: from half a second on it is a
negative number, and the clock is one second late.
-/

namespace Netutils.Ntpclient

open Bytes

/-! ## Time stamps -/

/-- `NSEC_PER_SEC`. -/
abbrev nsecPerSec : Int := 1000000000

/-- `ntpc_getuint32`. -/
def ntpcGetuint32 (ptr : List UInt8) : BitVec 32 := BitVec.ofNat 32 (beNat (ptr.take 4))

/-- `ntpc_getuint64`. -/
def ntpcGetuint64 (ptr : List UInt8) : BitVec 64 :=
  (ntpcGetuint32 ptr).setWidth 64 <<< 32 ||| (ntpcGetuint32 (ptr.drop 4)).setWidth 64

variable (time : BitVec 64)

/-- `ntp_secpart`. -/
def ntpSecpart : Int := ((time.sshiftRight 32).setWidth 32).toInt

/-- `ntp_nsecpart`. -/
def ntpNsecpart : Int :=
  ((((time <<< 32).sshiftRight 32 * 1000000000#64).sshiftRight 32).setWidth 32).toInt

structure Sample where
  offset : BitVec 64
  delay : BitVec 64
deriving DecidableEq

/-- `ntpc_calculate_offset`. -/
def ntpcCalculateOffset (localXmittime localRecvtime : BitVec 64) (remoteRecv remoteXmit : List UInt8) : Sample :=
  let remoteRecvtime := ntpcGetuint64 remoteRecv
  let remoteXmittime := ntpcGetuint64 remoteXmit
  { offset := (remoteRecvtime / 2 - localXmittime / 2) + (remoteXmittime / 2 - localRecvtime / 2)
    delay := (localRecvtime - localXmittime) - (remoteXmittime - remoteRecvtime) }

/-- The longest time in 34 years, in units of a time stamp. -/
def years34 : Int := 34 * 366 * 86400 * 2 ^ 32

/-- Two time stamps of one era that are not further than 34 years apart. -/
def Near (a b : BitVec 64) : Prop := |(a.toNat : Int) - b.toNat| ≤ years34

instance (a b : BitVec 64) : Decidable (Near a b) := Int.decLe _ _

theorem calculateOffset_toInt {t1 t4 : BitVec 64} {remoteRecv remoteXmit : List UInt8}
    (h1 : Near t1 (ntpcGetuint64 remoteRecv)) (h4 : Near t4 (ntpcGetuint64 remoteXmit)) :
    (ntpcCalculateOffset t1 t4 remoteRecv remoteXmit).offset.toInt =
      ((ntpcGetuint64 remoteRecv).toNat / 2 - t1.toNat / 2 : Int) +
        ((ntpcGetuint64 remoteXmit).toNat / 2 - t4.toNat / 2 : Int) := by
  simp only [Near, years34, abs_le] at h1 h4
  rw [ntpcCalculateOffset]
  generalize ntpcGetuint64 remoteRecv = t2 at h1 ⊢
  have htwo : (2 : BitVec 64).toNat = 2 := rfl
  simp only [BitVec.toInt_eq_toNat_bmod, BitVec.toNat_add, BitVec.toNat_sub, BitVec.toNat_udiv, htwo, Int.bmod_def]
  omega

/-! ## The two parts of an offset -/

/-- The fraction of an offset. -/
def fraction : Int := time.toInt % 2 ^ 32

theorem toInt_setWidth_of_fits {x : BitVec 64} (hle : -2 ^ 31 ≤ x.toInt) (hlt : x.toInt < 2 ^ 31) :
    (x.setWidth 32).toInt = x.toInt := by
  rw [BitVec.toInt_setWidth, Int.bmod_def]
  rw [x.toInt_eq_toNat_bmod, Int.bmod_def] at hle hlt ⊢
  omega

theorem ntpSecpart_eq : ntpSecpart time = time.toInt / 2 ^ 32 := by
  have hlt := time.toInt_lt
  have hle := time.le_toInt
  have hshift : (time.sshiftRight 32).toInt = time.toInt / 2 ^ 32 := by
    rw [BitVec.toInt_sshiftRight, Int.shiftRight_eq_div_pow]
    rfl
  rw [ntpSecpart, toInt_setWidth_of_fits (by omega) (by omega), hshift]

/-- The fraction in nanoseconds, rounded down. From one half on it is that of a negative number. -/
theorem ntpNsecpart_eq :
    ntpNsecpart time =
      (if fraction time < 2 ^ 31 then fraction time else fraction time - 2 ^ 32) * nsecPerSec / 2 ^ 32 := by
  have hfraction : fraction time = time.toNat % 2 ^ 32 := by
    rw [fraction, BitVec.toInt_eq_toNat_bmod, Int.bmod_def]
    omega
  have hsigned : ((time <<< 32).sshiftRight 32).toInt =
      if fraction time < 2 ^ 31 then fraction time else fraction time - 2 ^ 32 := by
    rw [BitVec.toInt_sshiftRight, Int.shiftRight_eq_div_pow, BitVec.toInt_shiftLeft, hfraction, Nat.shiftLeft_eq,
      Int.bmod_def]
    split <;> omega
  have hproduct : ((time <<< 32).sshiftRight 32 * 1000000000#64).toInt =
      ((time <<< 32).sshiftRight 32).toInt * nsecPerSec := by
    have hbillion : (1000000000#64 : BitVec 64).toInt = 1000000000 := by decide
    rw [BitVec.toInt_mul, hbillion, Int.bmod_def]
    simp only [nsecPerSec]
    omega
  have hshift : (((time <<< 32).sshiftRight 32 * 1000000000#64).sshiftRight 32).toInt =
      ((time <<< 32).sshiftRight 32).toInt * nsecPerSec / 2 ^ 32 := by
    rw [BitVec.toInt_sshiftRight, Int.shiftRight_eq_div_pow, hproduct]
    rfl
  simp only [nsecPerSec] at hshift ⊢
  rw [ntpNsecpart, toInt_setWidth_of_fits (by omega) (by omega), hshift, hsigned]

/-! ## Applying it -/

/-- `struct timespec`. -/
structure Timespec where
  sec : Int
  nsec : Int
deriving DecidableEq

namespace Timespec

variable (t : Timespec)

/-- The time in nanoseconds. -/
def total : Int := t.sec * nsecPerSec + t.nsec

/-- The nanosecond field is in its range. -/
def Normal : Prop := 0 ≤ t.nsec ∧ t.nsec < nsecPerSec

/-- The loop that borrows seconds. -/
def borrow (t : Timespec) : Timespec :=
  if t.nsec < 0 then borrow ⟨t.sec - 1, t.nsec + nsecPerSec⟩ else t
termination_by (-t.nsec).toNat
decreasing_by
  simp only [nsecPerSec]
  omega

/-- The loop that carries seconds. -/
def carry (t : Timespec) : Timespec :=
  if nsecPerSec ≤ t.nsec then carry ⟨t.sec + 1, t.nsec - nsecPerSec⟩ else t
termination_by t.nsec.toNat
decreasing_by
  simp only [nsecPerSec] at *
  omega

theorem borrow_spec : t.borrow.total = t.total ∧ 0 ≤ t.borrow.nsec := by
  fun_induction borrow t with
  | case1 t h ih =>
    refine ⟨ih.1.trans ?_, ih.2⟩
    simp only [total]
    ring
  | case2 t h => exact ⟨rfl, Int.not_lt.mp h⟩

theorem carry_spec (h : 0 ≤ t.nsec) : t.carry.total = t.total ∧ t.carry.Normal := by
  fun_induction carry t with
  | case1 t hge ih =>
    obtain ⟨htotal, hnormal⟩ := ih (by simp only; omega)
    refine ⟨htotal.trans ?_, hnormal⟩
    simp only [total]
    ring
  | case2 t hlt => exact ⟨rfl, h, Int.not_le.mp hlt⟩

end Timespec

variable (src : Timespec) (offset : BitVec 64)

/-- `ntpc_apply_offset`. -/
def ntpcApplyOffset : Timespec :=
  (⟨src.sec + ntpSecpart offset, src.nsec + ntpNsecpart offset⟩ : Timespec).borrow.carry

theorem applyOffset_spec :
    (ntpcApplyOffset src offset).total = src.total + ntpSecpart offset * nsecPerSec + ntpNsecpart offset ∧
      (ntpcApplyOffset src offset).Normal := by
  obtain ⟨hborrow, hpos⟩ :=
    (⟨src.sec + ntpSecpart offset, src.nsec + ntpNsecpart offset⟩ : Timespec).borrow_spec
  obtain ⟨hcarry, hnormal⟩ := Timespec.carry_spec _ hpos
  refine ⟨?_, hnormal⟩
  rw [ntpcApplyOffset, hcarry, hborrow]
  simp only [Timespec.total]
  ring

/-- The clock is set to the current time and the offset, to two nanoseconds. -/
def Applied (src tp : Timespec) (offset : BitVec 64) : Prop :=
  |(tp.total - src.total) * 2 ^ 32 - offset.toInt * nsecPerSec| ≤ 2 * 2 ^ 32

theorem applied_iff :
    Applied src (ntpcApplyOffset src offset) offset ↔ fraction offset < 2 ^ 31 := by
  have hsplit : offset.toInt = offset.toInt / 2 ^ 32 * 2 ^ 32 + fraction offset := by
    rw [fraction]
    omega
  rw [Applied, (applyOffset_spec src offset).1, ntpSecpart_eq, ntpNsecpart_eq, abs_le]
  simp only [nsecPerSec]
  constructor
  · intro happlied
    omega
  · intro hlt
    omega

/-- The offset is the mean of the two differences. A clock that any offset is applied to is right
exactly if the fraction of the offset is less than one half. -/
theorem clock_correction (t1 t4 : BitVec 64) (remoteRecv remoteXmit : List UInt8)
    (h1 : Near t1 (ntpcGetuint64 remoteRecv)) (h4 : Near t4 (ntpcGetuint64 remoteXmit)) :
    |2 * (ntpcCalculateOffset t1 t4 remoteRecv remoteXmit).offset.toInt -
        (((ntpcGetuint64 remoteRecv).toNat - t1.toNat : Int) + ((ntpcGetuint64 remoteXmit).toNat - t4.toNat : Int))| ≤
      2 * 4 ∧
    ∀ src offset, (ntpcApplyOffset src offset).Normal ∧
      (Applied src (ntpcApplyOffset src offset) offset ↔ fraction offset < 2 ^ 31) := by
  refine ⟨?_, fun src offset => ⟨(applyOffset_spec src offset).2, applied_iff src offset⟩⟩
  rw [calculateOffset_toInt h1 h4, abs_le]
  omega

/-- A server that is a quarter of a second ahead. -/
theorem clock_correction_quarter :
    Near 0x100000000#64 (ntpcGetuint64 [0, 0, 0, 1, 0x40, 0, 0, 0]) ∧
      Applied ⟨100, 900000000⟩ (ntpcApplyOffset ⟨100, 900000000⟩ 0x40000000#64) 0x40000000#64 := by
  have hnear : Near 0x100000000#64 (ntpcGetuint64 [0, 0, 0, 1, 0x40, 0, 0, 0]) := by decide
  have h := (clock_correction 0x100000000#64 0x100000000#64 _ _ hnear hnear).2 ⟨100, 900000000⟩ 0x40000000#64
  exact ⟨hnear, h.2.mpr (by decide)⟩

/-- A server that is half a second ahead sets the clock back by half a second. -/
theorem not_clock_correction :
    ∃ t1 t4 remoteRecv remoteXmit src, Near t1 (ntpcGetuint64 remoteRecv) ∧ Near t4 (ntpcGetuint64 remoteXmit) ∧
      src.Normal ∧ (ntpcCalculateOffset t1 t4 remoteRecv remoteXmit).offset.toInt = 2 ^ 31 ∧
      (ntpcApplyOffset src (ntpcCalculateOffset t1 t4 remoteRecv remoteXmit).offset).total =
        src.total - 500000000 := by
  have hoffset : (ntpcCalculateOffset 0x100000000#64 0x100000000#64 [0, 0, 0, 1, 0x80, 0, 0, 0]
      [0, 0, 0, 1, 0x80, 0, 0, 0]).offset = 0x80000000#64 := by decide
  refine ⟨0x100000000#64, 0x100000000#64, [0, 0, 0, 1, 0x80, 0, 0, 0], [0, 0, 0, 1, 0x80, 0, 0, 0], ⟨100, 0⟩,
    by decide, by decide, ⟨by decide, by decide⟩, by rw [hoffset]; decide, ?_⟩
  rw [hoffset, (applyOffset_spec _ _).1]
  decide

end Netutils.Ntpclient
