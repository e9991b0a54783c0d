-- SUMMARY: The bootloader: slot roles, updates, reverts and confirmations.
import FruitClawApps.Boot.Nxboot.Image

/-!
# The bootloader

`boot/nxboot/loader/boot.c` keeps the running image in the primary slot. The other two take turns as
the place for the next update and for the recovery. Their roles are derived from the headers in each
call. Progress messages and the copy to RAM are left out.
-/

namespace Boot.Nxboot

open Bytes Crash

/-! ## Copies -/

/-- The loop that copies blocks between two slots. -/
def copyBlocks (src dst : Slot) (blocksize : Nat) : Nat → Nat → Nat → Prog Flash Result
  | 0, _, _ => return .ok
  | fuel + 1, off, remain =>
    if remain = 0 then return .ok
    else do
      let readsiz := if remain > blocksize then blocksize else remain
      match ← flashPartitionRead src readsiz off with
      | none => return .error
      | some buf =>
        match ← flashPartitionWrite dst buf off with
        | .error => return .error
        | .ok => copyBlocks src dst blocksize fuel (off + readsiz) (remain - readsiz)

/-- The magic that a copy gets: a standard one becomes internal and the other way round. An
update adds the number of the slot it comes from, which becomes the slot of its recovery. -/
def copyMagic (magic : Nat) (update : Option Slot) : Nat :=
  (if isInternalMagic magic then headerMagic else headerMagicInt) ||| (update.elim 0 Slot.num)

/-- `copy_partition`. The update slot is given if the copy is an update. -/
def copyPartition (src dst : Slot) (update : Option Slot) : Prog Flash Result := do
  let σ ← Crash.get
  let h := getImageHeader (σ.get src)
  let remain := (h.size + h.headerSize : Int).bmod (2 ^ 32)
  if remain > (σ.get dst).size then return .error
  else
    let blocksize := (σ.get dst).blocksize
    match ← flashPartitionRead src blocksize 0 with
    | none => return .error
    | some buf =>
      let magic := (le32 (copyMagic h.magic update)).take blocksize
      match ← flashPartitionWrite dst (magic ++ buf.drop magic.length) 0 with
      | .error => return .error
      | .ok =>
        let rest := (remain - blocksize).toNat
        copyBlocks src dst blocksize rest blocksize rest

/-! ## The state of the bootloader -/

/-- `enum nxboot_update_type`. -/
inductive UpdateType where
  | none | update | revert
deriving DecidableEq

/-- `struct nxboot_state`. -/
structure State where
  update : Slot
  recovery : Slot
  recoveryValid : Bool
  recoveryPresent : Bool
  primaryConfirmed : Bool
  nextBoot : UpdateType
deriving DecidableEq

/-- `magic & NXBOOT_RECOVERY_PTR_MASK`. -/
def recoveryPointer (magic : Nat) : Nat := magic &&& 0x3

variable (cfg : Config)

/-- The version comparison. Without downgrade prevention it is equality, with it the first version
has a greater field. -/
def compareVersions (v1 v2 : Version) : Bool :=
  if !cfg.preventDowngrade then
    v1.major == v2.major && v1.minor == v2.minor && v1.patch == v2.patch && v1.preRelease == v2.preRelease
  else decide (v1.major > v2.major) || decide (v1.minor > v2.minor) || decide (v1.patch > v2.patch)

/-- Which of the two slots is for updates, given the headers of all three. -/
def updateSlot (primary secondary tertiary : Header) : Slot :=
  if tertiary.magic = headerMagic then .tertiary
  else if isInternalMagic secondary.magic ∧ isInternalMagic tertiary.magic then
    if isInternalMagic primary.magic then
      if recoveryPointer primary.magic = Slot.secondary.num ∧ primary.crc = secondary.crc then .tertiary
      else .secondary
    else if primary.crc = secondary.crc then .tertiary
    else .secondary
  else if isInternalMagic secondary.magic then .tertiary
  else .secondary

/-- The other of the two slots. -/
def recoverySlot : Slot → Slot
  | .secondary => .tertiary
  | _ => .secondary

/-- Whether the primary image is confirmed. -/
def primaryConfirmed (primary secondary tertiary : Header) : Bool :=
  if primary.magic = headerMagic then true
  else if isInternalMagic primary.magic then
    if recoveryPointer primary.magic = Slot.secondary.num ∧ isInternalMagic secondary.magic then
      primary.crc == secondary.crc
    else if recoveryPointer primary.magic = Slot.tertiary.num ∧ isInternalMagic tertiary.magic then
      primary.crc == tertiary.crc
    else false
  else false

/-- `get_update_type`, which erases the head of an update that is in the primary slot already. -/
def getUpdateType (update : Slot) (recoveryValid confirmed : Bool)
    (primaryHeader updateHeader recoveryHeader : Header) : Prog Flash UpdateType := do
  let σ ← Crash.get
  let primaryValid := validateImage cfg true (σ.get .primary)
  let checkRevert : Prog Flash UpdateType :=
    if isInternalMagic recoveryHeader.magic ∧ recoveryValid ∧
        ((isInternalMagic primaryHeader.magic ∧ !confirmed) ∨ !primaryValid) then return .revert
    else return .none
  if updateHeader.magic = headerMagic ∧ validateImage cfg true (σ.get update) then
    if primaryHeader.crc ≠ updateHeader.crc ∨
        !compareVersions cfg primaryHeader.version updateHeader.version ∨ !primaryValid then
      return .update
    else do
      flashPartitionEraseFirstSector update
      checkRevert
  else checkRevert

def nxbootGetState : Prog Flash State := do
  let σ ← Crash.get
  let header (s : Slot) := getImageHeader (σ.get s)
  let update := updateSlot (header .primary) (header .secondary) (header .tertiary)
  let recovery := recoverySlot update
  let recoveryValid := validateImage cfg true (σ.get recovery)
  let confirmed := primaryConfirmed (header .primary) (header .secondary) (header .tertiary)
  let nextBoot ← getUpdateType cfg update recoveryValid confirmed (header .primary) (header update) (header recovery)
  return {
    update := update
    recovery := recovery
    recoveryValid := recoveryValid
    recoveryPresent := (header .primary).crc == (header recovery).crc
    primaryConfirmed := confirmed
    nextBoot := nextBoot }

/-! ## Updates -/

/-- The copy of the update to the primary slot. The head of the update is erased behind it, so
that it is not installed again. -/
def installUpdate (update : Slot) : Prog Flash Unit := do
  if validateImage cfg true ((← Crash.get).get update) then
    match ← copyPartition update .primary (some update) with
    | .error => return ()
    | .ok => flashPartitionEraseFirstSector update
  else return ()

/-- `perform_update`. Its result is always `OK`. -/
def performUpdate (state : State) (checkOnly : Bool) : Prog Flash Unit := do
  let primaryValid := validateImage cfg true ((← Crash.get).get .primary)
  if state.nextBoot = .revert ∧ (!checkOnly ∨ !primaryValid) then
    if state.recoveryValid then do
      let _ ← copyPartition state.recovery .primary none
    else return ()
  else if primaryValid ∧ checkOnly then return ()
  else if (!state.recoveryPresent ∨ !state.recoveryValid) ∧ state.primaryConfirmed ∧ primaryValid then do
    let _ ← copyPartition .primary state.recovery none
    if validateImage cfg true ((← Crash.get).get state.recovery) then installUpdate cfg state.update
    else return ()
  else installUpdate cfg state.update

def nxbootPerformUpdate (checkOnly : Bool) : Prog Flash Result := do
  let state ← nxbootGetState cfg
  if state.nextBoot ≠ .none then performUpdate cfg state checkOnly
  return if validateImage cfg true ((← Crash.get).get .primary) then .ok else .error

/-! ## The interface of the application -/

/-- `nxboot_open_update_partition`. -/
def nxbootOpenUpdatePartition : Prog Flash Slot := do
  return (← nxbootGetState cfg).update

/-- `nxboot_get_confirm`. -/
def nxbootGetConfirm : Prog Flash Nat := do
  let σ ← Crash.get
  let primary := getImageHeader (σ.get .primary)
  if primary.magic = headerMagic then return 1
  else if isInternalMagic primary.magic then
    if recoveryPointer primary.magic ≠ 0 then
      let recovery : Slot := if recoveryPointer primary.magic = Slot.secondary.num then .secondary else .tertiary
      return if primary.crc = (getImageHeader (σ.get recovery)).crc then 1 else 0
    else return 0
  else return 0

/-- `nxboot_confirm`, which writes the first erase page of the primary image to the update slot. -/
def nxbootConfirm : Prog Flash Result := do
  let state ← nxbootGetState cfg
  if state.primaryConfirmed then return .ok
  else
    let update := (← Crash.get).get state.update
    copyBlocks .primary state.update update.blocksize update.erasesize 0 update.erasesize

/-- The loop of an application that writes an image to the slot for updates, block by block. -/
def uploadBlocks (slot : Slot) (blocksize : Nat) (image : List UInt8) : Nat → Nat → Prog Flash Result
  | 0, _ => return .ok
  | fuel + 1, off =>
    if image.length ≤ off then return .ok
    else do
      let buf := slice image off blocksize
      match ← flashPartitionWrite slot buf off with
      | .error => return .error
      | .ok => uploadBlocks slot blocksize image fuel (off + buf.length)

def upload (image : List UInt8) : Prog Flash Result := do
  let slot ← nxbootOpenUpdatePartition cfg
  uploadBlocks slot ((← Crash.get).get slot).blocksize image image.length 0

end Boot.Nxboot
