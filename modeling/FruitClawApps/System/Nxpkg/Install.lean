-- SUMMARY: Installing a package, and when its paths stay in the store.
import FruitClawApps.Lib.FileProgram
import FruitClawApps.Lib.LexicalPath
import FruitClawApps.System.Nxpkg.Metadata

/-!
# Installing a package

`pkg_install` copies the artifact to a temporary file, checks its hash, copies it to the directory
of the version, and sets the pointers and the database. The names of the files are made from strings
of the index that are only not blank.
-/

namespace System.Nxpkg

open FileProgram Prog List

/-! ## Paths -/

/-- `PKG_REPO_DIR`. -/
def repoDir : CStr := "/etc/nxpkg".toList

/-- `PKG_REPO_INDEX`. -/
def repoIndex : CStr := "/etc/nxpkg/index.json".toList

/-- `PKG_REPO_INSTALLED`. -/
def repoInstalled : CStr := "/var/lib/nxpkg/installed.json".toList

/-- `PKG_STORE_DIR`. -/
def storeDir : CStr := "/var/lib/nxpkg/pkgs".toList

/-- `PKG_TMP_DIR`. -/
def tmpDir : CStr := "/var/cache/nxpkg".toList

/-- `PKG_TMP_PKG_DIR`. -/
def tmpPkgDir : CStr := "/var/cache/nxpkg/pkg".toList

variable (name : CStr)

def packageRoot : CStr := storeDir ++ '/' :: name

def versionPath (name version : CStr) : CStr := packageRoot name ++ '/' :: version

def currentPath : CStr := packageRoot name ++ '/' :: "current".toList

def previousPath : CStr := packageRoot name ++ '/' :: "previous".toList

def txnPath : CStr := packageRoot name ++ '/' :: ".txn".toList

def lockPath : CStr := packageRoot name ++ '/' :: ".lock".toList

def downloadPath (name version : CStr) : CStr := tmpPkgDir ++ '/' :: (name ++ '-' :: version ++ ".npkg".toList)

/-- `pkg_store_basename`. -/
def basename (path : CStr) : CStr := (path.reverse.takeWhile (· ≠ '/')).reverse

def payloadPath (name version artifact : CStr) : CStr := versionPath name version ++ '/' :: basename artifact

def manifestPath (name version : CStr) : CStr := versionPath name version ++ '/' :: "manifest.json".toList

/-- The name that `pkg_store_write_text_atomic` writes to. -/
def tmpName (path : CStr) : CStr := path ++ ".tmp".toList

/-! ## The store -/

/-- What the program is built with and runs on. -/
structure Env where
  cj : CJson
  /-- The digest of a file, in hexadecimal. -/
  sha256 : List Char → CStr
  rt : Runtime
  /-- `PATH_MAX`. -/
  pathMax : Nat
  /-- `_POSIX_PATH_MAX` is the least value. -/
  pathMax_ge : 256 ≤ pathMax

variable (env : Env)

variable (name : CStr) (m : Manifest) (path : CStr)

/-- `pkg_store_format` and `snprintf` to an array of `PATH_MAX` characters. -/
def format : Fallible CStr := known (copyString env.pathMax path)

/-- The path up to each slash but a first one, and the path. -/
def dirPrefixes (done : CStr) : CStr → List CStr
  | [] => [done]
  | c :: rest =>
    if c = '/' ∧ done ≠ [] then done :: dirPrefixes (done ++ [c]) rest else dirPrefixes (done ++ [c]) rest

/-- The loop of `pkg_store_mkdirs`. -/
def mkdirEach : List CStr → Fallible Unit
  | [] => pure ()
  | dir :: dirs => do
    let _ ← attempt (.mkdir dir)
    mkdirEach dirs

/-- `pkg_store_mkdirs`. -/
def mkdirs : Fallible Unit := do
  let path ← format env path
  mkdirEach (dirPrefixes [] path)

/-- `pkg_store_prepare_layout`. -/
def prepareLayout : Fallible Unit := do
  mkdirs env repoDir
  mkdirs env storeDir
  mkdirs env tmpDir
  mkdirs env tmpPkgDir

/-- `pkg_store_ensure_package_root`. -/
def ensurePackageRoot : Fallible Unit := do
  let path ← format env (packageRoot name)
  mkdirs env path

/-- `pkg_store_ensure_version_dir`. -/
def ensureVersionDir (name version : CStr) : Fallible Unit := do
  ensurePackageRoot env name
  let path ← format env (versionPath name version)
  mkdirs env path

/-- The loop of `pkg_store_write_all`. Each write takes at least one byte. -/
def writeLoop (name : CStr) : Nat → List Char → Fallible Unit
  | 0, _ => pure ()
  | fuel + 1, bytes =>
    if bytes = [] then pure ()
    else do
      let rest ← attempt (.write name bytes)
      writeLoop name fuel rest

/-- `pkg_store_write_all`. -/
def writeAll (bytes : List Char) : Fallible Unit := writeLoop name bytes.length bytes

/-- `pkg_store_remove_file`. No caller looks at what it returns. -/
def removeFile : Prog Unit := do
  let _ ← perform (.unlink path)

def closeAndRemove : Prog Unit := do
  let _ ← perform (.close path)
  removeFile path

/-- `pkg_store_write_text_atomic`. -/
def writeTextAtomic (path text : CStr) : Fallible Unit := do
  let tmp ← format env (tmpName path)
  let _ ← attempt (.create tmp)
  onError (writeAll tmp text) (closeAndRemove tmp)
  let _ ← onError (attempt (.close tmp)) (removeFile tmp)
  let _ ← onError (attempt (.rename tmp path)) (removeFile tmp)
  pure ()

/-- `pkg_store_copy_file`. -/
def copyFile (src dest : CStr) : Fallible Unit := do
  let _ ← attempt (.openRead src)
  let _ ← attempt (.create dest)
  onError
    (do
      let text ← attempt (.read src)
      writeAll dest text)
    (closeAndRemove dest)
  let _ ← onError (attempt (.close dest)) (removeFile dest)
  pure ()

/-- `enum pkg_txn_state_e`, as far as it is written. -/
inductive TxnState where
  | fetching | verified | staged | compatOk | activated | cleanup | failed
deriving DecidableEq

/-- `pkg_txn_state_str`. -/
def txnStateStr : TxnState → CStr
  | .fetching => "FETCHING".toList
  | .verified => "VERIFIED".toList
  | .staged => "STAGED".toList
  | .compatOk => "COMPAT_OK".toList
  | .activated => "ACTIVATED".toList
  | .cleanup => "CLEANUP".toList
  | .failed => "FAILED".toList

/-- `pkg_txn_write_state`. -/
def txnWriteState (state : TxnState) : Fallible Unit := do
  let path ← format env (txnPath name)
  writeTextAtomic env path (txnStateStr state ++ ['\n'])

/-- `pkg_txn_clear_state`. -/
def txnClearState : Prog Unit :=
  match copyString env.pathMax (txnPath name) with
  | .error _ => pure ()
  | .ok path => removeFile path

/-! ## Installing -/

/-- `pkg_metadata_load_index`. -/
def loadIndex : Fallible (List Manifest) := do
  let path ← format env repoIndex
  let text ← attempt (.read path)
  known (parseIndex env.cj env.pathMax text)

/-- `pkg_metadata_load_installed`. -/
def loadInstalled : Fallible (List Entry) := do
  let path ← format env repoInstalled
  ExceptT.mk do
    match ← perform (.read path) with
    | .error .enoent => return .ok []
    | .error e => return .error e
    | .ok text => return parseInstalled env.cj text

/-- `pkg_metadata_save_installed`. -/
def saveInstalled (db : List Entry) : Fallible Unit := do
  let path ← format env repoInstalled
  writeTextAtomic env path (env.cj.print (installedJson db))

/-- `pkg_install_resolve_artifact`. -/
def resolveArtifact : Except Errno CStr :=
  if m.artifact.head? = some '/' then copyString env.pathMax m.artifact
  else copyString env.pathMax (repoDir ++ '/' :: m.artifact)

/-- `pkg_install_acquire_lock`. -/
def acquireLock : Fallible CStr := do
  ensurePackageRoot env name
  let path ← format env (lockPath name)
  let _ ← attempt (.createExcl path)
  pure path

/-- `pkg_compat_check`. -/
def compatCheck : Except Errno Unit :=
  if m.arch ≠ env.rt.arch then .error (.other 8) else if m.compat ≠ env.rt.compat then .error (.other 18) else .ok ()

/-- `pkg_install_write_pointers`. -/
def writePointers (db : List Entry) (m : Manifest) : Fallible Unit :=
  match findInstalled db m.name with
  | none => known (.error .enoent)
  | some entry => do
    let current ← format env (currentPath m.name)
    let previous ← format env (previousPath m.name)
    writeTextAtomic env current entry.current
    writeTextAtomic env previous entry.previous

/-- The comparison of the digest, with `EILSEQ`. -/
def checkHash (content : List Char) : Except Errno Unit :=
  if equalsNoCase (env.sha256 content) m.sha256 then .ok () else .error (.other 84)

/-- `pkg_install` from the download to the payload and its manifest. -/
def stage (name source tmp : CStr) (m : Manifest) : Fallible Unit := do
  copyFile source tmp
  let content ← attempt (.read tmp)
  known (checkHash env m content)
  txnWriteState env name .verified
  ensureVersionDir env m.name m.version
  let payload ← format env (payloadPath m.name m.version m.artifact)
  copyFile tmp payload
  let path ← format env (manifestPath m.name m.version)
  writeTextAtomic env path (env.cj.print (manifestJson m))
  txnWriteState env name .staged

/-- `pkg_install` from the check of the payload to the database. -/
def activate : Fallible Unit := do
  known (compatCheck env m)
  txnWriteState env name .compatOk
  let db ← loadInstalled env
  let db ← known (updateInstalled db m)
  writePointers env db m
  saveInstalled env db
  txnWriteState env name .activated

def removeIfSet : Prog Unit := if path ≠ [] then removeFile path else pure ()

/-- What `pkg_install` does at the end, with the name of the temporary file as far as there is
one. -/
def finish (name tmp lock : CStr) (state : TxnState) : Prog Unit := do
  let _ ← (txnWriteState env name state).run
  removeIfSet tmp
  txnClearState env name
  removeIfSet lock

/-- `pkg_install` from the name of the temporary file on, up to its end. -/
def fetch (name source : CStr) (m : Manifest) : Fallible Unit := do
  let tmp ← format env (downloadPath m.name m.version)
  stage env name source tmp m
  activate env name m

/-- `pkg_install` with the lock. -/
def installLocked (name source lock : CStr) (m : Manifest) : Prog Bool := do
  match ← (txnWriteState env name .fetching).run with
  | .error _ =>
    finish env name [] lock .failed
    return false
  | .ok _ =>
    -- the array has the start of a name that is too long
    let tmp := (downloadPath m.name m.version).take (env.pathMax - 1)
    match ← (fetch env name source m).run with
    | .error _ =>
      finish env name tmp lock .failed
      return false
    | .ok _ =>
      finish env name tmp lock .cleanup
      return true

/-- `pkg_install` with an index. -/
def installFrom (index : List Manifest) (name : CStr) : Prog Bool :=
  match findLatest env.rt index name with
  | none => return false
  | some m =>
    match resolveArtifact env m with
    | .error _ => return false
    | .ok source => do
      match ← (acquireLock env name).run with
      | .error _ => return false
      | .ok lock => installLocked env name source lock m

/-- `pkg_install`. -/
def pkgInstall : Prog Bool := do
  match ← (prepareLayout env).run with
  | .error _ => return false
  | .ok _ =>
    match ← (loadIndex env).run with
    | .error _ => return false
    | .ok index => installFrom env index name

/-! ## The files of an installation -/

/-- The files that an installation uses besides the artifact, the index and the database. -/
def ownFiles : List CStr :=
  [lockPath name, txnPath name, tmpName (txnPath name), downloadPath m.name m.version,
    payloadPath m.name m.version m.artifact, manifestPath m.name m.version, tmpName (manifestPath m.name m.version),
    currentPath m.name, tmpName (currentPath m.name), previousPath m.name, tmpName (previousPath m.name)]

variable {env} {P : Call → Prop}

/-- A path that does not fit its buffer ends the function. -/
theorem format_bind {β : Type} (path : CStr) (f : CStr → Fallible β) :
    (format env path >>= f) =
      if path.length < env.pathMax then f path else (known (.error .enametoolong) : Fallible β) := by
  by_cases h : path.length < env.pathMax
  · rw [if_pos h, format, copyString_ok h]
    rfl
  · rw [if_neg h, format, copyString, if_pos (Nat.le_of_not_lt h)]
    rfl

theorem calls_format_bind {β : Type} {path : CStr} {f : CStr → Fallible β}
    (h : Calls P (f path).prog) : Calls P (format env path >>= f : Fallible β) := by
  rw [format_bind]
  split_ifs
  · exact h
  · trivial

section

variable (h : ∀ dir, P (.mkdir dir))
include h

/-- Only directories are made. -/
theorem calls_mkdirs (path : CStr) : Calls P (mkdirs env path).prog := by
  refine calls_format_bind ?_
  generalize dirPrefixes [] path = dirs
  induction dirs with
  | nil => trivial
  | cons dir dirs ih => exact Calls.bind_fallible (Calls.perform (h dir)) fun _ => ih

theorem calls_prepareLayout : Calls P (prepareLayout env).prog :=
  Calls.bind_fallible (calls_mkdirs h _) fun _ => Calls.bind_fallible (calls_mkdirs h _) fun _ =>
    Calls.bind_fallible (calls_mkdirs h _) fun _ => calls_mkdirs h _

theorem calls_ensurePackageRoot (name : CStr) :
    Calls P (ensurePackageRoot env name).prog :=
  calls_format_bind (calls_mkdirs h _)

theorem calls_ensureVersionDir (name version : CStr) :
    Calls P (ensureVersionDir env name version).prog :=
  Calls.bind_fallible (calls_ensurePackageRoot h name) fun _ => calls_format_bind (calls_mkdirs h _)

theorem calls_acquireLock {name : CStr} (hlock : P (.createExcl (lockPath name))) :
    Calls P (acquireLock env name).prog :=
  Calls.bind_fallible (calls_ensurePackageRoot h name) fun _ =>
    calls_format_bind (Calls.bind_fallible (Calls.perform hlock) fun _ => trivial)

end

/-- The lock that is acquired is the one of the package. -/
theorem returns_acquireLock (name : CStr) :
    Returns (fun r => ∀ lock, r = .ok lock → lock = lockPath name) (acquireLock env name).prog := by
  refine Returns.bind_fallible _ (fun e lock h => (nomatch h)) fun _ => ?_
  rw [format_bind]
  split_ifs
  · exact Returns.bind_fallible _ (fun e lock h => (nomatch h)) fun _ lock h => (Except.ok.inj h).symm
  · exact fun lock h => (nomatch h)

variable {name : CStr} {m : Manifest} {path : CStr}

theorem calls_writeAll (h : ∀ bytes, P (.write name bytes)) (bytes : List Char) :
    Calls P (writeAll name bytes).prog := by
  rw [writeAll]
  generalize bytes.length = fuel
  induction fuel generalizing bytes with
  | zero => trivial
  | succ fuel ih =>
    rw [writeLoop]
    split_ifs
    · trivial
    · exact Calls.bind_fallible (Calls.perform (h bytes)) fun rest => ih rest

theorem calls_removeFile (h : P (.unlink path)) : (removeFile path).Calls P :=
  (Calls.perform h).bind fun _ => trivial

theorem calls_closeAndRemove (hclose : P (.close path)) (hunlink : P (.unlink path)) :
    (closeAndRemove path).Calls P :=
  (Calls.perform hclose).bind fun _ => calls_removeFile hunlink

/-- Only the file and its temporary file are named. -/
theorem calls_writeTextAtomic (h : ∀ c : Call, (∀ n ∈ c.names, n = tmpName path ∨ n = path) → P c)
    (text : CStr) : Calls P (writeTextAtomic env path text).prog := by
  have hone (c : Call) (hc : c.names = [tmpName path]) : P c :=
    h c fun n hn => .inl (mem_singleton.mp (hc ▸ hn))
  have hrename : P (.rename (tmpName path) path) := h _ fun n hn => by simpa using hn
  refine calls_format_bind (Calls.bind_fallible (Calls.perform (hone _ rfl)) fun _ => ?_)
  refine Calls.bind_fallible
    (Calls.onError (calls_writeAll (fun _ => hone _ rfl) text) (calls_closeAndRemove (hone _ rfl) (hone _ rfl)))
    fun _ => ?_
  refine Calls.bind_fallible (Calls.onError (Calls.perform (hone _ rfl)) (calls_removeFile (hone _ rfl))) fun _ => ?_
  exact Calls.bind_fallible (Calls.onError (Calls.perform hrename) (calls_removeFile (hone _ rfl))) fun _ => trivial

/-- Only the destination is written. -/
theorem calls_copyFile {src dest : CStr} (hopen : P (.openRead src)) (hread : P (.read src))
    (hdest : ∀ c : Call, (∀ n ∈ c.names, n = dest) → P c) : Calls P (copyFile src dest).prog := by
  have hone (c : Call) (hc : c.names = [dest]) : P c := hdest c fun n hn => mem_singleton.mp (hc ▸ hn)
  refine Calls.bind_fallible (Calls.perform hopen) fun _ => ?_
  refine Calls.bind_fallible (Calls.perform (hone _ rfl)) fun _ => ?_
  refine Calls.bind_fallible (Calls.onError ?_ (calls_closeAndRemove (hone _ rfl) (hone _ rfl))) fun _ => ?_
  · exact Calls.bind_fallible (Calls.perform hread) fun text => calls_writeAll (fun _ => hone _ rfl) text
  · exact Calls.bind_fallible (Calls.onError (Calls.perform (hone _ rfl)) (calls_removeFile (hone _ rfl)))
      fun _ => trivial

theorem calls_txnWriteState
    (h : ∀ c : Call, (∀ n ∈ c.names, n = tmpName (txnPath name) ∨ n = txnPath name) → P c) (state : TxnState) :
    Calls P (txnWriteState env name state).prog :=
  calls_format_bind (calls_writeTextAtomic h _)

theorem calls_txnClearState (h : P (.unlink (txnPath name))) : (txnClearState env name).Calls P := by
  rw [txnClearState, copyString]
  split_ifs
  · trivial
  · exact calls_removeFile h

theorem calls_writePointers
    (hcurrent : ∀ c : Call, (∀ n ∈ c.names, n = tmpName (currentPath m.name) ∨ n = currentPath m.name) → P c)
    (hprevious : ∀ c : Call, (∀ n ∈ c.names, n = tmpName (previousPath m.name) ∨ n = previousPath m.name) → P c)
    (db : List Entry) : Calls P (writePointers env db m).prog := by
  rw [writePointers]
  split
  · trivial
  refine calls_format_bind (calls_format_bind (Calls.bind_fallible ?_ fun _ => ?_))
  · exact calls_writeTextAtomic hcurrent _
  · exact calls_writeTextAtomic hprevious _

theorem calls_activate (htxn : ∀ c : Call, (∀ n ∈ c.names, n = tmpName (txnPath name) ∨ n = txnPath name) → P c)
    (hcurrent : ∀ c : Call, (∀ n ∈ c.names, n = tmpName (currentPath m.name) ∨ n = currentPath m.name) → P c)
    (hprevious : ∀ c : Call, (∀ n ∈ c.names, n = tmpName (previousPath m.name) ∨ n = previousPath m.name) → P c)
    (hdb : ∀ c : Call, (∀ n ∈ c.names, n = tmpName repoInstalled ∨ n = repoInstalled) → P c) :
    Calls P (activate env name m).prog := by
  have hload : Calls P (loadInstalled env).prog := by
    refine calls_format_bind (Calls.bind (Calls.perform ?_) fun reply => ?_)
    · exact hdb (.read repoInstalled) fun n hn => .inr (mem_singleton.mp hn)
    · split <;> trivial
  refine Calls.bind_fallible trivial fun _ => Calls.bind_fallible (calls_txnWriteState htxn _) fun _ => ?_
  refine Calls.bind_fallible hload fun db => Calls.bind_fallible trivial fun db => ?_
  refine Calls.bind_fallible (calls_writePointers hcurrent hprevious db) fun _ => ?_
  exact Calls.bind_fallible (calls_format_bind (calls_writeTextAtomic hdb _)) fun _ => calls_txnWriteState htxn _

/-- The calls that an installation is free to make, besides those on the database. -/
structure Permits (P : Call → Prop) (name source : CStr) (m : Manifest) : Prop where
  mkdir : ∀ dir, P (.mkdir dir)
  openSource : P (.openRead source)
  readSource : P (.read source)
  own : ∀ c : Call, (∀ n ∈ c.names, n ∈ ownFiles name m) → P c

/-- The fields fit the arrays of a manifest. -/
def Sized (m : Manifest) : Prop := m.name.length < nameMax + 1 ∧ m.version.length < versionMax + 1

/-- The path of the download is never cut. -/
theorem length_downloadPath (h : Sized m) : (downloadPath m.name m.version).length < env.pathMax := by
  have hmin := env.pathMax_ge
  have hdir : tmpPkgDir.length = 20 := rfl
  have hext : ".npkg".toList.length = 5 := rfl
  obtain ⟨hname, hversion⟩ := h
  rw [nameMax] at hname
  rw [versionMax] at hversion
  simp only [downloadPath, length_append, length_cons, hdir, hext]
  omega

namespace Permits

variable {name source : CStr} {m : Manifest}

variable (h : Permits P name source m)
include h

theorem one {n : CStr} (hn : n ∈ ownFiles name m) (c : Call) (hc : c.names = [n]) : P c :=
  h.own c fun n' hn' => by
    rw [hc, mem_singleton] at hn'
    exact hn' ▸ hn

theorem pair {path : CStr} (hpath : path ∈ ownFiles name m)
    (htmp : tmpName path ∈ ownFiles name m) (c : Call) (hc : ∀ n ∈ c.names, n = tmpName path ∨ n = path) : P c :=
  h.own c fun n hn => (hc n hn).elim (fun heq => heq ▸ htmp) fun heq => heq ▸ hpath

theorem txn (state : TxnState) :
    Calls P (txnWriteState env name state).prog :=
  calls_txnWriteState (h.pair (by simp [ownFiles]) (by simp [ownFiles])) state

theorem stage :
    Calls P (stage env name source (downloadPath m.name m.version) m).prog := by
  have hdownload : downloadPath m.name m.version ∈ ownFiles name m := by simp [ownFiles]
  have hcopy {dest : CStr} (hdest : dest ∈ ownFiles name m) (c : Call) (hc : ∀ n ∈ c.names, n = dest) : P c :=
    h.own c fun n hn => hc n hn ▸ hdest
  refine Calls.bind_fallible (calls_copyFile h.openSource h.readSource (hcopy hdownload)) fun _ => ?_
  refine Calls.bind_fallible (Calls.perform (h.one hdownload _ rfl)) fun content => ?_
  refine Calls.bind_fallible trivial fun _ => Calls.bind_fallible (h.txn _) fun _ => ?_
  refine Calls.bind_fallible (calls_ensureVersionDir h.mkdir _ _) fun _ => calls_format_bind ?_
  refine Calls.bind_fallible
    (calls_copyFile (h.one hdownload _ rfl) (h.one hdownload _ rfl) (hcopy (by simp [ownFiles]))) fun _ => ?_
  refine calls_format_bind (Calls.bind_fallible ?_ fun _ => h.txn _)
  exact calls_writeTextAtomic (h.pair (by simp [ownFiles]) (by simp [ownFiles])) _

theorem activate
    (hdb : ∀ c : Call, (∀ n ∈ c.names, n = tmpName repoInstalled ∨ n = repoInstalled) → P c) :
    Calls P (activate env name m).prog :=
  calls_activate (h.pair (by simp [ownFiles]) (by simp [ownFiles])) (h.pair (by simp [ownFiles]) (by simp [ownFiles]))
    (h.pair (by simp [ownFiles]) (by simp [ownFiles])) hdb

theorem finish {tmp : CStr} (htmp : tmp = [] ∨ tmp ∈ ownFiles name m) (state : TxnState) :
    (finish env name tmp (lockPath name) state).Calls P := by
  have hif {path : CStr} (hpath : path = [] ∨ path ∈ ownFiles name m) : (removeIfSet path).Calls P := by
    rw [removeIfSet]
    split_ifs with hne
    · exact calls_removeFile (h.one (hpath.resolve_left hne) _ rfl)
    · trivial
  refine (h.txn state).bind fun _ => (hif htmp).bind fun _ => ?_
  exact (calls_txnClearState (h.one (by simp [ownFiles]) _ rfl)).bind fun _ => hif (.inr (by simp [ownFiles]))

/-- Every call of an installation is a permitted one. -/
theorem installLocked
    (hdb : ∀ c : Call, (∀ n ∈ c.names, n = tmpName repoInstalled ∨ n = repoInstalled) → P c) (hsized : Sized m) :
    (installLocked env name source (lockPath name) m).Calls P := by
  have htmp : (downloadPath m.name m.version).take (env.pathMax - 1) = downloadPath m.name m.version :=
    take_of_length_le (Nat.le_sub_one_of_lt (length_downloadPath hsized))
  have hown : downloadPath m.name m.version ∈ ownFiles name m := by simp [ownFiles]
  rw [Nxpkg.installLocked, htmp]
  refine (h.txn .fetching).bind fun r => ?_
  cases r with
  | error e => exact (h.finish (.inl rfl) _).bind fun _ => trivial
  | ok u =>
    refine Calls.bind (calls_format_bind (Calls.bind_fallible h.stage fun _ => h.activate hdb)) fun r => ?_
    cases r with
    | error e => exact (h.finish (.inr hown) _).bind fun _ => trivial
    | ok u => exact (h.finish (.inr hown) _).bind fun _ => trivial

end Permits

end System.Nxpkg
