-- SUMMARY: What an installation leaves of a package, whatever calls fail.
import FruitClawApps.System.Nxpkg.Contained
import FruitClawApps.System.Nxpkg.Written

/-!
# Effects of an installation

For each part of an installation it is said what the files hold afterwards. Where a call that fails
would spoil them, the statement says that such a call may fail.
-/

namespace System.Nxpkg

open FileProgram Prog LexicalPath List

variable {env : Env} {A : Call → Outcome → Prop} {fs fs' fs₁ : FileStore} {m : Manifest} {name l' n l : CStr}
  {db : List Entry}

/-! ## Names of files -/

/-- A file of a package. -/
def packageFile (name leaf : CStr) : CStr := packageRoot name ++ '/' :: leaf

theorem versionFile_eq (name version leaf : CStr) :
    versionPath name version ++ '/' :: leaf = packageFile name (version ++ '/' :: leaf) := by
  rw [versionPath, packageFile, append_assoc, cons_append]

theorem tmpName_packageFile (name leaf : CStr) :
    tmpName (packageFile name leaf) = packageFile name (leaf ++ ".tmp".toList) := by
  rw [tmpName, packageFile, packageFile, append_assoc, cons_append]

/-- The path of a file tells its package. -/
theorem packageFile_inj {n' : CStr} (hn : '/' ∉ n) (hn' : '/' ∉ n') (h : packageFile n l = packageFile n' l') :
    n = n' ∧ l = l' := by
  simp only [packageFile, packageRoot, append_assoc, cons_append, append_cancel_left_eq,
    List.cons.injEq, true_and] at h
  exact join_inj hn hn' h

theorem packageFile_ne (n : CStr) (h : l ≠ l') : packageFile n l ≠ packageFile n l' := fun hc =>
  h (List.cons.inj (append_cancel_left hc)).2

theorem packageFile_ne_of_name {n' : CStr} (hn : IsName n) (hn' : IsName n') (h : n ≠ n') (l l' : CStr) :
    packageFile n l ≠ packageFile n' l' := fun hc =>
  h (packageFile_inj hn.1 hn'.1 hc).1

theorem versionLeaf_ne (v leaf : CStr) (h : '/' ∉ l) : v ++ '/' :: leaf ≠ l := fun hc =>
  h (hc ▸ mem_append_right v mem_cons_self)

/-- The files of packages are below the store. -/
theorem packageFile_ne_of_not_prefix (n l : CStr) {f : CStr} (h : ¬ storeDir <+: f) : packageFile n l ≠ f := by
  rintro rfl
  refine h ?_
  exact prefix_append _ _

theorem not_prefix_downloadPath (name version : CStr) : ¬ storeDir <+: downloadPath name version := fun h =>
  absurd (prefix_of_prefix_length_le h (prefix_append tmpPkgDir _) (by decide)) (by decide)

theorem packageFile_ne_installed (n l : CStr) : packageFile n l ≠ repoInstalled :=
  packageFile_ne_of_not_prefix n l (by decide)

theorem packageFile_ne_installedTmp (n l : CStr) : packageFile n l ≠ tmpName repoInstalled :=
  packageFile_ne_of_not_prefix n l (by decide)

theorem packageFile_ne_downloadPath (n l name version : CStr) : packageFile n l ≠ downloadPath name version :=
  packageFile_ne_of_not_prefix n l (not_prefix_downloadPath name version)

theorem downloadPath_ne {f : CStr} (h : ¬ tmpPkgDir <+: f) (name version : CStr) : f ≠ downloadPath name version := by
  rintro rfl
  exact h (prefix_append _ _)

/-- Files that matter to an installation of the package only while it runs. -/
def Quiet (m : Manifest) (f : CStr) : Prop :=
  f = txnPath m.name ∨ f = tmpName (txnPath m.name) ∨ f = downloadPath m.name m.version

theorem not_quiet_packageFile (hm : IsName m.name) (hn : IsName n) (h : l ≠ ".txn".toList)
    (htmp : l ≠ ".txn.tmp".toList) : ¬ Quiet m (packageFile n l) := by
  rintro (hc | hc | hc)
  · exact h (packageFile_inj hn.1 hm.1 hc).2
  · rw [txnPath, ← packageFile, tmpName_packageFile] at hc
    exact htmp (packageFile_inj hn.1 hm.1 hc).2
  · exact packageFile_ne_downloadPath n l _ _ hc

theorem not_quiet_installed : ¬ Quiet m repoInstalled := by
  rintro (hc | hc | hc)
  · exact packageFile_ne_installed _ _ hc.symm
  · rw [txnPath, ← packageFile, tmpName_packageFile] at hc
    exact packageFile_ne_installed _ _ hc.symm
  · exact downloadPath_ne (by decide) _ _ hc

theorem not_quiet_versionFile (hm : IsName m.name) (hn : IsName n) (v leaf : CStr) :
    ¬ Quiet m (versionPath n v ++ '/' :: leaf) := by
  rw [versionFile_eq]
  exact not_quiet_packageFile hm hn (versionLeaf_ne v leaf (by decide)) (versionLeaf_ne v leaf (by decide))

/-- The stores agree on all files but those. -/
def Same (m : Manifest) (fs fs' : FileStore) : Prop := ∀ f, ¬ Quiet m f → fs' f = fs f

/-- The paths of a package are never cut. -/
theorem length_packageFile (h : Sized m) {leaf : CStr} (hleaf : leaf.length ≤ 100) :
    (packageFile m.name leaf).length < env.pathMax := by
  have hmin := env.pathMax_ge
  have hname := h.1
  have hdir : storeDir.length = 19 := rfl
  rw [nameMax] at hname
  simp only [packageFile, packageRoot, length_append, length_cons, hdir]
  omega

/-! ## The parts of an installation -/

theorem wp_txnWriteState (state : TxnState) :
    wp (anyCall A) (txnWriteState env name state).prog
      (fun _ fs' => ∀ f, ¬ (f = tmpName (txnPath name) ∨ f = txnPath name) → fs' f = fs f) fs :=
  wp_frame (calls_txnWriteState (fun c hc f hf => hc f (c.changes_subset_names hf)) state)

/-- The payload of the manifest is there, has its hash, and the manifest is next to it. -/
def Staged (env : Env) (m : Manifest) (fs : FileStore) : Prop :=
  fs (manifestPath m.name m.version) = some (env.cj.print (manifestJson m)) ∧
    ∃ content, fs (payloadPath m.name m.version m.artifact) = some content ∧ checkHash env m content = .ok ()

/-- The payload is not called as the manifest is. -/
def OwnLeaf (m : Manifest) : Prop :=
  basename m.artifact ≠ "manifest.json".toList ∧ basename m.artifact ≠ "manifest.json.tmp".toList

/-- A call that writes the directory of the version, or reads what is copied to it. -/
def Restaging (m : Manifest) (c : Call) : Prop :=
  c = .read (downloadPath m.name m.version) ∨ payloadPath m.name m.version m.artifact ∈ c.names ∨
    tmpName (manifestPath m.name m.version) ∈ c.names

/-- What is left of the staging of a version. -/
structure StageEffect (env : Env) (A : Call → Outcome → Prop) (m : Manifest) (fs : FileStore) (r : Except Errno Unit)
    (fs' : FileStore) : Prop where
  frame : ∀ f, ¬ Quiet m f → f ≠ payloadPath m.name m.version m.artifact → f ≠ manifestPath m.name m.version →
    f ≠ tmpName (manifestPath m.name m.version) → fs' f = fs f
  result : Staged env m fs' ∨ (∃ e, r = .error e) ∧
    (fs' (payloadPath m.name m.version m.artifact) = fs (payloadPath m.name m.version m.artifact) ∧
      fs' (manifestPath m.name m.version) = fs (manifestPath m.name m.version) ∨
    MayFail A (Restaging m))

/-- A failure that has changed no file that matters. -/
theorem StageEffect.of_same (hm : IsName m.name) (h : Same m fs fs') (e : Errno) :
    StageEffect env A m fs (.error e) fs' where
  frame f hf _ _ _ := h f hf
  result := .inr ⟨⟨e, rfl⟩, .inl ⟨h _ (not_quiet_versionFile hm hm _ _), h _ (not_quiet_versionFile hm hm _ _)⟩⟩

theorem StageEffect.trans_same {r : Except Errno Unit} (hm : IsName m.name) (h : Same m fs fs₁)
    (heffect : StageEffect env A m fs₁ r fs') : StageEffect env A m fs r fs' := by
  refine ⟨fun f hf hpayload hmanifest htmp => (heffect.frame f hf hpayload hmanifest htmp).trans (h f hf),
    heffect.result.imp_right (And.imp_right (Or.imp_left (And.imp (·.trans ?_) (·.trans ?_))))⟩
  all_goals exact h _ (not_quiet_versionFile hm hm _ _)

theorem tmpName_manifestPath (name version : CStr) :
    tmpName (manifestPath name version) = versionPath name version ++ '/' :: "manifest.json.tmp".toList := by
  rw [tmpName, manifestPath, append_assoc]
  rfl

theorem length_tmpName_manifestPath (h : Sized m) : (tmpName (manifestPath m.name m.version)).length < env.pathMax := by
  rw [tmpName_manifestPath, versionFile_eq]
  refine length_packageFile h ?_
  have hversion := h.2
  have hlast : "manifest.json.tmp".toList.length = 17 := rfl
  rw [versionMax] at hversion
  rw [length_append, length_cons, hlast]
  omega

theorem length_of_tmpName {path : CStr} {n : Nat} (h : (tmpName path).length < n) : path.length < n := by
  rw [tmpName, length_append] at h
  omega

theorem versionFile_ne {name version leaf leaf' : CStr} (h : leaf ≠ leaf') :
    versionPath name version ++ '/' :: leaf ≠ versionPath name version ++ '/' :: leaf' := fun hc =>
  h (List.cons.inj (append_cancel_left hc)).2

theorem same_of_txn (h : ∀ f, ¬ (f = tmpName (txnPath m.name) ∨ f = txnPath m.name) → fs₁ f = fs f) :
    Same m fs fs₁ := fun f hf =>
  h f fun hc => hf (hc.elim (fun hc => .inr (.inl hc)) .inl)

/-- The payload is copied from the file with the hash, and its manifest is written. -/
theorem wp_place (hm : IsName m.name) (hsized : Sized m) (hleaf : OwnLeaf m) {content : List Char}
    (hcontent : fs (downloadPath m.name m.version) = some content) (hhash : checkHash env m content = .ok ()) :
    wp (anyCall A)
      (do
        copyFile (downloadPath m.name m.version) (payloadPath m.name m.version m.artifact)
        let path ← format env (manifestPath m.name m.version)
        writeTextAtomic env path (env.cj.print (manifestJson m))
        txnWriteState env m.name .staged : Fallible Unit)
      (StageEffect env A m fs) fs := by
  have hquiet (leaf : CStr) : ¬ Quiet m (versionPath m.name m.version ++ '/' :: leaf) := not_quiet_versionFile hm hm _ _
  have hdownload : downloadPath m.name m.version ≠ payloadPath m.name m.version m.artifact := fun hc =>
    packageFile_ne_downloadPath _ _ _ _ ((versionFile_eq _ _ _).symm.trans hc.symm)
  have hmanifest : payloadPath m.name m.version m.artifact ≠ manifestPath m.name m.version := versionFile_ne hleaf.1
  have htmp : payloadPath m.name m.version m.artifact ≠ tmpName (manifestPath m.name m.version) := by
    rw [tmpName_manifestPath]
    exact versionFile_ne hleaf.2
  refine wp_bind_fallible (wp_mono (wp_copyFile hdownload) fun r fs₁ h₁ => ?_)
  rcases h₁.result with ⟨rfl, text, htext, hpayload⟩ | ⟨⟨e, rfl⟩, herror⟩
  · cases Option.some.inj (htext.symm.trans hcontent)
    have hlen : (tmpName (manifestPath m.name m.version)).length < env.pathMax := length_tmpName_manifestPath hsized
    refine wp_format_bind_ok (length_of_tmpName hlen)
      (wp_bind_fallible (wp_mono (wp_writeTextAtomic hlen) fun r fs₂ h₂ => ?_))
    have hframe (f : CStr) (hpayload : f ≠ payloadPath m.name m.version m.artifact)
        (hmanifest : f ≠ manifestPath m.name m.version) (htmp : f ≠ tmpName (manifestPath m.name m.version)) :
        fs₂ f = fs f := (h₂.frame f hmanifest htmp).trans (h₁.frame f hpayload)
    rcases h₂.result with ⟨rfl, hwritten⟩ | ⟨⟨e, rfl⟩, -, hfail⟩
    · refine wp_mono (wp_txnWriteState .staged) fun r fs₃ h₃ => ?_
      have hs₃ := same_of_txn h₃
      refine ⟨fun f hf hpayload hmanifest htmp => (hs₃ f hf).trans (hframe f hpayload hmanifest htmp),
        .inl ⟨?_, content, ?_, hhash⟩⟩
      · exact (hs₃ _ (hquiet _)).trans hwritten
      · exact (hs₃ _ (hquiet _)).trans ((h₂.frame _ hmanifest htmp).trans hpayload)
    · exact ⟨fun f _ => hframe f, .inr ⟨⟨e, rfl⟩, .inr (hfail.mono fun c hc => .inr (.inr hc))⟩⟩
  · refine ⟨fun f _ hpayload _ _ => h₁.frame f hpayload, .inr ⟨⟨e, rfl⟩, ?_⟩⟩
    refine herror.imp (fun hsame => ⟨hsame, h₁.frame _ hmanifest.symm⟩) fun h => h.mono fun c hc => ?_
    exact hc.imp_right .inl

/-- Whatever fails, staging has its effect. -/
theorem wp_stage (hm : IsName m.name) (hsized : Sized m) (hleaf : OwnLeaf m) (source : CStr) :
    wp (anyCall A) (stage env m.name source (downloadPath m.name m.version) m).prog
      (StageEffect env A m fs) fs := by
  refine wp_bind_fallible (wp_mono (wp_frame (calls_copyFile nofun nofun
    fun c hc f hf => hc f (c.changes_subset_names hf))) fun r fs₁ h₁ => ?_)
  have hs₁ : Same m fs fs₁ := fun f hf => h₁ f fun hc => hf (.inr (.inr hc))
  cases r with
  | error e => exact .of_same hm hs₁ e
  | ok _ =>
  refine wp_bind_fallible (wp_perform trivial ?_)
  rintro r fs₁' ⟨o, ho, hexec⟩
  obtain ⟨rfl, ⟨content, rfl, hcontent⟩ | ⟨⟨e, rfl, -⟩, -⟩⟩ := Call.exec_read hexec
  case inr => exact .of_same hm hs₁ e
  refine wp_bind_fallible (wp_known ?_)
  cases hhash : checkHash env m content with
  | error e => exact .of_same hm hs₁ e
  | ok _ =>
  refine wp_bind_fallible (wp_mono (wp_txnWriteState .verified) fun r fs₂ h₂ => ?_)
  have hs₂ : Same m fs fs₂ := fun f hf => (same_of_txn h₂ f hf).trans (hs₁ f hf)
  -- the file that was checked is the file that is copied
  have hcontent₂ : fs₂ (downloadPath m.name m.version) = some content := by
    refine (h₂ _ ?_).trans hcontent
    rintro (hc | hc)
    · rw [txnPath, ← packageFile, tmpName_packageFile] at hc
      exact packageFile_ne_downloadPath _ _ _ _ hc.symm
    · exact packageFile_ne_downloadPath _ _ _ _ hc.symm
  cases r with
  | error e => exact .of_same hm hs₂ e
  | ok _ =>
  refine wp_bind_fallible (wp_mono (wp_mkdir (calls_ensureVersionDir (fun dir => ⟨dir, rfl⟩) _ _)) ?_)
  rintro r fs₂' rfl
  cases r with
  | error e => exact .of_same hm hs₂ e
  | ok _ =>
  refine wp_format_bind (.of_same hm hs₂ _) ?_
  exact wp_mono (wp_place hm hsized hleaf hcontent₂ hhash) fun r fs₃ h => h.trans_same hm hs₂

/-! ## The pointers and the database -/

/-- The database that the file stands for. -/
def Loads (env : Env) (fs : FileStore) (db : List Entry) : Prop :=
  fs repoInstalled = none ∧ db = [] ∨ fs repoInstalled = some (env.cj.print (installedJson db))

/-- The pointers of the package are those of the database. -/
def Agrees (fs : FileStore) (db : List Entry) (name : CStr) : Prop :=
  fs (currentPath name) = (findInstalled db name).map (·.current) ∧
    fs (previousPath name) = (findInstalled db name).map (·.previous)

/-- If the database is loaded, it is the one of the file. -/
theorem wp_loadInstalled (hdb : BoundedDb db) (hloads : Loads env fs db) :
    wp (anyCall A) (loadInstalled env).prog
      (fun r fs' => fs' = fs ∧ ∀ db', r = .ok db' → db' = db) fs := by
  refine wp_format_bind ⟨rfl, nofun⟩ (wp_bind (wp_perform trivial ?_))
  rintro r fs' ⟨o, ho, hexec⟩
  obtain ⟨rfl, ⟨text, rfl, htext⟩ | ⟨⟨e, rfl, hnone⟩, -⟩⟩ := Call.exec_read hexec
  · rcases hloads with ⟨hmissing, -⟩ | hfile
    · exact (nomatch htext.symm.trans hmissing)
    cases Option.some.inj (htext.symm.trans hfile)
    refine ⟨rfl, fun db' hparse => ?_⟩
    rw [parseInstalled_print env.cj hdb] at hparse
    exact (Except.ok.inj hparse).symm
  split
  · refine ⟨rfl, fun db' h => ?_⟩
    cases h
    rename_i henoent
    cases henoent
    rcases hloads with ⟨-, rfl⟩ | hfile
    · rfl
    · exact (nomatch hfile.symm.trans (hnone rfl))
  · exact ⟨rfl, fun db' h => (nomatch h)⟩
  · exact ⟨rfl, fun db' h => by rename_i hc; exact (nomatch hc)⟩

/-- The pointers and the database are as they were. -/
def Untouched (name : CStr) (fs fs' : FileStore) : Prop :=
  fs' (currentPath name) = fs (currentPath name) ∧ fs' (previousPath name) = fs (previousPath name) ∧
    fs' repoInstalled = fs repoInstalled

/-- A call that writes the previous version or the database. -/
def Activating (m : Manifest) (c : Call) : Prop :=
  tmpName (previousPath m.name) ∈ c.names ∨ tmpName repoInstalled ∈ c.names

theorem Same.untouched (hm : IsName m.name) (h : Same m fs fs') : Untouched m.name fs fs' :=
  ⟨h _ (not_quiet_packageFile hm hm (by decide) (by decide)), h _ (not_quiet_packageFile hm hm (by decide) (by decide)),
    h _ not_quiet_installed⟩

theorem Untouched.trans (h₁ : Untouched name fs fs₁) (h : Untouched name fs₁ fs') : Untouched name fs fs' :=
  ⟨h.1.trans h₁.1, h.2.1.trans h₁.2.1, h.2.2.trans h₁.2.2⟩

theorem packageFile_ne_tmpName (n : CStr) (h : l ≠ l' ++ ".tmp".toList) :
    packageFile n l ≠ tmpName (packageFile n l') := by
  rw [tmpName_packageFile]
  exact packageFile_ne n h

theorem installed_ne_tmpName (n l : CStr) : repoInstalled ≠ tmpName (packageFile n l) := by
  rw [tmpName_packageFile]
  exact (packageFile_ne_installed n _).symm

/-- Both pointers are written, or there is an error. -/
theorem wp_writePointers (hsized : Sized m) {entry : Entry} (hfind : findInstalled db m.name = some entry) :
    wp (anyCall A) (writePointers env db m).prog
      (fun r fs' => (r = .ok () ∧ fs' (currentPath m.name) = some entry.current ∧
          fs' (previousPath m.name) = some entry.previous ∧ fs' repoInstalled = fs repoInstalled) ∨
        (∃ e, r = .error e) ∧ (Untouched m.name fs fs' ∨ MayFail A (Activating m))) fs := by
  have hlen {leaf : CStr} (hleaf : (leaf ++ ".tmp".toList).length ≤ 100) :
      (tmpName (packageFile m.name leaf)).length < env.pathMax := by
    rw [tmpName_packageFile]
    exact length_packageFile hsized hleaf
  have huntouched : Untouched m.name fs fs := ⟨rfl, rfl, rfl⟩
  rw [writePointers, hfind]
  refine wp_format_bind (.inr ⟨⟨_, rfl⟩, .inl huntouched⟩) (wp_format_bind (.inr ⟨⟨_, rfl⟩, .inl huntouched⟩) ?_)
  refine wp_bind_fallible (wp_mono (wp_writeTextAtomic (hlen (by decide))) fun r fs₁ h₁ => ?_)
  have hprevious : fs₁ (previousPath m.name) = fs (previousPath m.name) :=
    h₁.frame _ (packageFile_ne _ (by decide)) (packageFile_ne_tmpName _ (by decide))
  have hdb : fs₁ repoInstalled = fs repoInstalled :=
    h₁.frame _ (packageFile_ne_installed _ _).symm (installed_ne_tmpName _ _)
  rcases h₁.result with ⟨rfl, hcurrent⟩ | ⟨⟨e, rfl⟩, hcurrent, -⟩
  · refine wp_mono (wp_writeTextAtomic (hlen (by decide))) fun r fs₂ h₂ => ?_
    rcases h₂.result with ⟨rfl, hwritten⟩ | ⟨⟨e, rfl⟩, -, hfail⟩
    · refine .inl ⟨rfl, (h₂.frame _ (packageFile_ne _ (by decide)) ?_).trans hcurrent, hwritten, ?_⟩
      · exact packageFile_ne_tmpName _ (by decide)
      · exact (h₂.frame _ (packageFile_ne_installed _ _).symm (installed_ne_tmpName _ _)).trans hdb
    · exact .inr ⟨⟨e, rfl⟩, .inr (hfail.mono fun c hc => .inl hc)⟩
  · exact .inr ⟨⟨e, rfl⟩, .inl ⟨hcurrent, hprevious, hdb⟩⟩

/-- The files that are written when a version becomes the current one. -/
def pointerFiles (name : CStr) : List CStr :=
  [currentPath name, tmpName (currentPath name), previousPath name, tmpName (previousPath name), repoInstalled,
    tmpName repoInstalled]

/-- What is left of the activation of a version. -/
structure ActivateEffect (env : Env) (A : Call → Outcome → Prop) (m : Manifest) (db : List Entry) (fs fs' : FileStore) :
    Prop where
  frame : ∀ f, ¬ Quiet m f → f ∉ pointerFiles m.name → fs' f = fs f
  result : Untouched m.name fs fs' ∨
    (∃ db', updateInstalled db m = .ok db' ∧ fs' repoInstalled = some (env.cj.print (installedJson db')) ∧
      Agrees fs' db' m.name) ∨
    MayFail A (Activating m)

/-- Whatever fails, an activation has its effect. -/
theorem wp_activate (hm : IsName m.name) (hsized : Sized m) (hdb : BoundedDb db) (hloads : Loads env fs db) :
    wp (anyCall A) (activate env m.name m).prog (fun _ => ActivateEffect env A m db fs) fs := by
  have hpair {P : CStr → Prop} {path : CStr} (htmp : P (tmpName path)) (hpath : P path) (c : Call)
      (hc : ∀ n ∈ c.names, n = tmpName path ∨ n = path) : ∀ f ∈ c.changes, P f := fun f hf =>
    (hc f (c.changes_subset_names hf)).elim (fun h => h ▸ htmp) fun h => h ▸ hpath
  have hframe : wp (anyCall A) (activate env m.name m).prog
      (fun _ fs' => ∀ f, ¬ (Quiet m f ∨ f ∈ pointerFiles m.name) → fs' f = fs f) fs :=
    wp_frame (calls_activate (hpair (.inl (.inr (.inl rfl))) (.inl (.inl rfl)))
      (hpair (.inr (by simp [pointerFiles])) (.inr (by simp [pointerFiles])))
      (hpair (.inr (by simp [pointerFiles])) (.inr (by simp [pointerFiles])))
      (hpair (.inr (by simp [pointerFiles])) (.inr (by simp [pointerFiles]))))
  suffices hresult : wp (anyCall A) (activate env m.name m).prog
      (fun _ fs' => Untouched m.name fs fs' ∨
        (∃ db', updateInstalled db m = .ok db' ∧ fs' repoInstalled = some (env.cj.print (installedJson db')) ∧
          Agrees fs' db' m.name) ∨ MayFail A (Activating m)) fs from
    wp_mono (wp_and hframe hresult) fun _ fs' h => ⟨fun f hf hmem => h.1 f (not_or.mpr ⟨hf, hmem⟩), h.2⟩
  refine wp_bind_fallible (wp_known ?_)
  cases compatCheck env m with
  | error e => exact .inl ⟨rfl, rfl, rfl⟩
  | ok _ =>
  refine wp_bind_fallible (wp_mono (wp_txnWriteState .compatOk) fun r fs₁ h₁ => ?_)
  have hu₁ := (same_of_txn h₁).untouched hm
  cases r with
  | error e => exact .inl hu₁
  | ok _ =>
  have hloads₁ : Loads env fs₁ db := by rwa [Loads, hu₁.2.2]
  refine wp_bind_fallible (wp_mono (wp_loadInstalled hdb hloads₁) ?_)
  rintro r fs₁' ⟨rfl, hload⟩
  cases r with
  | error e => exact .inl hu₁
  | ok db₁ =>
  cases hload db₁ rfl
  refine wp_bind_fallible (wp_known ?_)
  cases hupdate : updateInstalled db m with
  | error e => exact .inl hu₁
  | ok db' =>
  obtain ⟨entry, -, hfind, -⟩ := (updateInstalled_spec hupdate).1.entry
  refine wp_bind_fallible (wp_mono (wp_writePointers hsized hfind) fun r fs₂ h₂ => ?_)
  rcases h₂ with ⟨rfl, hcurrent, hprevious, -⟩ | ⟨⟨e, rfl⟩, h₂⟩
  case inr => exact h₂.elim (fun h => .inl (hu₁.trans h)) fun h => .inr (.inr h)
  have hlen : (tmpName repoInstalled).length < env.pathMax := Nat.lt_of_lt_of_le (by decide) env.pathMax_ge
  refine wp_bind_fallible (wp_format_bind_ok (length_of_tmpName hlen)
    (wp_mono (wp_writeTextAtomic hlen) fun r fs₃ h₃ => ?_))
  rcases h₃.result with ⟨rfl, hwritten⟩ | ⟨⟨e, rfl⟩, -, hfail⟩
  case inr => exact .inr (.inr (hfail.mono fun c hc => .inr hc))
  refine wp_mono (wp_txnWriteState .activated) fun r fs₄ h₄ => ?_
  obtain ⟨hcurrent₄, hprevious₄, hdb₄⟩ := (same_of_txn h₄).untouched hm
  refine .inr (.inl ⟨db', rfl, hdb₄.trans hwritten, ?_, ?_⟩)
  · rw [hfind, hcurrent₄]
    exact (h₃.frame _ (packageFile_ne_installed _ _) (packageFile_ne_installedTmp _ _)).trans hcurrent
  · rw [hfind, hprevious₄]
    exact (h₃.frame _ (packageFile_ne_installed _ _) (packageFile_ne_installedTmp _ _)).trans hprevious

/-! ## The whole installation -/

/-- The end of an installation leaves the lock only if its removal fails. -/
theorem wp_finish {tmp : CStr} (htmp : tmp = [] ∨ tmp = downloadPath m.name m.version) (state : TxnState) :
    (finish env m.name tmp (lockPath m.name) state).wp (anyCall A)
      (fun _ fs' => (fs' (lockPath m.name) = none ∨ MayFail A fun c => lockPath m.name ∈ c.names) ∧
        ∀ f, ¬ Quiet m f → f ≠ lockPath m.name → fs' f = fs f) fs := by
  have hset : lockPath m.name ≠ [] := append_ne_nil_of_right_ne_nil _ (cons_ne_nil _ _)
  have hremove : (removeIfSet tmp).Calls fun c => ∀ f ∈ c.changes, Quiet m f := by
    rw [removeIfSet]
    split_ifs with hne
    · exact calls_removeFile fun f hf => .inr (.inr ((mem_singleton.mp hf).trans (htmp.resolve_left hne)))
    · trivial
  have hclear : (txnClearState env m.name).Calls fun c => ∀ f ∈ c.changes, Quiet m f :=
    calls_txnClearState fun f hf => .inl (mem_singleton.mp hf)
  refine wp_bind (wp_mono (wp_txnWriteState state) fun _ fs₁ h₁ => ?_)
  have hs₁ := same_of_txn h₁
  refine wp_bind (wp_mono (wp_frame hremove) fun _ fs₂ h₂ => ?_)
  refine wp_bind (wp_mono (wp_frame hclear) fun _ fs₃ h₃ => ?_)
  refine wp_mono wp_removeFile_gone fun _ fs₄ h₄ => ⟨h₄.1, fun f hf hlock => ?_⟩
  rw [h₄.2 f hlock, h₃ f hf, h₂ f hf, hs₁ f hf]

/-- What is left of a version that is to become the current one. -/
structure Settled (env : Env) (A : Call → Outcome → Prop) (m : Manifest) (db : List Entry) (fs fs' : FileStore) :
    Prop where
  staged : Staged env m fs' ∨
    fs' (payloadPath m.name m.version m.artifact) = fs (payloadPath m.name m.version m.artifact) ∧
      fs' (manifestPath m.name m.version) = fs (manifestPath m.name m.version) ∨
    MayFail A (Restaging m)
  activated : Untouched m.name fs fs' ∨
    (Staged env m fs' ∧ ∃ db', updateInstalled db m = .ok db' ∧
      fs' repoInstalled = some (env.cj.print (installedJson db')) ∧ Agrees fs' db' m.name) ∨
    MayFail A (Activating m)

theorem versionFile_ne_packageFile (n v leaf : CStr) (h : '/' ∉ l) :
    versionPath n v ++ '/' :: leaf ≠ packageFile n l := by
  rw [versionFile_eq]
  exact packageFile_ne n (versionLeaf_ne v leaf h)

theorem versionFile_not_mem_pointerFiles (n v leaf : CStr) : versionPath n v ++ '/' :: leaf ∉ pointerFiles n := by
  have hfile {l : CStr} (h : '/' ∉ l) := versionFile_ne_packageFile n v leaf h
  have htmp {l : CStr} (h : '/' ∉ l ++ ".tmp".toList) : versionPath n v ++ '/' :: leaf ≠ tmpName (packageFile n l) := by
    rw [tmpName_packageFile]
    exact hfile h
  simp only [pointerFiles, mem_cons, not_mem_nil, or_false, not_or]
  refine ⟨hfile (by decide), htmp (by decide), hfile (by decide), htmp (by decide), ?_, ?_⟩
  · exact packageFile_ne_installed _ _
  · exact packageFile_ne_installedTmp _ _

/-- Stores that agree on all files but the quiet ones and the lock are equal for this purpose. -/
theorem Settled.congr {fs₁' : FileStore} (hm : IsName m.name)
    (h : ∀ f, ¬ Quiet m f → f ≠ lockPath m.name → fs₁ f = fs f)
    (h' : ∀ f, ¬ Quiet m f → f ≠ lockPath m.name → fs' f = fs₁' f) (hsettled : Settled env A m db fs₁ fs₁') :
    Settled env A m db fs fs' := by
  have hversion {fs fs' : FileStore} (h : ∀ f, ¬ Quiet m f → f ≠ lockPath m.name → fs' f = fs f) (leaf : CStr) :
      fs' (versionPath m.name m.version ++ '/' :: leaf) = fs (versionPath m.name m.version ++ '/' :: leaf) :=
    h _ (not_quiet_versionFile hm hm _ _) (versionFile_ne_packageFile _ _ _ (by decide))
  have huntouched {fs fs' : FileStore} (h : ∀ f, ¬ Quiet m f → f ≠ lockPath m.name → fs' f = fs f) :
      Untouched m.name fs fs' :=
    ⟨h _ (not_quiet_packageFile hm hm (by decide) (by decide)) (packageFile_ne _ (by decide)),
      h _ (not_quiet_packageFile hm hm (by decide) (by decide)) (packageFile_ne _ (by decide)),
      h _ not_quiet_installed (packageFile_ne_installed _ _).symm⟩
  have hstaged : Staged env m fs₁' → Staged env m fs' := by
    rintro ⟨hmanifest, content, hpayload, hhash⟩
    exact ⟨(hversion h' _).trans hmanifest, content, (hversion h' _).trans hpayload, hhash⟩
  refine ⟨hsettled.staged.imp hstaged (Or.imp_left ?_), ?_⟩
  · rintro ⟨hpayload, hmanifest⟩
    exact ⟨(hversion h' _).trans (hpayload.trans (hversion h _)),
      (hversion h' _).trans (hmanifest.trans (hversion h _))⟩
  refine hsettled.activated.imp (fun hu => ((huntouched h).trans hu).trans (huntouched h')) (Or.imp_left ?_)
  obtain ⟨hcurrent, hprevious, hinstalled⟩ := huntouched h'
  rintro ⟨hs, db', hupdate, hdb, hagrees⟩
  exact ⟨hstaged hs, db', hupdate, hinstalled.trans hdb, hcurrent.trans hagrees.1, hprevious.trans hagrees.2⟩

theorem settled_refl : Settled env A m db fs fs := ⟨.inr (.inl ⟨rfl, rfl⟩), .inl ⟨rfl, rfl, rfl⟩⟩

/-- Whatever fails, the version is settled or as it was before. -/
theorem wp_fetch (hm : IsName m.name) (hsized : Sized m) (hleaf : OwnLeaf m) (source : CStr) (hdb : BoundedDb db)
    (hloads : Loads env fs db) :
    wp (anyCall A) (fetch env m.name source m).prog (fun _ => Settled env A m db fs) fs := by
  refine wp_format_bind_ok (length_downloadPath hsized) ?_
  refine wp_bind_fallible (wp_mono (wp_stage hm hsized hleaf source) fun r fs₁ h₁ => ?_)
  have htmp {l : CStr} (h : '/' ∉ l) : packageFile m.name l ≠ tmpName (manifestPath m.name m.version) := by
    rw [tmpName_manifestPath]
    exact (versionFile_ne_packageFile _ _ _ h).symm
  have hu₁ : Untouched m.name fs fs₁ := by
    have hpackage {l : CStr} (h : '/' ∉ l) (hquiet : l ≠ ".txn".toList) (hquietTmp : l ≠ ".txn.tmp".toList) :
        fs₁ (packageFile m.name l) = fs (packageFile m.name l) :=
      h₁.frame _ (not_quiet_packageFile hm hm hquiet hquietTmp) (versionFile_ne_packageFile _ _ _ h).symm
        (versionFile_ne_packageFile _ _ _ h).symm (htmp h)
    refine ⟨hpackage (by decide) (by decide) (by decide), hpackage (by decide) (by decide) (by decide), ?_⟩
    refine h₁.frame _ not_quiet_installed (fun hc => ?_) (fun hc => ?_) fun hc => ?_
    · exact packageFile_ne_installed _ _ (hc.trans (versionFile_eq _ _ _)).symm
    · exact packageFile_ne_installed _ _ (hc.trans (versionFile_eq _ _ _)).symm
    · exact packageFile_ne_installed _ _ (hc.trans ((tmpName_manifestPath _ _).trans (versionFile_eq _ _ _))).symm
  cases r with
  | error e => exact ⟨h₁.result.imp_right (·.2), .inl hu₁⟩
  | ok _ =>
  have hstaged₁ : Staged env m fs₁ := h₁.result.resolve_right fun hc => by
    obtain ⟨⟨e, he⟩, -⟩ := hc
    cases he
  have hloads₁ : Loads env fs₁ db := by rwa [Loads, hu₁.2.2]
  refine wp_mono (wp_activate hm hsized hdb hloads₁) fun r fs₂ h₂ => ?_
  have hversion (leaf : CStr) := h₂.frame _ (not_quiet_versionFile hm hm m.version leaf)
    (versionFile_not_mem_pointerFiles m.name m.version leaf)
  have hstaged₂ : Staged env m fs₂ := by
    obtain ⟨hmanifest, content, hpayload, hhash⟩ := hstaged₁
    exact ⟨(hversion _).trans hmanifest, content, (hversion _).trans hpayload, hhash⟩
  exact ⟨.inl hstaged₂, h₂.result.imp (hu₁.trans ·) (Or.imp_left fun h => ⟨hstaged₂, h⟩)⟩

/-- What is left of an installation with the lock. -/
structure Effect (env : Env) (A : Call → Outcome → Prop) (m : Manifest) (db : List Entry) (fs fs' : FileStore) : Prop
    extends Settled env A m db fs fs' where
  frame : ∀ f, ¬ Changed m f → fs' f = fs f
  unlocked : fs' (lockPath m.name) = none ∨ MayFail A fun c => lockPath m.name ∈ c.names

theorem wp_installLocked (hm : IsName m.name) (hsized : Sized m) (hleaf : OwnLeaf m) (source : CStr)
    (hdb : BoundedDb db) (hloads : Loads env fs db) :
    (installLocked env m.name source (lockPath m.name) m).wp (anyCall A) (fun _ => Effect env A m db fs) fs := by
  have hframe : (installLocked env m.name source (lockPath m.name) m).wp (anyCall A)
      (fun _ fs' => ∀ f, ¬ Changed m f → fs' f = fs f) fs :=
    wp_frame (calls_installLocked_changed hsized source)
  suffices hresult : (installLocked env m.name source (lockPath m.name) m).wp (anyCall A)
      (fun _ fs' => Settled env A m db fs fs' ∧
        (fs' (lockPath m.name) = none ∨ MayFail A fun c => lockPath m.name ∈ c.names)) fs from
    wp_mono (wp_and hframe hresult) fun _ fs' h => ⟨h.2.1, h.1, h.2.2⟩
  have htmp : (downloadPath m.name m.version).take (env.pathMax - 1) = downloadPath m.name m.version :=
    take_of_length_le (Nat.le_sub_one_of_lt (length_downloadPath hsized))
  rw [installLocked, htmp]
  refine wp_bind (wp_mono (wp_txnWriteState .fetching) fun r fs₁ h₁ => ?_)
  have hs₁ := same_of_txn h₁
  have hfinish {fs₂ : FileStore} (hsettled : Settled env A m db fs₁ fs₂) {tmp : CStr}
      (htmp : tmp = [] ∨ tmp = downloadPath m.name m.version) (state : TxnState) (b : Bool) :
      (finish env m.name tmp (lockPath m.name) state >>= fun _ => (pure b : Prog Bool)).wp (anyCall A)
        (fun _ fs' => Settled env A m db fs fs' ∧
          (fs' (lockPath m.name) = none ∨ MayFail A fun c => lockPath m.name ∈ c.names)) fs₂ :=
    wp_bind (wp_mono (wp_finish htmp state) fun _ fs₃ h₃ =>
      ⟨hsettled.congr hm (fun f hf _ => hs₁ f hf) h₃.2, h₃.1⟩)
  cases r with
  | error e => exact hfinish settled_refl (.inl rfl) .failed false
  | ok _ =>
  have hloads₁ : Loads env fs₁ db := by rwa [Loads, hs₁ _ not_quiet_installed]
  refine wp_bind (wp_mono (wp_fetch hm hsized hleaf source hdb hloads₁) fun r fs₂ h₂ => ?_)
  cases r with
  | error e => exact hfinish h₂ (.inr rfl) .failed false
  | ok _ => exact hfinish h₂ (.inr rfl) .cleanup true

end System.Nxpkg
