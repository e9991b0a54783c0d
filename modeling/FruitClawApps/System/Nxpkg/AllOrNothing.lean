-- SUMMARY: Undisturbed installations change pointers, database and payload all or not at all.
import FruitClawApps.Lib.Transition
import FruitClawApps.System.Nxpkg.Effects

/-!
# All or nothing

A power cut leaves the lock behind, and an error between the pointers and the database leaves them
in disagreement. If neither happens, and the payload in use is not lost while it is installed again,
the store stays good.
-/

namespace System.Nxpkg

open FileProgram Prog LexicalPath List

variable {env : Env} {A : Call → Outcome → Prop} {fs fs' : FileStore} {m : Manifest} {name : CStr}

/-! ## Good stores -/

/-- The version has its payload, with the hash that its manifest says. -/
def Complete (env : Env) (fs : FileStore) (name version : CStr) : Prop :=
  ∃ m : Manifest, m.name = name ∧ m.version = version ∧ Staged env m fs

/-- What holds between installations. -/
structure Good (env : Env) (fs : FileStore) : Prop where
  installed : ∃ db, BoundedDb db ∧ Loads env fs db ∧ ∀ name, IsName name → Agrees fs db name
  complete : ∀ name version, IsName name → fs (currentPath name) = some version →
    IsName version ∧ ∃ m : Manifest, m.name = name ∧ m.version = version ∧ OwnLeaf m ∧ Staged env m fs
  unlocked : ∀ name, IsName name → fs (lockPath name) = none

/-- Nothing has been installed yet. -/
structure Fresh (fs : FileStore) : Prop where
  installed : fs repoInstalled = none
  package : ∀ name, IsName name → ∀ leaf, fs (packageFile name leaf) = none

theorem Fresh.good (h : Fresh fs) : Good env fs where
  installed := ⟨[], ⟨Nat.zero_le _, nofun⟩, .inl ⟨h.installed, rfl⟩,
    fun name hname => ⟨h.package name hname _, h.package name hname _⟩⟩
  complete name _ hname hcurrent := (nomatch (h.package name hname _).symm.trans hcurrent)
  unlocked name hname := h.package name hname _

/-- Files that are not inside may change between installations. -/
def refresh (outside fs : FileStore) : FileStore := fun f => if Inside f then fs f else outside f

theorem Staged.congr (h : Staged env m fs) (hown : OwnLeaf m)
    (heq : ∀ leaf, '/' ∉ leaf → leaf ≠ "manifest.json.tmp".toList →
      fs' (versionPath m.name m.version ++ '/' :: leaf) = fs (versionPath m.name m.version ++ '/' :: leaf)) :
    Staged env m fs' := by
  obtain ⟨hmanifest, content, hpayload, hhash⟩ := h
  exact ⟨(heq _ (by decide) (by decide)).trans hmanifest, content,
    (heq _ (not_slash_basename _) hown.2).trans hpayload, hhash⟩

theorem Good.refresh (h : Good env fs) (outside : FileStore) : Good env (refresh outside fs) := by
  have hpackage {n l : CStr} (hn : IsName n) (hl : IsName l) :
      Nxpkg.refresh outside fs (packageFile n l) = fs (packageFile n l) := if_pos (inside_packageFile hn hl)
  have hdb : Nxpkg.refresh outside fs repoInstalled = fs repoInstalled := if_pos (.inr (.inr (.inl rfl)))
  refine ⟨?_, fun name version hname hcurrent => ?_, fun name hname => ?_⟩
  · obtain ⟨db, hbounded, hloads, hagrees⟩ := h.installed
    refine ⟨db, hbounded, by rwa [Loads, hdb], fun name hname => ?_⟩
    obtain ⟨hcurrent, hprevious⟩ := hagrees name hname
    exact ⟨(hpackage hname (by decide)).trans hcurrent, (hpackage hname (by decide)).trans hprevious⟩
  · obtain ⟨hversion, m, rfl, rfl, hleaf, hstaged⟩ :=
      h.complete name version hname ((hpackage hname (by decide)).symm.trans hcurrent)
    refine ⟨hversion, m, rfl, rfl, hleaf, hstaged.congr hleaf fun leaf hslash _ => ?_⟩
    exact if_pos (inside_versionFile ⟨hname, hversion⟩ hslash)
  · exact (hpackage hname (by decide)).trans (h.unlocked name hname)

/-! ## Installations -/

/-- An installation, with the contents of the files outside and the outcomes of its calls. -/
structure Request where
  outside : FileStore
  name : CStr
  outcomes : List Outcome

def Request.result (env : Env) (fs : FileStore) (q : Request) : Result Bool :=
  (pkgInstall env q.name).run q.outcomes (refresh q.outside fs)

/-- One installation after another. -/
def installStep (env : Env) (fs : FileStore) (q : Request) : FileStore := (q.result env fs).store

/-- A call that must not fail: on the lock, the previous version or the database, and on the
directory of the version if it is the current one. -/
def Critical (fs : FileStore) (m : Manifest) (c : Call) : Prop :=
  lockPath m.name ∈ c.names ∨ Activating m c ∨ (fs (currentPath m.name) = some m.version ∧ Restaging m c)

/-- The call does not fail or may fail. -/
def Tolerated (env : Env) (fs : FileStore) (name : CStr) (c : Call) (o : Outcome) : Prop :=
  o.failed = true → ∀ m, Selects env fs name m → ¬ Critical fs m c

/-- The installation is not disturbed at a wrong moment. -/
structure Undisturbed (env : Env) (fs : FileStore) (q : Request) : Prop where
  name : IsName q.name
  selected : ∀ m, Selects env (refresh q.outside fs) q.name m → IsName m.version ∧ OwnLeaf m
  /-- The power is not cut after the first change. -/
  finished : (∃ b, (q.result env fs).value = some b) ∨ ∀ step ∈ (q.result env fs).steps, step.1.changes = []
  calls : ∀ step ∈ (q.result env fs).steps, Tolerated env (refresh q.outside fs) q.name step.1 step.2

/-- All describe the state before, or all the state after. -/
structure AllOrNothing (env : Env) (name : CStr) (fs fs' : FileStore) : Prop where
  /-- The current version is complete. -/
  complete : ∀ version, fs' (currentPath name) = some version → Complete env fs' name version
  /-- The pointers are those of the database, which is the old one or the one with the version. -/
  view : ∃ db db', Loads env fs db ∧ Agrees fs db name ∧ Loads env fs' db' ∧ Agrees fs' db' name ∧
    (db' = db ∨ ∃ m, Selects env fs name m ∧ updateInstalled db m = .ok db')
  /-- A later installation gets the lock. -/
  unlocked : name.length < nameMax + 1 →
    ∃ n, (Prog.run (acquireLock env name) (replicate n .ok) fs').value = some (.ok (lockPath name))

/-! ## The lock -/

theorem wp_mkdirs_ok {path : CStr} (hlen : path.length < env.pathMax) :
    wp (anyCall fun _ o => o = .ok) (mkdirs env path).prog (fun r fs' => r = .ok () ∧ fs' = fs) fs := by
  refine wp_format_bind_ok hlen ?_
  generalize dirPrefixes [] path = dirs
  induction dirs with
  | nil => exact ⟨rfl, rfl⟩
  | cons dir dirs ih =>
    refine wp_bind_fallible (wp_perform trivial ?_)
    rintro r fs' ⟨o, rfl, hexec⟩
    obtain ⟨rfl, herror⟩ := Call.exec_mkdir hexec
    cases r with
    | ok _ => exact ih
    | error e => exact (nomatch herror e rfl)

theorem acquireLock_ok (hlen : name.length < nameMax + 1) (h : fs (lockPath name) = none) :
    ∃ n, (Prog.run (acquireLock env name) (replicate n .ok) fs).value = some (.ok (lockPath name)) := by
  have hroot : (packageRoot name).length < env.pathMax := by
    have hmin := env.pathMax_ge
    have hdir : storeDir.length = 19 := rfl
    rw [nameMax] at hlen
    rw [packageRoot, length_append, length_cons, hdir]
    omega
  have hlock : (lockPath name).length < env.pathMax := by
    have hmin := env.pathMax_ge
    have hdir : storeDir.length = 19 := rfl
    have hleaf : ".lock".toList.length = 5 := rfl
    rw [nameMax] at hlen
    rw [lockPath, packageRoot, length_append, length_append, length_cons, length_cons, hdir, hleaf]
    omega
  have hwp : wp (anyCall fun _ o => o = .ok) (acquireLock env name).prog
      (fun r _ => r = .ok (lockPath name)) fs := by
    refine wp_bind_fallible (wp_format_bind_ok hroot (wp_mono (wp_mkdirs_ok hroot) ?_))
    rintro r fs' ⟨rfl, rfl⟩
    refine wp_format_bind_ok hlock (wp_bind_fallible (wp_perform trivial ?_))
    rintro r fs'' ⟨o, rfl, hexec⟩
    rcases Call.exec_createExcl hexec with ⟨rfl, -, -⟩ | ⟨-, -, hfailed | hsome⟩
    · rfl
    · cases hfailed
    · rw [h] at hsome
      cases hsome
  obtain ⟨n, r, hvalue, rfl⟩ := exists_run_of_wp hwp
  exact ⟨n, hvalue⟩

/-! ## What an installation leaves -/

/-- Nothing has changed, or a manifest was installed with the lock. -/
def Left (env : Env) (A : Call → Outcome → Prop) (name : CStr) (db : List Entry) (fs fs' : FileStore) : Prop :=
  fs' = fs ∨ ∃ m, Selects env fs name m ∧ m.name = name ∧ Effect env A m db fs fs'

theorem wp_acquireLock_store :
    wp (anyCall A) (acquireLock env name).prog
      (fun r fs' => (∃ e, r = .error e) ∧ fs' = fs ∨ r = .ok (lockPath name) ∧ ∀ f, f ≠ lockPath name →
        fs' f = fs f) fs := by
  refine wp_bind_fallible (wp_mono (wp_mkdir (calls_ensurePackageRoot (fun dir => ⟨dir, rfl⟩) name)) ?_)
  rintro r fs₁ rfl
  cases r with
  | error e => exact .inl ⟨⟨e, rfl⟩, rfl⟩
  | ok _ =>
  refine wp_format_bind (.inl ⟨⟨_, rfl⟩, rfl⟩) (wp_bind_fallible (wp_perform trivial ?_))
  rintro r fs₂ ⟨o, -, hexec⟩
  rcases Call.exec_createExcl hexec with ⟨rfl, -, rfl⟩ | ⟨⟨e, rfl⟩, rfl, -⟩
  · exact .inr ⟨rfl, fun f hf => FileOp.apply_create_of_ne hf⟩
  · exact .inl ⟨⟨e, rfl⟩, rfl⟩

theorem wp_pkgInstall {db : List Entry} (hdb : BoundedDb db) (hloads : Loads env fs db) (hname : IsName name)
    (hselected : ∀ m, Selects env fs name m → OwnLeaf m) :
    (pkgInstall env name).wp (anyCall A) (fun _ => Left env A name db fs) fs := by
  refine wp_pkgInstall_selects (fun dir => ⟨trivial, fun _ _ => next_mkdir⟩) ⟨trivial, fun _ _ => next_index⟩
    (.inl rfl) ?_
  rintro m source hsized rfl hm
  refine wp_bind (wp_mono wp_acquireLock_store fun r fs₁ h₁ => ?_)
  rcases h₁ with ⟨⟨e, rfl⟩, rfl⟩ | ⟨rfl, hlocked⟩
  · exact .inl rfl
  have hloads₁ : Loads env fs₁ db := by rwa [Loads, hlocked _ (packageFile_ne_installed _ _).symm]
  refine wp_mono (wp_installLocked hname hsized (hselected m hm) source hdb hloads₁) fun _ fs₂ h₂ => ?_
  refine .inr ⟨m, hm, rfl, h₂.toSettled.congr hname (fun f _ hf => hlocked f hf) fun _ _ _ => rfl,
    fun f hf => (h₂.frame f hf).trans (hlocked f fun hc => hf (.inl ?_)), h₂.unlocked⟩
  rw [hc, ownFiles]
  exact mem_cons_self

/-! ## Good stores stay good -/

/-- The names of the files in the directory of the version. -/
def versionLeaves (m : Manifest) : List CStr :=
  [basename m.artifact, "manifest.json".toList, "manifest.json.tmp".toList]

theorem mem_ownFiles : ∀ f ∈ ownFiles m.name m, f = downloadPath m.name m.version ∨
    (∃ l, '/' ∉ l ∧ f = packageFile m.name l) ∨
    ∃ leaf ∈ versionLeaves m, f = versionPath m.name m.version ++ '/' :: leaf := by
  have htmp (l : CStr) (h : '/' ∉ l ++ ".tmp".toList) :
      ∃ l', '/' ∉ l' ∧ tmpName (packageFile m.name l) = packageFile m.name l' := ⟨_, h, tmpName_packageFile _ _⟩
  simp only [ownFiles, forall_mem_cons]
  refine ⟨.inr (.inl ⟨_, by decide, rfl⟩), .inr (.inl ⟨_, by decide, rfl⟩), .inr (.inl (htmp _ (by decide))),
    .inl trivial,
    .inr (.inr ⟨_, ?_, rfl⟩), .inr (.inr ⟨_, ?_, rfl⟩), .inr (.inr ⟨_, ?_, tmpName_manifestPath _ _⟩),
    .inr (.inl ⟨_, by decide, rfl⟩), .inr (.inl (htmp _ (by decide))), .inr (.inl ⟨_, by decide, rfl⟩),
    .inr (.inl (htmp _ (by decide))), fun f hf => absurd hf not_mem_nil⟩
  all_goals simp [versionLeaves]

theorem not_changed_versionFile {v leaf : CStr}
    (h : ∀ leaf' ∈ versionLeaves m, v ++ '/' :: leaf ≠ m.version ++ '/' :: leaf') :
    ¬ Changed m (versionPath m.name v ++ '/' :: leaf) := by
  rw [versionFile_eq]
  rintro (hown | hdb | hdb)
  · rcases mem_ownFiles _ hown with hc | ⟨l', hl', hc⟩ | ⟨leaf', hleaf', hc⟩
    · exact packageFile_ne_downloadPath _ _ _ _ hc
    · exact packageFile_ne _ (versionLeaf_ne v leaf hl') hc
    · rw [versionFile_eq] at hc
      exact packageFile_ne _ (h leaf' hleaf') hc
  · exact packageFile_ne_installed _ _ hdb
  · exact packageFile_ne_installedTmp _ _ hdb

theorem not_changed_package (hm : IsName m.name) {n : CStr} (hn : IsName n) (hne : n ≠ m.name) (l : CStr) :
    ¬ Changed m (packageFile n l) := by
  rintro (hown | hdb | hdb)
  · rcases mem_ownFiles _ hown with hc | ⟨l', -, hc⟩ | ⟨leaf, -, hc⟩
    · exact packageFile_ne_downloadPath _ _ _ _ hc
    · exact packageFile_ne_of_name hn hm hne _ _ hc
    · exact packageFile_ne_of_name hn hm hne _ _ (hc.trans (versionFile_eq _ _ _))
  · exact packageFile_ne_installed _ _ hdb
  · exact packageFile_ne_installedTmp _ _ hdb

/-- What an undisturbed installation does to the database and the pointers of its package. -/
def Turned (env : Env) (m : Manifest) (db db' : List Entry) (fs fs' : FileStore) : Prop :=
  db' = db ∧ Untouched m.name fs fs' ∨
    updateInstalled db m = .ok db' ∧ Staged env m fs' ∧ fs' repoInstalled = some (env.cj.print (installedJson db')) ∧
      Agrees fs' db' m.name

theorem Effect.turned {db : List Entry} (h : Effect env A m db fs fs') (hA : ¬ MayFail A (Activating m)) :
    ∃ db', Turned env m db db' fs fs' := by
  rcases h.activated with hu | ⟨hstaged, db', hupdate, hdb, hagrees⟩ | hfail
  · exact ⟨db, .inl ⟨rfl, hu⟩⟩
  · exact ⟨db', .inr ⟨hupdate, hstaged, hdb, hagrees⟩⟩
  · exact absurd hfail hA

section

variable {db db' : List Entry}

section

variable (h : Turned env m db db' fs fs')
include h

theorem Turned.loads (hloads : Loads env fs db) : Loads env fs' db' := by
  rcases h with ⟨rfl, hu⟩ | ⟨-, -, hdb, -⟩
  · rwa [Loads, hu.2.2]
  · exact .inr hdb

theorem Turned.bounded (hdb : BoundedDb db) : BoundedDb db' := by
  rcases h with ⟨rfl, -⟩ | ⟨hupdate, -⟩
  · exact hdb
  · exact (updateInstalled_spec hupdate).2 hdb

theorem Turned.agrees (hagrees : Agrees fs db m.name) : Agrees fs' db' m.name := by
  rcases h with ⟨rfl, hu⟩ | ⟨-, -, -, hnew⟩
  · exact ⟨hu.1.trans hagrees.1, hu.2.1.trans hagrees.2⟩
  · exact hnew

theorem Turned.others {n : CStr} (hne : n ≠ m.name) :
    findInstalled db' n = findInstalled db n := by
  rcases h with ⟨rfl, -⟩ | ⟨hupdate, -⟩
  · rfl
  · exact (updateInstalled_spec hupdate).1.others n hne

end

end

/-- The current version is complete, whether it is the one that was installed, the same one again or
another one. -/
theorem Effect.complete {db db' : List Entry} (h : Effect env A m db fs fs') (hgood : Good env fs) (hm : IsName m.name)
    (hversion : IsName m.version) (hleaf : OwnLeaf m) (hturned : Turned env m db db' fs fs')
    (hA : fs (currentPath m.name) = some m.version → ¬ MayFail A (Restaging m)) {version : CStr}
    (hcurrent : fs' (currentPath m.name) = some version) :
    IsName version ∧ ∃ m' : Manifest, m'.name = m.name ∧ m'.version = version ∧ OwnLeaf m' ∧ Staged env m' fs' := by
  rcases hturned with ⟨-, hu⟩ | ⟨hupdate, hstaged, -, hagrees⟩
  · have hbefore : fs (currentPath m.name) = some version := hu.1.symm.trans hcurrent
    obtain ⟨hv, m', hname', rfl, hleaf', hstaged'⟩ := hgood.complete _ _ hm hbefore
    refine ⟨hv, ?_⟩
    by_cases hsame : m'.version = m.version
    · rcases h.staged with hstaged | ⟨hpayload, hmanifest⟩ | hfail
      · exact ⟨m, rfl, hsame.symm, hleaf, hstaged⟩
      · -- the old payload may have another name than the new one
        refine ⟨m', hname', rfl, hleaf', hstaged'.congr hleaf' fun leaf _ htmp => ?_⟩
        rw [hname', hsame]
        by_cases hp : leaf = basename m.artifact
        · exact hp ▸ hpayload
        by_cases hf : leaf = "manifest.json".toList
        · exact hf ▸ hmanifest
        refine h.frame _ (not_changed_versionFile fun leaf' hleaf' hc => ?_)
        rw [← (List.cons.inj (append_cancel_left hc)).2] at hleaf'
        simp only [versionLeaves, mem_cons, not_mem_nil, or_false] at hleaf'
        exact hleaf'.elim hp (·.elim hf htmp)
      · exact absurd hfail (hA (hsame ▸ hbefore))
    · refine ⟨m', hname', rfl, hleaf', hstaged'.congr hleaf' fun leaf _ _ => h.frame _ ?_⟩
      rw [hname']
      exact not_changed_versionFile fun leaf' _ hc => hsame (join_inj hv.1 hversion.1 hc).1
  · obtain ⟨entry, -, hfind, -, hentry, -⟩ := (updateInstalled_spec hupdate).1.entry
    have hcur := hcurrent.symm.trans hagrees.1
    rw [hfind, Option.map_some, hentry] at hcur
    cases Option.some.inj hcur
    exact ⟨hversion, m, rfl, rfl, hleaf, hstaged⟩

theorem Effect.good {db db' : List Entry} (h : Effect env A m db fs fs') (hgood : Good env fs) (hm : IsName m.name)
    (hversion : IsName m.version) (hleaf : OwnLeaf m) (hdb : BoundedDb db) (hloads : Loads env fs db)
    (hagrees : ∀ name, IsName name → Agrees fs db name) (hturned : Turned env m db db' fs fs')
    (hstage : fs (currentPath m.name) = some m.version → ¬ MayFail A (Restaging m))
    (hlock : ¬ MayFail A fun c => lockPath m.name ∈ c.names) : Good env fs' := by
  have hother {n : CStr} (hn : IsName n) (hne : n ≠ m.name) (l : CStr) : fs' (packageFile n l) = fs (packageFile n l) :=
    h.frame _ (not_changed_package hm hn hne l)
  refine ⟨⟨db', hturned.bounded hdb, hturned.loads hloads, fun n hn => ?_⟩, fun n version hn hcurrent => ?_,
    fun n hn => ?_⟩
  · by_cases hne : n = m.name
    · subst hne
      exact hturned.agrees (hagrees _ hn)
    obtain ⟨hcurrent, hprevious⟩ := hagrees n hn
    rw [Agrees, hturned.others hne]
    exact ⟨(hother hn hne _).trans hcurrent, (hother hn hne _).trans hprevious⟩
  · by_cases hne : n = m.name
    · subst hne
      exact h.complete hgood hm hversion hleaf hturned hstage hcurrent
    obtain ⟨hv, m', rfl, rfl, hleaf', hstaged⟩ :=
      hgood.complete n version hn ((hother hn hne _).symm.trans hcurrent)
    refine ⟨hv, m', rfl, rfl, hleaf', hstaged.congr hleaf' fun leaf _ _ => ?_⟩
    rw [versionFile_eq]
    exact hother hn hne _
  · by_cases hne : n = m.name
    · subst hne
      exact h.unlocked.resolve_right hlock
    · exact (hother hn hne _).trans (hgood.unlocked n hn)

/-! ## Runs of installations -/

/-- An undisturbed installation leaves a good store good, and changes all or nothing. -/
theorem installStep_good {q : Request} (hgood : Good env fs) (hq : Undisturbed env fs q) :
    Good env (installStep env fs q) ∧ AllOrNothing env q.name (refresh q.outside fs) (installStep env fs q) := by
  have hgood₀ := hgood.refresh q.outside
  obtain ⟨db, hdb, hloads, hagrees⟩ := hgood₀.installed
  have hleft : Left env (Tolerated env (refresh q.outside fs) q.name) q.name db (refresh q.outside fs)
      (installStep env fs q) := by
    rcases hq.finished with ⟨b, hvalue⟩ | hnone
    · exact run_of_wp (wp_pkgInstall hdb hloads hq.name fun m hm => (hq.selected m hm).2) q.outcomes hq.calls b hvalue
    · exact .inl (store_of_no_changes hnone)
  obtain ⟨db', hgood', hloads', hagrees', hview⟩ : ∃ db', Good env (installStep env fs q) ∧
      Loads env (installStep env fs q) db' ∧ Agrees (installStep env fs q) db' q.name ∧
      (db' = db ∨ ∃ m, Selects env (refresh q.outside fs) q.name m ∧ updateInstalled db m = .ok db') := by
    rcases hleft with hsame | ⟨m, hselects, hname, heffect⟩
    · rw [hsame]
      exact ⟨db, hgood₀, hloads, hagrees _ hq.name, .inl rfl⟩
    have hmay {P : Call → Prop} (hP : ∀ c, P c → Critical (refresh q.outside fs) m c) :
        ¬ MayFail (Tolerated env (refresh q.outside fs) q.name) P := by
      rintro ⟨c, o, hA, ho, hc⟩
      exact hA ho m hselects (hP c hc)
    obtain ⟨hversion, hleaf⟩ := hq.selected m hselects
    have hm : IsName m.name := hname ▸ hq.name
    obtain ⟨db', hturned⟩ := heffect.turned (hmay fun c hc => .inr (.inl hc))
    refine ⟨db', heffect.good hgood₀ hm hversion hleaf hdb hloads hagrees hturned
      (fun hcurrent => hmay fun c hc => .inr (.inr ⟨hcurrent, hc⟩)) (hmay fun c hc => .inl hc),
      hturned.loads hloads, ?_, ?_⟩
    · rw [← hname]
      exact hturned.agrees (hagrees _ hm)
    · exact hturned.imp (·.1) fun h => ⟨m, hselects, h.1⟩
  refine ⟨hgood', fun version hcurrent => ?_, ⟨db, db', hloads, hagrees _ hq.name, hloads', hagrees', hview⟩,
    fun hlen => ?_⟩
  · obtain ⟨-, m, hname, hversion, -, hstaged⟩ := hgood'.complete _ _ hq.name hcurrent
    exact ⟨m, hname, hversion, hstaged⟩
  · exact acquireLock_ok hlen (hgood'.unlocked _ hq.name)

/-- After any undisturbed installations from a fresh store, one more changes all or nothing. -/
theorem pkgInstall_allOrNothing (env : Env) (fs : FileStore) (hfresh : Fresh fs) (qs : List Request)
    (hqs : Transition.Meets (installStep env) (Undisturbed env) fs qs) (q : Request)
    (hq : Undisturbed env (Transition.run (installStep env) fs qs) q) :
    AllOrNothing env q.name (refresh q.outside (Transition.run (installStep env) fs qs))
      (installStep env (Transition.run (installStep env) fs qs) q) := by
  have hgood : Good env (Transition.run (installStep env) fs qs) :=
    Transition.run_induct (fun fs q hgood hq => (installStep_good hgood hq).1) hfresh.good hqs
  exact (installStep_good hgood hq).2

instance (m : Manifest) : Decidable (OwnLeaf m) := inferInstanceAs (Decidable (_ ∧ _))

instance (fs : FileStore) (m : Manifest) (c : Call) : Decidable (Critical fs m c) :=
  inferInstanceAs (Decidable (_ ∨ (_ ∨ _) ∨ _ ∧ (_ ∨ _ ∨ _)))

/-- The installation of a version of the sample package, whose call with the given number fails. -/
def sampleRequest (version : String) (failing : Option Nat) : Request where
  outside := sampleStore (sampleManifest version)
  name := "app".toList
  outcomes := match failing with
    | none => replicate 90 .ok
    | some n => replicate n .ok ++ .fail .eio :: replicate 90 .ok

/-- The store with the version 1.0. -/
def sampleInstalled : FileStore := installStep sampleEnv (fun _ => none) (sampleRequest "1.0" none)

theorem selects_sample {version : String} {failing : Option Nat} {fs : FileStore}
    (hparse : parseIndex JsonText.reference 256
      (JsonText.reference.print (.arr [manifestJson (sampleManifest version)])) =
      .ok [sampleManifest version])
    (h : Selects sampleEnv (refresh (sampleRequest version failing).outside fs) "app".toList m) :
    m = sampleManifest version := by
  obtain ⟨text, index, htext, hindex, hlatest⟩ := h
  cases Option.some.inj htext
  cases Except.ok.inj (hparse.symm.trans hindex)
  exact mem_singleton.mp (findLatest_mem hlatest).1

/-- The payload of the next version cannot be written, and all stays as it was. -/
theorem pkgInstall_allOrNothing_upgrade :
    ((sampleRequest "1.1" (some 48)).result sampleEnv sampleInstalled).value = some false ∧
      AllOrNothing sampleEnv "app".toList (refresh (sampleRequest "1.1" (some 48)).outside sampleInstalled)
        (installStep sampleEnv sampleInstalled (sampleRequest "1.1" (some 48))) := by
  have hfresh : Fresh fun _ => none := ⟨rfl, fun _ _ _ => rfl⟩
  have hfirst : Undisturbed sampleEnv (fun _ => none) (sampleRequest "1.0" none) := by
    refine ⟨by decide, fun m hm => ?_, .inl ⟨true, by decide +kernel⟩, fun step hstep hfailed => ?_⟩
    · cases selects_sample (by decide +kernel) hm
      decide
    · rw [eq_of_mem_replicate (outcome_mem step hstep)] at hfailed
      cases hfailed
  obtain ⟨hvalue, hcalls⟩ : ((sampleRequest "1.1" (some 48)).result sampleEnv sampleInstalled).value = some false ∧
      ∀ step ∈ ((sampleRequest "1.1" (some 48)).result sampleEnv sampleInstalled).steps, step.2.failed = true →
        ¬ Critical (refresh (sampleRequest "1.1" (some 48)).outside sampleInstalled) (sampleManifest "1.1") step.1 := by
    decide +kernel
  refine ⟨hvalue, pkgInstall_allOrNothing sampleEnv _ hfresh [sampleRequest "1.0" none] ⟨hfirst, trivial⟩
    (sampleRequest "1.1" (some 48)) ⟨by decide, fun m hm => ?_, .inl ⟨false, hvalue⟩,
      fun step hstep hfailed m hm => ?_⟩⟩
  · cases selects_sample (by decide +kernel) hm
    decide
  · cases selects_sample (by decide +kernel) hm
    exact hcalls step hstep hfailed

/-- After 1.0 was installed: if it is installed again and the payload cannot be written, the payload
is gone. If 1.1 is installed and the database cannot be renamed, the pointer is new and the database
old. If the power is cut while 1.1 is installed, a later installation is refused though no call
fails. -/
theorem not_pkgInstall_allOrNothing :
    let again := installStep sampleEnv sampleInstalled (sampleRequest "1.0" (some 48))
    let mixed := installStep sampleEnv sampleInstalled (sampleRequest "1.1" (some 74))
    let cut := installStep sampleEnv sampleInstalled { sampleRequest "1.1" none with outcomes := replicate 50 .ok }
    (again (currentPath "app".toList) = some "1.0".toList ∧
      again (payloadPath "app".toList "1.0".toList "app.elf".toList) = none) ∧
    (mixed (currentPath "app".toList) = some "1.1".toList ∧ mixed repoInstalled = sampleInstalled repoInstalled) ∧
    ((sampleRequest "1.1" none).result sampleEnv cut).value = some false := by
  decide +kernel

end System.Nxpkg
