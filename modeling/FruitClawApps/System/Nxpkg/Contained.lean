-- SUMMARY: Installations with ordinary names and versions touch files of the store only.
import FruitClawApps.Lib.JsonText
import FruitClawApps.System.Nxpkg.Install

/-!
# Files outside the store

The names and versions of an index may have slashes and parent references in them, and `pkg_install`
writes wherever they lead. Otherwise it touches files below the store and the temporary directory,
and the database.
-/

namespace System.Nxpkg

open FileProgram Prog LexicalPath List

/-- The file is below the store or the temporary directory, or it is the database or its temporary
file. -/
def Inside (f : CStr) : Prop :=
  Below (normalise storeDir) f ∨ Below (normalise tmpDir) f ∨ f = repoInstalled ∨ f = tmpName repoInstalled

instance (f : CStr) : Decidable (Inside f) := inferInstanceAs (Decidable (_ ∨ _ ∨ _ ∨ _))

/-- The name and the version are ordinary file names. -/
def Plain (m : Manifest) : Prop := IsName m.name ∧ IsName m.version

variable {env : Env} {name : CStr} {m : Manifest}

theorem not_parent_of_isName {n : CStr} (h : IsName n) : ['.', '.'] ∉ components n := by
  rw [components_of_not_mem h.1, mem_singleton]
  exact Ne.symm h.2.2.2

theorem below_packageRoot (h : IsName name) : Below (normalise storeDir) (packageRoot name) :=
  below_join (below_self _) (not_parent_of_isName h)

theorem inside_packageFile (h : IsName name) {leaf : CStr} (hleaf : IsName leaf) :
    Inside (packageRoot name ++ '/' :: leaf) :=
  .inl (below_join (below_packageRoot h) (not_parent_of_isName hleaf))

/-- The directory of the version is two levels below the store. -/
theorem normalise_versionPath (h : Plain m) :
    normalise (versionPath m.name m.version) = normalise storeDir ++ [m.name] ++ [m.version] := by
  rw [versionPath, normalise_join_name _ h.2, packageRoot, normalise_join_name _ h.1]

theorem inside_versionFile (h : Plain m) {leaf : CStr} (hslash : '/' ∉ leaf) :
    Inside (versionPath m.name m.version ++ '/' :: leaf) := by
  left
  rw [Below, normalise_join, components_of_not_mem hslash, normalise_versionPath h, foldl_cons, foldl_nil, push]
  split_ifs
  · exact (prefix_append _ _).trans (prefix_append _ _)
  · exact prefix_append _ _
  · exact ((prefix_append _ _).trans (prefix_append _ _)).trans (prefix_append _ _)

theorem not_slash_basename (path : CStr) : '/' ∉ basename path := fun h => by
  simpa using mem_takeWhile_imp (mem_reverse.mp h)

theorem inside_downloadPath (h : Plain m) : Inside (downloadPath m.name m.version) := by
  have hdir : Below (normalise tmpDir) tmpPkgDir := by decide
  have hslash : '/' ∉ m.name ++ '-' :: m.version ++ ".npkg".toList := by
    simp only [mem_append, mem_cons, not_or]
    exact ⟨⟨h.1.1, by decide, h.2.1⟩, by decide⟩
  refine .inr (.inl (below_join hdir ?_))
  rw [components_of_not_mem hslash, mem_singleton]
  intro hparent
  have hdash : '-' ∈ (['.', '.'] : CStr) := by
    rw [hparent]
    exact mem_append_left _ (mem_append_right _ mem_cons_self)
  exact absurd hdash (by decide)

theorem inside_ownFiles (h : Plain m) : ∀ f ∈ ownFiles m.name m, Inside f := by
  have hroot {leaf : CStr} (hleaf : IsName leaf) : Inside (packageRoot m.name ++ '/' :: leaf) :=
    inside_packageFile h.1 hleaf
  have htmp (dir leaf : CStr) : tmpName (dir ++ '/' :: leaf) = dir ++ '/' :: (leaf ++ ".tmp".toList) := by
    rw [tmpName, append_assoc, cons_append]
  simp only [ownFiles, forall_mem_cons, lockPath, txnPath, currentPath, previousPath, manifestPath, payloadPath, htmp]
  exact ⟨hroot (by decide), hroot (by decide), hroot (by decide), inside_downloadPath h,
    inside_versionFile h (not_slash_basename _), inside_versionFile h (by decide), inside_versionFile h (by decide),
    hroot (by decide), hroot (by decide), hroot (by decide), hroot (by decide), fun f hf => absurd hf not_mem_nil⟩

/-! ## The calls of an installation -/

/-- The files that an installation changes. -/
def Changed (m : Manifest) (f : CStr) : Prop := f ∈ ownFiles m.name m ∨ f = repoInstalled ∨ f = tmpName repoInstalled

theorem inside_changed (h : ∀ f ∈ ownFiles m.name m, Inside f) {f : CStr} (hf : Changed m f) : Inside f := by
  rcases hf with hf | rfl | rfl
  · exact h f hf
  · exact .inr (.inr (.inl rfl))
  · exact .inr (.inr (.inr rfl))

theorem calls_installLocked_changed (hsized : Sized m) (source : CStr) :
    (installLocked env m.name source (lockPath m.name) m).Calls fun c => ∀ f ∈ c.changes, Changed m f := by
  have hpermits : Permits (fun c => ∀ f ∈ c.changes, Changed m f) m.name source m :=
    ⟨nofun, nofun, nofun,
      fun c hc f hf => .inl (hc f (c.changes_subset_names hf))⟩
  exact hpermits.installLocked (fun c hc f hf => .inr (hc f (c.changes_subset_names hf)).symm) hsized

/-! ## The manifests of an index -/

theorem mem_parseItems {α : Type} {parse : Json → Except Errno α} {room : Nat} {items : List Json} {xs : List α}
    (h : parseItems parse room items = .ok xs) : ∀ x ∈ xs, ∃ item ∈ items, parse item = .ok x := by
  induction items generalizing room xs with
  | nil =>
    rw [parseItems] at h
    cases h
    exact fun x hx => absurd hx not_mem_nil
  | cons item items ih =>
    cases room with
    | zero =>
      cases h
    | succ room =>
      obtain ⟨a, ha, h⟩ := Except.bind_eq_ok_iff.mp h
      obtain ⟨rest, hrest, h⟩ := Except.bind_eq_ok_iff.mp h
      cases h
      intro x hx
      rcases mem_cons.mp hx with rfl | hx
      · exact ⟨item, mem_cons_self, ha⟩
      · obtain ⟨item', hmem, hparse⟩ := ih hrest x hx
        exact ⟨item', mem_cons_of_mem _ hmem, hparse⟩

theorem length_of_requiredField {item : Json} {field : String} {size : Nat} {v : CStr}
    (h : requiredField item field size = .ok v) : v.length < size := by
  rw [requiredField] at h
  split at h
  · cases h
  split_ifs at h with hlen
  cases h
  exact Nat.lt_of_not_le hlen

/-- A manifest that is read fits its arrays and has passed the validation. -/
theorem parseManifest_spec {pathMax : Nat} {item : Json} (h : parseManifest pathMax item = .ok m) :
    Sized m ∧ manifestValidate m = true := by
  obtain ⟨name, hname, h⟩ := Except.bind_eq_ok_iff.mp h
  obtain ⟨version, hversion, h⟩ := Except.bind_eq_ok_iff.mp h
  obtain ⟨arch, -, h⟩ := Except.bind_eq_ok_iff.mp h
  obtain ⟨compat, -, h⟩ := Except.bind_eq_ok_iff.mp h
  obtain ⟨artifact, -, h⟩ := Except.bind_eq_ok_iff.mp h
  obtain ⟨sha256, -, h⟩ := Except.bind_eq_ok_iff.mp h
  obtain ⟨type, -, h⟩ := Except.bind_eq_ok_iff.mp h
  simp only at h
  split_ifs at h with hvalid
  cases h
  exact ⟨⟨length_of_requiredField hname, length_of_requiredField hversion⟩, hvalid⟩

theorem parseIndex_spec {cj : CJson} {pathMax : Nat} {text : CStr} {index : List Manifest}
    (h : parseIndex cj pathMax text = .ok index) : ∀ m ∈ index, Sized m ∧ manifestValidate m = true := by
  rw [parseIndex, parsePackages] at h
  split at h
  · intro m hm
    obtain ⟨item, -, hparse⟩ := mem_parseItems h m hm
    exact parseManifest_spec hparse
  · cases h

theorem findLatest_mem {rt : Runtime} {index : List Manifest} (h : findLatest rt index name = some m) :
    m ∈ index ∧ Compatible rt name m = true := by
  have hfold : ∀ (rest : List Manifest) (best : Option Manifest),
      rest.foldl (considerCandidate rt name) best = some m →
        best = some m ∨ m ∈ rest ∧ Compatible rt name m = true := by
    intro rest
    induction rest with
    | nil => exact fun best hbest => .inl hbest
    | cons c rest ih =>
      intro best hbest
      rcases ih _ hbest with hc | ⟨hm, hcompat⟩
      · unfold considerCandidate at hc
        split at hc
        · exact .inl hc
        rename_i hcompat
        have hcompat' : Compatible rt name c = true := by simpa using hcompat
        cases best with
        | none =>
          cases hc
          exact .inr ⟨mem_cons_self, hcompat'⟩
        | some b =>
          simp only at hc
          split_ifs at hc
          · cases hc
            exact .inr ⟨mem_cons_self, hcompat'⟩
          · exact .inl hc
      · exact .inr ⟨mem_cons_of_mem _ hm, hcompat⟩
  exact (hfold index none h).resolve_left nofun

theorem name_of_compatible {rt : Runtime} (h : Compatible rt name m = true) : m.name = name := by
  rw [Compatible, Bool.and_eq_true, stringEqual, decide_eq_true_eq] at h
  exact h.1.2.2

/-! ## The selected manifest -/

/-- The index leads to the manifest. -/
def Selects (env : Env) (fs : FileStore) (name : CStr) (m : Manifest) : Prop :=
  ∃ text index, fs repoIndex = some text ∧ parseIndex env.cj env.pathMax text = .ok index ∧
    findLatest env.rt index name = some m

theorem Selects.unique {fs : FileStore} {m' : Manifest} (h : Selects env fs name m) (h' : Selects env fs name m') :
    m = m' := by
  obtain ⟨text, index, htext, hparse, hlatest⟩ := h
  obtain ⟨text', index', htext', hparse', hlatest'⟩ := h'
  cases htext.symm.trans htext'
  cases hparse.symm.trans hparse'
  exact Option.some.inj (hlatest.symm.trans hlatest')

/-- What `pkg_install` does with the manifest that it has selected. -/
abbrev lockAndInstall (env : Env) (source : CStr) (m : Manifest) : Prog Bool :=
  (acquireLock env m.name).run >>= fun
    | .error _ => pure false
    | .ok lock => installLocked env m.name source lock m

/-- An installation fails, or it goes on with the manifest that the index leads to. -/
theorem wp_pkgInstall_selects {σ : Type} {w : World σ} {s : σ} {fs : FileStore} {Q : Bool → σ → Prop}
    (hmkdir : ∀ dir, w.allows s (.mkdir dir) ∧ ∀ r s', w.next s (.mkdir dir) r s' → s' = s)
    (hread : w.allows s (.read repoIndex) ∧ ∀ r s', w.next s (.read repoIndex) r s' →
      s' = s ∧ ∀ text, r = .ok text → fs repoIndex = some text)
    (hfalse : Q false s)
    (h : ∀ m source, Sized m → m.name = name → Selects env fs name m →
      (lockAndInstall env source m).wp w Q s) :
    (pkgInstall env name).wp w Q s := by
  have hlayout : Calls (fun c => ∃ dir, c = .mkdir dir) (prepareLayout env).prog :=
    calls_prepareLayout fun dir => ⟨dir, rfl⟩
  refine wp_bind (wp_mono (wp_of_calls hlayout fun c ⟨dir, hc⟩ => hc ▸ hmkdir dir) ?_)
  rintro r s' rfl
  cases r with
  | error e => exact hfalse
  | ok u =>
    refine wp_bind ?_
    show wp _ (loadIndex env).prog _ _
    rw [loadIndex, format_bind]
    split_ifs
    case neg => exact hfalse
    refine wp_bind_fallible (wp_perform hread.1 fun r s'' hnext => ?_)
    obtain ⟨rfl, htext⟩ := hread.2 r s'' hnext
    cases r with
    | error e => exact hfalse
    | ok text =>
      refine wp_known ?_
      cases hparse : parseIndex env.cj env.pathMax text with
      | error e => exact hfalse
      | ok index =>
        show wp _ (installFrom env index name) _ _
        rw [installFrom]
        split
        · exact hfalse
        rename_i m hlatest
        split
        · exact hfalse
        obtain ⟨hm, hcompat⟩ := findLatest_mem hlatest
        have hname := name_of_compatible hcompat
        subst hname
        exact h m _ (parseIndex_spec hparse m hm).1 rfl ⟨text, index, htext text rfl, hparse, hlatest⟩

section

variable {allows : FileStore → Call → Prop} {allowed : Call → Outcome → Prop} {fs fs' : FileStore} {r : Reply}

theorem next_mkdir {dir : CStr} (h : (storeWorld allows allowed).next fs (.mkdir dir) r fs') : fs' = fs :=
  let ⟨_, _, hexec⟩ := h
  (Call.exec_mkdir hexec).1

theorem next_index (h : (storeWorld allows allowed).next fs (.read repoIndex) r fs') :
    fs' = fs ∧ ∀ text, r = .ok text → fs repoIndex = some text := by
  obtain ⟨o, -, hexec⟩ := h
  obtain ⟨rfl, ⟨text, rfl, htext⟩ | ⟨⟨e, rfl, -⟩, -⟩⟩ := Call.exec_read hexec
  · exact ⟨rfl, fun text' h => Except.ok.inj h ▸ htext⟩
  · exact ⟨rfl, nofun⟩

theorem wp_mkdir {α : Type} {p : Prog α} (h : p.Calls fun c => ∃ dir, c = .mkdir dir) :
    p.wp (storeWorld (fun _ _ => True) allowed) (fun _ fs' => fs' = fs) fs :=
  wp_of_calls h fun _ ⟨_, hc⟩ => ⟨trivial, fun _ _ hnext => next_mkdir (hc ▸ hnext)⟩

end

/-! ## Calls inside -/

/-- The call changes files inside only. -/
def Harmless (c : Call) : Prop := ∀ f ∈ c.changes, Inside f

theorem wp_install_inside (fs : FileStore) (hsized : Sized m) (h : ∀ f ∈ ownFiles m.name m, Inside f) (source : CStr) :
    (lockAndInstall env source m).wp (storeWorld (fun _ => Harmless) fun _ _ => True) (fun _ _ => True) fs := by
  have hacquire : Calls Harmless (acquireLock env m.name).prog :=
    calls_acquireLock (fun _ _ hf => (nomatch hf)) fun f hf => h f (mem_singleton.mp hf ▸ mem_cons_self)
  refine wp_bind (wp_mono (wp_returns (wp_true_of_calls hacquire fun _ _ hc => hc) (returns_acquireLock _)) ?_)
  intro r fs' hr
  cases r with
  | error e => trivial
  | ok lock =>
    rw [hr.2 lock rfl]
    exact wp_true_of_calls (calls_installLocked_changed hsized source) fun _ c hc f hf => inside_changed h (hc f hf)

/-! ## Calls of a run that succeeds -/

section

variable {f : CStr}

theorem needs_format_bind {β : Type} {path : CStr} {k : CStr → Fallible β} {P : Call → Prop} (h : Needs P (k path)) :
    Needs P (format env path >>= k) := by
  rw [format_bind]
  split_ifs
  · exact h
  · nofun

theorem needs_writeTextAtomic {path : CStr} (text : CStr) (hf : f = path ∨ f = tmpName path) :
    Needs (f ∈ ·.changes) (writeTextAtomic env path text) := by
  refine needs_format_bind ?_
  rcases hf with rfl | rfl
  · refine .after _ fun _ => .after _ fun _ => .after _ fun _ => .bind ?_ _
    exact .inl (mem_cons_of_mem _ mem_cons_self)
  · exact .inl mem_cons_self

theorem needs_copyFile (src dest : CStr) : Needs (dest ∈ ·.changes) (copyFile src dest) :=
  .after _ fun _ => .inl mem_cons_self

theorem needs_stage (name source : CStr)
    (hf : f ∈ [downloadPath m.name m.version, payloadPath m.name m.version m.artifact,
      manifestPath m.name m.version, tmpName (manifestPath m.name m.version)]) :
    Needs (f ∈ ·.changes) (stage env name source (downloadPath m.name m.version) m) := by
  rcases mem_cons.mp hf with rfl | hf
  · exact .bind (needs_copyFile _ _) _
  refine .after _ fun _ => .after _ fun _ => .after _ fun _ => .after _ fun _ => .after _ fun _ => needs_format_bind ?_
  rcases mem_cons.mp hf with rfl | hf
  · exact .bind (needs_copyFile _ _) _
  · exact .after _ fun _ => needs_format_bind (.bind (needs_writeTextAtomic _ (by simpa using hf)) _)

theorem needs_activate (name : CStr) (hf : f ∈ [currentPath m.name, tmpName (currentPath m.name), previousPath m.name,
      tmpName (previousPath m.name)]) : Needs (f ∈ ·.changes) (activate env name m) := by
  refine .after _ fun _ => .after _ fun _ => .after _ fun _ => .after _ fun db => .bind ?_ _
  rw [writePointers]
  split
  · exact Bool.false_ne_true
  refine needs_format_bind (needs_format_bind ?_)
  rcases mem_cons.mp hf with rfl | hf
  · exact .bind (needs_writeTextAtomic _ (.inl rfl)) _
  rcases mem_cons.mp hf with rfl | hf
  · exact .bind (needs_writeTextAtomic _ (.inr rfl)) _
  · exact .after _ fun _ => needs_writeTextAtomic _ (by simpa using hf)

theorem must_installLocked (source lock : CStr) (hf : f ∈ (ownFiles m.name m).tail) :
    (installLocked env m.name source lock m).Must (f ∈ ·.changes) (· = true) := by
  have hfail (p : Prog Unit) : (p >>= fun _ => (pure false : Prog Bool)).Must (f ∈ ·.changes) (· = true) :=
    .after p fun _ => Bool.false_ne_true
  rw [installLocked]
  rcases mem_append.mp (show f ∈ [txnPath m.name, tmpName (txnPath m.name)] ++ _ from hf) with hf | hf
  · exact Needs.run (needs_format_bind (needs_writeTextAtomic _ (by simpa using hf))) fun _ => hfail _
  refine .after _ fun r => ?_
  cases r with
  | error e => exact hfail _
  | ok u =>
    refine Needs.run (needs_format_bind ?_) fun _ => hfail _
    rcases mem_append.mp (show f ∈ [_, _, _, _] ++ [_, _, _, _] from hf) with hf | hf
    · exact .bind (needs_stage _ _ hf) _
    · exact .after _ fun _ => needs_activate _ hf

theorem must_install (source : CStr) (hf : f ∈ ownFiles m.name m) :
    (lockAndInstall env source m).Must (f ∈ ·.changes) (· = true) := by
  rcases mem_cons.mp hf with rfl | hf
  · have hlock : Needs (lockPath m.name ∈ ·.changes) (acquireLock env m.name) :=
      .after _ fun _ => needs_format_bind (Or.inl mem_cons_self)
    exact hlock.run fun _ => Bool.false_ne_true
  · refine .after _ fun r => ?_
    cases r with
    | ok lock => exact must_installLocked _ _ hf
    | error e => nofun

end

def sampleEnv : Env where
  cj := JsonText.reference
  sha256 := fun content => if content = "ELF".toList then sampleDigest else replicate 64 '0'
  rt := sampleRuntime
  pathMax := 256
  pathMax_ge := Nat.le_refl 256

/-- A store with an index of one package and its artifact. -/
def sampleStore (m : Manifest) : FileStore := fun f =>
  if f = repoIndex then some (JsonText.reference.print (.arr [manifestJson m]))
  else if f = "/etc/nxpkg/app.elf".toList then some "ELF".toList
  else none

end System.Nxpkg
