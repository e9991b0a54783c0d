-- SUMMARY: The package index and the database: reading, checking and writing them.
import FruitClawApps.Lib.Json
import FruitClawApps.System.Nxpkg.Version

/-!
# Metadata of packages

The index lists what can be installed, and `installed.json` what is installed. Both are JSON texts
with an array of packages, whose fields are copied to arrays of fixed sizes.
-/

namespace System.Nxpkg

open List

abbrev hashHexLen : Nat := 64

abbrev indexMax : Nat := 32

abbrev installedMax : Nat := 16

abbrev installedVersionsMax : Nat := 8

/-! ## Manifests -/

def isxdigit (c : Char) : Bool := (digitValue 16 c).isSome

/-- `pkg_validate_required`. -/
def validateRequired (value : CStr) : Bool := value.any (!isspace ·)

variable (db : List Entry) (m : Manifest) (item : Json) (cj : CJson)

/-- `pkg_manifest_validate`. -/
def manifestValidate : Bool :=
  validateRequired m.name && validateRequired m.version && validateRequired m.arch && validateRequired m.compat &&
    validateRequired m.artifact && validateRequired m.sha256 && m.sha256.length == hashHexLen && m.sha256.all isxdigit

/-- `pkg_manifest_type_str`. -/
def manifestTypeStr : PayloadType → CStr
  | .elf => "elf".toList
  | .sharedLib => "shared-lib".toList

/-- `pkg_manifest_parse_type`. -/
def manifestParseType (value : Option CStr) : Except Errno PayloadType :=
  match value with
  | none => .error .einval
  | some v =>
    if v = "elf".toList then .ok .elf
    else if v = "shared-lib".toList ∨ v = "shared_lib".toList ∨ v = "shared".toList then .ok .sharedLib
    else .error .einval

/-- `cJSON_GetStringValue` of a member. -/
def stringField (name : String) : Option CStr :=
  (item.getObjectItemCaseSensitive name.toList).bind Json.getStringValue

/-- `pkg_copy_string` and other uses of `snprintf` with `%s`. -/
def copyString (size : Nat) (src : CStr) : Except Errno CStr :=
  if src.length ≥ size then .error .enametoolong else .ok src

/-- A member that must be a string and fit its array. -/
def requiredField (name : String) (size : Nat) : Except Errno CStr :=
  match stringField item name with
  | none => .error .einval
  | some v => if v.length ≥ size then .error .einval else .ok v

/-- `pkg_metadata_parse_manifest`, with the value of `PATH_MAX`. -/
def parseManifest (pathMax : Nat) (item : Json) : Except Errno Manifest := do
  let name ← requiredField item "name" (nameMax + 1)
  let version ← requiredField item "version" (versionMax + 1)
  let arch ← requiredField item "arch" (archMax + 1)
  let compat ← requiredField item "compat" (compatMax + 1)
  let artifact ← requiredField item "artifact" pathMax
  let sha256 ← requiredField item "sha256" (hashHexLen + 1)
  let type ← manifestParseType (stringField item "type")
  let m : Manifest := ⟨name, version, arch, compat, artifact, sha256, type⟩
  if manifestValidate m then .ok m else .error .einval

/-- `pkg_metadata_packages_array`. -/
def packagesArray (root : Json) : Option Json :=
  if root.isArray then some root else root.getObjectItemCaseSensitive "packages".toList

/-- The loop over an array, for at most a number of items. -/
def parseItems {α : Type} (parse : Json → Except Errno α) : Nat → List Json → Except Errno (List α)
  | _, [] => .ok []
  | 0, _ :: _ => .error .e2big
  | room + 1, item :: items => do
    let a ← parse item
    let rest ← parseItems parse room items
    .ok (a :: rest)

/-- What `pkg_metadata_load_index` and `pkg_metadata_load_installed` do with a text. -/
def parsePackages {α : Type} (parse : Json → Except Errno α) (room : Nat) (text : CStr) :
    Except Errno (List α) :=
  match (cj.parse text).bind packagesArray with
  | some (.arr items) => parseItems parse room items
  | _ => .error .einval

/-- `pkg_metadata_load_index`, with the text of the file. -/
def parseIndex (pathMax : Nat) (text : CStr) : Except Errno (List Manifest) :=
  parsePackages cj (parseManifest pathMax) indexMax text

/-- `pkg_metadata_manifest_to_json`. -/
def manifestJson : Json :=
  .obj [("name".toList, .str m.name), ("version".toList, .str m.version), ("arch".toList, .str m.arch),
    ("compat".toList, .str m.compat), ("artifact".toList, .str m.artifact), ("sha256".toList, .str m.sha256),
    ("type".toList, .str (manifestTypeStr m.type))]

/-! ## The database -/

/-- `struct pkg_installed_entry_s`. -/
structure Entry where
  name : CStr
  current : CStr
  previous : CStr
  arch : CStr
  compat : CStr
  versions : List CStr
  type : PayloadType
deriving DecidableEq

/-- `pkg_metadata_parse_versions`. -/
def parseVersions (versions : Option Json) : Except Errno (List CStr) :=
  match versions with
  | some (.arr items) =>
    parseItems
      (fun item => match item.getStringValue with
        | none => .error .einval
        | some v => copyString (versionMax + 1) v)
      installedVersionsMax items
  | _ => .error .einval

/-- `pkg_metadata_parse_installed_entry`. -/
def parseInstalledEntry : Except Errno Entry := do
  let name ← requiredField item "name" (nameMax + 1)
  let current ← requiredField item "current" (versionMax + 1)
  let previous ←
    match stringField item "previous" with
    | none => .ok []
    | some v => copyString (versionMax + 1) v
  let arch ← requiredField item "arch" (archMax + 1)
  let compat ← requiredField item "compat" (compatMax + 1)
  let type ← manifestParseType (stringField item "type")
  let versions ← parseVersions (item.getObjectItemCaseSensitive "versions".toList)
  .ok ⟨name, current, previous, arch, compat, versions, type⟩

/-- `pkg_metadata_load_installed`, with the text of the file. -/
def parseInstalled (text : CStr) : Except Errno (List Entry) :=
  parsePackages cj parseInstalledEntry installedMax text

def entryJson (e : Entry) : Json :=
  .obj [("versions".toList, .arr (e.versions.map .str)), ("name".toList, .str e.name),
    ("current".toList, .str e.current), ("previous".toList, .str e.previous), ("arch".toList, .str e.arch),
    ("compat".toList, .str e.compat), ("type".toList, .str (manifestTypeStr e.type))]

/-- The document that `pkg_metadata_save_installed` prints. -/
def installedJson : Json := .obj [("packages".toList, .arr (db.map entryJson))]

/-- The test of `pkg_metadata_find_installed`. -/
def isEntryOf (name : CStr) (e : Entry) : Bool := stringEqual e.name (nameMax + 1) name (nameMax + 1)

/-- `pkg_metadata_find_installed`. -/
def findInstalled (name : CStr) : Option Entry := db.find? (isEntryOf name)

/-- `pkg_install_add_version`. -/
def addVersion (versions : List CStr) (version : CStr) : Except Errno (List CStr) :=
  if version ∈ versions then .ok versions
  else if versions.length ≥ installedVersionsMax then .error .e2big
  else do
    let v ← copyString (versionMax + 1) version
    .ok (versions ++ [v])

/-- The new field `previous` of an entry. -/
def copyPrevious (e : Entry) (version : CStr) : Except Errno CStr :=
  if e.current ≠ [] ∧ e.current ≠ version then copyString (versionMax + 1) e.current else .ok e.previous

/-- What `pkg_install_update_installed` does to the entry of the package. -/
def updateEntry (e : Entry) (m : Manifest) : Except Errno Entry := do
  let previous ← copyPrevious e m.version
  let current ← copyString (versionMax + 1) m.version
  let arch ← copyString (archMax + 1) m.arch
  let compat ← copyString (compatMax + 1) m.compat
  let versions ← addVersion e.versions m.version
  .ok { e with current, previous, arch, compat, versions, type := m.type }

/-- The search of `pkg_install_update_installed` in the rest of the database, which has room for
this many entries. -/
def updateFrom (m : Manifest) : Nat → List Entry → Except Errno (List Entry)
  | 0, [] => .error .e2big
  | _ + 1, [] => do
    let name ← copyString (nameMax + 1) m.name
    let e ← updateEntry ⟨name, [], [], [], [], [], .elf⟩ m
    .ok [e]
  | room, e :: es =>
    if isEntryOf m.name e then do
      let e ← updateEntry e m
      .ok (e :: es)
    else do
      let es ← updateFrom m (room - 1) es
      .ok (e :: es)

/-- `pkg_install_update_installed`. -/
def updateInstalled : Except Errno (List Entry) := updateFrom m installedMax db

/-! ## What is written can be read -/

/-- The entry fits its arrays. -/
structure Entry.Bounded (e : Entry) : Prop where
  name : e.name.length < nameMax + 1
  current : e.current.length < versionMax + 1
  previous : e.previous.length < versionMax + 1
  arch : e.arch.length < archMax + 1
  compat : e.compat.length < compatMax + 1
  versions : e.versions.length ≤ installedVersionsMax
  version : ∀ v ∈ e.versions, v.length < versionMax + 1

theorem manifestParseType_str (type : PayloadType) : manifestParseType (some (manifestTypeStr type)) = .ok type := by
  cases type <;> rfl

variable {size : Nat} {e : Entry} {db : List Entry} {m : Manifest} {name : CStr}

theorem copyString_ok {s : CStr} (h : s.length < size) : copyString size s = .ok s :=
  if_neg (Nat.not_le.mpr h)

theorem copyString_eq_ok_iff {s t : CStr} : copyString size s = .ok t ↔ s.length < size ∧ t = s := by
  rw [copyString]
  split_ifs with h
  · exact ⟨nofun, fun hc => absurd hc.1 (Nat.not_lt.mpr h)⟩
  · exact ⟨fun hc => ⟨Nat.lt_of_not_le h, (Except.ok.inj hc).symm⟩, fun hc => congrArg Except.ok hc.2.symm⟩

theorem parseItems_map {α : Type} {parse : Json → Except Errno α} {toJson : α → Json} {room : Nat} {xs : List α}
    (hroom : xs.length ≤ room) (h : ∀ x ∈ xs, parse (toJson x) = .ok x) :
    parseItems parse room (xs.map toJson) = .ok xs := by
  induction xs generalizing room with
  | nil => rw [map_nil, parseItems]
  | cons x xs ih =>
    cases room with
    | zero => exact absurd hroom (Nat.not_succ_le_zero _)
    | succ room =>
      obtain ⟨hx, hrest⟩ := forall_mem_cons.mp h
      rw [map_cons, parseItems, hx]
      have htail := ih (Nat.le_of_succ_le_succ hroom) hrest
      rw [htail]
      rfl

theorem requiredField_ok {item : Json} {name : String} {v : CStr} (hfield : stringField item name = some v)
    (h : v.length < size) : requiredField item name size = .ok v := by
  rw [requiredField, hfield]
  exact if_neg (Nat.not_le.mpr h)

theorem parseInstalledEntry_json (h : e.Bounded) : parseInstalledEntry (entryJson e) = .ok e := by
  have hname : requiredField (entryJson e) "name" (nameMax + 1) = .ok e.name := requiredField_ok rfl h.name
  have hcurrent : requiredField (entryJson e) "current" (versionMax + 1) = .ok e.current :=
    requiredField_ok rfl h.current
  have hprevious : stringField (entryJson e) "previous" = some e.previous := rfl
  have harch : requiredField (entryJson e) "arch" (archMax + 1) = .ok e.arch := requiredField_ok rfl h.arch
  have hcompat : requiredField (entryJson e) "compat" (compatMax + 1) = .ok e.compat := requiredField_ok rfl h.compat
  have htype : stringField (entryJson e) "type" = some (manifestTypeStr e.type) := rfl
  have hmember : (entryJson e).getObjectItemCaseSensitive "versions".toList = some (.arr (e.versions.map .str)) := rfl
  have hversions : parseVersions (some (.arr (e.versions.map .str))) = .ok e.versions :=
    parseItems_map h.versions fun v hv => copyString_ok (h.version v hv)
  rw [parseInstalledEntry, hname, hcurrent, hprevious, harch, hcompat, htype, hmember, hversions,
    manifestParseType_str]
  simp only [copyString_ok h.previous]
  rfl

/-- The database fits its array. -/
structure BoundedDb (db : List Entry) : Prop where
  length : db.length ≤ installedMax
  entry : ∀ e ∈ db, e.Bounded

theorem entryJson_whole (e : Entry) : (entryJson e).Whole := by
  refine ⟨Json.wholeItems_of_forall fun j hj => ?_, trivial, trivial, trivial, trivial, trivial, trivial, trivial⟩
  obtain ⟨v, -, rfl⟩ := mem_map.mp hj
  trivial

theorem installedJson_whole (db : List Entry) : (installedJson db).Whole := by
  refine ⟨Json.wholeItems_of_forall fun j hj => ?_, trivial⟩
  obtain ⟨e, -, rfl⟩ := mem_map.mp hj
  exact entryJson_whole e

/-- A database that was saved is loaded as it was. -/
theorem parseInstalled_print (cj : CJson) (h : BoundedDb db) :
    parseInstalled cj (cj.print (installedJson db)) = .ok db := by
  have hpackages : packagesArray (installedJson db) = some (.arr (db.map entryJson)) := rfl
  rw [parseInstalled, parsePackages, cj.parse_print _ (installedJson_whole db), Option.bind_some, hpackages]
  exact parseItems_map h.length fun e he => parseInstalledEntry_json (h.entry e he)

/-! ## What an update does -/

/-- The package is listed with the version. -/
def Listed (db : List Entry) (name version : CStr) : Prop := ∃ e ∈ db, e.name = name ∧ version ∈ e.versions

theorem addVersion_spec {versions versions' : List CStr} {v : CStr} (h : addVersion versions v = .ok versions') :
    v ∈ versions' ∧ versions ⊆ versions' ∧
      (versions.length ≤ installedVersionsMax → versions'.length ≤ installedVersionsMax) ∧
      ∀ w ∈ versions', w ∈ versions ∨ w = v ∧ v.length < versionMax + 1 := by
  rw [addVersion] at h
  split_ifs at h with hmem hfull
  · cases h
    exact ⟨hmem, List.Subset.refl _, id, fun w hw => .inl hw⟩
  obtain ⟨v', hcopy, hres⟩ := Except.bind_eq_ok_iff.mp h
  obtain ⟨hlen, rfl⟩ := copyString_eq_ok_iff.mp hcopy
  cases hres
  refine ⟨mem_append_right _ (mem_singleton_self _), subset_append_left _ _, fun _ => ?_, fun w hw => ?_⟩
  · rw [length_append, length_singleton]
    omega
  rcases mem_append.mp hw with hw | hw
  · exact .inl hw
  · exact .inr ⟨mem_singleton.mp hw, hlen⟩

/-- The previous version after the version has become the current one. -/
def Entry.previousFor (e : Entry) (version : CStr) : CStr :=
  if e.current ≠ [] ∧ e.current ≠ version then e.current else e.previous

theorem copyPrevious_spec {version previous : CStr} (h : copyPrevious e version = .ok previous) :
    previous = e.previousFor version ∧ (e.Bounded → previous.length < versionMax + 1) := by
  rw [copyPrevious] at h
  rw [Entry.previousFor]
  split_ifs at h ⊢
  · obtain ⟨hlen, rfl⟩ := copyString_eq_ok_iff.mp h
    exact ⟨rfl, fun _ => hlen⟩
  · cases h
    exact ⟨rfl, fun hb => hb.previous⟩

theorem updateEntry_spec {e' : Entry} (h : updateEntry e m = .ok e') :
    e'.name = e.name ∧ e'.current = m.version ∧ e'.previous = e.previousFor m.version ∧
      m.version ∈ e'.versions ∧ e.versions ⊆ e'.versions ∧ (e.Bounded → e'.Bounded) := by
  obtain ⟨previous, hprevious, h⟩ := Except.bind_eq_ok_iff.mp h
  obtain ⟨current, hcurrent, h⟩ := Except.bind_eq_ok_iff.mp h
  obtain ⟨arch, harch, h⟩ := Except.bind_eq_ok_iff.mp h
  obtain ⟨compat, hcompat, h⟩ := Except.bind_eq_ok_iff.mp h
  obtain ⟨versions, hversions, h⟩ := Except.bind_eq_ok_iff.mp h
  obtain ⟨rfl, hpreviousLen⟩ := copyPrevious_spec hprevious
  obtain ⟨hcurrentLen, rfl⟩ := copyString_eq_ok_iff.mp hcurrent
  obtain ⟨harchLen, rfl⟩ := copyString_eq_ok_iff.mp harch
  obtain ⟨hcompatLen, rfl⟩ := copyString_eq_ok_iff.mp hcompat
  obtain ⟨hmem, hsub, hcount, hfrom⟩ := addVersion_spec hversions
  cases h
  refine ⟨rfl, rfl, rfl, hmem, hsub, fun hb => ?_⟩
  exact ⟨hb.name, hcurrentLen, hpreviousLen hb, harchLen, hcompatLen, hcount hb.versions,
    fun v hv => (hfrom v hv).elim (hb.version v) fun hv => hv.1 ▸ hv.2⟩

theorem bounded_new (h : name.length < nameMax + 1) : (⟨name, [], [], [], [], [], .elf⟩ : Entry).Bounded :=
  ⟨h, Nat.succ_pos _, Nat.succ_pos _, Nat.succ_pos _, Nat.succ_pos _, Nat.zero_le _, nofun⟩

/-- What an update leaves of the database, from a place on. -/
structure Updated (m : Manifest) (db db' : List Entry) : Prop where
  /-- The entry of the package. -/
  entry : ∃ e old, findInstalled db' m.name = some e ∧
    (findInstalled db m.name).getD ⟨m.name, [], [], [], [], [], .elf⟩ = old ∧
    e.current = m.version ∧ e.previous = old.previousFor m.version
  listed : Listed db' m.name m.version
  keeps : ∀ name version, Listed db name version → Listed db' name version
  others : ∀ name, name ≠ m.name → findInstalled db' name = findInstalled db name

theorem isEntryOf_iff : isEntryOf name e = true ↔ e.name = name ∧ name.length < nameMax + 1 := by
  rw [isEntryOf, stringEqual, decide_eq_true_eq]
  constructor
  · rintro ⟨-, h, heq⟩
    exact ⟨heq, h⟩
  · rintro ⟨heq, h⟩
    exact ⟨heq ▸ h, h, heq⟩

theorem findInstalled_cons_pos (h : isEntryOf name e = true) (es : List Entry) :
    findInstalled (e :: es) name = some e :=
  find?_cons_of_pos h

theorem findInstalled_cons_neg (h : ¬ isEntryOf name e = true) (es : List Entry) :
    findInstalled (e :: es) name = findInstalled es name :=
  find?_cons_of_neg h

theorem Listed.cons {version : CStr} (e : Entry) (h : Listed db name version) : Listed (e :: db) name version := by
  obtain ⟨e', he', hrest⟩ := h
  exact ⟨e', mem_cons_of_mem e he', hrest⟩

theorem updateFrom_spec {room : Nat} {db' : List Entry} (h : updateFrom m room db = .ok db') : Updated m db db' ∧
      ((∀ e ∈ db, e.Bounded) → db.length ≤ room → db'.length ≤ room ∧ ∀ e ∈ db', e.Bounded) := by
  induction db generalizing room db' with
  | nil =>
    cases room with
    | zero =>
      cases h
    | succ room =>
      obtain ⟨name, hname, h⟩ := Except.bind_eq_ok_iff.mp h
      obtain ⟨hlen, rfl⟩ := copyString_eq_ok_iff.mp hname
      obtain ⟨e, he, h⟩ := Except.bind_eq_ok_iff.mp h
      obtain ⟨heq, hcurrent, hprevious, hmem, -, hbounded⟩ := updateEntry_spec he
      cases h
      have hof : isEntryOf m.name e = true := isEntryOf_iff.mpr ⟨heq, hlen⟩
      refine ⟨⟨⟨e, _, findInstalled_cons_pos hof [], rfl, hcurrent, hprevious⟩,
        ⟨e, mem_singleton_self e, heq, hmem⟩, fun _ _ hl => ?_, fun name hne => ?_⟩, fun _ _ => ?_⟩
      · obtain ⟨_, hin, -⟩ := hl
        cases hin
      · exact findInstalled_cons_neg (fun hc => hne ((isEntryOf_iff.mp hc).1.symm.trans heq)) []
      refine ⟨Nat.succ_le_succ (Nat.zero_le _), fun e' he' => ?_⟩
      rw [mem_singleton.mp he']
      exact hbounded (bounded_new hlen)
  | cons e es ih =>
    rw [updateFrom] at h
    split_ifs at h with hof
    · obtain ⟨e', he', h⟩ := Except.bind_eq_ok_iff.mp h
      obtain ⟨heq, hcurrent, hprevious, hmem, hsub, hbounded⟩ := updateEntry_spec he'
      cases h
      have hname := isEntryOf_iff.mp hof
      have hof' : isEntryOf m.name e' = true := isEntryOf_iff.mpr ⟨heq.trans hname.1, hname.2⟩
      refine ⟨⟨⟨e', e, findInstalled_cons_pos hof' es, ?_, hcurrent, hprevious⟩,
        ⟨e', mem_cons_self, heq.trans hname.1, hmem⟩, fun name version hl => ?_, fun name hne => ?_⟩,
        fun hb hlen => ⟨hlen, ?_⟩⟩
      · rw [findInstalled_cons_pos hof]
        rfl
      · obtain ⟨x, hx, hxname, hxversion⟩ := hl
        rcases mem_cons.mp hx with rfl | hx
        · exact ⟨e', mem_cons_self, heq.trans hxname, hsub hxversion⟩
        · exact ⟨x, mem_cons_of_mem _ hx, hxname, hxversion⟩
      · rw [findInstalled_cons_neg fun hc => hne ((isEntryOf_iff.mp hc).1.symm.trans (heq.trans hname.1)),
          findInstalled_cons_neg fun hc => hne ((isEntryOf_iff.mp hc).1.symm.trans hname.1)]
      · obtain ⟨hbe, hbes⟩ := forall_mem_cons.mp hb
        exact forall_mem_cons.mpr ⟨hbounded hbe, hbes⟩
    obtain ⟨es', hes', h⟩ := Except.bind_eq_ok_iff.mp h
    obtain ⟨⟨⟨e₁, old, hfind, hold, hcur⟩, hlisted, hkeeps, hothers⟩, hrest⟩ := ih hes'
    cases h
    refine ⟨⟨⟨e₁, old, ?_, ?_, hcur⟩, hlisted.cons e, fun name version hl => ?_, fun name hne => ?_⟩,
      fun hb hlen => ?_⟩
    · rw [findInstalled_cons_neg hof, hfind]
    · rw [findInstalled_cons_neg hof, hold]
    · obtain ⟨x, hx, hxrest⟩ := hl
      rcases mem_cons.mp hx with rfl | hx
      · exact ⟨x, mem_cons_self, hxrest⟩
      · exact (hkeeps name version ⟨x, hx, hxrest⟩).cons e
    · by_cases hc : isEntryOf name e = true
      · rw [findInstalled_cons_pos hc, findInstalled_cons_pos hc]
      · rw [findInstalled_cons_neg hc, findInstalled_cons_neg hc, hothers name hne]
    · obtain ⟨hbe, hbes⟩ := forall_mem_cons.mp hb
      rw [length_cons] at hlen
      obtain ⟨hlen', hbes'⟩ := hrest hbes (by omega)
      refine ⟨?_, forall_mem_cons.mpr ⟨hbe, hbes'⟩⟩
      rw [length_cons]
      omega

theorem updateInstalled_spec {db' : List Entry} (h : updateInstalled db m = .ok db') :
    Updated m db db' ∧ (BoundedDb db → BoundedDb db') := by
  obtain ⟨hupdated, hbounded⟩ := updateFrom_spec h
  exact ⟨hupdated, fun hb => ⟨(hbounded hb.entry hb.length).1, (hbounded hb.entry hb.length).2⟩⟩

end System.Nxpkg
