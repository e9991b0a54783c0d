-- SUMMARY: Settings and their file: which values survive calls, syncs and delayed dumps.
import FruitClawApps.System.Settings.Create

/-!
# Synchronising settings with their file

With cached saves, `save` only starts a timer, and `dump_cache` writes the file when it fires.
`settings_sync` loads the file also while a save is pending, and then the old value is back. Files
of text and of binary records differ only in the entries that they have.
-/

namespace System.Settings

open Transition List

variable {F : Type} {ops : FloatOps F} {cfg : Config} {k key : CStr} {m m' : Map F} {entries : List (CStr × Load F)}
  {a : Load F} {v arg : Value F}

/-! ## Loading entries -/

def assignAll (entries : List (CStr × Load F)) (m : Map F) : Map F := entries.foldl (fun m e => assign e.1 e.2 m) m

/-- No entry makes a slot free. -/
def Typed (entries : List (CStr × Load F)) : Prop := ∀ e ∈ entries, ∀ v, e.2 = .set v → v.type ≠ .empty

/-- What the entries make of the value of a key that has a slot. -/
def outcome (k : CStr) (entries : List (CStr × Load F)) (old : Option (Value F)) : Option (Value F) :=
  entries.foldl (fun old e => if e.1 = k then e.2.result old else old) old

theorem outcome_cases (k : CStr) (entries : List (CStr × Load F)) :
    (∀ old, outcome k entries old = old) ∨ ∃ v, ∀ old, outcome k entries old = some v := by
  induction entries with
  | nil => exact .inl fun _ => rfl
  | cons e entries ih =>
    have hcons (old : Option (Value F)) :
        outcome k (e :: entries) old = outcome k entries (if e.1 = k then e.2.result old else old) := rfl
    rcases ih with hid | ⟨v, hv⟩
    · by_cases hk : e.1 = k
      · cases ha : e.2 with
        | set v => exact .inr ⟨v, fun old => by rw [hcons, hid, if_pos hk, ha, Load.result]⟩
        | keep => exact .inl fun old => by rw [hcons, hid, if_pos hk, ha]; rfl
        | skip => exact .inl fun old => by rw [hcons, hid, if_pos hk, ha]; rfl
      · exact .inl fun old => by rw [hcons, hid, if_neg hk]
    · exact .inr ⟨v, fun old => by rw [hcons, hv]⟩

theorem outcome_outcome (k : CStr) (entries : List (CStr × Load F)) (old : Option (Value F)) :
    outcome k entries (outcome k entries old) = outcome k entries old := by
  rcases outcome_cases k entries with hid | ⟨v, hv⟩
  · rw [hid]
  · rw [hv, hv]

theorem outcome_eq_self {old : Option (Value F)} (h : ∀ e ∈ entries, e.1 = k → e.2.result old = old) :
    outcome k entries old = old := by
  induction entries with
  | nil => rfl
  | cons e entries ih =>
    obtain ⟨he, hrest⟩ := forall_mem_cons.mp h
    have hhead : (if e.1 = k then e.2.result old else old) = old := by
      split_ifs with hk
      · exact he hk
      · rfl
    rw [outcome, foldl_cons, hhead]
    exact ih hrest

/-- No slot is free. -/
def Full (m : Map F) : Prop := ∀ s ∈ m, ¬ s.Free

theorem Puts.full {new : Value F → Prop} {m' : Map F} (h : Puts key new m m') (hm : Full m)
    (hnew : ∀ v, new v → v.type ≠ .empty) : Full m' := by
  induction h with
  | same m => exact hm
  | set m hslot hv => exact forall_mem_cons.mpr ⟨hnew _ hv, (forall_mem_cons.mp hm).2⟩
  | free m hs hs' => exact absurd hs (forall_mem_cons.mp hm).1
  | behind hkey hs _ ih => exact forall_mem_cons.mpr ⟨hs, ih (forall_mem_cons.mp hm).2⟩

theorem assign_of_not_hasRoom (a : Load F) (h : ¬ HasRoom key m) : assign key a m = m := by
  induction m with
  | nil => rfl
  | cons s m ih =>
    have hs : ¬ (s.key = key ∨ s.Free) := fun hslot => h ⟨s, mem_cons_self, hslot⟩
    have hm : ¬ HasRoom key m := by
      rintro ⟨t, ht, hslot⟩
      exact h ⟨t, mem_cons_of_mem s ht, hslot⟩
    rw [assign, if_neg hs, ih hm]

theorem full_of_not_hasRoom (h : ¬ HasRoom key m) : Full m := fun s hs hfree => h ⟨s, hs, .inr hfree⟩

theorem lookup_of_not_hasRoom (h : ¬ HasRoom key m) : lookup key m = none := by
  by_contra hsome
  exact h (hasRoom_of_lookup (Option.isSome_iff_ne_none.mpr hsome))

theorem not_hasRoom_of_full (h : Full m) (hnone : lookup k m = none) : ¬ HasRoom k m := by
  rintro ⟨s, hs, hkey | hfree⟩
  · have hused : usedSlots m = m := takeWhile_eq_self_iff.mpr fun t ht => decide_eq_true (h t ht)
    rw [lookup_eq_find, hused, Option.map_eq_none_iff, find?_eq_none] at hnone
    exact hnone s hs (decide_eq_true hkey)
  · exact h s hs hfree

theorem lookup_assignAll_of_full (hm : Ordered m) (he : Typed entries) (hfull : Full m) (hnone : lookup k m = none) :
    lookup k (assignAll entries m) = none ∧ Full (assignAll entries m) := by
  induction entries generalizing m with
  | nil => exact ⟨hnone, hfull⟩
  | cons e entries ih =>
    obtain ⟨ha, hrest⟩ := forall_mem_cons.mp he
    have hnext : lookup k (assign e.1 e.2 m) = none := by
      by_cases hroom : HasRoom e.1 m
      · have hk : e.1 ≠ k := fun hk => not_hasRoom_of_full hfull hnone (hk ▸ hroom)
        rw [lookup_assign hm ha hroom, if_neg hk, hnone]
      · rw [assign_of_not_hasRoom e.2 hroom, hnone]
    exact ih (puts_assign.ordered hm ha) hrest (puts_assign.full hfull ha) hnext

theorem lookup_eq_none_of_result {old : Option (Value F)} (h : a.result old = none) : old = none := by
  cases a with
  | set v => cases h
  | keep | skip => exact h

/-- A key has what the entries make of its value, unless there was no slot for it. -/
theorem lookup_assignAll (k : CStr) (hm : Ordered m) (he : Typed entries) :
    lookup k (assignAll entries m) = outcome k entries (lookup k m) ∨
      lookup k m = none ∧ lookup k (assignAll entries m) = none ∧ Full (assignAll entries m) := by
  induction entries generalizing m with
  | nil => exact .inl rfl
  | cons e entries ih =>
    obtain ⟨ha, hrest⟩ := forall_mem_cons.mp he
    have hcons : assignAll (e :: entries) m = assignAll entries (assign e.1 e.2 m) := rfl
    have houtcome : outcome k (e :: entries) (lookup k m) =
        outcome k entries (if e.1 = k then e.2.result (lookup k m) else lookup k m) := rfl
    rw [hcons, houtcome]
    by_cases hroom : HasRoom e.1 m
    · have hlookup : lookup k (assign e.1 e.2 m) = if e.1 = k then e.2.result (lookup k m) else lookup k m := by
        rw [lookup_assign hm ha hroom]
        split_ifs with hk
        · rw [hk]
        · rfl
      rcases ih (puts_assign.ordered hm ha) hrest with hleft | ⟨hnone, hright⟩
      · exact .inl (by rw [hleft, hlookup])
      refine .inr ⟨?_, hright⟩
      rw [hlookup] at hnone
      split_ifs at hnone with hk
      · exact lookup_eq_none_of_result hnone
      · exact hnone
    · rw [assign_of_not_hasRoom e.2 hroom]
      by_cases hk : e.1 = k
      · have hnone : lookup k m = none := hk ▸ lookup_of_not_hasRoom hroom
        exact .inr ⟨hnone, lookup_assignAll_of_full hm hrest (full_of_not_hasRoom hroom) hnone⟩
      · rw [if_neg hk]
        exact ih hm hrest

theorem ordered_assignAll (hm : Ordered m) (he : Typed entries) : Ordered (assignAll entries m) := by
  induction entries generalizing m with
  | nil => exact hm
  | cons e entries ih =>
    obtain ⟨ha, hrest⟩ := forall_mem_cons.mp he
    exact ih (puts_assign.ordered hm ha) hrest

/-- Loading the entries does not change what is found. -/
def Agrees (entries : List (CStr × Load F)) (m : Map F) : Prop :=
  ∀ k, outcome k entries (lookup k m) = lookup k m ∨ lookup k m = none ∧ Full m

theorem Agrees.lookup_assignAll (h : Agrees entries m) (hm : Ordered m) (he : Typed entries) (k : CStr) :
    lookup k (assignAll entries m) = lookup k m := by
  rcases Settings.lookup_assignAll k hm he with heq | ⟨hnone, hnone', -⟩
  · rcases h k with hsame | ⟨hnone, hfull⟩
    · rw [heq, hsame]
    · rw [(lookup_assignAll_of_full hm he hfull hnone).1, hnone]
  · rw [hnone', hnone]

/-- Entries that have been loaded can be loaded again. -/
theorem agrees_assignAll (hm : Ordered m) (he : Typed entries) : Agrees entries (assignAll entries m) := fun k => by
  rcases lookup_assignAll k hm he with heq | ⟨-, hright⟩
  · exact .inl (by rw [heq, outcome_outcome])
  · exact .inr hright

theorem Agrees.congr (h : Agrees entries m) (hlookup : ∀ k, lookup k m' = lookup k m) (hfull : Full m → Full m') :
    Agrees entries m' := fun k => by
  rw [hlookup]
  exact (h k).imp_right (And.imp_right hfull)

theorem agrees_usedSlots (hm : Ordered m) : Agrees ((usedSlots m).map fun s => (s.key, .set s.value)) m := fun k => by
  refine .inl (outcome_eq_self fun e he hk => ?_)
  obtain ⟨s, hs, rfl⟩ := mem_map.mp he
  rw [← hk, lookup_eq_find, find_of_mem_usedSlots hm hs]
  rfl

/-! ## Storages -/

/-- A string that does not fit its field. -/
def Value.overlong (cfg : Config) : Value F → Bool
  | .string s => s.length ≥ cfg.valueSize
  | _ => false

/-- What fits the fields of a slot. -/
def Bounded (cfg : Config) (key : CStr) (v : Value F) : Prop :=
  key.length < cfg.keySize ∧ v.type ≠ .empty ∧ v.overlong cfg = false

/-- The used slots of the map hold what fits them. -/
def AllBounded (cfg : Config) (m : Map F) : Prop := ∀ s ∈ m, ¬ s.Free → Bounded cfg s.key s.value

/-- The pair of a load and a save function, by the entries of what they read and write. -/
structure Storage (F : Type) (cfg : Config) where
  File : Type
  entries : File → List (CStr × Load F)
  save : Map F → File
  /-- The maps that come back from their files. -/
  Legible : Map F → Prop
  bounded_entries : ∀ f, ∀ e ∈ entries f, ∀ v, e.2 = .set v → Bounded cfg e.1 v
  entries_save : ∀ m, AllBounded cfg m → Legible m →
    entries (save m) = (usedSlots m).map fun s => (s.key, .set s.value)

theorem bounded_of_parseLine {line : CStr} (h : parseLine ops cfg line = some (key, a)) (hv : a = .set v) :
    Bounded cfg key v := by
  rw [parseLine] at h
  split at h
  · cases h
  split_ifs at h with hkey
  cases h
  refine ⟨by omega, type_of_loadValue hv, ?_⟩
  cases v with
  | string str =>
    rw [loadValue] at hv
    split_ifs at hv with _ _ _ hlen
    · cases hv
    · cases hv
    · cases hv
      exact decide_eq_false hlen
    · split at hv <;> cases hv
    · cases hv
    · split at hv <;> cases hv
  | _ => rfl

/-- `load_text` and `save_text`. -/
def textStorage (ops : FloatOps F) (cfg : Config) : Storage F cfg where
  File := List Char
  entries text := (fgetsLines (bufferSize - 1) text).filterMap (parseLine ops cfg)
  save := saveText ops
  Legible m := ∀ s ∈ usedSlots m, WellFormed cfg s ∧ Readable ops s.value ∧ Fits ops s
  bounded_entries text e he v hv := by
    obtain ⟨line, -, hparse⟩ := mem_filterMap.mp he
    exact bounded_of_parseLine hparse hv
  entries_save m _ h := by
    have hlines := fgetsLines_saveText fun s hs => by
      obtain ⟨hwf, hread, hfits⟩ := h s hs
      exact ⟨hwf, (loadValue_of_readable hwf hread).1, hfits⟩
    rw [hlines, filterMap_map, ← filterMap_eq_map]
    refine filterMap_congr fun s hs => ?_
    obtain ⟨hwf, hread, -⟩ := h s hs
    obtain ⟨hclean, hload⟩ := loadValue_of_readable hwf hread
    rw [Function.comp_apply, Function.comp_apply, parseLine_line hwf hclean, hload]

/-- One turn of the second loop of `load_bin`. -/
def loadRecord (cfg : Config) (s : Slot F) : Option (CStr × Load F) :=
  if s.key.length ≥ cfg.keySize ∨ s.value.overlong cfg then none else some (s.key, .set s.value)

/-- `load_bin` and `save_bin`, by the records of the file. -/
def binStorage (cfg : Config) : Storage F cfg where
  File := { records : List (Slot F) // ∀ s ∈ records, ¬ s.Free }
  entries file := file.1.filterMap (loadRecord cfg)
  save m := ⟨usedSlots m, fun _ hs => (mem_of_mem_usedSlots hs).2⟩
  Legible _ := True
  bounded_entries file e he v hv := by
    obtain ⟨s, hs, hrecord⟩ := mem_filterMap.mp he
    rw [loadRecord] at hrecord
    split_ifs at hrecord with hskip
    cases hrecord
    cases hv
    rw [not_or, Bool.not_eq_true] at hskip
    exact ⟨Nat.lt_of_not_le hskip.1, file.2 s hs, hskip.2⟩
  entries_save m hm _ := by
    rw [← filterMap_eq_map]
    refine filterMap_congr fun s hs => ?_
    obtain ⟨hin, hused⟩ := mem_of_mem_usedSlots hs
    obtain ⟨hkey, -, hstring⟩ := hm s hin hused
    have hno : ¬ (s.key.length ≥ cfg.keySize ∨ s.value.overlong cfg = true) :=
      not_or.mpr ⟨by omega, by rw [hstring]; exact Bool.false_ne_true⟩
    rw [loadRecord, if_neg hno, Function.comp_apply]

theorem typed_entries (S : Storage F cfg) (f : S.File) : Typed (S.entries f) :=
  fun e he v hv => (S.bounded_entries f e he v hv).2.1

/-! ## The system -/

/-- `g_settings` and the map, with one storage. -/
structure State (S : Storage F cfg) where
  map : Map F
  hash : UInt32
  wrpend : Bool
  /-- Nothing if there is no file that can be loaded. -/
  file : Option S.File

/-- What can happen. The number is what `hash_calc` returns: it depends on all bytes of the map,
also on those that are left over from earlier keys and values. -/
inductive Op (F : Type) where
  | create (key : CStr) (arg : Value F) (h : UInt32)
  | set (key : CStr) (arg : Value F) (h : UInt32)
  | sync (h : UInt32)
  /-- The timer of `save` fires. -/
  | dump

namespace State

variable {S : Storage F cfg}

/-- `settings_setstorage` for the first storage, after `settings_init`. -/
def setstorage (file : Option S.File) (h : UInt32) : State S where
  map := assignAll (file.elim [] S.entries) (Map.init cfg)
  hash := h
  wrpend := false
  file := file

/-- Save if the hash is another one. -/
def compareHash (h : UInt32) (s : State S) : State S :=
  if h ≠ s.hash then { s with hash := h, wrpend := true } else s

def create (key : CStr) (arg : Value F) (h : UInt32) (s : State S) : State S :=
  let c := settingsCreate cfg key arg s.map
  if c.created then { s with map := c.map, hash := h, wrpend := true } else { s with map := c.map }

def set (key : CStr) (arg : Value F) (h : UInt32) (s : State S) : State S :=
  let r := settingsSet cfg key arg s.map
  if r.1.isOk then compareHash h { s with map := r.2 } else s

/-- `CONFIG_SYSTEM_SETTINGS_MAX_STORAGES` storages must fail before the call does. -/
def sync (maxStorages : Nat) (h : UInt32) (s : State S) : Ret × State S :=
  match s.file with
  | none => if maxStorages ≤ 1 then (.error (.other 61), s) else (.ok (), s.compareHash h)
  | some f => (.ok (), compareHash h { s with map := assignAll (S.entries f) s.map })

def dumpCache (s : State S) : State S := { s with file := some (S.save s.map), wrpend := false }

@[simp] theorem compareHash_map (h : UInt32) (s : State S) : (s.compareHash h).map = s.map := by
  rw [compareHash]
  split_ifs <;> rfl

@[simp] theorem compareHash_file (h : UInt32) (s : State S) : (s.compareHash h).file = s.file := by
  rw [compareHash]
  split_ifs <;> rfl

theorem wrpend_of_compareHash {h : UInt32} {s : State S} (hpend : (s.compareHash h).wrpend = false) :
    s.wrpend = false ∧ h = s.hash := by
  rw [compareHash] at hpend
  split_ifs at hpend with hne
  exact ⟨hpend, not_not.mp hne⟩

end State

/-- The argument as it is stored. -/
def Value.given : Value F → Value F
  | .string s => .string (CStr.ofMem s)
  | v => v

/-- The system, and for each key the value of the last call that has succeeded. A `settings_create`
for a setting that exists does not count: the argument is only a default. -/
structure Observed (S : Storage F cfg) where
  state : State S
  last : CStr → Option (Value F)

variable {S : Storage F cfg} {o : Observed S}

def Observed.start (file : Option S.File) (h : UInt32) : Observed S := ⟨State.setstorage file h, fun _ => none⟩

variable (maxStorages : Nat)

def Observed.step (o : Observed S) : Op F → Observed S
  | .create key arg h =>
    { state := o.state.create key arg h
      last := if (settingsCreate cfg key arg o.state.map).ret.isOk && (lookup (CStr.ofMem key) o.state.map).isNone then
          Function.update o.last (CStr.ofMem key) (some arg.given) else o.last }
  | .set key arg h =>
    { state := o.state.set key arg h
      last := if (settingsSet cfg key arg o.state.map).1.isOk then
          Function.update o.last (CStr.ofMem key) (some arg.given) else o.last }
  | .sync h => { o with state := (o.state.sync maxStorages h).2 }
  | .dump => { o with state := o.state.dumpCache }

/-- A setting is created in a map with a slot for it, which is no free one that was left with its
key, there is no sync while a save is pending, the hash tells maps with different values apart, and
a map that is dumped comes back from its file. -/
def Careful (o : Observed S) : Op F → Prop
  | .create key _ _ => ∃ s, slotFor (CStr.ofMem key) o.state.map = some s ∧ (s.Free → s.key ≠ CStr.ofMem key)
  | .set key arg h =>
    o.state.wrpend = true ∨ h ≠ o.state.hash ∨
      lookup (CStr.ofMem key) (settingsSet cfg key arg o.state.map).2 = lookup (CStr.ofMem key) o.state.map
  | .sync _ => o.state.wrpend = false
  | .dump => S.Legible o.state.map

/-! ## Values survive -/

theorem given_of_setValue {old : SettingType} (h : setValue cfg old arg = .ok v) : v = arg.given := by
  cases arg with
  | empty => cases h
  | string | _ =>
    rw [setValue] at h
    split_ifs at h
    cases h
    rfl

theorem overlong_of_setValue {old : SettingType} (h : setValue cfg old arg = .ok v) : v.overlong cfg = false := by
  cases v with
  | string str => exact decide_eq_false (Nat.not_le.mpr (setValue_string h str rfl).1)
  | _ => rfl

/-- What `settings_create` does to the map. -/
theorem settingsCreate_cases (cfg : Config) (hm : Ordered m) (key : CStr) (arg : Value F) :
    ((settingsCreate cfg key arg m).created = false ∧ (∀ k, lookup k (settingsCreate cfg key arg m).map = lookup k m)) ∨
      (settingsCreate cfg key arg m).created = true ∧
        ∀ k, lookup k (settingsCreate cfg key arg m).map =
          if k = CStr.ofMem key then some arg.given else lookup k m := by
  rw [settingsCreate]
  split_ifs
  · exact .inl ⟨rfl, fun _ => rfl⟩
  rcases @lookup_createSlot _ cfg (CStr.ofMem key) m arg hm with hno | ⟨hcreated, -, v, hset, hlookup⟩
  · exact .inl hno
  · exact .inr ⟨hcreated, given_of_setValue hset ▸ hlookup⟩

/-- What `settings_set` does to the map. -/
theorem settingsSet_cases (cfg : Config) (key : CStr) (arg : Value F) (m : Map F) :
    ((settingsSet cfg key arg m).1.isOk = false ∧ (settingsSet cfg key arg m).2 = m) ∨
      ∃ old, lookup (CStr.ofMem key) m = some old ∧ setValue cfg old.type arg = .ok arg.given ∧
        settingsSet cfg key arg m = (.ok (), store (CStr.ofMem key) arg.given m) := by
  rw [settingsSet, getSetting]
  by_cases hlen : (CStr.ofMem key).length ≥ cfg.keySize
  · rw [if_pos hlen]
    exact .inl ⟨rfl, rfl⟩
  rw [if_neg hlen]
  cases hold : lookup (CStr.ofMem key) m with
  | none => exact .inl ⟨rfl, rfl⟩
  | some old =>
    cases hset : setValue cfg old.type arg with
    | error e => exact .inl ⟨by simp only [hset]; rfl, by simp only [hset]⟩
    | ok v =>
      have hv := given_of_setValue hset
      exact .inr ⟨old, rfl, hv ▸ hset, by simp only [hset, hv]⟩

theorem created_eq_false {v : Value F} (cfg : Config) (arg : Value F) (h : lookup (CStr.ofMem key) m = some v) :
    (settingsCreate cfg key arg m).created = false := by
  rw [settingsCreate]
  split_ifs
  · rfl
  · exact created_of_lookup h

/-- A call that succeeds in a map that is fit for it creates the setting, unless it exists. -/
theorem created_of_slot {s : Slot F} (hslot : slotFor (CStr.ofMem key) m = some s)
    (hkey : s.Free → s.key ≠ CStr.ofMem key)
    (hnone : lookup (CStr.ofMem key) m = none) (hok : (settingsCreate cfg key arg m).ret.isOk = true) :
    (settingsCreate cfg key arg m).created = true := by
  have hfree : s.Free := by
    by_contra hused
    rw [lookup_eq_slotFor, hslot, Option.bind_some, if_neg hused] at hnone
    cases hnone
  rw [settingsCreate] at hok ⊢
  split_ifs at hok ⊢
  · cases hok
  · refine created_of_free hslot (hkey hfree) ?_
    generalize (createSlot cfg (CStr.ofMem key) arg m).ret = ret at hok
    cases ret with
    | ok => rfl
    | error => cases hok

theorem full_settingsCreate (h : Full m) (key : CStr) (arg : Value F) : Full (settingsCreate cfg key arg m).map := by
  rw [settingsCreate]
  split_ifs
  · exact h
  · exact puts_createSlot.full h fun _ => type_of_setValue

theorem allBounded_assignAll (hm : AllBounded cfg m) (he : ∀ e ∈ entries, ∀ v, e.2 = .set v → Bounded cfg e.1 v) :
    AllBounded cfg (assignAll entries m) := by
  induction entries generalizing m with
  | nil => exact hm
  | cons e entries ih =>
    obtain ⟨ha, hrest⟩ := forall_mem_cons.mp he
    have hnext : AllBounded cfg (assign e.1 e.2 m) := puts_assign.forall_used hm ha
    exact ih hnext hrest

theorem allBounded_settingsCreate (hm : AllBounded cfg m) (key : CStr) (arg : Value F) :
    AllBounded cfg (settingsCreate cfg key arg m).map := by
  rw [settingsCreate]
  split_ifs with hargs
  · exact hm
  · rw [not_or, not_not] at hargs
    exact puts_createSlot.forall_used hm fun v hset => ⟨hargs.2.2.1, type_of_setValue hset, overlong_of_setValue hset⟩

/-- The file has the values of the map unless a save is pending, and the map those of the last
calls. -/
structure Coherent (o : Observed S) : Prop where
  ordered : Ordered o.state.map
  bounded : AllBounded cfg o.state.map
  agrees : o.state.wrpend = false → ∀ f, o.state.file = some f → Agrees (S.entries f) o.state.map
  last : ∀ k v, o.last k = some v → lookup k o.state.map = some v

theorem coherent_start (file : Option S.File) (h : UInt32) : Coherent (Observed.start file h) := by
  have htyped : Typed (file.elim [] S.entries) := by
    cases file with
    | none => exact fun e he => (nomatch he)
    | some f => exact typed_entries S f
  have hinit : AllBounded cfg (Map.init cfg : Map F) := fun s hs hused =>
    absurd (by rw [eq_of_mem_replicate hs]; rfl) hused
  refine ⟨ordered_assignAll ordered_init htyped, ?_, ?_, nofun⟩
  · cases file with
    | none => exact hinit
    | some f => exact allBounded_assignAll hinit (S.bounded_entries f)
  rintro - f hf
  cases hf
  exact agrees_assignAll ordered_init (typed_entries S f)

theorem last_update {last : CStr → Option (Value F)} {w : Value F} (h : ∀ k v, last k = some v → lookup k m = some v)
    (hlookup : ∀ k, lookup k m' = if k = key then some w else lookup k m) :
    ∀ k v, Function.update last key (some w) k = some v → lookup k m' = some v := fun k v hv => by
  rw [hlookup]
  by_cases hk : k = key
  · rw [if_pos hk]
    rwa [hk, Function.update_self] at hv
  rw [if_neg hk]
  rw [Function.update_of_ne hk] at hv
  exact h k v hv

theorem step_set_of_ok {m : Map F} (h : UInt32)
    (hok : settingsSet cfg key arg o.state.map = (.ok (), m)) : o.step maxStorages (.set key arg h) =
      ⟨State.compareHash h { o.state with map := m }, Function.update o.last (CStr.ofMem key) (some arg.given)⟩ := by
  simp only [Observed.step, State.set, hok, Except.isOk, Except.toBool, if_true]

theorem step_set_of_fail (h : UInt32) (hfail : (settingsSet cfg key arg o.state.map).1.isOk = false) :
    o.step maxStorages (.set key arg h) = o := by
  simp only [Observed.step, State.set, hfail, Bool.false_eq_true, if_false]

theorem Coherent.create (ho : Coherent o) (maxStorages : Nat) {h : UInt32} (hcare : Careful o (.create key arg h)) :
    Coherent (o.step maxStorages (.create key arg h)) := by
  have hmap : (o.state.create key arg h).map = (settingsCreate cfg key arg o.state.map).map := by
    rw [State.create]
    split_ifs <;> rfl
  refine ⟨?_, ?_, fun hpend f hf => ?_, fun k v hv => ?_⟩
  · exact hmap ▸ ordered_call ho.ordered (.create key arg)
  · exact hmap ▸ allBounded_settingsCreate ho.bounded key arg
  · rcases settingsCreate_cases cfg ho.ordered key arg with ⟨hcreated, hlookup⟩ | ⟨hcreated, -⟩
    · simp only [Observed.step, State.create, hcreated, Bool.false_eq_true, if_false] at hpend hf ⊢
      exact (ho.agrees hpend f hf).congr hlookup fun hfull => full_settingsCreate hfull key arg
    · simp [Observed.step, State.create, hcreated] at hpend
  · change lookup k (o.state.create key arg h).map = some v
    rw [hmap]
    simp only [Observed.step, Bool.and_eq_true, Option.isNone_iff_eq_none] at hv
    split_ifs at hv with hnew
    · obtain ⟨s, hslot, hkey⟩ := hcare
      have hcreated := created_of_slot hslot hkey hnew.2 hnew.1
      rcases settingsCreate_cases cfg ho.ordered key arg with ⟨hnot, -⟩ | ⟨-, hlookup⟩
      · cases hcreated.symm.trans hnot
      · exact last_update ho.last hlookup k v hv
    · have hfound := ho.last k v hv
      rcases settingsCreate_cases cfg ho.ordered key arg with ⟨-, hlookup⟩ | ⟨hcreated, hlookup⟩
      · exact (hlookup k).trans hfound
      · have hk : k ≠ CStr.ofMem key := fun hk => by cases hcreated.symm.trans (created_eq_false cfg arg (hk ▸ hfound))
        rw [hlookup, if_neg hk, hfound]

theorem Coherent.set (ho : Coherent o) (maxStorages : Nat) {h : UInt32} (hcare : Careful o (.set key arg h)) :
    Coherent (o.step maxStorages (.set key arg h)) := by
  rcases settingsSet_cases cfg key arg o.state.map with ⟨hfail, -⟩ | ⟨old, hold, hset, hok⟩
  · rw [step_set_of_fail maxStorages h hfail]
    exact ho
  have htype := type_of_setValue hset
  have hlookup (k : CStr) : lookup k (store (CStr.ofMem key) arg.given o.state.map) =
      if k = CStr.ofMem key then some arg.given else lookup k o.state.map :=
    lookup_store (by rw [hold]; rfl) htype
  have hbounded : AllBounded cfg (store (CStr.ofMem key) arg.given o.state.map) :=
    forall_used_store ho.bounded fun _ hs => ⟨hs.1, htype, overlong_of_setValue hset⟩
  rw [Careful, hok] at hcare
  rw [step_set_of_ok maxStorages h hok]
  refine ⟨?_, ?_, fun hpend f hf => ?_, ?_⟩
  · rw [State.compareHash_map]
    exact puts_store.ordered ho.ordered fun _ hv => hv ▸ htype
  · rw [State.compareHash_map]
    exact hbounded
  · rw [State.compareHash_file] at hf
    rw [State.compareHash_map]
    -- nothing is saved, so the value was there already
    obtain ⟨hidle, hhash⟩ := State.wrpend_of_compareHash hpend
    have hsame : lookup (CStr.ofMem key) (store (CStr.ofMem key) arg.given o.state.map) =
        lookup (CStr.ofMem key) o.state.map := by
      rcases hcare with hpending | hne | hsame
      · exact absurd (hidle.symm.trans hpending) Bool.false_ne_true
      · exact absurd hhash hne
      · exact hsame
    refine (ho.agrees hidle f hf).congr (fun k => ?_) fun hfull => puts_store.full hfull fun _ hv => hv ▸ htype
    by_cases hk : k = CStr.ofMem key
    · rw [hk, hsame]
    · rw [hlookup, if_neg hk]
  · rw [State.compareHash_map]
    exact last_update ho.last hlookup

theorem Coherent.sync (ho : Coherent o) (maxStorages : Nat) {h : UInt32} (hcare : Careful o (.sync h)) :
    Coherent (o.step maxStorages (.sync h)) := by
  rw [Observed.step, State.sync]
  cases hfile : o.state.file with
  | none =>
    split_ifs
    · exact ho
    refine ⟨?_, ?_, fun _ f hf => ?_, ?_⟩
    · rw [State.compareHash_map]
      exact ho.ordered
    · rw [State.compareHash_map]
      exact ho.bounded
    · rw [State.compareHash_file, hfile] at hf
      cases hf
    · rw [State.compareHash_map]
      exact ho.last
  | some f =>
    have htyped := typed_entries S f
    have hlookup := (ho.agrees hcare f hfile).lookup_assignAll ho.ordered htyped
    refine ⟨?_, ?_, fun _ f' hf' => ?_, ?_⟩
    · rw [State.compareHash_map]
      exact ordered_assignAll ho.ordered htyped
    · rw [State.compareHash_map]
      exact allBounded_assignAll ho.bounded (S.bounded_entries f)
    · rw [State.compareHash_file] at hf'
      cases hf'
      rw [State.compareHash_map]
      exact agrees_assignAll ho.ordered htyped
    · rw [State.compareHash_map]
      exact fun k v hv => (hlookup k).trans (ho.last k v hv)

theorem Coherent.dump (ho : Coherent o) (maxStorages : Nat) (hcare : Careful o .dump) :
    Coherent (o.step maxStorages .dump) := by
  refine ⟨ho.ordered, ho.bounded, fun _ f hf => ?_, ho.last⟩
  cases hf
  rw [S.entries_save _ ho.bounded hcare]
  exact agrees_usedSlots ho.ordered

theorem Coherent.step (ho : Coherent o) (maxStorages : Nat) (op : Op F) (hcare : Careful o op) :
    Coherent (o.step maxStorages op) := by
  cases op with
  | create key arg h => exact ho.create maxStorages hcare
  | set key arg h => exact ho.set maxStorages hcare
  | sync h => exact ho.sync maxStorages hcare
  | dump => exact ho.dump maxStorages hcare

theorem Coherent.settingsGet (ho : Coherent o) (hlast : o.last (CStr.ofMem key) = some v) :
    settingsGet ops cfg key v.type o.state.map = .ok (some v) := by
  have hfound := ho.last _ _ hlast
  have htype := type_of_lookup hfound
  have hlen : (CStr.ofMem key).length < cfg.keySize := by
    rw [lookup_eq_find, Option.map_eq_some_iff] at hfound
    obtain ⟨s, hs, -⟩ := hfound
    have hkey : s.key = CStr.ofMem key := by simpa using find?_some hs
    obtain ⟨hin, hused⟩ := mem_of_mem_usedSlots (mem_of_find?_eq_some hs)
    exact hkey ▸ (ho.bounded s hin hused).1
  rw [settingsGet_of_lookup v.type hlen hfound, getValue_type htype]

/-- With a file of text or of records, whatever is in it at first: in every run whose steps are
careful, a setting has the value of the last call that has succeeded. -/
theorem settingsGet_last (S : Storage F cfg) (maxStorages : Nat) (file : Option S.File) (h : UInt32)
    (steps : List (Op F)) (hcare : Meets (Observed.step maxStorages) Careful (Observed.start file h) steps) :
    let o := run (Observed.step maxStorages) (Observed.start file h) steps
    ∀ key v, o.last (CStr.ofMem key) = some v → settingsGet ops cfg key v.type o.state.map = .ok (some v) := by
  intro o key v hlast
  have ho : Coherent o :=
    run_induct (fun o op ho hcare => ho.step maxStorages op hcare) (coherent_start file h) hcare
  exact ho.settingsGet hlast

/-- A port is created, dumped, changed, dumped again and synchronised. -/
def portSteps : List (Op Int32) :=
  [.create "port".toList (.int 80) 1, .dump, .sync 1, .set "port".toList (.int 81) 2, .dump, .sync 2]

theorem legible_port {m : Map Int32} {i : Int32} (hm : usedSlots m = [⟨"port".toList, .int i⟩])
    (hfits : Fits wholeNumbers ⟨"port".toList, .int i⟩) : (textStorage wholeNumbers defaultConfig).Legible m := by
  intro s hs
  rw [hm, mem_singleton] at hs
  have hkey : ValidKey defaultConfig "port".toList ∧ '\x00' ∉ "port".toList := by decide
  subst hs
  exact ⟨⟨hkey.1, hkey.2, fun str hstr => by cases hstr⟩, trivial, hfits⟩

/-- The port has its last value, with both kinds of files. -/
theorem settingsGet_last_port :
    let text := run (Observed.step 2) (@Observed.start _ _ (textStorage wholeNumbers defaultConfig) none 0) portSteps
    let bin := run (Observed.step 2) (@Observed.start _ _ (binStorage defaultConfig) none 0) portSteps
    settingsGet wholeNumbers defaultConfig "port".toList .int text.state.map = .ok (some (.int 81)) ∧
      settingsGet wholeNumbers defaultConfig "port".toList .int bin.state.map = .ok (some (.int 81)) :=
  ⟨settingsGet_last (textStorage wholeNumbers defaultConfig) 2 none 0 portSteps
      ⟨⟨.zero, rfl, by decide⟩, legible_port rfl (by decide), rfl, .inr (.inl (by decide)),
        legible_port rfl (by decide), rfl, trivial⟩
      "port".toList (.int 81) rfl,
    settingsGet_last (binStorage defaultConfig) 2 none 0 portSteps
      ⟨⟨.zero, rfl, by decide⟩, trivial, rfl, .inr (.inl (by decide)), trivial, rfl, trivial⟩ "port".toList
        (.int 81) rfl⟩

/-- A sync before the dump brings the old port back. -/
theorem not_settingsGet_last_port :
    let steps : List (Op Int32) :=
      [.create "port".toList (.int 80) 1, .dump, .set "port".toList (.int 81) 2, .sync 1]
    let text := run (Observed.step 2) (@Observed.start _ _ (textStorage wholeNumbers defaultConfig) none 0) steps
    let bin := run (Observed.step 2) (@Observed.start _ _ (binStorage defaultConfig) none 0) steps
    (text.last "port".toList = some (.int 81) ∧ bin.last "port".toList = some (.int 81)) ∧
      settingsGet wholeNumbers defaultConfig "port".toList .int text.state.map = .ok (some (.int 80)) ∧
      settingsGet wholeNumbers defaultConfig "port".toList .int bin.state.map = .ok (some (.int 80)) :=
  ⟨⟨rfl, rfl⟩, rfl, rfl⟩

end System.Settings
