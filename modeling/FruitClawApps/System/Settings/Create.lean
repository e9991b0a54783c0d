-- SUMMARY: Creating settings, and when a successful call leaves a readable one.
import FruitClawApps.System.Settings.Text

/-!
# Creating a setting

`settings_create` goes to the first slot that has the key or is not used. It returns `OK` also if
there is no such slot, and if the slot has the key already, whatever its type is.
-/

namespace System.Settings

open Transition

variable {F : Type} {ops : FloatOps F} {cfg : Config} {key : CStr} {arg : Value F} {m : Map F}

/-- The slot at which the loop of `settings_create` ends. -/
def slotFor (key : CStr) (m : Map F) : Option (Slot F) := m.find? fun s => s.key = key ∨ s.Free

/-- There is a slot, and it is a free one with another key or has a value that can be read with the
type. -/
def Creatable (ops : FloatOps F) (key : CStr) (type : SettingType) (m : Map F) : Prop :=
  ∃ s, slotFor key m = some s ∧ (s.key = key → (getValue ops type s.value).isOk)

theorem slotFor_cons_pos {s : Slot F} (h : s.key = key ∨ s.Free) : slotFor key (s :: m) = some s :=
  List.find?_cons_of_pos (decide_eq_true h)

theorem slotFor_cons_neg {s : Slot F} (h : ¬ (s.key = key ∨ s.Free)) : slotFor key (s :: m) = slotFor key m :=
  List.find?_cons_of_neg (by simpa using h)

theorem lookup_eq_slotFor (key : CStr) (m : Map F) :
    lookup key m = (slotFor key m).bind fun s => if s.Free then none else some s.value := by
  induction m with
  | nil => rfl
  | cons s m ih =>
    by_cases hfree : s.Free
    · rw [lookup_cons_free hfree, slotFor_cons_pos (.inr hfree), Option.bind_some, if_pos hfree]
    rw [lookup_cons_used hfree]
    by_cases hkey : s.key = key
    · rw [if_pos hkey, slotFor_cons_pos (.inl hkey), Option.bind_some, if_neg hfree]
    · rw [if_neg hkey, slotFor_cons_neg (not_or.mpr ⟨hkey, hfree⟩), ih]

theorem createSlot_of_taken (h : ∀ s, slotFor key m = some s → s.key = key) :
    createSlot cfg key arg m = ⟨.ok (), false, m⟩ := by
  induction m with
  | nil => rfl
  | cons s m ih =>
    by_cases hkey : s.key = key
    · rw [createSlot, if_pos hkey]
    by_cases hfree : s.Free
    · exact absurd (h s (slotFor_cons_pos (.inr hfree))) hkey
    · have hrest := ih fun t ht => h t ((slotFor_cons_neg (not_or.mpr ⟨hkey, hfree⟩)).trans ht)
      rw [createSlot, if_neg hkey, if_neg hfree, hrest]

variable {v : Value F} (type : SettingType)

/-- A setting that exists is not created. -/
theorem created_of_lookup (h : lookup key m = some v) : (createSlot cfg key arg m).created = false := by
  rw [lookup_eq_slotFor] at h
  obtain ⟨s, hslot, hv⟩ := Option.bind_eq_some_iff.mp h
  have hused : ¬ s.Free := fun hfree => by
    rw [if_pos hfree] at hv
    cases hv
  have hfound : s.key = key ∨ s.Free := by simpa using List.find?_some hslot
  have hkey : s.key = key := hfound.resolve_right hused
  rw [createSlot_of_taken fun t ht => Option.some.inj (hslot.symm.trans ht) ▸ hkey]

/-- At a free slot, the call succeeds only if it creates the setting. -/
theorem created_of_free {s : Slot F} (hslot : slotFor key m = some s) (hkey : s.key ≠ key)
    (hret : (createSlot cfg key arg m).ret = .ok ()) : (createSlot cfg key arg m).created = true := by
  induction m with
  | nil => cases hslot
  | cons t m ih =>
    by_cases htaken : t.key = key
    · rw [slotFor_cons_pos (.inl htaken)] at hslot
      cases hslot
      exact absurd htaken hkey
    by_cases hfree : t.Free
    · rw [createSlot, if_neg htaken, if_pos hfree] at hret ⊢
      cases hset : setValue cfg arg.type arg with
      | error e =>
        rw [hset] at hret
        cases hret
      | ok v => rfl
    · rw [slotFor_cons_neg (not_or.mpr ⟨htaken, hfree⟩)] at hslot
      rw [createSlot, if_neg htaken, if_neg hfree] at hret ⊢
      exact ih hslot hret

theorem type_eq_of_setValue {old : SettingType} (h : setValue cfg old arg = .ok v) :
    v.type = arg.type := by
  cases arg with
  | empty => cases h
  | string | _ =>
    rw [setValue] at h
    split_ifs at h
    cases h
    rfl

theorem getValue_type (h : v.type ≠ .empty) : getValue ops v.type v = .ok (some v) := by
  cases v with
  | empty => exact absurd rfl h
  | _ => rfl

theorem settingsGet_of_lookup (hlen : (CStr.ofMem key).length < cfg.keySize)
    (h : lookup (CStr.ofMem key) m = some v) : settingsGet ops cfg key type m = getValue ops type v := by
  rw [settingsGet, getSetting, if_neg (by omega), h]

theorem settingsGet_of_none (hlen : (CStr.ofMem key).length < cfg.keySize)
    (h : lookup (CStr.ofMem key) m = none) : settingsGet ops cfg key type m = .error .enoent := by
  rw [settingsGet, getSetting, if_neg (by omega), h]

/-- With the slot taken or missing, the setting is read from the map as it was. -/
theorem settingsGet_isOk_of_taken (hlen : (CStr.ofMem key).length < cfg.keySize)
    (htaken : ∀ s, slotFor (CStr.ofMem key) m = some s → s.key = CStr.ofMem key) :
    (settingsGet ops cfg key type m).isOk ↔ Creatable ops (CStr.ofMem key) type m := by
  have hlookup := lookup_eq_slotFor (CStr.ofMem key) m
  cases hslot : slotFor (CStr.ofMem key) m with
  | none =>
    rw [hslot] at hlookup
    rw [settingsGet_of_none type hlen hlookup]
    refine ⟨nofun, fun ⟨s, hs, _⟩ => ?_⟩
    rw [hslot] at hs
    cases hs
  | some s =>
    have hcreatable : Creatable ops (CStr.ofMem key) type m ↔ (getValue ops type s.value).isOk := by
      refine ⟨fun ⟨t, ht, hread⟩ => ?_, fun hread => ⟨s, hslot, fun _ => hread⟩⟩
      rw [hslot] at ht
      cases ht
      exact hread (htaken s hslot)
    rw [hcreatable]
    rw [hslot, Option.bind_some] at hlookup
    by_cases hfree : s.Free
    · rw [if_pos hfree] at hlookup
      rw [settingsGet_of_none type hlen hlookup]
      cases hvalue : s.value with
      | empty => exact ⟨nofun, nofun⟩
      | _ =>
        rw [Slot.Free, hvalue] at hfree
        cases hfree
    · rw [if_neg hfree] at hlookup
      rw [settingsGet_of_lookup type hlen hlookup]

/-- After a call that succeeds, the setting can be read if and only if the map was fit for it. -/
theorem settingsGet_isOk_iff_creatable (hm : Ordered m) (hret : (settingsCreate cfg key arg m).ret = .ok ()) :
    (settingsGet ops cfg key arg.type (settingsCreate cfg key arg m).map).isOk ↔
      Creatable ops (CStr.ofMem key) arg.type m := by
  by_cases hargs : arg.type = .empty ∨ ¬ ValidKey cfg (CStr.ofMem key)
  · rw [settingsCreate, if_pos hargs] at hret
    cases hret
  rw [settingsCreate, if_neg hargs] at hret ⊢
  rw [not_or, not_not] at hargs
  have hlen := hargs.2.2.1
  by_cases htaken : ∀ s, slotFor (CStr.ofMem key) m = some s → s.key = CStr.ofMem key
  · rw [createSlot_of_taken htaken]
    exact settingsGet_isOk_of_taken arg.type hlen htaken
  push Not at htaken
  obtain ⟨s, hslot, hkey⟩ := htaken
  have hcreated := created_of_free hslot hkey hret
  rcases @lookup_createSlot _ cfg (CStr.ofMem key) m arg hm with ⟨hnot, -⟩ | ⟨-, -, v, hset, hlookup⟩
  · rw [hcreated] at hnot
    cases hnot
  have hfound := hlookup (CStr.ofMem key)
  rw [if_pos rfl] at hfound
  rw [settingsGet_of_lookup arg.type hlen hfound, ← type_eq_of_setValue hset, getValue_type (type_of_setValue hset)]
  exact ⟨fun _ => ⟨s, hslot, fun h => absurd h hkey⟩, fun _ => rfl⟩

/-! ## Maps that can come about -/

/-- A call, or the loading of a file. -/
inductive Change (F : Type) where
  | call (c : Call F)
  | load (text : List Char)

def Change.apply (ops : FloatOps F) (cfg : Config) (m : Map F) : Change F → Map F
  | .call c => c.apply cfg m
  | .load text => loadText ops cfg text m

theorem ordered_call (h : Ordered m) (c : Call F) : Ordered (c.apply cfg m) := by
  cases c with
  | create key arg =>
    rw [Call.apply, settingsCreate]
    split_ifs
    · exact h
    · exact puts_createSlot.ordered h fun _ => type_of_setValue
  | set key arg =>
    rw [Call.apply, settingsSet]
    split
    · exact h
    split
    · exact h
    · rename_i v hset
      exact puts_store.ordered h fun _ hv => hv ▸ type_of_setValue hset

theorem ordered_loadLine (h : Ordered m) (line : CStr) : Ordered (loadLine ops cfg m line) := by
  rw [loadLine]
  split
  · exact h
  rename_i key a hparse
  refine puts_assign.ordered h fun v hv => ?_
  rw [parseLine] at hparse
  split at hparse
  · cases hparse
  split_ifs at hparse
  cases hparse
  exact type_of_loadValue hv

theorem ordered_loadText (h : Ordered m) (text : List Char) : Ordered (loadText ops cfg text m) := by
  rw [loadText]
  generalize fgetsLines (bufferSize - 1) text = lines
  induction lines generalizing m with
  | nil => exact h
  | cons line lines ih => exact ih (ordered_loadLine h line)

theorem ordered_run (changes : List (Change F)) : Ordered (run (Change.apply ops cfg) (Map.init cfg) changes) := by
  refine run_invariant (fun m change hm => ?_) ordered_init changes
  cases change with
  | call c => exact ordered_call hm c
  | load text => exact ordered_loadText hm text

/-- In every map that can come about, `settings_create` keeps the order of the slots, and what it
leaves can be read if and only if the map was fit for it. -/
theorem settingsCreate_honest (changes : List (Change F)) (hm : m = run (Change.apply ops cfg) (Map.init cfg) changes)
    (key : CStr) (arg : Value F) :
    Ordered (settingsCreate cfg key arg m).map ∧
      ((settingsCreate cfg key arg m).ret = .ok () →
        ((settingsGet ops cfg key arg.type (settingsCreate cfg key arg m).map).isOk ↔
          Creatable ops (CStr.ofMem key) arg.type m)) := by
  have hordered : Ordered m := hm ▸ ordered_run changes
  exact ⟨ordered_call hordered (.create key arg), settingsGet_isOk_iff_creatable hordered⟩

/-- A mode is created next to a port that was loaded. -/
theorem settingsCreate_honest_mode :
    let m := run (Change.apply wholeNumbers defaultConfig) (Map.init defaultConfig) [.load "port=80\n".toList]
    let c := settingsCreate defaultConfig "mode".toList (.string "auto".toList) m
    c.ret = .ok () ∧ (settingsGet wholeNumbers defaultConfig "mode".toList .string c.map).isOk :=
  ⟨rfl, ((settingsCreate_honest _ rfl "mode".toList (.string "auto".toList)).2 rfl).mpr
    ⟨.zero, by decide, fun h => by cases h⟩⟩

/-- The call succeeds for a setting of another type, for a key that has only been left behind by a
line with a string that is too long, and for a map without a free slot. -/
theorem not_settingsCreate_honest :
    let small : Config := { defaultConfig with mapSize := 1 }
    let m := run (Change.apply wholeNumbers defaultConfig) (Map.init defaultConfig)
      [.call (.create "mode".toList (.string "auto".toList)), .load "name=abcdefghijklmnopqrstuvwxyz\n".toList]
    let full := run (Change.apply wholeNumbers small) (Map.init small) [.call (.create "mode".toList (.int 1))]
    let c := settingsCreate defaultConfig "mode".toList (.int 1) m
    let d := settingsCreate defaultConfig "name".toList (.int 1) m
    let e := settingsCreate small "port".toList (.int 80) full
    (c.ret = .ok () ∧ settingsGet wholeNumbers defaultConfig "mode".toList .int c.map = .error .eacces) ∧
      (d.ret = .ok () ∧ settingsGet wholeNumbers defaultConfig "name".toList .int d.map = .error .enoent) ∧
      e.ret = .ok () ∧ settingsGet wholeNumbers small "port".toList .int e.map = .error .enoent :=
  ⟨⟨rfl, rfl⟩, ⟨rfl, rfl⟩, rfl, rfl⟩

/-- No two settings have the same key, whatever was called or loaded. -/
theorem keys_distinct (changes : List (Change F)) :
    (((run (Change.apply ops cfg) (Map.init cfg) changes).filter fun s => ¬ s.Free).map Slot.key).Nodup := by
  refine List.pairwise_map.mpr (((ordered_run changes).filter _).imp_of_mem fun _ ht hprecedes => ?_)
  exact (hprecedes (of_decide_eq_true (List.mem_filter.mp ht).2)).2

end System.Settings
