-- SUMMARY: The map of settings: setting, creating and looking up entries.
import FruitClawApps.Lib.CLib
import Mathlib.Tactic.SplitIfs

/-!
# The map of settings

`system/settings/settings.c` keeps settings in an array. Every function goes through it until it is
at the slot with the key or at the first one that is not used. Such a slot may still have a key: the
loader of text leaves it there.
-/

namespace System.Settings

open List

/-- `CONFIG_SYSTEM_SETTINGS_MAP_SIZE`, `_KEY_SIZE` and `_VALUE_SIZE`. -/
structure Config where
  mapSize : Nat
  keySize : Nat
  valueSize : Nat

/-- What the code does with `double`. -/
structure FloatOps (F : Type) where
  ofInt : Int32 → F
  toInt : F → Int32
  /-- `%.06f`. -/
  print : F → CStr
  /-- `sscanf` with `%lf`. -/
  scan : CStr → Option F

/-- An IPv4 address, with its octets in the order in which they are written. -/
structure InAddr where
  a : UInt8
  b : UInt8
  c : UInt8
  d : UInt8
deriving DecidableEq

/-- `setting_t.val` together with `setting_t.type`. -/
inductive Value (F : Type) where
  | empty
  | int (i : Int32)
  | bool (b : Bool)
  | float (f : F)
  | string (s : CStr)
  | ipAddr (ip : InAddr)
deriving DecidableEq

/-- `enum settings_type_e`. -/
inductive SettingType where
  | empty | int | bool | float | string | ipAddr
deriving DecidableEq

variable {F : Type}

def Value.type : Value F → SettingType
  | .empty => .empty
  | .int _ => .int
  | .bool _ => .bool
  | .float _ => .float
  | .string _ => .string
  | .ipAddr _ => .ipAddr

/-- `setting_t`. -/
structure Slot (F : Type) where
  key : CStr
  value : Value F
deriving DecidableEq

def Slot.zero : Slot F := ⟨[], .empty⟩

/-- The slot is not used. -/
abbrev Slot.Free (s : Slot F) : Prop := s.value.type = .empty

abbrev Map (F : Type) : Type := List (Slot F)

variable (cfg : Config) (key : CStr)

/-- `settings_init`. -/
def Map.init : Map F := replicate cfg.mapSize .zero

/-! ## Values -/

/-- `sanity_check`, in a build without assertions. -/
def sanityCheck (s : CStr) : Bool := '=' ∉ s ∧ ';' ∉ s ∧ '\n' ∉ s ∧ '\r' ∉ s

def isalpha (c : Char) : Bool := c.isAlpha

/-- `set_string`, `set_int`, `set_bool`, `set_float` and `set_ip` on a slot with a value of that
type. -/
def setValue (old : SettingType) : Value F → Except Errno (Value F)
  | .empty => .error .einval
  | .int i => if old = .int ∨ old = .bool ∨ old = .float then .ok (.int i) else .error .eacces
  | .bool b => if old = .bool ∨ old = .int then .ok (.bool b) else .error .eacces
  | .float f => if old = .float ∨ old = .int then .ok (.float f) else .error .eacces
  | .string s =>
    let s := CStr.ofMem s
    if old ≠ .string ∧ old ≠ .ipAddr then .error .eacces
    else if s.length ≥ cfg.valueSize then .error .einval
    else if s ≠ [] ∧ !sanityCheck s then .error .einval
    else .ok (.string s)
  | .ipAddr ip => if old = .ipAddr ∨ old = .string then .ok (.ipAddr ip) else .error .eacces

def inetNtop (ip : InAddr) : CStr :=
  formatInt ip.a.toNat ++ '.' :: (formatInt ip.b.toNat ++ '.' :: (formatInt ip.c.toNat ++ '.' :: formatInt ip.d.toNat))

/-- One of the numbers of an address. -/
def octet (s : CStr) : Option UInt8 :=
  if s ≠ [] ∧ s.length ≤ 3 ∧ s.all Char.isDigit then
    let n := (scanDigits 10 0 s).1
    if n ≤ 255 then some (UInt8.ofNat n) else none
  else none

/-- `inet_pton`. -/
def inetPton (s : CStr) : Option InAddr :=
  match s.splitOnP (· = '.') with
  | [a, b, c, d] =>
    match octet a, octet b, octet c, octet d with
    | some a, some b, some c, some d => some ⟨a, b, c, d⟩
    | _, _, _, _ => none
  | _ => none

/-- `get_string`, `get_int`, `get_bool`, `get_float` and `get_ip`. The caller gets nothing if a
string is read as an address and is none: `inet_pton` returns zero then. -/
def getValue (ops : FloatOps F) (type : SettingType) : Value F → Except Errno (Option (Value F))
  | .empty => .error .eacces
  | .int i =>
    match type with
    | .int => .ok (some (.int i))
    | .bool => .ok (some (.bool (i ≠ 0)))
    | .float => .ok (some (.float (ops.ofInt i)))
    | _ => .error .eacces
  | .bool b =>
    match type with
    | .int => .ok (some (.int (if b then 1 else 0)))
    | .bool => .ok (some (.bool b))
    | _ => .error .eacces
  | .float f =>
    match type with
    | .int => .ok (some (.int (ops.toInt f)))
    | .float => .ok (some (.float f))
    | _ => .error .eacces
  | .string s =>
    match type with
    | .string => .ok (some (.string s))
    | .ipAddr => .ok ((inetPton s).map .ipAddr)
    | _ => .error .eacces
  | .ipAddr ip =>
    match type with
    | .string => .ok (some (.string (inetNtop ip)))
    | .ipAddr => .ok (some (.ipAddr ip))
    | _ => .error .eacces

/-! ## Slots -/

/-- The loop of `get_setting`. -/
def lookup (key : CStr) : Map F → Option (Value F)
  | [] => none
  | s :: m => if s.Free then none else if s.key = key then some s.value else lookup key m

/-- Writing to the slot that `get_setting` finds. -/
def store (key : CStr) (v : Value F) : Map F → Map F
  | [] => []
  | s :: m => if s.Free then s :: m else if s.key = key then { s with value := v } :: m else s :: store key v m

/-- `get_setting`. -/
def getSetting (m : Map F) : Except Errno (Value F) :=
  if key.length ≥ cfg.keySize then .error .einval
  else
    match lookup key m with
    | none => .error .enoent
    | some v => .ok v

def settingsGet (ops : FloatOps F) (cfg : Config) (key : CStr) (type : SettingType) (m : Map F) :
    Except Errno (Option (Value F)) :=
  match getSetting cfg (CStr.ofMem key) m with
  | .error e => .error e
  | .ok v => getValue ops type v

/-- `settings_set` as far as the map is concerned. -/
def settingsSet (arg : Value F) (m : Map F) : Ret × Map F :=
  match getSetting cfg (CStr.ofMem key) m with
  | .error e => (.error e, m)
  | .ok old =>
    match setValue cfg old.type arg with
    | .error e => (.error e, m)
    | .ok v => (.ok (), store (CStr.ofMem key) v m)

/-- What `settings_create` returns, and whether it has created an entry. -/
structure Created (F : Type) where
  ret : Ret
  created : Bool
  map : Map F

/-- The loop of `settings_create` and what follows it. -/
def createSlot (cfg : Config) (key : CStr) (arg : Value F) : Map F → Created F
  -- there is no slot left, and `ret` is still `OK`
  | [] => ⟨.ok (), false, []⟩
  | s :: m =>
    if s.key = key then ⟨.ok (), false, s :: m⟩
    else if s.Free then
      match setValue cfg arg.type arg with
      | .error e => ⟨.error e, false, .zero :: m⟩
      | .ok v => ⟨.ok (), true, ⟨key, v⟩ :: m⟩
    else
      let r := createSlot cfg key arg m
      { r with map := s :: r.map }

/-- The keys that `settings_create` takes. -/
def ValidKey : Prop :=
  key ≠ [] ∧ key.length < cfg.keySize ∧ (∀ c ∈ key.head?, isalpha c) ∧ sanityCheck key

-- the instance for all characters would try each of them
instance (cfg : Config) (key : CStr) : Decidable (ValidKey cfg key) :=
  haveI : Decidable (∀ c ∈ key.head?, isalpha c) := Option.decidableForallMem _
  inferInstanceAs (Decidable (_ ∧ _ ∧ _ ∧ _))

def settingsCreate (arg : Value F) (m : Map F) : Created F :=
  if arg.type = .empty ∨ ¬ ValidKey cfg (CStr.ofMem key) then ⟨.error .einval, false, m⟩
  else createSlot cfg (CStr.ofMem key) arg m

/-- What a loader does with the slot for a key. -/
inductive Load (F : Type) where
  | set (v : Value F)
  /-- The value is not understood. -/
  | keep
  /-- The loader goes on with the next line at once. -/
  | skip
deriving DecidableEq

/-- The slot that `getsetting` has returned, at the end of the line. -/
def loadSlot (a : Load F) (s : Slot F) : Slot F :=
  match a with
  | .set v => ⟨key, v⟩
  | .keep => if s.Free then ⟨[], s.value⟩ else ⟨key, s.value⟩
  | .skip => ⟨key, s.value⟩

/-- The loop of `getsetting` and what follows it. -/
def assign (key : CStr) (a : Load F) : Map F → Map F
  | [] => []
  | s :: m => if s.key = key ∨ s.Free then loadSlot key a s :: m else s :: assign key a m

/-! ## The order of the slots -/

/-- If a slot is used, those in front of it are used and have other keys. -/
def Precedes (s t : Slot F) : Prop := ¬ t.Free → ¬ s.Free ∧ s.key ≠ t.key

/-- The used slots come first and have different keys. -/
def Ordered (m : Map F) : Prop := m.Pairwise Precedes

/-- The slot for the key, the first one that has it or is free, may have got a new value, or another
key while it is free. -/
inductive Puts (key : CStr) (new : Value F → Prop) : Map F → Map F → Prop
  | same (m : Map F) : Puts key new m m
  | set {s : Slot F} {v : Value F} (m : Map F) (hslot : s.key = key ∨ s.Free) (hv : new v) :
      Puts key new (s :: m) (⟨key, v⟩ :: m)
  | free {s s' : Slot F} (m : Map F) (hs : s.Free) (hs' : s'.Free) : Puts key new (s :: m) (s' :: m)
  | behind {s : Slot F} {m m' : Map F} (hkey : s.key ≠ key) (hs : ¬ s.Free) (h : Puts key new m m') :
      Puts key new (s :: m) (s :: m')

section

variable {cfg : Config} {key k : CStr} {m m' : Map F} {s s' : Slot F} {v : Value F} {arg : Value F} {a : Load F}

theorem ordered_init : Ordered (Map.init cfg : Map F) :=
  pairwise_replicate.mpr (.inr fun h => absurd rfl h)

theorem Ordered.free_of_free (h : Ordered (s :: m)) (hs : s.Free) : ∀ t ∈ m, t.Free := by
  intro t ht
  by_contra hused
  exact ((pairwise_cons.mp h).1 t ht hused).1 hs

/-- The first slot may become used, or change its value. -/
theorem Ordered.replace (h : Ordered (s :: m)) (hs' : s.Free ∨ (¬ s'.Free ∧ s'.key = s.key)) : Ordered (s' :: m) := by
  refine pairwise_cons.mpr ⟨fun t ht hused => ?_, (pairwise_cons.mp h).2⟩
  rcases hs' with hfree | ⟨hused', hkey⟩
  · exact absurd (h.free_of_free hfree t ht) hused
  · rw [hkey]
    exact ⟨hused', ((pairwise_cons.mp h).1 t ht hused).2⟩

/-- Behind a used slot with another key, slots with the key may come and others may become free. -/
theorem Ordered.behind (h : Ordered (s :: m)) (hs : ¬ s.Free) (hkey : s.key ≠ key) (hm' : Ordered m')
    (hmem : ∀ t ∈ m', t ∈ m ∨ t.key = key ∨ t.Free) : Ordered (s :: m') := by
  refine pairwise_cons.mpr ⟨fun t ht hused => ?_, hm'⟩
  rcases hmem t ht with hin | heq | hfree
  · exact (pairwise_cons.mp h).1 t hin hused
  · exact ⟨hs, heq ▸ hkey⟩
  · exact absurd hfree hused

theorem lookup_of_free (h : ∀ t ∈ m, t.Free) : lookup k m = none := by
  cases m with
  | nil => rfl
  | cons s m => rw [lookup, if_pos (h s mem_cons_self)]

theorem lookup_cons_used (hs : ¬ s.Free) : lookup k (s :: m) = if s.key = k then some s.value else lookup k m := by
  rw [lookup, if_neg hs]

theorem lookup_cons_free (hs : s.Free) : lookup k (s :: m) = none := by
  rw [lookup, if_pos hs]

theorem type_of_lookup (h : lookup k m = some v) : v.type ≠ .empty := by
  induction m with
  | nil => cases h
  | cons s m ih =>
    by_cases hs : s.Free
    · rw [lookup_cons_free hs] at h
      cases h
    rw [lookup_cons_used hs] at h
    split_ifs at h
    · cases h
      exact hs
    · exact ih h

theorem type_of_setValue {old : SettingType} (h : setValue cfg old arg = .ok v) : v.type ≠ .empty := by
  cases arg with
  | empty => cases h
  | string | _ =>
    rw [setValue] at h
    split_ifs at h
    cases h
    exact nofun

/-! ## Changing a slot -/

theorem puts_store : Puts key (v = ·) m (store key v m) := by
  induction m with
  | nil => exact .same []
  | cons s m ih =>
    rw [store]
    split_ifs with hfree hkey
    · exact .same _
    · rw [hkey]
      exact .set m (.inl hkey) rfl
    · exact .behind hkey hfree ih

theorem puts_createSlot : Puts key (setValue cfg arg.type arg = .ok ·) m (createSlot cfg key arg m).map := by
  induction m with
  | nil => exact .same []
  | cons s m ih =>
    rw [createSlot]
    split_ifs with hkey hfree
    · exact .same _
    · cases hset : setValue cfg arg.type arg with
      | error e => exact .free m hfree rfl
      | ok v => exact .set m (.inr hfree) rfl
    · exact .behind hkey hfree ih

theorem puts_assign : Puts key (a = .set ·) m (assign key a m) := by
  induction m with
  | nil => exact .same []
  | cons s m ih =>
    rw [assign]
    split_ifs with hslot
    · cases a with
      | set v => exact .set m hslot rfl
      | keep =>
        rw [loadSlot]
        split_ifs with hfree
        · exact .free m hfree hfree
        · obtain rfl := hslot.resolve_right hfree
          exact .same _
      | skip =>
        rcases hslot with rfl | hfree
        · exact .same _
        · exact .free m hfree hfree
    · rw [not_or] at hslot
      exact .behind hslot.1 hslot.2 ih

section

variable {new : Value F → Prop}

theorem Puts.mem (h : Puts key new m m') : ∀ t ∈ m', t ∈ m ∨ t.key = key ∨ t.Free := by
  induction h with
  | same m => exact fun t ht => .inl ht
  | set m hslot hv =>
    exact forall_mem_cons.mpr ⟨.inr (.inl rfl), fun t ht => .inl (mem_cons_of_mem _ ht)⟩
  | free m hs hs' =>
    exact forall_mem_cons.mpr ⟨.inr (.inr hs'), fun t ht => .inl (mem_cons_of_mem _ ht)⟩
  | behind hkey hs _ ih =>
    exact forall_mem_cons.mpr
      ⟨.inl mem_cons_self, fun t ht => (ih t ht).imp_left (mem_cons_of_mem _)⟩

theorem Puts.ordered (h : Puts key new m m') (hm : Ordered m) (hnew : ∀ v, new v → v.type ≠ .empty) : Ordered m' := by
  induction h with
  | same m => exact hm
  | set m hslot hv =>
    refine hm.replace ?_
    rcases hslot with hkey | hfree
    · exact .inr ⟨hnew _ hv, hkey.symm⟩
    · exact .inl hfree
  | free m hs hs' => exact hm.replace (.inl hs)
  | behind hkey hs hrest ih => exact hm.behind hs hkey (ih (pairwise_cons.mp hm).2) hrest.mem

theorem Puts.length_eq (h : Puts key new m m') : m'.length = m.length := by
  induction h with
  | same | set | free => rfl
  | behind hkey hs _ ih => exact congrArg (· + 1) ih

theorem Puts.forall_used {P : Slot F → Prop} (h : Puts key new m m') (hm : ∀ s ∈ m, ¬ s.Free → P s)
    (hnew : ∀ v, new v → P ⟨key, v⟩) : ∀ s ∈ m', ¬ s.Free → P s := by
  induction h with
  | same m => exact hm
  | set m hslot hv => exact forall_mem_cons.mpr ⟨fun _ => hnew _ hv, (forall_mem_cons.mp hm).2⟩
  | free m hs hs' =>
    exact forall_mem_cons.mpr ⟨fun hused => absurd hs' hused, (forall_mem_cons.mp hm).2⟩
  | behind hkey hs _ ih =>
    obtain ⟨hs, hrest⟩ := forall_mem_cons.mp hm
    exact forall_mem_cons.mpr ⟨hs, ih hrest⟩

end

/-! ## Storing -/

/-- A stored value is found, and others are found as before. -/
theorem lookup_store (hfound : (lookup key m).isSome) (hv : v.type ≠ .empty) :
    lookup k (store key v m) = if k = key then some v else lookup k m := by
  induction m with
  | nil => cases hfound
  | cons s m ih =>
    by_cases hfree : s.Free
    · rw [lookup_cons_free hfree] at hfound
      cases hfound
    rw [lookup_cons_used hfree] at hfound
    rw [store, if_neg hfree, lookup_cons_used hfree]
    by_cases hkey : s.key = key
    · rw [if_pos hkey, lookup_cons_used hv]
      simp only [hkey, eq_comm (a := k)]
      split_ifs <;> rfl
    rw [if_neg hkey] at hfound ⊢
    rw [lookup_cons_used hfree, ih hfound]
    by_cases hk : k = key
    · rw [if_pos hk, if_pos hk, if_neg (by rw [hk]; exact hkey)]
    · rw [if_neg hk, if_neg hk]

/-! ## Creating -/

/-- What is created is found, and others are found as before. -/
theorem lookup_createSlot (h : Ordered m) :
    (createSlot cfg key arg m).created = false ∧ (∀ k, lookup k (createSlot cfg key arg m).map = lookup k m) ∨
      (createSlot cfg key arg m).created = true ∧ (createSlot cfg key arg m).ret = .ok () ∧
        ∃ v, setValue cfg arg.type arg = .ok v ∧
          ∀ k, lookup k (createSlot cfg key arg m).map = if k = key then some v else lookup k m := by
  induction m with
  | nil => exact .inl ⟨rfl, fun _ => rfl⟩
  | cons s m ih =>
    by_cases hkey : s.key = key
    · rw [createSlot, if_pos hkey]
      exact .inl ⟨rfl, fun _ => rfl⟩
    by_cases hfree : s.Free
    · rw [createSlot, if_neg hkey, if_pos hfree]
      cases hset : setValue cfg arg.type arg with
      | error e => exact .inl ⟨rfl, fun k => (lookup_cons_free rfl).trans (lookup_cons_free hfree).symm⟩
      | ok v =>
        refine .inr ⟨rfl, rfl, v, rfl, fun k => ?_⟩
        rw [lookup_cons_used (type_of_setValue hset), lookup_cons_free hfree, lookup_of_free (h.free_of_free hfree)]
        simp only [eq_comm (a := k)]
    rw [createSlot, if_neg hkey, if_neg hfree]
    have hcons (k : CStr) (m : Map F) : lookup k (s :: m) = if s.key = k then some s.value else lookup k m :=
      lookup_cons_used hfree
    rcases ih (pairwise_cons.mp h).2 with ⟨hcreated, hlookup⟩ | ⟨hcreated, hret, v, hset, hlookup⟩
    · exact .inl ⟨hcreated, fun k => by rw [hcons, hcons, hlookup]⟩
    refine .inr ⟨hcreated, hret, v, hset, fun k => ?_⟩
    rw [hcons, hcons, hlookup]
    by_cases hk : k = key
    · rw [if_pos hk, if_pos hk, if_neg (by rw [hk]; exact hkey)]
    · rw [if_neg hk, if_neg hk]

/-! ## Loading -/

/-- The key has a slot, or there is one for it. -/
def HasRoom (key : CStr) (m : Map F) : Prop := ∃ s ∈ m, s.key = key ∨ s.Free

/-- What is found when a line has been loaded. -/
def Load.result (a : Load F) (old : Option (Value F)) : Option (Value F) :=
  match a with
  | .set v => some v
  | _ => old

theorem lookup_loadSlot_free (hs : s.Free) (hm : ∀ t ∈ m, t.Free) (ha : ∀ v, a = .set v → v.type ≠ .empty) :
    lookup k (loadSlot key a s :: m) = if key = k then a.result none else none := by
  cases a with
  | set v => rw [loadSlot, lookup_cons_used (ha v rfl), lookup_of_free hm, Load.result]
  | keep =>
    have hempty : lookup k (⟨[], s.value⟩ :: m) = none := lookup_cons_free hs
    rw [loadSlot, if_pos hs, hempty, Load.result, ite_self]
    exact fun v hv => (nomatch hv)
  | skip =>
    have hempty : lookup k (⟨key, s.value⟩ :: m) = none := lookup_cons_free hs
    rw [loadSlot, hempty, Load.result, ite_self]
    exact fun v hv => (nomatch hv)

theorem lookup_loadSlot_used (hs : ¬ s.Free) (ha : ∀ v, a = .set v → v.type ≠ .empty) :
    lookup k (loadSlot key a s :: m) = if key = k then a.result (some s.value) else lookup k m := by
  have hkept : lookup k (⟨key, s.value⟩ :: m) = if key = k then some s.value else lookup k m := lookup_cons_used hs
  cases a with
  | set v => rw [loadSlot, lookup_cons_used (ha v rfl), Load.result]
  | keep =>
    rw [loadSlot, if_neg hs, hkept]
    rfl
  | skip =>
    rw [loadSlot, hkept]
    rfl

/-- A line changes what is found for its key only. -/
theorem lookup_assign (h : Ordered m) (ha : ∀ v, a = .set v → v.type ≠ .empty) (hroom : HasRoom key m) :
    lookup k (assign key a m) = if key = k then a.result (lookup key m) else lookup k m := by
  induction m with
  | nil =>
    obtain ⟨s, hs, -⟩ := hroom
    cases hs
  | cons s m ih =>
    rw [assign]
    by_cases hfree : s.Free
    · -- the line is for the first free slot
      rw [if_pos (.inr hfree), lookup_cons_free hfree, lookup_cons_free hfree,
        lookup_loadSlot_free hfree (h.free_of_free hfree) ha]
    rw [lookup_cons_used hfree, lookup_cons_used hfree]
    by_cases hkey : s.key = key
    · rw [if_pos (.inl hkey), if_pos hkey, lookup_loadSlot_used hfree ha, hkey]
      split_ifs <;> rfl
    have hno : ¬ (s.key = key ∨ s.Free) := fun hc => hc.elim hkey hfree
    have hroom' : HasRoom key m := by
      obtain ⟨t, ht, hslot⟩ := hroom
      rcases mem_cons.mp ht with rfl | ht
      · exact absurd hslot hno
      · exact ⟨t, ht, hslot⟩
    rw [if_neg hno, if_neg hkey, lookup_cons_used hfree, ih (pairwise_cons.mp h).2 hroom']
    by_cases hk : key = k
    · rw [if_pos hk, if_pos hk, if_neg (by rw [← hk]; exact hkey)]
    · rw [if_neg hk, if_neg hk]

/-! ## What holds of every used slot -/

variable {P : Slot F → Prop}

theorem forall_used_store (hm : ∀ s ∈ m, ¬ s.Free → P s) (hnew : ∀ s, P s → P { s with value := v }) :
    ∀ s ∈ store key v m, ¬ s.Free → P s := by
  induction m with
  | nil => exact hm
  | cons s m ih =>
    obtain ⟨hs, hrest⟩ := forall_mem_cons.mp hm
    rw [store]
    split_ifs with hfree hkey
    · exact hm
    · exact forall_mem_cons.mpr ⟨fun _ => hnew s (hs hfree), hrest⟩
    · exact forall_mem_cons.mpr ⟨hs, ih hrest⟩

end

end System.Settings
