-- SUMMARY: Settings as lines of text, and which of them come back.
import FruitClawApps.Lib.Decimal
import FruitClawApps.Lib.Transition
import FruitClawApps.System.Settings.Map
import Mathlib.Data.List.DropRight
import Mathlib.Data.Nat.Digits.Defs

/-!
# Text storage

`storage_text.c` writes a line `key=value` for each setting, and guesses the type from the value
when it loads the line. A string comes back only if it starts with a letter and is not `true` or
`false`.
-/

namespace System.Settings

open Transition List

variable {F : Type} (ops : FloatOps F) (cfg : Config)

/-! ## Loading -/

/-- The characters that are taken off the end of a line. -/
def isTerminator (c : Char) : Bool := c == ';' || c == '\n' || c == '\r'

/-- The first character always stays. -/
def stripTerminators : CStr → CStr
  | [] => []
  | c :: line => c :: line.rdropWhile isTerminator

/-- The value of a line. The address is not specified if the text is none. -/
def loadValue (val : CStr) : Load F :=
  if val.head?.any isalpha then
    if equalsNoCase val "true".toList then .set (.bool true)
    else if equalsNoCase val "false".toList then .set (.bool false)
    else if val.length ≥ cfg.valueSize then .skip
    else .set (.string val)
  else if '.' ∈ val then
    if val.count '.' = 1 then
      match ops.scan val with
      | some d => .set (.float d)
      | none => .keep
    else if val.count '.' = 3 then .set (.ipAddr ((inetPton val).getD ⟨0, 0, 0, 0⟩))
    else .keep
  else
    match strtoSubject 10 val with
    | some _ => .set (.int (Int32.ofInt (strtol 10 val).1))
    | none => .keep

/-- The key of a line and what is to be done with its slot. -/
def parseLine (line : CStr) : Option (CStr × Load F) :=
  match strchrCut '=' (stripTerminators line) with
  | (_, none) => none
  | (key, some val) =>
    if !key.head?.any isalpha ∨ key.length ≥ cfg.keySize then none else some (key, loadValue ops cfg val)

def loadLine (m : Map F) (line : CStr) : Map F :=
  match parseLine ops cfg line with
  | none => m
  | some (key, a) => assign key a m

/-- `BUFFER_SIZE`. -/
abbrev bufferSize : Nat := 256

/-- `load_text` of a file with this content. -/
def loadText (text : List Char) (m : Map F) : Map F := (fgetsLines (bufferSize - 1) text).foldl (loadLine ops cfg) m

/-! ## Saving -/

def valueText : Value F → CStr
  | .empty => []
  | .int i => formatInt i.toInt
  | .bool b => if b then "true".toList else "false".toList
  | .float f => ops.print f
  | .string s => s
  | .ipAddr ip => inetNtop ip

def Slot.body (s : Slot F) : CStr := s.key ++ '=' :: valueText ops s.value

def Slot.line (s : Slot F) : CStr := s.body ops ++ ['\n']

def usedSlots (m : Map F) : Map F := m.takeWhile fun s => s.value.type ≠ .empty

/-- The content that `save_text` gives the file. -/
def saveText (m : Map F) : List Char := (usedSlots m).flatMap (Slot.line ops)

/-! ## Reading lines back -/

theorem fgetsLines_go {room left : Nat} {acc body : List Char} (hnl : '\n' ∉ body) (hlen : body.length < left)
    (rest : List Char) :
    fgetsLines.go room left acc (body ++ '\n' :: rest) =
      CStr.ofMem (acc.reverse ++ body ++ ['\n']) :: fgetsLines.go room room [] rest := by
  induction body generalizing left acc with
  | nil =>
    rw [nil_append, fgetsLines.go, if_pos (.inl rfl), reverse_cons, append_nil]
  | cons c body ih =>
    rw [mem_cons, not_or] at hnl
    rw [length_cons] at hlen
    have hmore : ¬ (c = '\n' ∨ left ≤ 1) := not_or.mpr ⟨Ne.symm hnl.1, by omega⟩
    rw [cons_append, fgetsLines.go, if_neg hmore, ih hnl.2 (by omega), reverse_cons]
    simp only [append_assoc, cons_append, nil_append]

/-- Lines that fit the buffer are read one by one. -/
theorem fgetsLines_flatMap {α : Type} {room : Nat} {body : α → List Char} {xs : List α}
    (h : ∀ x ∈ xs, '\n' ∉ body x ∧ '\x00' ∉ body x ∧ (body x).length < room) :
    fgetsLines room (xs.flatMap fun x => body x ++ ['\n']) = xs.map fun x => body x ++ ['\n'] := by
  rw [fgetsLines]
  induction xs with
  | nil => rfl
  | cons x xs ih =>
    obtain ⟨⟨hnl, hnul, hlen⟩, hrest⟩ := forall_mem_cons.mp h
    have hmem : CStr.ofMem (body x ++ ['\n']) = body x ++ ['\n'] := CStr.ofMem_eq_self (by simp [hnul])
    rw [flatMap_cons, append_assoc, singleton_append, fgetsLines_go hnl hlen, ih hrest, reverse_nil,
      nil_append, hmem, map_cons]

/-! ## Settings that can be written -/

variable {ops cfg} {c : Char} {s : Slot F} {m : Map F} {v : Value F}

/-- A text with no terminator in it. -/
def Clean (s : CStr) : Prop := '\n' ∉ s ∧ '\r' ∉ s ∧ ';' ∉ s ∧ '\x00' ∉ s

instance (s : CStr) : Decidable (Clean s) := inferInstanceAs (Decidable (_ ∧ _ ∧ _ ∧ _))

/-- What `settings_create` and `settings_set` put into a slot. -/
structure WellFormed (cfg : Config) (s : Slot F) : Prop where
  key : ValidKey cfg s.key
  noNul : '\x00' ∉ s.key
  string : ∀ str, s.value = .string str → str.length < cfg.valueSize ∧ Clean str

theorem clean_of_sanityCheck {s : CStr} (h : sanityCheck s = true) (hnul : '\x00' ∉ s) : Clean s := by
  simp only [sanityCheck, decide_eq_true_eq] at h
  exact ⟨h.2.2.1, h.2.2.2, h.2.1, hnul⟩

theorem Clean.append {s t : CStr} (hs : Clean s) (ht : Clean t) : Clean (s ++ t) := by
  obtain ⟨h₁, h₂, h₃, h₄⟩ := hs
  obtain ⟨h₁', h₂', h₃', h₄'⟩ := ht
  simp only [Clean, mem_append, not_or]
  exact ⟨⟨h₁, h₁'⟩, ⟨h₂, h₂'⟩, ⟨h₃, h₃'⟩, ⟨h₄, h₄'⟩⟩

theorem clean_formatInt (i : Int) : Clean (formatInt i) :=
  ⟨not_mem_formatInt (by decide) (by decide) i, not_mem_formatInt (by decide) (by decide) i,
    not_mem_formatInt (by decide) (by decide) i, not_mem_formatInt (by decide) (by decide) i⟩

theorem Clean.cons {s : CStr} (hc : Clean [c]) (hs : Clean s) : Clean (c :: s) := hc.append hs

variable (ip : InAddr)

theorem clean_inetNtop : Clean (inetNtop ip) := by
  have hdot : Clean ['.'] := by decide
  exact (clean_formatInt _).append (hdot.cons ((clean_formatInt _).append (hdot.cons
    ((clean_formatInt _).append (hdot.cons (clean_formatInt _))))))

theorem stripTerminators_line {body : CStr} (h : Clean (c :: body)) :
    stripTerminators (c :: body ++ ['\n']) = c :: body := by
  have hlast : body.rdropWhile isTerminator = body := by
    refine rdropWhile_eq_self_iff.mpr fun hne hterm => ?_
    have hmem := mem_cons_of_mem c (getLast_mem hne)
    obtain ⟨hn, hr, hs, -⟩ := h
    simp only [isTerminator, Bool.or_eq_true, beq_iff_eq] at hterm
    rcases hterm with (heq | heq) | heq
    · exact hs (heq ▸ hmem)
    · exact hn (heq ▸ hmem)
    · exact hr (heq ▸ hmem)
  rw [cons_append, stripTerminators, rdropWhile_concat_pos _ _ _ (by decide), hlast]

/-- A written line is taken apart again. -/
theorem parseLine_line (hs : WellFormed cfg s) (hvalue : Clean (valueText ops s.value)) :
    parseLine ops cfg (s.line ops) = some (s.key, loadValue ops cfg (valueText ops s.value)) := by
  obtain ⟨hne, hlen, halpha, hsane⟩ := hs.key
  have hclean : Clean (s.body ops) := by
    have heq : Clean ['='] := by decide
    exact (clean_of_sanityCheck hsane hs.noNul).append (heq.cons hvalue)
  have hkey : '=' ∉ s.key := by
    simp only [sanityCheck, decide_eq_true_eq] at hsane
    exact hsane.1
  have hstrip : stripTerminators (s.line ops) = s.body ops := by
    obtain ⟨c, rest, hcons⟩ := exists_cons_of_ne_nil hne
    rw [Slot.body, hcons, cons_append] at hclean
    rw [Slot.line, Slot.body, hcons, cons_append]
    exact stripTerminators_line hclean
  obtain ⟨c, hhead⟩ : ∃ c, s.key.head? = some c := by
    obtain ⟨c, rest, hcons⟩ := exists_cons_of_ne_nil hne
    exact ⟨c, by rw [hcons]; rfl⟩
  have hok : ¬ ((!s.key.head?.any isalpha) = true ∨ s.key.length ≥ cfg.keySize) := by
    rw [hhead]
    simp [halpha c hhead, hlen]
  rw [parseLine, hstrip, Slot.body, strchrCut_append hkey]
  simp only
  rw [if_neg hok]

/-! ## Values that come back -/

/-- The text of the value is loaded as this value. Every integer, boolean and address is. -/
def Readable (ops : FloatOps F) : Value F → Prop
  | .empty => False
  | .int _ => True
  | .bool _ => True
  | .float f => Clean (ops.print f) ∧ ¬ (ops.print f).head?.any isalpha ∧ (ops.print f).count '.' = 1 ∧
      ops.scan (ops.print f) = some f
  | .string s => s.head?.any isalpha ∧ ¬ equalsNoCase s "true".toList ∧ ¬ equalsNoCase s "false".toList
  | .ipAddr _ => True

instance [DecidableEq F] : DecidablePred (Readable ops)
  | .empty => inferInstanceAs (Decidable False)
  | .int _ => inferInstanceAs (Decidable True)
  | .bool _ => inferInstanceAs (Decidable True)
  | .float _ => inferInstanceAs (Decidable (_ ∧ _ ∧ _ ∧ _))
  | .string _ => inferInstanceAs (Decidable (_ ∧ _ ∧ _))
  | .ipAddr _ => inferInstanceAs (Decidable True)

theorem octet_formatInt (n : UInt8) : octet (formatInt n.toNat) = some n := by
  have hlt : n.toNat < 256 := n.toNat_lt
  have hformat : formatInt n.toNat = Nat.toDigits 10 n.toNat := by
    rw [formatInt, if_neg (by omega), Int.natAbs_natCast]
  have hdigits : (Nat.toDigits 10 n.toNat).all Char.isDigit = true :=
    all_eq_true.mpr fun c hc => Nat.isDigit_of_mem_toDigits (by decide) (by decide) hc
  have hlen : (Nat.toDigits 10 n.toNat).length ≤ 3 := Nat.toDigits_length 10 _ 3 (by decide) (by omega)
  rw [octet, hformat, if_pos ⟨Nat.toDigits_ne_nil, hlen, hdigits⟩, scanDigits_toDigits]
  rw [if_pos (by omega), UInt8.ofNat_toNat]

theorem inetPton_inetNtop : inetPton (inetNtop ip) = some ip := by
  have hdot (n : Nat) : ∀ c ∈ formatInt n, decide (c = '.') = false := fun c hc =>
    decide_eq_false fun heq => not_mem_formatInt (by decide) (by decide) (n : Int) (heq ▸ hc)
  have hsplit : (inetNtop ip).splitOnP (· = '.') =
      [formatInt ip.a.toNat, formatInt ip.b.toNat, formatInt ip.c.toNat, formatInt ip.d.toNat] := by
    rw [inetNtop, splitOnP_append_cons_of_forall_mem (hdot _) '.' (by decide),
      splitOnP_append_cons_of_forall_mem (hdot _) '.' (by decide),
      splitOnP_append_cons_of_forall_mem (hdot _) '.' (by decide), splitOnP_eq_singleton (hdot _)]
  rw [inetPton, hsplit]
  simp only [octet_formatInt]

theorem not_isalpha_of_number (h : c = '-' ∨ c.isDigit = true) : isalpha c = false := by
  rcases h with rfl | h
  · rfl
  simp only [Char.isDigit, Bool.and_eq_true, decide_eq_true_eq, UInt32.le_iff_toNat_le] at h
  have h9 : '9'.val.toNat = 57 := rfl
  change (decide ('A'.val ≤ c.val ∧ c.val ≤ 'Z'.val) || decide ('a'.val ≤ c.val) && decide (c.val ≤ 'z'.val)) = false
  simp only [Bool.or_eq_false_iff, Bool.and_eq_false_iff, decide_eq_false_iff_not, UInt32.le_iff_toNat_le]
  have hA : 'A'.val.toNat = 65 := rfl
  have ha : 'a'.val.toNat = 97 := rfl
  omega

theorem head_formatInt_append (i : Int) (rest : CStr) : (formatInt i ++ rest).head?.any isalpha = false := by
  obtain ⟨c, t, hct, hc⟩ := formatInt_start i
  rw [hct, cons_append, head?_cons, Option.any_some, not_isalpha_of_number hc]

theorem loadValue_int (i : Int32) : loadValue ops cfg (formatInt i.toInt) = .set (.int i) := by
  have hhead : (formatInt i.toInt).head?.any isalpha = false := by
    rw [← append_nil (formatInt i.toInt)]
    exact head_formatInt_append _ _
  have hdot : '.' ∉ formatInt i.toInt := not_mem_formatInt (by decide) (by decide) _
  have hscan := strtol_formatInt i.minValue_le_toInt i.toInt_le
  rw [loadValue, hhead, if_neg Bool.false_ne_true, if_neg hdot, strtoSubject_formatInt, hscan]
  simp only [Int32.ofInt_toInt]

theorem clean_bool (b : Bool) : Clean (if b then "true".toList else "false".toList) := by
  cases b <;> decide

theorem loadValue_bool (b : Bool) :
    loadValue ops cfg (if b then "true".toList else "false".toList) = .set (.bool b) := by
  cases b <;> rfl

theorem count_inetNtop : (inetNtop ip).count '.' = 3 := by
  have hcount (n : Nat) : (formatInt n).count '.' = 0 :=
    count_eq_zero.mpr (not_mem_formatInt (by decide) (by decide) (n : Int))
  simp only [inetNtop, count_append, count_cons_self, hcount]

theorem loadValue_ipAddr : loadValue ops cfg (inetNtop ip) = .set (.ipAddr ip) := by
  have hhead : (inetNtop ip).head?.any isalpha = false := head_formatInt_append _ _
  have hcount := count_inetNtop ip
  have hdot : '.' ∈ inetNtop ip := count_pos_iff.mp (by omega)
  rw [loadValue, hhead, if_neg Bool.false_ne_true, if_pos hdot, hcount, if_neg (by decide), if_pos rfl,
    inetPton_inetNtop, Option.getD_some]

/-- The value of a setting comes back if it is readable. -/
theorem loadValue_of_readable (hs : WellFormed cfg s) (h : Readable ops s.value) :
    Clean (valueText ops s.value) ∧ loadValue ops cfg (valueText ops s.value) = .set s.value := by
  cases hvalue : s.value with
  | empty =>
    rw [hvalue] at h
    cases h
  | int i => exact ⟨clean_formatInt _, loadValue_int i⟩
  | bool b => exact ⟨clean_bool b, loadValue_bool b⟩
  | float f =>
    rw [hvalue] at h
    obtain ⟨hclean, halpha, hcount, hscan⟩ := h
    have hdot : '.' ∈ ops.print f := count_pos_iff.mp (by omega)
    refine ⟨hclean, ?_⟩
    rw [valueText, loadValue, if_neg halpha, if_pos hdot, if_pos hcount, hscan]
  | string str =>
    rw [hvalue] at h
    obtain ⟨halpha, htrue, hfalse⟩ := h
    obtain ⟨hlen, hclean⟩ := hs.string str hvalue
    refine ⟨hclean, ?_⟩
    rw [valueText, loadValue, if_pos halpha, if_neg htrue, if_neg hfalse, if_neg (by omega)]
  | ipAddr ip => exact ⟨clean_inetNtop ip, loadValue_ipAddr ip⟩

theorem readable_of_loadValue {str : CStr} (h : loadValue ops cfg str = .set (.string str)) :
    Readable ops (.string str) := by
  rw [loadValue] at h
  split_ifs at h with halpha htrue hfalse hlen
  · cases h
  · cases h
  · exact ⟨halpha, htrue, hfalse⟩
  · split at h <;> cases h
  · cases h
  · split at h <;> cases h

/-! ## Loading several lines -/

/-- The line of a setting fits the buffer of the loader. -/
def Fits (ops : FloatOps F) (s : Slot F) : Prop := (s.line ops).length < bufferSize

instance (s : Slot F) : Decidable (Fits ops s) := inferInstanceAs (Decidable (_ < _))

/-- The lines of a saved file are those of the used slots. -/
theorem fgetsLines_saveText (h : ∀ s ∈ usedSlots m, WellFormed cfg s ∧ Clean (valueText ops s.value) ∧ Fits ops s) :
    fgetsLines (bufferSize - 1) (saveText ops m) = (usedSlots m).map (Slot.line ops) := by
  refine fgetsLines_flatMap fun s hs => ?_
  obtain ⟨hwf, hvalue, hfits⟩ := h s hs
  have heq : Clean ['='] := by decide
  obtain ⟨hn, -, -, hnul⟩ := (clean_of_sanityCheck hwf.key.2.2.2 hwf.noNul).append (heq.cons hvalue)
  refine ⟨hn, hnul, ?_⟩
  rw [Fits, Slot.line, length_append, length_singleton] at hfits
  omega

/-- Loading what was saved assigns the used slots, one by one. -/
theorem loadText_saveText (m₀ : Map F)
    (h : ∀ s ∈ usedSlots m, WellFormed cfg s ∧ Clean (valueText ops s.value) ∧ Fits ops s) :
    loadText ops cfg (saveText ops m) m₀ =
      (usedSlots m).foldl (fun m₀ s => assign s.key (loadValue ops cfg (valueText ops s.value)) m₀) m₀ := by
  rw [loadText, fgetsLines_saveText h, foldl_map]
  generalize usedSlots m = used at h
  induction used generalizing m₀ with
  | nil => rfl
  | cons s used ih =>
    obtain ⟨⟨hwf, hvalue, -⟩, hrest⟩ := forall_mem_cons.mp h
    rw [foldl_cons, foldl_cons, loadLine, parseLine_line hwf hvalue]
    exact ih _ hrest

theorem usedSlots_cons_used (h : ¬ s.Free) (m : Map F) : usedSlots (s :: m) = s :: usedSlots m :=
  takeWhile_cons_of_pos (decide_eq_true h)

theorem usedSlots_cons_free (h : s.Free) (m : Map F) : usedSlots (s :: m) = [] :=
  takeWhile_cons_of_neg fun hc => of_decide_eq_true hc h

theorem lookup_eq_find (k : CStr) (m : Map F) : lookup k m = ((usedSlots m).find? (·.key = k)).map Slot.value := by
  induction m with
  | nil => rfl
  | cons s m ih =>
    by_cases hfree : s.Free
    · rw [lookup_cons_free hfree, usedSlots_cons_free hfree]
      rfl
    rw [lookup_cons_used hfree, usedSlots_cons_used hfree, find?_cons]
    by_cases hkey : s.key = k
    · rw [if_pos hkey, decide_eq_true hkey]
      rfl
    · rw [if_neg hkey, decide_eq_false hkey]
      exact ih

theorem mem_of_mem_usedSlots (h : s ∈ usedSlots m) : s ∈ m ∧ ¬ s.Free :=
  ⟨(List.takeWhile_prefix _).subset h, by simpa using mem_takeWhile_imp h⟩

theorem Ordered.distinct (h : Ordered m) : (usedSlots m).Pairwise fun s t => s.key ≠ t.key := by
  refine (List.Pairwise.sublist (takeWhile_sublist _) h).imp_of_mem fun _ ht hst => ?_
  exact (hst (mem_of_mem_usedSlots ht).2).2

/-- There are slots for all keys: as many as are needed are free, or the keys are there. -/
def Room (used m : Map F) : Prop :=
  used.length ≤ m.countP (fun s => s.value.type = .empty) ∨ ∀ s ∈ used, (lookup s.key m).isSome

theorem Puts.countP_le {key : CStr} {new : Value F → Prop} {m' : Map F} (h : Puts key new m m') :
    m.countP (fun s => s.value.type = .empty) ≤ m'.countP (fun s => s.value.type = .empty) + 1 := by
  induction h with
  | same m => exact Nat.le_succ _
  | set | free =>
    rw [countP_cons, countP_cons]
    split_ifs <;> omega
  | behind hkey hs _ ih =>
    rw [countP_cons, countP_cons]
    omega

theorem hasRoom_of_free {key : CStr} (h : 0 < m.countP (fun s => s.value.type = .empty)) : HasRoom key m := by
  obtain ⟨s, hs, hfree⟩ := countP_pos_iff.mp h
  exact ⟨s, hs, .inr (of_decide_eq_true hfree)⟩

theorem hasRoom_of_lookup {key : CStr} (h : (lookup key m).isSome) : HasRoom key m := by
  rw [lookup_eq_find, Option.isSome_map] at h
  obtain ⟨s, hs⟩ := Option.isSome_iff_exists.mp h
  have hkey : s.key = key := by simpa using find?_some hs
  exact ⟨s, (mem_of_mem_usedSlots (mem_of_find?_eq_some hs)).1, .inl hkey⟩

section

variable {act : Slot F → Load F} {m used : Map F}

theorem Room.head {s : Slot F} (h : Room (s :: used) m) : HasRoom s.key m := by
  rcases h with hfree | hkeys
  · rw [length_cons] at hfree
    exact hasRoom_of_free (by omega)
  · exact hasRoom_of_lookup (hkeys s mem_cons_self)

theorem Room.tail {s : Slot F} {a : Load F} (hm : Ordered m) (ha : ∀ v, a = .set v → v.type ≠ .empty)
    (h : Room (s :: used) m) : Room used (assign s.key a m) := by
  have hroom := h.head
  rcases h with hfree | hkeys
  · have hcount := (puts_assign : Puts s.key (a = .set ·) m _).countP_le
    rw [length_cons] at hfree
    exact .inl (by omega)
  refine .inr fun t ht => ?_
  have hs := hkeys s mem_cons_self
  rw [lookup_assign hm ha hroom]
  split_ifs
  · cases a with
    | set v => rfl
    | keep | skip => exact hs
  · exact hkeys t (mem_cons_of_mem s ht)

theorem lookup_foldl_assign (hm : Ordered m) (hact : ∀ s v, act s = .set v → v.type ≠ .empty) (hroom : Room used m)
    (hdistinct : used.Pairwise fun s t => s.key ≠ t.key) (k : CStr) :
    lookup k (used.foldl (fun m s => assign s.key (act s) m) m) =
      match used.find? (·.key = k) with
      | some s => (act s).result (lookup k m)
      | none => lookup k m := by
  induction used generalizing m with
  | nil => rfl
  | cons s used ih =>
    obtain ⟨hother, hrest⟩ := pairwise_cons.mp hdistinct
    rw [foldl_cons, ih (puts_assign.ordered hm (hact s)) (hroom.tail hm (hact s)) hrest, find?_cons,
      lookup_assign hm (hact s) hroom.head]
    by_cases hkey : s.key = k
    · -- no other line is for this key
      have hnone : used.find? (·.key = k) = none :=
        find?_eq_none.mpr fun t ht htk => hother t ht (hkey.trans (of_decide_eq_true htk).symm)
      rw [hnone, decide_eq_true hkey, if_pos hkey, hkey]
    · rw [decide_eq_false hkey, if_neg hkey]

end

theorem type_of_loadValue {val : CStr} (h : loadValue ops cfg val = .set v) : v.type ≠ .empty := by
  rw [loadValue] at h
  split_ifs at h
  · cases h
    exact nofun
  · cases h
    exact nofun
  · cases h
    exact nofun
  · split at h <;> cases h
    exact nofun
  · cases h
    exact nofun
  · split at h <;> cases h
    exact nofun

/-! ## Maps that the calls make -/

/-- The calls that change the map. -/
inductive Call (F : Type) where
  | create (key : CStr) (arg : Value F)
  | set (key : CStr) (arg : Value F)

def Call.apply (cfg : Config) (m : Map F) : Call F → Map F
  | .create key arg => (settingsCreate cfg key arg m).map
  | .set key arg => (settingsSet cfg key arg m).2

theorem not_nul_mem_ofMem (mem : List Char) : '\x00' ∉ CStr.ofMem mem := fun h => by
  simpa using mem_takeWhile_imp h

theorem setValue_string {old : SettingType} {arg : Value F} (h : setValue cfg old arg = .ok v) :
    ∀ str, v = .string str → str.length < cfg.valueSize ∧ Clean str := by
  rintro str rfl
  cases arg with
  | string s =>
    rw [setValue] at h
    split_ifs at h with htype hlen hsane
    cases h
    refine ⟨by omega, ?_⟩
    by_cases hempty : CStr.ofMem s = []
    · rw [hempty]
      decide
    refine clean_of_sanityCheck ?_ (not_nul_mem_ofMem s)
    by_contra hno
    exact hsane ⟨hempty, by simpa using hno⟩
  | empty => cases h
  | _ =>
    rw [setValue] at h
    split_ifs at h
    cases h

/-- The used slots are as the calls fill them. -/
def Filled (cfg : Config) (m : Map F) : Prop := ∀ s ∈ m, ¬ s.Free → WellFormed cfg s

/-- What holds of every map that the calls make. -/
structure Sound (cfg : Config) (m : Map F) : Prop where
  ordered : Ordered m
  filled : Filled cfg m
  length : m.length = cfg.mapSize

theorem sound_init : Sound cfg (Map.init cfg : Map F) where
  ordered := ordered_init
  filled := fun s hs hused => absurd (by rw [eq_of_mem_replicate hs]; rfl) hused
  length := length_replicate

theorem Sound.settingsSet (h : Sound cfg m) (key : CStr) (arg : Value F) : Sound cfg (settingsSet cfg key arg m).2 := by
  rw [Settings.settingsSet]
  split
  · exact h
  split
  · exact h
  rename_i v hset
  have hfilled : Filled cfg (store (CStr.ofMem key) v m) :=
    forall_used_store h.filled fun _ hs => ⟨hs.key, hs.noNul, setValue_string hset⟩
  exact ⟨puts_store.ordered h.ordered fun _ hv => hv ▸ type_of_setValue hset, hfilled,
    puts_store.length_eq.trans h.length⟩

theorem Sound.settingsCreate (h : Sound cfg m) (key : CStr) (arg : Value F) :
    Sound cfg (settingsCreate cfg key arg m).map := by
  rw [Settings.settingsCreate]
  split_ifs with hargs
  · exact h
  rw [not_or, not_not] at hargs
  have hfilled : Filled cfg (createSlot cfg (CStr.ofMem key) arg m).map :=
    puts_createSlot.forall_used h.filled fun _ hset => ⟨hargs.2, not_nul_mem_ofMem _, setValue_string hset⟩
  exact ⟨puts_createSlot.ordered h.ordered fun _ => type_of_setValue, hfilled,
    puts_createSlot.length_eq.trans h.length⟩

theorem sound_run (calls : List (Call F)) : Sound cfg (run (Call.apply cfg) (Map.init cfg) calls) := by
  refine run_invariant (fun m call hm => ?_) sound_init calls
  cases call with
  | create key arg => exact hm.settingsCreate key arg
  | set key arg => exact hm.settingsSet key arg

/-! ## The round trip -/

theorem clean_valueText (hs : WellFormed cfg s) (hfloat : s.value.type ≠ .float) : Clean (valueText ops s.value) := by
  cases hvalue : s.value with
  | empty => exact (by decide : Clean [])
  | int i => exact clean_formatInt _
  | bool b => exact clean_bool b
  | float f =>
    rw [hvalue] at hfloat
    exact absurd rfl hfloat
  | string str => exact (hs.string str hvalue).2
  | ipAddr ip => exact clean_inetNtop ip

theorem loadValue_iff_readable (hs : WellFormed cfg s) (hused : ¬ s.Free) (hfloat : s.value.type ≠ .float) :
    loadValue ops cfg (valueText ops s.value) = .set s.value ↔ Readable ops s.value := by
  refine ⟨fun h => ?_, fun h => (loadValue_of_readable hs h).2⟩
  cases hvalue : s.value with
  | empty =>
    rw [Slot.Free, hvalue] at hused
    exact absurd rfl hused
  | int | bool => trivial
  | float f =>
    rw [hvalue] at hfloat
    exact absurd rfl hfloat
  | string str =>
    rw [hvalue] at h
    exact readable_of_loadValue h
  | ipAddr ip => trivial

theorem lookup_init (k : CStr) : lookup k (Map.init cfg : Map F) = none :=
  lookup_of_free fun s hs => by rw [eq_of_mem_replicate hs]; rfl

theorem Load.result_none {a : Load F} : a.result none = some v ↔ a = .set v := by
  cases a with
  | set w => exact ⟨fun h => congrArg Load.set (Option.some.inj h), fun h => congrArg some (Load.set.inj h)⟩
  | keep => exact ⟨nofun, nofun⟩
  | skip => exact ⟨nofun, nofun⟩

/-- An empty map has a slot for every setting of another map. -/
theorem Sound.room_init (h : Sound cfg m) : Room (usedSlots m) (Map.init cfg) := by
  left
  have hfree : (Map.init cfg : Map F).countP (fun s => s.value.type = .empty) = cfg.mapSize := by
    rw [Map.init, countP_replicate]
    rfl
  rw [hfree, ← h.length]
  exact (takeWhile_sublist _).length_le

theorem find_of_mem_usedSlots (hm : Ordered m) (hs : s ∈ usedSlots m) :
    (usedSlots m).find? (·.key = s.key) = some s := by
  have hdistinct := hm.distinct
  generalize usedSlots m = used at hs hdistinct
  induction used with
  | nil => cases hs
  | cons t used ih =>
    obtain ⟨hother, hrest⟩ := pairwise_cons.mp hdistinct
    rw [find?_cons]
    rcases mem_cons.mp hs with rfl | hs
    · rw [decide_eq_true rfl]
    · rw [decide_eq_false (hother s hs)]
      exact ih hs hrest

/-- What is found in an empty map after the file of another one has been loaded into it. -/
theorem Sound.lookup_reload (h : Sound cfg m) (hfloat : ∀ s ∈ usedSlots m, s.value.type ≠ .float)
    (hfits : ∀ s ∈ usedSlots m, Fits ops s) (k : CStr) : lookup k (loadText ops cfg (saveText ops m) (Map.init cfg)) =
      match (usedSlots m).find? (·.key = k) with
      | some s => (loadValue ops cfg (valueText ops s.value)).result none
      | none => none := by
  have hlines : ∀ s ∈ usedSlots m, WellFormed cfg s ∧ Clean (valueText ops s.value) ∧ Fits ops s := fun s hs => by
    obtain ⟨hin, hused⟩ := mem_of_mem_usedSlots hs
    have hwf := h.filled s hin hused
    exact ⟨hwf, clean_valueText hwf (hfloat s hs), hfits s hs⟩
  rw [loadText_saveText _ hlines, lookup_foldl_assign ordered_init (fun _ _ => type_of_loadValue) h.room_init
    h.ordered.distinct, lookup_init]

/-- Settings without floating-point numbers come back from their file if and only if their strings
start with a letter and are neither `true` nor `false`. -/
theorem lookup_reload_iff_readable (calls : List (Call F)) {m : Map F}
    (hm : m = run (Call.apply cfg) (Map.init cfg) calls) (hfloat : ∀ s ∈ usedSlots m, s.value.type ≠ .float)
    (hfits : ∀ s ∈ usedSlots m, Fits ops s) :
    (∀ k, lookup k (loadText ops cfg (saveText ops m) (Map.init cfg)) = lookup k m) ↔
      ∀ s ∈ usedSlots m, Readable ops s.value := by
  have hsound : Sound cfg m := hm ▸ sound_run calls
  have hload : ∀ s ∈ usedSlots m,
      (loadValue ops cfg (valueText ops s.value) = .set s.value ↔ Readable ops s.value) := fun s hs => by
    obtain ⟨hin, hused⟩ := mem_of_mem_usedSlots hs
    exact loadValue_iff_readable (hsound.filled s hin hused) hused (hfloat s hs)
  constructor
  · intro h s hs
    have hkey := h s.key
    rw [hsound.lookup_reload hfloat hfits, lookup_eq_find, find_of_mem_usedSlots hsound.ordered hs] at hkey
    exact (hload s hs).mp (Load.result_none.mp hkey)
  intro h k
  rw [hsound.lookup_reload hfloat hfits, lookup_eq_find]
  cases hfind : (usedSlots m).find? (·.key = k) with
  | none => rfl
  | some s =>
    have hs := mem_of_find?_eq_some hfind
    exact Load.result_none.mpr ((hload s hs).mpr (h s hs))

/-- Numbers without a fraction. -/
def wholeNumbers : FloatOps Int32 where
  ofInt := id
  toInt := id
  print i := formatInt i.toInt ++ ".000000".toList
  scan s := (strtoSubject 10 s).map fun _ => Int32.ofInt (strtol 10 s).1

/-- The sizes that `Kconfig` has. -/
def defaultConfig : Config := ⟨20, 20, 20⟩

/-- A host name, a port and an address come back. -/
theorem lookup_reload_network :
    let m := run (Call.apply defaultConfig) (Map.init defaultConfig)
      [.create "host".toList (.string "gateway".toList), .create "port".toList (.int 80),
        .create "address".toList (.ipAddr ⟨10, 0, 0, 2⟩), .set "port".toList (.int (-1))]
    ∀ k, lookup k (loadText wholeNumbers defaultConfig (saveText wholeNumbers m) (Map.init defaultConfig)) =
      lookup k m :=
  (lookup_reload_iff_readable _ rfl (by decide) (by decide)).mpr (by decide)

/-- The string `true` comes back as a boolean. -/
theorem not_lookup_reload_true :
    let m := run (Call.apply defaultConfig) (Map.init defaultConfig)
      [.create "mode".toList (.string "true".toList)]
    lookup "mode".toList m = some (.string "true".toList) ∧
      lookup "mode".toList (loadText wholeNumbers defaultConfig (saveText wholeNumbers m) (Map.init defaultConfig)) =
        some (.bool true) := by
  decide

end System.Settings
