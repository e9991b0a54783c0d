-- SUMMARY: A printer and a parser for JSON text with the interface assumed of cJSON.
import FruitClawApps.Lib.Decimal
import FruitClawApps.Lib.Json
import Mathlib.Data.List.Basic

/-!
# JSON text

The printer writes what `cJSON_PrintUnformatted` writes for documents with whole numbers. The parser
is the usual recursive descent, driven by fuel, and takes what the printer writes.

The parser inverts the printer, and it is stable: text behind a complete value does not change how
the value is read. So a text that is cut short cannot parse.
-/

namespace JsonText

open List

/-! ## Printer -/

/-- The letter of a two-character escape. -/
def shortEscape (c : Char) : Option Char :=
  if c = '"' then some '"'
  else if c = '\\' then some '\\'
  else if c = '\x08' then some 'b'
  else if c = '\x0c' then some 'f'
  else if c = '\n' then some 'n'
  else if c = '\r' then some 'r'
  else if c = '\t' then some 't'
  else none

def escapeChar (c : Char) : CStr :=
  match shortEscape c with
  | some e => ['\\', e]
  | none =>
    if c.toNat < 32 then
      ['\\', 'u', '0', '0', (c.toNat / 16).digitChar, (c.toNat % 16).digitChar]
    else [c]

def quote (s : CStr) : CStr := '"' :: s.flatMap escapeChar ++ ['"']

/-- The items of an array or an object, up to the closing bracket. -/
def bracket (close : Char) (texts : List CStr) : CStr := [','].intercalate texts ++ [close]

mutual
def print : Json → CStr
  | .null => "null".toList
  | .bool true => "true".toList
  | .bool false => "false".toList
  | .num v => formatInt v.num
  | .str s => quote s
  | .arr items => '[' :: bracket ']' (printItems items)
  | .obj members => '{' :: bracket '}' (printMembers members)

def printItems : List Json → List CStr
  | [] => []
  | j :: js => print j :: printItems js

def printMembers : List (CStr × Json) → List CStr
  | [] => []
  | (k, j) :: ms => (quote k ++ ':' :: print j) :: printMembers ms
end

/-! ## Parser -/

def skipWs (s : CStr) : CStr := s.dropWhile (·.toNat ≤ 32)

def expect (lit s : CStr) : Option CStr :=
  if lit.isPrefixOf s then some (s.drop lit.length) else none

/-- The character a short escape stands for. -/
def unescape (e : Char) : Option Char :=
  if e = '"' then some '"'
  else if e = '\\' then some '\\'
  else if e = '/' then some '/'
  else if e = 'b' then some '\x08'
  else if e = 'f' then some '\x0c'
  else if e = 'n' then some '\n'
  else if e = 'r' then some '\r'
  else if e = 't' then some '\t'
  else none

/-- The value of the two significant digits of a `\u00XX` escape. -/
def unicodeEscape (a b c d : Char) : Option Char :=
  if a = '0' ∧ b = '0' then
    match digitValue 16 c, digitValue 16 d with
    | some hi, some lo => if hi < 8 then some (Char.ofNat (hi * 16 + lo)) else none
    | _, _ => none
  else none

/-- The body of a string behind its opening quote. -/
def parseString : CStr → Option (CStr × CStr)
  | [] => none
  | c :: r =>
    if c = '"' then some ([], r)
    else if c = '\\' then
      match r with
      | 'u' :: a :: b :: d :: e :: r' =>
        (unicodeEscape a b d e).bind fun ch => (parseString r').map fun p => (ch :: p.1, p.2)
      | e :: r' =>
        (unescape e).bind fun ch => (parseString r').map fun p => (ch :: p.1, p.2)
      | [] => none
    else (parseString r).map fun p => (c :: p.1, p.2)

def parseNat (s : CStr) : Option (Nat × CStr) :=
  if s.takeWhile Char.isDigit = [] then none
  else some (Nat.ofDigitChars 10 (s.takeWhile Char.isDigit) 0, s.dropWhile Char.isDigit)

def parseInt (s : CStr) : Option (Int × CStr) :=
  match s with
  | '-' :: r => (parseNat r).map fun p => (-(p.1 : Int), p.2)
  | _ => (parseNat s).map fun p => ((p.1 : Int), p.2)

section Bracket

variable {α : Type} (item : CStr → Option (α × CStr)) (close : Char)

/-- Items separated by commas, up to the closing bracket. -/
def parseSeq : Nat → CStr → Option (List α × CStr)
  | 0, _ => none
  | n + 1, s =>
    (item s).bind fun p =>
      match skipWs p.2 with
      | [] => none
      | c :: r =>
        if c = ',' then (parseSeq n r).map fun q => (p.1 :: q.1, q.2)
        else if c = close then some ([p.1], r)
        else none

/-- What follows an opening bracket. -/
def parseBracket (n : Nat) (s : CStr) : Option (List α × CStr) :=
  match skipWs s with
  | [] => none
  | c :: r => if c = close then some ([], r) else parseSeq item close n (c :: r)

end Bracket

/-- A member of an object: its name, a colon and its value. -/
def parseMember (value : CStr → Option (Json × CStr)) (s : CStr) :
    Option ((CStr × Json) × CStr) :=
  match skipWs s with
  | '"' :: r =>
    (parseString r).bind fun p =>
      match skipWs p.2 with
      | ':' :: r' => (value r').map fun q => ((p.1, q.1), q.2)
      | _ => none
  | _ => none

def parseValue : Nat → CStr → Option (Json × CStr)
  | 0, _ => none
  | n + 1, s =>
    match skipWs s with
    | [] => none
    | c :: r =>
      if c = 'n' then (expect "ull".toList r).map fun r => (.null, r)
      else if c = 't' then (expect "rue".toList r).map fun r => (.bool true, r)
      else if c = 'f' then (expect "alse".toList r).map fun r => (.bool false, r)
      else if c = '"' then (parseString r).map fun p => (.str p.1, p.2)
      else if c = '[' then
        (parseBracket (parseValue n) ']' n r).map fun p => (.arr p.1, p.2)
      else if c = '{' then
        (parseBracket (parseMember (parseValue n)) '}' n r).map fun p => (.obj p.1, p.2)
      else (parseInt (c :: r)).map fun p => (.num p.1, p.2)

/-- Text behind the first value is ignored, as `cJSON_Parse` does. -/
def parse (s : CStr) : Option Json := (parseValue s.length s).map (·.1)

/-! ## Text behind a value -/

variable {c : Char} {s r rest : CStr}

theorem skipWs_cons (h : 32 < c.toNat) (r : CStr) : skipWs (c :: r) = c :: r := by
  have hc : ¬ c.toNat ≤ 32 := by omega
  simp [skipWs, hc]

theorem skipWs_append (h : skipWs s = c :: r) (q : CStr) : skipWs (s ++ q) = c :: (r ++ q) := by
  unfold skipWs at h ⊢
  rw [List.dropWhile_append, h]
  rfl

theorem skipWs_ne_nil (h : skipWs s = c :: r) : s ≠ [] := by
  rintro rfl
  cases h

theorem parseString_close (r : CStr) : parseString ('"' :: r) = some ([], r) := by
  rw [parseString.eq_def]
  rfl

theorem parseString_plain (hq : c ≠ '"') (hb : c ≠ '\\') (r : CStr) :
    parseString (c :: r) = (parseString r).map fun p => (c :: p.1, p.2) := by
  rw [parseString.eq_def]
  simp only [if_neg hq, if_neg hb]

/-- A string that is read is also read from longer text. -/
theorem parseString_append {p : CStr} (h : parseString p = some (s, r)) (q : CStr) :
    parseString (p ++ q) = some (s, r ++ q) := by
  fun_induction parseString p generalizing s r with
  | case1 => cases h
  | case2 r' =>
    cases h
    exact parseString_close _
  | case3 a b d e r' hq ih =>
    simp only [Option.bind_eq_some_iff, Option.map_eq_some_iff] at h
    obtain ⟨ch, hch, ⟨s', r''⟩, hs', heq⟩ := h
    cases heq
    simp [parseString, hch, ih hs']
  | case4 e r' hq hu ih =>
    simp only [Option.bind_eq_some_iff, Option.map_eq_some_iff] at h
    obtain ⟨ch, hch, ⟨s', r''⟩, hs', heq⟩ := h
    cases heq
    -- A `u` without four characters behind it has no reading.
    have hne : e ≠ 'u' := by
      rintro rfl
      cases hch
    simp [parseString, hch, ih hs', hne]
  | case5 => cases h
  | case6 c r' hq hb ih =>
    simp only [Option.map_eq_some_iff] at h
    obtain ⟨⟨s', r''⟩, hs', heq⟩ := h
    cases heq
    rw [List.cons_append, parseString_plain hq hb, ih hs']
    rfl

/-- Reading with `g` goes the way of reading with `f`, on the same text and on
text that goes on behind an unread rest. -/
def Extends {α : Type} (f g : CStr → Option (α × CStr)) : Prop :=
  ∀ p v r q, f p = some (v, r) → r ≠ [] ∨ q = [] → g (p ++ q) = some (v, r ++ q)

theorem parseNat_extends : Extends parseNat parseNat := by
  intro p v r q h hr
  unfold parseNat at h ⊢
  split at h
  · cases h
  rename_i hne
  cases h
  rcases hr with hr | rfl
  · have htake : (p ++ q).takeWhile Char.isDigit = p.takeWhile Char.isDigit := by
      rw [List.takeWhile_append, if_neg]
      intro hlen
      apply hr
      have hsum := congrArg List.length (List.takeWhile_append_dropWhile (p := Char.isDigit) (l := p))
      rw [List.length_append] at hsum
      exact List.length_eq_zero_iff.mp (by omega)
    have hdrop : (p ++ q).dropWhile Char.isDigit = p.dropWhile Char.isDigit ++ q := by
      rw [List.dropWhile_append, if_neg (by simpa using hr)]
    rw [htake, hdrop, if_neg hne]
  · simp [hne]

theorem parseInt_extends : Extends parseInt parseInt := by
  intro p v r q h hr
  unfold parseInt at h
  split at h
  · obtain ⟨⟨k, r''⟩, hk, heq⟩ := Option.map_eq_some_iff.mp h
    cases heq
    simp [parseInt, parseNat_extends _ _ _ q hk hr]
  rename_i hneg
  obtain ⟨⟨k, r''⟩, hk, heq⟩ := Option.map_eq_some_iff.mp h
  cases heq
  have hp : p ≠ [] := by
    rintro rfl
    cases hk
  obtain ⟨c, p', rfl⟩ := List.exists_cons_of_ne_nil hp
  have hc : c ≠ '-' := fun hc => hneg p' (hc ▸ rfl)
  have hext := parseNat_extends _ _ _ q hk hr
  rw [List.cons_append] at hext ⊢
  simp [parseInt, hc, hext]

section

variable {α : Type} {f g : CStr → Option (α × CStr)} {close : Char}

/-- More fuel and more text give the same items. -/
theorem parseSeq_append (hfg : Extends f g) {n m : Nat} (hnm : n ≤ m) {p r : CStr} {xs : List α}
    (h : parseSeq f close n p = some (xs, r)) (q : CStr) :
    parseSeq g close m (p ++ q) = some (xs, r ++ q) := by
  induction n generalizing m p r xs with
  | zero => cases h
  | succ n ih =>
    obtain ⟨m, rfl⟩ : ∃ k, m = k + 1 := ⟨m - 1, by omega⟩
    obtain ⟨⟨x, r1⟩, hx, h⟩ := Option.bind_eq_some_iff.mp h
    split at h
    · cases h
    rename_i c r2 hskip
    -- A separator follows the item, so the rest is not empty and the item may be read with more text.
    have hg := hfg p x r1 q hx (Or.inl (skipWs_ne_nil hskip))
    rw [parseSeq, hg]
    simp only [Option.bind_some, skipWs_append hskip q]
    split at h
    · rename_i hc
      obtain ⟨⟨ys, r3⟩, hys, heq⟩ := Option.map_eq_some_iff.mp h
      cases heq
      rw [if_pos hc, ih (by omega) hys]
      rfl
    rename_i hc
    split at h
    · rename_i hcl
      cases h
      rw [if_neg hc, if_pos hcl]
    · cases h

theorem parseBracket_append (hfg : Extends f g) {n m : Nat} (hnm : n ≤ m) {p r : CStr} {xs : List α}
    (h : parseBracket f close n p = some (xs, r)) (q : CStr) :
    parseBracket g close m (p ++ q) = some (xs, r ++ q) := by
  unfold parseBracket at h ⊢
  split at h
  · cases h
  rename_i c r1 hskip
  rw [skipWs_append hskip q]
  dsimp only
  split at h
  · rename_i hc
    cases h
    rw [if_pos hc]
  rename_i hc
  rw [if_neg hc]
  exact parseSeq_append hfg hnm h q

end

theorem parseMember_extends {f g : CStr → Option (Json × CStr)} (hfg : Extends f g) :
    Extends (parseMember f) (parseMember g) := by
  intro p v r q h hr
  unfold parseMember at h ⊢
  split at h
  · rename_i r1 hskip
    obtain ⟨⟨k, r2⟩, hk, h⟩ := Option.bind_eq_some_iff.mp h
    split at h
    · rename_i r3 hcolon
      obtain ⟨⟨w, r4⟩, hw, heq⟩ := Option.map_eq_some_iff.mp h
      cases heq
      simp [skipWs_append hskip q, parseString_append hk q, skipWs_append hcolon q,
        hfg _ _ _ q hw hr]
    · cases h
  · cases h

theorem expect_append {lit : CStr} (h : expect lit s = some r) (q : CStr) : expect lit (s ++ q) = some (r ++ q) := by
  unfold expect at h ⊢
  split at h
  · rename_i hlit
    cases h
    have hpre := List.isPrefixOf_iff_prefix.mp hlit
    rw [if_pos (List.isPrefixOf_iff_prefix.mpr (hpre.trans (List.prefix_append s q))),
      List.drop_append_of_le_length hpre.length_le]
  · cases h

/-- More fuel and more text give the same value. -/
theorem parseValue_extends {n m : Nat} (hnm : n ≤ m) : Extends (parseValue n) (parseValue m) := by
  induction n generalizing m with
  | zero =>
    intro p v r q h
    cases h
  | succ n ih =>
    obtain ⟨m, rfl⟩ : ∃ k, m = k + 1 := ⟨m - 1, by omega⟩
    have hnm' : n ≤ m := by omega
    intro p v r q h hr
    unfold parseValue at h ⊢
    split at h
    · cases h
    rename_i c r1 hskip
    rw [skipWs_append hskip q]
    dsimp only
    -- One goal for each character a value can start with.
    split_ifs at h ⊢
    all_goals obtain ⟨w, hw, heq⟩ := Option.map_eq_some_iff.mp h
    all_goals cases heq
    · rw [expect_append hw q]
      rfl
    · rw [expect_append hw q]
      rfl
    · rw [expect_append hw q]
      rfl
    · simp [parseString_append hw q]
    · simp [parseBracket_append (ih hnm') hnm' hw q]
    · simp [parseBracket_append (parseMember_extends (ih hnm')) hnm' hw q]
    · have hint := parseInt_extends _ _ _ q hw hr
      rw [List.cons_append] at hint
      simp [hint]

/-! ## The parser inverts the printer -/

/-- A rest that does not continue a number. -/
def Delimited (rest : CStr) : Prop := ∀ c, rest.head? = some c → c.isDigit = false

theorem delimited_nil : Delimited [] := by
  intro c h
  cases h

theorem delimited_cons (h : c.isDigit = false) (r : CStr) : Delimited (c :: r) := by
  rintro _ ⟨⟩
  exact h

/-- Every control character comes back from its escape. -/
theorem unicodeEscape_control (h : c.toNat < 32) :
    unicodeEscape '0' '0' (c.toNat / 16).digitChar (c.toNat % 16).digitChar = some c := by
  have hcodes : ∀ k < 32,
      unicodeEscape '0' '0' (k / 16).digitChar (k % 16).digitChar = some (Char.ofNat k) := by
    decide
  rw [hcodes _ h, Char.ofNat_toNat]

/-- The parser reads a character back from its escape. -/
def Decodes (esc : Char → CStr) : Prop :=
  ∀ c r, parseString (esc c ++ r) = (parseString r).map fun p => (c :: p.1, p.2)

/-- A string comes back from its escapes. -/
theorem parseString_flatMap {esc : Char → CStr} (h : Decodes esc) (s rest : CStr) :
    parseString (s.flatMap esc ++ '"' :: rest) = some (s, rest) := by
  induction s with
  | nil => exact parseString_close rest
  | cons c s ih =>
    rw [flatMap_cons, append_assoc, h, ih]
    rfl

theorem decodes_escapeChar : Decodes escapeChar := by
  intro c r
  unfold escapeChar shortEscape
  split_ifs
  all_goals try (subst c; rfl)
  · rename_i hcontrol
    simp [parseString, unicodeEscape_control hcontrol]
  · exact parseString_plain (by assumption) (by assumption) r

theorem parseString_escaped (s rest : CStr) :
    parseString (s.flatMap escapeChar ++ '"' :: rest) = some (s, rest) :=
  parseString_flatMap decodes_escapeChar s rest

/-- A number comes back from its digits. -/
theorem parseNat_toDigits (n : Nat) (hr : Delimited rest) : parseNat (Nat.toDigits 10 n ++ rest) = some (n, rest) := by
  have hall : ∀ c ∈ Nat.toDigits 10 n, c.isDigit = true := fun c hc =>
    Nat.isDigit_of_mem_toDigits (by decide) (by decide) hc
  have htake : (Nat.toDigits 10 n ++ rest).takeWhile Char.isDigit = Nat.toDigits 10 n := by
    rw [List.takeWhile_append_of_pos hall]
    cases rest with
    | nil => simp
    | cons c r => simp [hr c rfl]
  have hdrop : (Nat.toDigits 10 n ++ rest).dropWhile Char.isDigit = rest := by
    rw [List.dropWhile_append_of_pos hall]
    cases rest with
    | nil => rfl
    | cons c r => simp [hr c rfl]
  unfold parseNat
  rw [htake, hdrop, if_neg Nat.toDigits_ne_nil, Nat.ofDigitChars_ten_toDigits]

theorem parseInt_formatInt (i : Int) (hr : Delimited rest) : parseInt (formatInt i ++ rest) = some (i, rest) := by
  unfold formatInt
  split
  · rename_i hneg
    have habs : -(i.natAbs : Int) = i := by omega
    rw [List.cons_append, parseInt, parseNat_toDigits _ hr, Option.map_some, habs]
  have habs : (i.natAbs : Int) = i := by omega
  obtain ⟨c, t, hct⟩ := List.exists_cons_of_ne_nil (Nat.toDigits_ne_nil (b := 10) (n := i.natAbs))
  have hdigit : c.isDigit = true :=
    Nat.isDigit_of_mem_toDigits (b := 10) (n := i.natAbs) (by decide) (by decide) (by simp [hct])
  have hc : c ≠ '-' := by
    rintro rfl
    cases hdigit
  have hnat := parseNat_toDigits i.natAbs hr
  rw [hct, List.cons_append] at hnat ⊢
  simp [parseInt, hc, hnat, habs]

theorem intercalate_comma (t u : CStr) (us : List CStr) :
    [','].intercalate (t :: u :: us) = t ++ ',' :: [','].intercalate (u :: us) := by
  simp [List.intercalate]

section

variable {α : Type} {item : CStr → Option (α × CStr)} {close : Char}

/-- The text starts like a value and reads back as `x`. -/
structure Reads (item : CStr → Option (α × CStr)) (close : Char) (x : α) (text : CStr) : Prop where
  start : ∃ c t, text = c :: t ∧ 32 < c.toNat ∧ c ≠ close
  back : ∀ rest, Delimited rest → item (text ++ rest) = some (x, rest)

theorem parseSeq_bracket (hws : 32 < close.toNat) (hdigit : close.isDigit = false) (hcomma : close ≠ ',')
    {x : α} {xs : List α} {t : CStr} {ts : List CStr}
    (h : List.Forall₂ (Reads item close) (x :: xs) (t :: ts)) {n : Nat} (hn : ts.length < n)
    (rest : CStr) :
    parseSeq item close n (bracket close (t :: ts) ++ rest) = some (x :: xs, rest) := by
  induction ts generalizing x xs t n with
  | nil =>
    obtain ⟨n, rfl⟩ : ∃ k, n = k + 1 := ⟨n - 1, by omega⟩
    cases h with
    | cons hx hxs =>
      cases hxs
      have hback := hx.back (close :: rest) (delimited_cons hdigit rest)
      have htext : bracket close [t] ++ rest = t ++ close :: rest := by simp [bracket]
      rw [htext, parseSeq, hback]
      simp [skipWs_cons hws, hcomma]
  | cons u us ih =>
    obtain ⟨n, rfl⟩ : ∃ k, n = k + 1 := ⟨n - 1, by omega⟩
    cases h with
    | cons hx hxs =>
      cases hxs with
      | cons hy hys =>
        have hrec := ih (.cons hy hys) (Nat.lt_of_succ_lt_succ hn)
        have htext : bracket close (t :: u :: us) ++ rest = t ++ ',' :: (bracket close (u :: us) ++ rest) := by
          simp [bracket]
        have hback := hx.back _ (delimited_cons (c := ',') (by decide) (bracket close (u :: us) ++ rest))
        rw [htext, parseSeq, hback]
        simp [skipWs_cons (c := ',') (by decide), hrec]

/-- Items that are read one by one are read between brackets. -/
theorem parseBracket_bracket (hws : 32 < close.toNat) (hdigit : close.isDigit = false)
    (hcomma : close ≠ ',') {xs : List α} {ts : List CStr}
    (h : List.Forall₂ (Reads item close) xs ts) {n : Nat} (hn : ts.length ≤ n) (rest : CStr) :
    parseBracket item close n (bracket close ts ++ rest) = some (xs, rest) := by
  cases h with
  | nil => simp [parseBracket, bracket, skipWs_cons hws]
  | @cons x t xs ts hx hxs =>
    obtain ⟨c, t', rfl, hc, hne⟩ := hx.start
    have hseq := parseSeq_bracket hws hdigit hcomma (.cons hx hxs) (by rwa [List.length_cons] at hn) rest
    obtain ⟨tail, htail⟩ : ∃ tail, bracket close ((c :: t') :: ts) ++ rest = c :: tail := by
      cases ts <;> exact ⟨_, rfl⟩
    rw [htail] at hseq ⊢
    simp [parseBracket, skipWs_cons hc, hne, hseq]

end

theorem numberStart_ne (h : c = '-' ∨ c.isDigit = true) {d : Char} (hd : d ≠ '-' ∧ d.isDigit = false) : c ≠ d := by
  rintro rfl
  rcases h with h | h
  · exact hd.1 h
  · rw [hd.2] at h
    cases h

theorem numberStart_gt (h : c = '-' ∨ c.isDigit = true) : 32 < c.toNat := by
  rcases h with rfl | h
  · decide
  have hle : '0' ≤ c := by
    simp only [Char.isDigit, Bool.and_eq_true, decide_eq_true_eq] at h
    exact h.1
  have hval : (48 : Nat) ≤ c.toNat := hle
  omega

theorem parseValue_number (n : Nat) (i : Int) (hr : Delimited rest) :
    parseValue (n + 1) (formatInt i ++ rest) = some (.num i, rest) := by
  obtain ⟨c, t, hct, hc⟩ := formatInt_start i
  have hback := parseInt_formatInt i hr
  rw [hct, List.cons_append] at hback ⊢
  rw [parseValue, skipWs_cons (numberStart_gt hc)]
  simp [hback, numberStart_ne hc (d := 'n') (by decide), numberStart_ne hc (d := 't') (by decide),
    numberStart_ne hc (d := 'f') (by decide), numberStart_ne hc (d := '"') (by decide),
    numberStart_ne hc (d := '[') (by decide), numberStart_ne hc (d := '\x7b') (by decide)]

theorem parseValue_string {esc : Char → CStr} (h : Decodes esc) (n : Nat) (s rest : CStr) :
    parseValue (n + 1) ('"' :: s.flatMap esc ++ '"' :: rest) = some (.str s, rest) := by
  rw [cons_append, parseValue, skipWs_cons (by decide)]
  simp [parseString_flatMap h s rest]

/-- A member is read if its value is. -/
theorem parseMember_reads {n : Nat} (k : CStr) {j : Json} {text : CStr}
    (h : ∀ rest, Delimited rest → parseValue n (text ++ rest) = some (j, rest)) :
    Reads (parseMember (parseValue n)) '\x7d' (k, j) (quote k ++ ':' :: text) := by
  refine ⟨⟨'"', _, rfl, by decide, by decide⟩, fun rest hr => ?_⟩
  have hkey := parseString_escaped k (':' :: (text ++ rest))
  simp [parseMember, quote, skipWs_cons (c := '"') (by decide), hkey, skipWs_cons (c := ':') (by decide), h rest hr]

theorem print_start (j : Json) : ∃ c t, print j = c :: t ∧ 32 < c.toNat ∧ c ≠ ']' := by
  match j with
  | .null => exact ⟨'n', _, rfl, by decide, by decide⟩
  | .bool true => exact ⟨'t', _, rfl, by decide, by decide⟩
  | .bool false => exact ⟨'f', _, rfl, by decide, by decide⟩
  | .str s => exact ⟨'"', _, rfl, by decide, by decide⟩
  | .arr items => exact ⟨'[', _, rfl, by decide, by decide⟩
  | .obj members => exact ⟨'\x7b', _, rfl, by decide, by decide⟩
  | .num v =>
    obtain ⟨c, t, hct, hc⟩ := formatInt_start v.num
    exact ⟨c, t, hct, numberStart_gt hc, numberStart_ne hc (by decide)⟩

/-- The text of an item is shorter than the whole, so the fuel for it suffices. -/
theorem length_lt_bracket (close : Char) {ts : List CStr} {t : CStr} (h : t ∈ ts) :
    t.length < (bracket close ts).length := by
  obtain ⟨i, hi⟩ := mem_iff_getElem?.mp h
  have hmem : t ∈ ts.intersperse [','] := mem_of_getElem? (getElem?_intersperse_two_mul.trans hi)
  rw [bracket, length_append, length_singleton]
  exact Nat.lt_succ_of_le (sublist_flatten_of_mem hmem).length_le

theorem count_le_bracket (close : Char) (ts : List CStr) : ts.length ≤ (bracket close ts).length := by
  have hle : ts.length ≤ ([','].intercalate ts).length + 1 := by
    induction ts with
    | nil => simp
    | cons u us ih =>
      cases us with
      | nil => simp
      | cons v vs =>
        rw [intercalate_comma]
        simp only [length_append, length_cons] at ih ⊢
        omega
  simp only [bracket, length_append, length_singleton]
  omega

mutual
/-- A value comes back from its text, with the length of the text as fuel. -/
theorem parseValue_print (j : Json) (hw : j.Whole) (n : Nat) (hn : (print j).length ≤ n)
    (rest : CStr) (hr : Delimited rest) : parseValue n (print j ++ rest) = some (j, rest) := by
  obtain ⟨c, t, hct, hc, -⟩ := print_start j
  obtain ⟨n, rfl⟩ : ∃ k, n = k + 1 := by
    rw [hct, length_cons] at hn
    exact ⟨n - 1, by omega⟩
  have hskip : skipWs (print j ++ rest) = print j ++ rest := by
    rw [hct]
    exact skipWs_cons hc _
  rw [parseValue, hskip]
  -- The first character is visible again in each case below.
  clear hskip hct hc
  match j with
  | .null => rfl
  | .bool true => rfl
  | .bool false => rfl
  | .str s =>
    have hback := parseString_escaped s rest
    simp [print, quote, hback]
  | .num v =>
    have hv : ((v.num : Int) : Rat) = v := Rat.den_eq_one_iff v |>.mp hw.1
    have hback := parseValue_number n v.num hr
    obtain ⟨c, t, hct, hc⟩ := formatInt_start v.num
    have hskip : skipWs (formatInt v.num ++ rest) = formatInt v.num ++ rest := by
      rw [hct]
      exact skipWs_cons (numberStart_gt hc) _
    rw [parseValue, hskip, hv] at hback
    exact hback
  | .arr items =>
    rw [print, length_cons] at hn
    -- The text of an item is shorter than the bracket around it, so the fuel is enough for it.
    have hitems := printItems_reads items hw n fun t ht => by
      have := length_lt_bracket ']' ht
      omega
    have hcount := count_le_bracket ']' (printItems items)
    have hback := parseBracket_bracket (by decide) (by decide) (by decide) hitems
      (n := n) (by omega) rest
    simp [print, hback]
  | .obj members =>
    rw [print, length_cons] at hn
    have hmembers := printMembers_reads members hw n fun t ht => by
      have := length_lt_bracket '\x7d' ht
      omega
    have hcount := count_le_bracket '\x7d' (printMembers members)
    have hback := parseBracket_bracket (by decide) (by decide) (by decide) hmembers
      (n := n) (by omega) rest
    simp [print, hback]

theorem printItems_reads (js : List Json) (hw : Json.WholeItems js) (n : Nat)
    (hn : ∀ t ∈ printItems js, t.length ≤ n) :
    List.Forall₂ (Reads (parseValue n) ']') js (printItems js) := by
  match js with
  | [] => exact .nil
  | j :: js =>
    refine .cons ⟨print_start j, ?_⟩ ?_
    · exact parseValue_print j hw.1 n (hn _ mem_cons_self)
    · exact printItems_reads js hw.2 n fun t ht => hn t (mem_cons_of_mem _ ht)

theorem printMembers_reads (ms : List (CStr × Json)) (hw : Json.WholeMembers ms) (n : Nat)
    (hn : ∀ t ∈ printMembers ms, t.length ≤ n) :
    List.Forall₂ (Reads (parseMember (parseValue n)) '\x7d') ms (printMembers ms) := by
  match ms with
  | [] => exact .nil
  | (k, j) :: ms =>
    refine .cons (parseMember_reads k fun rest hr => ?_) ?_
    · have hlen := hn _ mem_cons_self
      exact parseValue_print j hw.1 n (by simp at hlen; omega) rest hr
    · exact printMembers_reads ms hw.2 n fun t ht => hn t (mem_cons_of_mem _ ht)
end

/-! ## The interface of cJSON -/

/-- A document comes back from its text. -/
theorem parse_print {j : Json} (hw : j.Whole) : parse (print j) = some j := by
  have hback := parseValue_print j hw _ le_rfl [] delimited_nil
  rw [append_nil] at hback
  rw [parse, hback]
  rfl

/-- An object comes back from any texts that its members are read from. -/
theorem parse_object {members : List (CStr × Json)} {texts : List CStr}
    (h : List.Forall₂ (Reads (parseMember (parseValue (bracket '\x7d' texts).length)) '\x7d') members texts) :
    parse ('\x7b' :: bracket '\x7d' texts) = some (.obj members) := by
  have hback := parseBracket_bracket (by decide) (by decide) (by decide) h (count_le_bracket '\x7d' texts) []
  rw [append_nil] at hback
  rw [parse, length_cons, parseValue, skipWs_cons (by decide)]
  simp [hback]

/-- A value that opens with a bracket is complete: what follows it is not looked at. -/
theorem parseValue_open {n m : Nat} (hnm : n ≤ m) {t r : CStr} {v : Json}
    (h : parseValue n ('[' :: t) = some (v, r)) (q : CStr) :
    parseValue m ('[' :: t ++ q) = some (v, r ++ q) := by
  obtain ⟨n, rfl⟩ : ∃ k, n = k + 1 := by
    cases n with
    | zero => cases h
    | succ k => exact ⟨k, rfl⟩
  obtain ⟨m, rfl⟩ : ∃ k, m = k + 1 := ⟨m - 1, by omega⟩
  have hnm' : n ≤ m := by omega
  obtain ⟨⟨xs, r'⟩, hxs, heq⟩ := Option.map_eq_some_iff.mp h
  cases heq
  rw [cons_append, parseValue, skipWs_cons (by decide)]
  have happend := parseBracket_append (parseValue_extends hnm') hnm' hxs q
  simp [happend]

/-- A part of the text of an array is not a document. -/
theorem parse_cut {items : List Json} {text : CStr} (hw : (Json.arr items).Whole)
    (hpre : text <+: print (.arr items)) (hne : text ≠ print (.arr items)) : parse text = none := by
  obtain ⟨q, hq⟩ := hpre
  cases text with
  | nil => rfl
  | cons c t =>
    cases hv : parseValue (c :: t).length (c :: t) with
    | none => rw [parse, hv]; rfl
    | some p =>
      -- Reading on, the parser must end where it ends on the whole text: at its end.
      obtain ⟨v, r⟩ := p
      have hc : c = '[' := by
        exact (List.cons.inj hq).1
      subst hc
      have hle : ('[' :: t).length ≤ (print (.arr items)).length := by
        rw [← hq, length_append]
        omega
      have hopen := parseValue_open hle hv q
      have hwhole := parseValue_print _ hw _ le_rfl [] delimited_nil
      rw [hq] at hopen
      rw [append_nil, hopen] at hwhole
      have hend : r ++ q = [] := (Prod.mk.inj (Option.some.inj hwhole)).2
      have hnil : q = [] := (append_eq_nil_iff.mp hend).2
      subst hnil
      exact absurd (by simpa using hq) hne

theorem escapeChar_no_nul (c : Char) : '\x00' ∉ escapeChar c := by
  have hcodes : ∀ k < 32, '\x00' ∉
      ['\\', 'u', '0', '0', (k / 16).digitChar, (k % 16).digitChar] := by decide
  unfold escapeChar
  split
  · rename_i e he
    have hne : '\x00' ≠ e := by
      unfold shortEscape at he
      split_ifs at he <;> cases he <;> decide
    simp [hne]
  split
  · exact hcodes _ (by assumption)
  rename_i hcontrol
  rw [mem_singleton]
  rintro rfl
  exact hcontrol (by decide)

theorem quote_no_nul (s : CStr) : '\x00' ∉ quote s := by
  simp only [quote, cons_append, mem_cons, mem_append, mem_flatMap,
    not_mem_nil, or_false, not_or]
  refine ⟨by decide, ?_, by decide⟩
  rintro ⟨c, -, hc⟩
  exact escapeChar_no_nul c hc

theorem not_mem_bracket {close : Char} (hclose : c ≠ close) (hcomma : c ≠ ',') {ts : List CStr} (h : ∀ t ∈ ts, c ∉ t) :
    c ∉ bracket close ts := by
  have hitems : c ∉ [','].intercalate ts := by
    rw [List.intercalate, mem_flatten]
    rintro ⟨l, hl, hc⟩
    obtain ⟨i, hi, rfl⟩ := mem_iff_getElem.mp hl
    rw [getElem_intersperse] at hc
    split at hc
    · exact h _ (getElem_mem _) hc
    · exact hcomma (mem_singleton.mp hc)
  rw [bracket, mem_append, mem_singleton, not_or]
  exact ⟨hitems, hclose⟩

mutual
/-- A printed document is a C string. -/
theorem print_no_nul (j : Json) : '\x00' ∉ print j := by
  match j with
  | .null => decide
  | .bool true => decide
  | .bool false => decide
  | .num v => exact not_mem_formatInt (by decide) (by decide) v.num
  | .str s => exact quote_no_nul s
  | .arr items =>
    rw [print, mem_cons, not_or]
    exact ⟨by decide, not_mem_bracket (by decide) (by decide) (printItems_no_nul items)⟩
  | .obj members =>
    rw [print, mem_cons, not_or]
    exact ⟨by decide, not_mem_bracket (by decide) (by decide) (printMembers_no_nul members)⟩

theorem printItems_no_nul (js : List Json) : ∀ t ∈ printItems js, '\x00' ∉ t := by
  match js with
  | [] => simp [printItems]
  | j :: js =>
    rw [printItems, forall_mem_cons]
    exact ⟨print_no_nul j, printItems_no_nul js⟩

theorem printMembers_no_nul (ms : List (CStr × Json)) : ∀ t ∈ printMembers ms, '\x00' ∉ t := by
  match ms with
  | [] => simp [printMembers]
  | (k, j) :: ms =>
    rw [printMembers, forall_mem_cons, mem_append, mem_cons, not_or, not_or]
    exact ⟨⟨quote_no_nul k, by decide, print_no_nul j⟩, printMembers_no_nul ms⟩
end

/-- The reference printer and parser. -/
def reference : CJson where
  print := print
  parse := parse
  print_no_nul := print_no_nul
  parse_print := fun _ => parse_print
  parse_cut := fun _ _ => parse_cut

/-- The same with what is known of the text of an object. -/
def unformatted : CJsonUnformatted where
  toCJson := reference
  print_obj := fun _ => ⟨_, rfl⟩

end JsonText
