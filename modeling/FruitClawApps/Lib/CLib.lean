-- SUMMARY: The C library: error numbers, bounded string buffers, and string functions.
import Mathlib.Algebra.Order.Ring.Int
import Mathlib.Data.List.Infix
import Mathlib.Data.List.TakeWhile

/-!
# The C library

A string is the list of its characters, one `Char` for each byte, without the terminator. A `CBuf n`
is one in an array of `n` bytes. Functions that return zero or a negative error number return
`Except Errno`.
-/

/-- The error numbers that the modelled programs return. -/
inductive Errno where
  | einval | enospc | enametoolong | eacces | enoent | eio | enomem | etimedout
  | e2big | eproto | enotsup | econnaborted | eloop | ehostunreach | erange
  /-- Any error number a system call may set besides these. -/
  | other (n : Nat)
deriving DecidableEq

/-- The value of an error number. -/
def Errno.number : Errno → Nat
  | .enoent => 2
  | .eio => 5
  | .e2big => 7
  | .enomem => 12
  | .eacces => 13
  | .einval => 22
  | .enospc => 28
  | .erange => 34
  | .enametoolong => 36
  | .eloop => 40
  | .eproto => 71
  | .enotsup => 95
  | .econnaborted => 103
  | .etimedout => 110
  | .ehostunreach => 113
  | .other n => n

/-- The result of a C function that returns zero or a negative error number. -/
abbrev Ret := Except Errno Unit

theorem Except.bind_eq_ok_iff {ε α β : Type} {x : Except ε α} {f : α → Except ε β} {b : β} :
    x >>= f = .ok b ↔ ∃ a, x = .ok a ∧ f a = .ok b := by
  cases x with
  | error e => exact ⟨nofun, nofun⟩
  | ok a => exact ⟨fun h => ⟨a, rfl, h⟩, fun ⟨_, ha, h⟩ => by cases ha; exact h⟩

abbrev CStr := List Char

namespace CStr

/-- The string that starts at a memory area: everything before the first NUL. -/
def ofMem (mem : List Char) : CStr := mem.takeWhile (· ≠ '\x00')

theorem ofMem_append {s : CStr} (h : '\x00' ∉ s) (rest : List Char) : ofMem (s ++ rest) = s ++ ofMem rest := by
  refine List.takeWhile_append_of_pos fun c hc => ?_
  have hne : c ≠ '\x00' := fun heq => h (heq ▸ hc)
  simpa using hne

theorem ofMem_eq_self {s : CStr} (h : '\x00' ∉ s) : ofMem s = s := by
  have happend : ofMem (s ++ []) = s ++ [] := ofMem_append h []
  rwa [List.append_nil] at happend

end CStr

/-! ## Fixed arrays -/

/-- A `char[n]` array that holds a string together with its terminator. -/
structure CBuf (n : Nat) where
  str : CStr
  fits : str.length < n
deriving DecidableEq

namespace CBuf

variable {n : Nat}

@[ext] theorem ext {a b : CBuf n} (h : a.str = b.str) : a = b := by
  cases a; cases b; cases h; rfl

/-- A zeroed array. -/
def empty (n : Nat) [NeZero n] : CBuf n := ⟨[], Nat.pos_of_neZero n⟩

/-- What a bounded copy leaves in the array: the source, cut to the room that
the terminator leaves. -/
def copy (n : Nat) [NeZero n] (src : CStr) : CBuf n :=
  ⟨src.take (n - 1), by have := Nat.pos_of_neZero n; simp; omega⟩

@[simp] theorem copy_str [NeZero n] (src : CStr) : (copy n src).str = src.take (n - 1) := rfl

theorem copy_str_of_lt [NeZero n] {src : CStr} (h : src.length < n) : (copy n src).str = src :=
  List.take_of_length_le (by omega)

@[simp] theorem copy_self [NeZero n] (b : CBuf n) : copy n b.str = b :=
  ext (copy_str_of_lt b.fits)

end CBuf

/-! ## Searching -/

/-- `strstr(hay, needle) != NULL`. -/
def strstr (hay needle : CStr) : Bool := decide (needle <:+: hay)

/-- `strncmp(s, start, strlen(start)) == 0`. -/
def startsWith (s start : CStr) : Bool := decide (start <+: s)

theorem strstr_eq_false_iff {hay needle : CStr} :
    strstr hay needle = false ↔ ¬ needle <:+: hay :=
  decide_eq_false_iff_not

variable {s tok : CStr} {c : Char} {base : Nat}

theorem startsWith_iff {start : CStr} : startsWith s start = true ↔ start <+: s :=
  decide_eq_true_iff

/-- The text behind the first occurrence of `needle`: what `strstr` points at,
advanced by the length of the needle. -/
def strstrAfter (needle : CStr) : CStr → Option CStr
  | [] => if needle = [] then some [] else none
  | c :: hay =>
    if startsWith (c :: hay) needle then some ((c :: hay).drop needle.length)
    else strstrAfter needle hay

/-- A needle is found where it stands if its first character does not occur
before it. -/
theorem strstrAfter_append {before : CStr} (needle : CStr) (h : c ∉ before) (after : CStr) :
    strstrAfter (c :: needle) (before ++ c :: needle ++ after) = some after := by
  induction before with
  | nil =>
    have hstart : startsWith (c :: (needle ++ after)) (c :: needle) = true :=
      startsWith_iff.mpr (List.prefix_append (c :: needle) after)
    simp [strstrAfter, hstart]
  | cons d before ih =>
    rw [List.mem_cons, not_or] at h
    have hstart : startsWith (d :: (before ++ c :: needle ++ after)) (c :: needle) = false := by
      rw [startsWith, decide_eq_false_iff_not, List.cons_prefix_cons]
      exact fun hpre => h.1 hpre.1
    rw [List.cons_append, List.cons_append, strstrAfter, hstart]
    exact ih h.2

/-! ## Scanning to a stop character -/

section

variable {p q : Char → Bool}

/-- Two scanners cut the same piece off a text exactly if the first character at
which one of them stops is one at which both do. -/
theorem takeWhile_eq_iff (s : CStr) :
    s.takeWhile (!p ·) = s.takeWhile (!q ·) ↔
      ∀ c, s.find? (fun c => p c || q c) = some c → p c = true ∧ q c = true := by
  induction s with
  | nil => simp
  | cons c s ih =>
    cases hp : p c <;> cases hq : q c <;> simp [hp, hq, ih]

/-- So do they if the pieces only have to agree up to letter case. -/
theorem takeWhile_map_eq_iff (f : Char → Char) (s : CStr) :
    (s.takeWhile (!p ·)).map f = (s.takeWhile (!q ·)).map f ↔
      s.takeWhile (!p ·) = s.takeWhile (!q ·) := by
  refine ⟨fun h => ?_, congrArg _⟩
  have hlen := congrArg List.length h
  rw [List.length_map, List.length_map] at hlen
  exact List.prefix_of_prefix_length_le (List.takeWhile_prefix _) (List.takeWhile_prefix _)
    hlen.le |>.eq_of_length hlen

end

/-! ## Character classes and tokens -/

def isspace (c : Char) : Bool :=
  c == ' ' || c == '\t' || c == '\n' || c == '\x0b' || c == '\x0c' || c == '\r'

def isalnum (c : Char) : Bool := c.isAlphanum

/-- The letter folding of `strcasecmp`: the ASCII letters only. -/
def tolower (c : Char) : Char := c.toLower

/-- The tokens a `strtok_r` loop visits: the maximal runs of characters that
are not delimiters. -/
def strtok (delim : Char → Bool) (s : CStr) : List CStr :=
  (s.splitOnP delim).filter (· ≠ [])

theorem splitOnPPrepend_length_le {delim : Char → Bool} {acc : CStr} (h : tok ∈ s.splitOnPPrepend delim acc) :
    tok.length ≤ acc.length + s.length := by
  induction s generalizing acc with
  | nil =>
    rw [List.splitOnPPrepend, List.mem_singleton] at h
    simp [h]
  | cons c s ih =>
    rw [List.splitOnPPrepend] at h
    split at h
    · rcases List.mem_cons.mp h with rfl | h
      · simp
      have := ih h
      simp only [List.length_nil, List.length_cons] at *
      omega
    · have := ih h
      simp only [List.length_cons] at *
      omega

theorem strtok_length_le {delim : Char → Bool} (h : tok ∈ strtok delim s) : tok.length ≤ s.length := by
  have hmem : tok ∈ s.splitOnPPrepend delim [] := List.mem_of_mem_filter h
  have hle := splitOnPPrepend_length_le hmem
  simpa using hle

theorem isInfix_intercalate {sep : CStr} {toks : List CStr} (h : tok ∈ toks) : tok <:+: sep.intercalate toks := by
  induction toks with
  | nil => cases h
  | cons t toks ih =>
    by_cases hrest : toks = []
    · rw [hrest, List.mem_singleton] at h
      rw [hrest, h]
      simp
    rw [List.intercalate_cons_of_ne_nil hrest]
    rcases List.mem_cons.mp h with rfl | h
    · exact ⟨[], sep ++ sep.intercalate toks, by simp⟩
    · exact (ih h).trans (List.suffix_append _ _).isInfix

theorem isInfix_of_mem_splitOn (h : tok ∈ s.splitOn c) : tok <:+: s := by
  have hpart : tok <:+: [c].intercalate (s.splitOn c) := isInfix_intercalate h
  rwa [List.intercalate_splitOn] at hpart

/-- The string cut at the first occurrence of a character, as by writing a NUL
where `strchr` points: what stands before it, and what follows if it occurs. -/
def strchrCut (c : Char) (s : CStr) : CStr × Option CStr :=
  (s.takeWhile (· ≠ c), (s.dropWhile (· ≠ c)).tail?)

theorem strchrCut_append (h : c ∉ s) (rest : CStr) : strchrCut c (s ++ c :: rest) = (s, some rest) := by
  have hne : ∀ x ∈ s, decide (x ≠ c) = true := fun x hx => decide_eq_true fun heq => h (heq ▸ hx)
  rw [strchrCut, List.takeWhile_append_of_pos hne, List.dropWhile_append_of_pos hne]
  simp

theorem strchrCut_of_not_mem (h : c ∉ s) : strchrCut c s = (s, none) := by
  have hne : ∀ d ∈ s, decide (d ≠ c) = true := fun d hd => decide_eq_true fun he => h (he ▸ hd)
  rw [strchrCut, List.takeWhile_eq_self_iff.mpr hne, List.dropWhile_eq_nil_iff.mpr hne]
  rfl

/-- The lines a `fgets` loop with a buffer of `room + 1` bytes reads: each line
ends behind a newline or when the buffer is full. The reader sees the bytes
before the first NUL of a line. -/
def fgetsLines (room : Nat) (text : List Char) : List CStr :=
  go room [] text
where
  go (left : Nat) (acc : List Char) : List Char → List CStr
    | [] => if acc = [] then [] else [CStr.ofMem acc.reverse]
    | c :: rest =>
      -- the line is complete, or one more byte fills the buffer
      if c = '\n' ∨ left ≤ 1 then CStr.ofMem (c :: acc).reverse :: go room [] rest
      else go (left - 1) (c :: acc) rest

/-! ## Numbers -/

/-- The value of a digit in base 10 or 16. -/
def digitValue (base : Nat) (c : Char) : Option Nat :=
  let v :=
    if '0' ≤ c ∧ c ≤ '9' then some (c.toNat - '0'.toNat)
    else if 'a' ≤ c ∧ c ≤ 'f' then some (c.toNat - 'a'.toNat + 10)
    else if 'A' ≤ c ∧ c ≤ 'F' then some (c.toNat - 'A'.toNat + 10)
    else none
  v.filter (· < base)

/-- The longest prefix of digits, as a number, and what follows it. -/
def scanDigits (base : Nat) (acc : Nat) : CStr → Nat × CStr
  | [] => (acc, [])
  | c :: rest =>
    match digitValue base c with
    | some d => scanDigits base (acc * base + d) rest
    | none => (acc, c :: rest)

/-- The subject sequence of the `strtol` family: white space, a sign, in base 16
an optional `0x`, and digits. `none` if there is no digit to convert. -/
def strtoSubject (base : Nat) (s : CStr) : Option (Bool × Nat × CStr) :=
  let body := s.dropWhile isspace
  let (neg, body) :=
    match body with
    | '-' :: rest => (true, rest)
    | '+' :: rest => (false, rest)
    | _ => (false, body)
  let body :=
    match body with
    -- the two characters count only if a digit follows them
    | '0' :: x :: d :: rest =>
      if base = 16 ∧ (x = 'x' ∨ x = 'X') ∧ (digitValue 16 d).isSome then d :: rest else body
    | _ => body
  match body with
  | c :: _ =>
    if (digitValue base c).isSome then
      let (v, rest) := scanDigits base 0 body
      some (neg, v, rest)
    else none
  | [] => none

theorem ne_of_digit {d : Char} (hc : (digitValue base c).isSome = true) (hd : digitValue base d = none) : c ≠ d := by
  rintro rfl
  rw [hd] at hc
  cases hc

theorem scanDigits_digits (hs : ∀ c ∈ s, (digitValue base c).isSome = true) (acc : Nat) :
    (scanDigits base acc s).2 = [] := by
  induction s generalizing acc with
  | nil => rfl
  | cons c rest ih =>
    obtain ⟨d, hd⟩ := Option.isSome_iff_exists.mp (hs c List.mem_cons_self)
    rw [scanDigits, hd]
    exact ih (fun c' hc' => hs c' (List.mem_cons_of_mem c hc')) _

theorem isspace_of_digit (hc : (digitValue base c).isSome = true) : isspace c = false := by
  have hne {d : Char} (hd : digitValue base d = none) : (c == d) = false := beq_false_of_ne (ne_of_digit hc hd)
  rw [isspace, hne rfl, hne rfl, hne rfl, hne rfl, hne rfl, hne rfl]
  rfl

theorem strtoSubject_sign (neg : Bool) {rest : CStr} (hc : (digitValue base c).isSome = true)
    (hmark : base = 16 → ∀ x ∈ rest, ¬ (x = 'x' ∨ x = 'X')) :
    strtoSubject base (if neg then '-' :: c :: rest else c :: rest) = some (neg, scanDigits base 0 (c :: rest)) := by
  have hbody : (match c :: rest with
      | '0' :: x :: d :: rest' =>
        if base = 16 ∧ (x = 'x' ∨ x = 'X') ∧ (digitValue 16 d).isSome then d :: rest' else c :: rest
      | _ => c :: rest) = c :: rest := by
    split
    · rename_i x d rest' heq
      have hx : x ∈ rest := by
        cases heq
        exact List.mem_cons_self
      exact if_neg fun h => hmark h.1 x hx h.2.1
    · rfl
  have hfirst : (match (if neg then '-' :: c :: rest else c :: rest).dropWhile isspace with
      | '-' :: rest => (true, rest)
      | '+' :: rest => (false, rest)
      | _ => (false, (if neg then '-' :: c :: rest else c :: rest).dropWhile isspace)) = (neg, c :: rest) := by
    cases neg with
    | true => rfl
    | false =>
      rw [if_neg Bool.false_ne_true, List.dropWhile_cons,
        if_neg (by rw [isspace_of_digit hc]; exact Bool.false_ne_true)]
      split
      · exact absurd (List.head_eq_of_cons_eq ‹_›) (ne_of_digit hc rfl)
      · exact absurd (List.head_eq_of_cons_eq ‹_›) (ne_of_digit hc rfl)
      · rfl
  unfold strtoSubject
  dsimp only
  rw [hfirst]
  rw [hbody]
  dsimp only
  rw [if_pos hc]

/-- A string that starts with a digit is converted as far as its digits go, if it has no mark of
base 16. -/
theorem strtoSubject_of_digit {rest : CStr} (hc : (digitValue base c).isSome = true)
    (hmark : base = 16 → ∀ x ∈ rest, ¬ (x = 'x' ∨ x = 'X')) :
    strtoSubject base (c :: rest) = some (false, scanDigits base 0 (c :: rest)) := strtoSubject_sign false hc hmark

theorem strtoSubject_digits (hne : s ≠ []) (hs : ∀ c ∈ s, (digitValue base c).isSome = true) :
    strtoSubject base s = some (false, (scanDigits base 0 s).1, []) := by
  obtain ⟨c, rest, rfl⟩ := List.exists_cons_of_ne_nil hne
  have hmark : base = 16 → ∀ x ∈ rest, ¬ (x = 'x' ∨ x = 'X') := by
    intro _ x hx
    have hdigit := hs x (List.mem_cons_of_mem c hx)
    exact not_or.mpr ⟨ne_of_digit hdigit rfl, ne_of_digit hdigit rfl⟩
  rw [strtoSubject_of_digit (hs c List.mem_cons_self) hmark, ← scanDigits_digits hs 0]

theorem strtoSubject_minus (hne : s ≠ []) (hs : ∀ c ∈ s, (digitValue 10 c).isSome = true) :
    strtoSubject 10 ('-' :: s) = some (true, (scanDigits 10 0 s).1, []) := by
  obtain ⟨c, rest, rfl⟩ := List.exists_cons_of_ne_nil hne
  rw [← scanDigits_digits hs 0]
  exact strtoSubject_sign true (hs c List.mem_cons_self) nofun

/-- The decimal form that `%d` and `%lld` print. -/
def formatInt (i : Int) : CStr :=
  if i < 0 then '-' :: Nat.toDigits 10 i.natAbs else Nat.toDigits 10 i.natAbs

/-- `strtol` with a 32-bit `long`: the value, saturated, and the unread rest,
which is the whole string if there is nothing to convert. -/
def strtol (base : Nat) (s : CStr) : Int × CStr :=
  match strtoSubject base s with
  | none => (0, s)
  | some (neg, v, rest) =>
    (if neg then max (-(v : Int)) (-2147483648) else min (v : Int) 2147483647, rest)

/-- `strtoll` in base 10, saturated to 64 bits. -/
def strtoll (s : CStr) : Int :=
  match strtoSubject 10 s with
  | none => 0
  | some (neg, v, _) => if neg then max (-(v : Int)) (-2 ^ 63) else min (v : Int) (2 ^ 63 - 1)

/-- `strtoul` and `strtoumax` for `bits` bits: the value, whether it was out of
range, and the unread rest. `none` if there is nothing to convert. -/
def strtoUnsigned (bits base : Nat) (s : CStr) : Option (Nat × Bool × CStr) :=
  match strtoSubject base s with
  | none => none
  | some (neg, v, rest) =>
    if v ≥ 2 ^ bits then some (2 ^ bits - 1, true, rest)
    -- a minus sign is accepted, and negates in the unsigned type
    else some (if neg then (2 ^ bits - v) % 2 ^ bits else v, false, rest)

/-- `strcasecmp(a, b) == 0`. -/
def equalsNoCase (a b : CStr) : Bool := a.map tolower == b.map tolower

/-- `strncasecmp(s, start, strlen(start)) == 0`. -/
def startsWithNoCase (s start : CStr) : Bool := startsWith (s.map tolower) (start.map tolower)
