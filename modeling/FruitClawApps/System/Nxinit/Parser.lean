-- SUMMARY: The init configuration parser, and which lines reach a section.
import FruitClawApps.Lib.CLib
import FruitClawApps.Lib.Transition

/-!
# Configuration lines

`init_parse_config_file` reads a file into one line buffer and cuts lines off its front. What a call
of `read` returns is a label of the step. An empty line is taken off without moving the rest
forward, so everything behind it is shifted.
-/

namespace System.Nxinit

open List

open Transition (run Meets)

/-- `struct parser_s`: the keyword and the two functions of a section. -/
structure Parser (σ : Type*) where
  key : CStr
  parse : σ → Bool → CStr → σ × Int
  check : Option (σ → σ × Int)

/-- One call of a section parser. -/
structure Call where
  parser : Nat
  create : Bool
  line : CStr
  deriving DecidableEq

/-- The state between two reads. -/
structure Reader (σ : Type*) where
  /-- the first `n` bytes of the line buffer -/
  buf : List Char
  /-- what `read` has not returned yet -/
  file : List Char
  cur : Option Nat
  ret : Int
  /-- the value that was returned -/
  ended : Option Int
  calls : List Call
  obj : σ

/-- A call of `read`: it is interrupted, fails with the error number `errno + 1`, or
returns at most `most + 1` bytes. -/
inductive Read
  | intr
  | fail (errno : Nat)
  | bytes (most : Nat)
  deriving DecidableEq

def isblank (c : Char) : Bool := c == ' ' || c == '\t'

section

variable {σ : Type*} (parsers : List (Parser σ)) (size : Nat)

/-! ## The loop -/

/-- The section that a line starts. -/
def findKey (line : CStr) : Option Nat := parsers.findIdx? fun p => startsWith line p.key

/-- Hands a line to the parser of its section. -/
def handLine (line : CStr) (r : Reader σ) : Reader σ :=
  let cur := (findKey parsers line).or r.cur
  match cur.bind fun i => parsers[i]?.map (i, ·) with
  | none => { r with ret := -Errno.einval.number, ended := some (-Errno.einval.number) }
  | some (i, p) =>
    let (obj, ret) := p.parse r.obj (findKey parsers line).isSome line
    { r with
      cur := cur
      ret := ret
      ended := if ret < 0 then some ret else none
      calls := r.calls ++ [⟨i, (findKey parsers line).isSome, line⟩]
      obj := obj }

/-- Takes off the first line, which ends before `rest`. -/
def cutLine (before rest : List Char) (r : Reader σ) : Reader σ :=
  let line := CStr.ofMem before
  if line = [] then
    -- `n` is reduced, but the buffer is not moved
    { r with buf := (before ++ '\x00' :: rest).take rest.length }
  else if line.all isblank then { r with buf := rest, ret := line.length }
  else { handLine parsers line r with buf := rest }

/-- The inner loop. -/
def cutLines : Nat → Reader σ → Reader σ
  | 0, r => r
  | n + 1, r => match strchrCut '\n' r.buf with
    | (_, none) => r
    | (before, some rest) =>
      let r := cutLine parsers before rest r
      if r.ended.isSome then r else cutLines n r

def runChecks : List (Parser σ) → σ → Int → σ × Int
  | [], obj, ret => (obj, ret)
  | p :: ps, obj, ret => match p.check with
    | none => runChecks ps obj ret
    | some check =>
      let (obj, ret) := check obj
      if ret < 0 then (obj, ret) else runChecks ps obj ret

variable (r : Reader σ)

def finish : Reader σ :=
  let (obj, ret) := runChecks parsers r.obj r.ret
  { r with obj := obj, ret := ret, ended := some ret }

/-- What follows a read that left `buf` in the buffer. -/
def afterRead (buf : List Char) (r : Reader σ) : Reader σ :=
  let r := cutLines parsers buf.length { r with buf := buf }
  if r.ended.isSome then r
  else if r.buf.length = size then { r with ret := -Errno.e2big.number, ended := some (-Errno.e2big.number) }
  else r

/-- The bytes a read returns. -/
def Reader.chunk (most : Nat) : List Char := r.file.take (min (most + 1) (size - r.buf.length))

/-- One iteration of the outer loop. -/
def readStep : Read → Reader σ
  | .intr => r
  | .fail errno => if r.ended.isSome then r else { r with ret := -(errno + 1), ended := some (-(errno + 1)) }
  | .bytes most =>
    if r.ended.isSome then r
    else if r.chunk size most = [] then
      if r.buf = [] then finish parsers r else afterRead parsers size (r.buf ++ ['\n']) r
    else
      afterRead parsers size (r.buf ++ r.chunk size most) { r with file := r.file.drop (r.chunk size most).length }

/-- `init_parse_config_file` before its first read. -/
def openConfig (text : List Char) (obj : σ) : Reader σ :=
  { buf := [], file := text, cur := none, ret := 0, ended := none, calls := [], obj := obj }

/-! ## Lines and words -/

/-- The lines that are not blank. -/
def linesOf (text : List Char) : List CStr := (text.splitOn '\n').filter fun line => !line.all isblank

def firstWord (line : CStr) : CStr := (line.dropWhile isblank).takeWhile fun c => !isblank c

/-- Keywords stand at the start of the line and are whole words there. -/
structure Plain (line : CStr) : Prop where
  indented : line.head?.any isblank = true → firstWord line ∉ parsers.map (·.key)
  whole : ∀ p ∈ parsers, p.key <+: line → firstWord line = p.key

instance (line : CStr) : Decidable (Plain parsers line) :=
  decidable_of_iff ((line.head?.any isblank = true → ∀ p ∈ parsers, p.key ≠ firstWord line) ∧
      ∀ p ∈ parsers, p.key <+: line → firstWord line = p.key)
    ⟨fun h => ⟨fun hblank hmem => (mem_map.mp hmem).elim fun p hp => h.1 hblank p hp.1 hp.2, h.2⟩,
      fun h => ⟨fun hblank p hp hkey => h.indented hblank (mem_map.mpr ⟨p, hp, hkey⟩), h.whole⟩⟩

/-- Nothing stands behind an empty line; `start` says that a line begins here. -/
def emptyLinesLast : Bool → List Char → Bool
  | _, [] => true
  | start, c :: rest => (!(start && c == '\n') || rest.isEmpty) && emptyLinesLast (c == '\n') rest

/-- A read that gets to an empty line ends with it. -/
def StopsAtEmpty : Read → Prop
  | .bytes most => emptyLinesLast true (r.buf ++ r.chunk size most) = true
  | _ => True

instance (r : Reader σ) : (read : Read) → Decidable (StopsAtEmpty size r read)
  | .bytes most => inferInstanceAs (Decidable (emptyLinesLast true (r.buf ++ r.chunk size most) = true))
  | .intr => isTrue trivial
  | .fail _ => isTrue trivial

/-- The sections take every line. -/
def Accepting : Prop :=
  ∀ p ∈ parsers, (∀ obj create line, 0 ≤ (p.parse obj create line).2) ∧ ∀ check ∈ p.check, ∀ obj, 0 ≤ (check obj).2

def Read.isBytes : Read → Bool
  | .bytes _ => true
  | _ => false

end

/-! ## Lines of a text that is cut at a newline -/

variable {x y : List Char}

theorem splitOn_cut (hx : '\n' ∉ x) : (x ++ '\n' :: y).splitOn '\n' = x :: y.splitOn '\n' := by
  rw [splitOn_append_cons_self, splitOn_eq_singleton hx, singleton_append]

theorem linesOf_cut (hx : '\n' ∉ x) : linesOf (x ++ '\n' :: y) = (if x.all isblank then [] else [x]) ++ linesOf y := by
  unfold linesOf
  rw [splitOn_cut hx, filter_cons]
  cases x.all isblank <;> simp

theorem linesOf_last (hx : '\n' ∉ x) : linesOf x = if x.all isblank then [] else [x] := by
  unfold linesOf
  rw [splitOn_eq_singleton hx, filter_singleton]
  cases x.all isblank <;> simp

theorem emptyLinesLast_cut {start : Bool} (hx : '\n' ∉ x) (h : emptyLinesLast start (x ++ '\n' :: y) = true) :
    emptyLinesLast true y = true ∧ (start = true → x = [] → y = []) := by
  induction x generalizing start with
  | nil =>
    simp only [nil_append, emptyLinesLast, Bool.and_eq_true] at h
    exact ⟨h.2, fun hstart _ => by simpa [hstart] using h.1⟩
  | cons c x ih =>
    simp only [cons_append, emptyLinesLast, Bool.and_eq_true] at h
    exact ⟨(ih (fun hm => hx (mem_cons_of_mem c hm)) h.2).1, fun _ hnil => by cases hnil⟩

/-! ## Handing over lines -/

section

variable {σ : Type*} {parsers : List (Parser σ)} {r : Reader σ} {more buf : List Char}

/-- The lines taken off the buffer have been handed over, in order; as long as nothing was
refused, the rest is still there. -/
structure Consumes (parsers : List (Parser σ)) (r r' : Reader σ) (new : List Call) : Prop where
  calls : r'.calls = r.calls ++ new
  creates : ∀ c ∈ new, c.create = (findKey parsers c.line).isSome
  file : r'.file = r.file
  lines : ∀ more, new.map (·.line) <+: linesOf (r.buf ++ more)
  rest : r'.ended = none → ∀ more, linesOf (r.buf ++ more) = new.map (·.line) ++ linesOf (r'.buf ++ more)
  inside : r'.ended = none → r'.buf <:+ r.buf
  short : r'.ended = none → ∀ more, (r'.buf ++ more).splitOn '\n' ⊆ (r.buf ++ more).splitOn '\n'
  refused : ∀ e ∈ r'.ended, e < 0
  ret : r'.ended = none → 0 ≤ r.ret → 0 ≤ r'.ret

theorem Consumes.refl (h : r.ended = none) : Consumes parsers r r [] where
  calls := (append_nil _).symm
  creates c hc := absurd hc not_mem_nil
  file := rfl
  lines _ := nil_prefix
  rest _ _ := rfl
  inside _ := suffix_refl _
  short _ _ := List.Subset.refl _
  refused e he := by simp [h] at he
  ret _ h := h

theorem Consumes.trans {r₁ r₂ r₃ : Reader σ} {new more : List Call} (h₁ : Consumes parsers r₁ r₂ new)
    (hgo : r₂.ended = none) (h₂ : Consumes parsers r₂ r₃ more) : Consumes parsers r₁ r₃ (new ++ more) where
  calls := by rw [h₂.calls, h₁.calls, append_assoc]
  creates c hc := (mem_append.mp hc).elim (h₁.creates c) (h₂.creates c)
  file := h₂.file.trans h₁.file
  lines f := by
    rw [h₁.rest hgo f, map_append]
    exact (prefix_append_right_inj _).mpr (h₂.lines f)
  rest h f := by rw [h₁.rest hgo f, h₂.rest h f, map_append, append_assoc]
  inside h := (h₂.inside h).trans (h₁.inside hgo)
  short h f := List.Subset.trans (h₂.short h f) (h₁.short hgo f)
  refused := h₂.refused
  ret h h₀ := h₂.ret h (h₁.ret hgo h₀)

/-- A line is handed over once, or it is the first one and starts no section. -/
theorem handLine_cases (parsers : List (Parser σ)) (line : CStr) (r : Reader σ) :
    (∃ e, (handLine parsers line r).ended = some e ∧ e < 0 ∧ (handLine parsers line r).calls = r.calls) ∨
    ∃ i, (handLine parsers line r).calls = r.calls ++ [⟨i, (findKey parsers line).isSome, line⟩] ∧
      (∀ e ∈ (handLine parsers line r).ended, e < 0) ∧
      ((handLine parsers line r).ended = none → 0 ≤ (handLine parsers line r).ret) := by
  unfold handLine
  simp only
  split
  · exact .inl ⟨_, rfl, by decide, rfl⟩
  rename_i i p _
  refine .inr ⟨i, rfl, fun e he => ?_, fun he => ?_⟩
  · split at he
    · rename_i hneg
      exact Option.some.inj he ▸ hneg
    · cases he
  · split at he
    · cases he
    · exact Int.not_lt.mp ‹_›

theorem handLine_file (line : CStr) (r : Reader σ) : (handLine parsers line r).file = r.file := by
  unfold handLine
  simp only
  split <;> rfl

/-- Taking off a line, of which an empty one has nothing behind it. -/
theorem cutLine_consumes (parsers : List (Parser σ)) {before rest : List Char} (hbuf : r.buf = before ++ '\n' :: rest)
    (hnl : '\n' ∉ before) (hnul : '\x00' ∉ before) (hempty : before = [] → rest = []) (hgo : r.ended = none) :
    ∃ new, Consumes parsers r (cutLine parsers before rest r) new ∧
      ((cutLine parsers before rest r).ended = none → (cutLine parsers before rest r).buf = rest) := by
  have hmem : CStr.ofMem before = before := CStr.ofMem_eq_self hnul
  have hcut : ∀ more, linesOf (r.buf ++ more) =
      (if before.all isblank then [] else [before]) ++ linesOf (rest ++ more) := by
    intro more
    rw [hbuf, append_assoc, cons_append, linesOf_cut hnl]
  have hshort : ∀ more, (rest ++ more).splitOn '\n' ⊆ (r.buf ++ more).splitOn '\n' := by
    intro more
    rw [hbuf, append_assoc, cons_append, splitOn_cut hnl]
    exact subset_cons_self _ _
  have hinside : rest <:+ r.buf := ⟨before ++ ['\n'], by rw [hbuf, append_assoc]; rfl⟩
  -- a blank line disappears and nothing else changes
  have hblank : before.all isblank = true → ∀ r' : Reader σ, r'.buf = rest → r'.calls = r.calls → r'.file = r.file →
      r'.ended = none → (0 ≤ r.ret → 0 ≤ r'.ret) → Consumes parsers r r' [] := by
    intro hall r' hb hc hf he hret
    exact { calls := by rw [hc, append_nil]
            creates := fun c hc => absurd hc not_mem_nil
            file := hf
            lines := fun _ => nil_prefix
            rest := fun _ more => by rw [hcut more, hb, if_pos hall]; rfl
            inside := fun _ => hb ▸ hinside
            short := fun _ more => hb ▸ hshort more
            refused := fun e hmem => by simp [he] at hmem
            ret := fun _ => hret }
  unfold cutLine
  simp only [hmem]
  split
  case isTrue hnil =>
    have hrest : (before ++ '\x00' :: rest).take rest.length = rest := by simp [hempty hnil]
    exact ⟨[], hblank (by simp [hnil]) _ hrest rfl rfl hgo id, fun _ => hrest⟩
  case isFalse =>
    split
    case isTrue hall => exact ⟨[], hblank hall _ rfl rfl rfl hgo fun _ => Int.natCast_nonneg _, fun _ => rfl⟩
    case isFalse hline =>
      have hfirst : ∀ more, linesOf (r.buf ++ more) = before :: linesOf (rest ++ more) := by
        intro more
        rw [hcut more, if_neg hline]
        rfl
      rcases handLine_cases parsers before r with ⟨e, hended, hneg, hcalls⟩ | ⟨i, hcalls, hneg, hret⟩
      · have hstop : (handLine parsers before r).ended ≠ none := by simp [hended]
        refine ⟨[], ⟨by rw [← hcalls, append_nil], fun c hc => absurd hc not_mem_nil, handLine_file before r,
          fun _ => nil_prefix, fun h => absurd h hstop, fun h => absurd h hstop, fun h => absurd h hstop, ?_,
          fun h => absurd h hstop⟩, fun _ => rfl⟩
        intro e' he'
        rw [hended] at he'
        exact Option.some.inj he' ▸ hneg
      refine ⟨[_], ⟨hcalls, ?_, handLine_file before r, fun more => ?_, fun _ more => ?_, fun _ => hinside,
        fun _ => hshort, hneg, fun h _ => hret h⟩, fun _ => rfl⟩
      · intro c hc
        obtain rfl := mem_singleton.mp hc
        rfl
      · rw [hfirst more]
        exact ⟨linesOf (rest ++ more), rfl⟩
      · rw [hfirst more]
        rfl

/-! ## Sections that take every line -/

/-- A section is open, or the first line still to come starts one. -/
def Ready (parsers : List (Parser σ)) (r : Reader σ) (text : List Char) : Prop :=
  (∃ i, r.cur = some i ∧ i < parsers.length) ∨
    ∀ line ∈ (linesOf text).head?, (findKey parsers line).isSome = true

theorem handLine_accepting (hacc : Accepting parsers) {line : CStr}
    (hready : (∃ i, r.cur = some i ∧ i < parsers.length) ∨ (findKey parsers line).isSome = true) :
    (handLine parsers line r).ended = none ∧ ∃ i, (handLine parsers line r).cur = some i ∧ i < parsers.length := by
  obtain ⟨i, hcur, hi⟩ : ∃ i, (findKey parsers line).or r.cur = some i ∧ i < parsers.length := by
    cases hkey : findKey parsers line with
    | some i => exact ⟨i, rfl, (findIdx?_eq_some_iff_getElem.mp hkey).1⟩
    | none =>
      obtain ⟨i, hi, hlt⟩ := hready.resolve_right (by simp [hkey])
      exact ⟨i, by simpa using hi, hlt⟩
  have hpos := (hacc _ (getElem_mem hi)).1 r.obj (findKey parsers line).isSome line
  unfold handLine
  simp only [hcur, Option.bind_some, getElem?_eq_getElem hi]
  exact ⟨if_neg (Int.not_lt.mpr hpos), i, rfl, hi⟩

theorem cutLine_ready (hacc : Accepting parsers) {before rest : List Char} (hbuf : r.buf = before ++ '\n' :: rest)
    (hnl : '\n' ∉ before) (hnul : '\x00' ∉ before) (hgo : r.ended = none) (hready : Ready parsers r (r.buf ++ more)) :
    (cutLine parsers before rest r).ended = none ∧ Ready parsers (cutLine parsers before rest r) (rest ++ more) := by
  have hmem : CStr.ofMem before = before := CStr.ofMem_eq_self hnul
  rw [hbuf, append_assoc, cons_append, Ready, linesOf_cut hnl] at hready
  unfold cutLine
  simp only [hmem]
  split
  case isTrue hnil => exact ⟨hgo, by simpa [Ready, hnil] using hready⟩
  case isFalse =>
    split
    case isTrue hall => exact ⟨hgo, by simpa [Ready, hall] using hready⟩
    case isFalse hline =>
      have hfirst : (∃ i, r.cur = some i ∧ i < parsers.length) ∨ (findKey parsers before).isSome = true := by
        simpa [hline] using hready
      obtain ⟨hended, hcur⟩ := handLine_accepting hacc hfirst
      exact ⟨hended, .inl hcur⟩

/-- The inner loop takes off all complete lines, and sections that take every line stop it
nowhere. -/
theorem cutLines_consumes (parsers : List (Parser σ)) {n : Nat} (hn : r.buf.length ≤ n) (hnul : '\x00' ∉ r.buf)
    (hempty : emptyLinesLast true r.buf = true) (hgo : r.ended = none) :
    ∃ new, Consumes parsers r (cutLines parsers n r) new ∧
      ((cutLines parsers n r).ended = none → '\n' ∉ (cutLines parsers n r).buf) ∧
      (Accepting parsers → ∀ more, Ready parsers r (r.buf ++ more) → (cutLines parsers n r).ended = none ∧
        Ready parsers (cutLines parsers n r) ((cutLines parsers n r).buf ++ more)) := by
  induction n generalizing r with
  | zero =>
    have hnil : r.buf = [] := length_eq_zero_iff.mp (Nat.le_zero.mp hn)
    exact ⟨[], .refl hgo, fun _ => by simp [cutLines, hnil], fun _ _ hready => ⟨hgo, hready⟩⟩
  | succ n ih =>
    by_cases hmem : '\n' ∈ r.buf
    · obtain ⟨before, rest, hbuf, hnl⟩ := eq_append_cons_of_mem hmem
      rw [hbuf] at hempty hnul hn
      have hnul' : '\x00' ∉ before := fun h => hnul (mem_append_left _ h)
      obtain ⟨hrest, hlast⟩ := emptyLinesLast_cut hnl hempty
      obtain ⟨new, hcut, hnext⟩ := cutLine_consumes parsers hbuf hnl hnul' (hlast rfl) hgo
      have hline := fun (hacc : Accepting parsers) more => @cutLine_ready _ _ r more hacc _ _ hbuf hnl hnul' hgo
      simp only [cutLines, strchrCut_append hnl, hbuf] at hline ⊢
      split
      case isTrue hended =>
        refine ⟨new, hcut, fun h => by simp [h] at hended, fun hacc more hready => ?_⟩
        simp [(hline hacc more hready).1] at hended
      case isFalse hgo' =>
        have hgo' : (cutLine parsers before rest r).ended = none := by simpa using hgo'
        have hbuf' := hnext hgo'
        obtain ⟨more, hmore, hclean, hready⟩ := ih (r := cutLine parsers before rest r)
          (by rw [hbuf']; simp at hn; omega)
          (by rw [hbuf']; exact fun h => hnul (mem_append_right _ (mem_cons_of_mem _ h)))
          (by rw [hbuf']; exact hrest) hgo'
        rw [hbuf'] at hready
        exact ⟨new ++ more, hcut.trans hgo' hmore, hclean,
          fun hacc more hstart => hready hacc more (hline hacc more hstart).2⟩
    · simp only [cutLines, strchrCut_of_not_mem hmem]
      exact ⟨[], .refl hgo, fun _ => hmem, fun _ _ hready => ⟨hgo, hready⟩⟩

/-! ## Reads -/

/-- What the loop has done with the text so far. -/
structure Reading (parsers : List (Parser σ)) (size : Nat) (text : List Char) (r : Reader σ) : Prop where
  clean : '\n' ∉ r.buf
  nul : '\x00' ∉ r.buf ++ r.file
  short : ∀ line ∈ (r.buf ++ r.file).splitOn '\n', line.length < size
  lines : linesOf text = r.calls.map (·.line) ++ linesOf (r.buf ++ r.file)
  ret : 0 ≤ r.ret

structure Inv (parsers : List (Parser σ)) (size : Nat) (text : List Char) (r : Reader σ) : Prop where
  creates : ∀ c ∈ r.calls, c.create = (findKey parsers c.line).isSome
  lines : r.calls.map (·.line) <+: linesOf text
  reading : r.ended = none → Reading parsers size text r
  whole : ∀ ret ∈ r.ended, 0 ≤ ret → r.calls.map (·.line) = linesOf text

variable {size : Nat} {text : List Char}

theorem length_lt_of_short (hclean : '\n' ∉ buf) (hshort : ∀ line ∈ (buf ++ more).splitOn '\n', line.length < size) :
    buf.length < size := by
  by_cases hmem : '\n' ∈ more
  · obtain ⟨before, rest, rfl, hnl⟩ := eq_append_cons_of_mem hmem
    have hline : buf ++ before ∈ (buf ++ (before ++ '\n' :: rest)).splitOn '\n' := by
      rw [← append_assoc, splitOn_cut (by simp [hclean, hnl])]
      exact mem_cons_self
    have hlt := hshort _ hline
    rw [length_append] at hlt
    omega
  · have hlt := hshort (buf ++ more) (by rw [splitOn_eq_singleton (by simp [hclean, hmem])]; simp)
    rw [length_append] at hlt
    omega

/-- The lines of what is in the buffer are handed over, and never fill it. -/
theorem afterRead_inv (hcreates : ∀ c ∈ r.calls, c.create = (findKey parsers c.line).isSome) (hgo : r.ended = none)
    (hnul : '\x00' ∉ buf ++ r.file) (hempty : emptyLinesLast true buf = true)
    (hshort : ∀ line ∈ (buf ++ r.file).splitOn '\n', line.length < size)
    (hlines : linesOf text = r.calls.map (·.line) ++ linesOf (buf ++ r.file)) (hret : 0 ≤ r.ret) :
    Inv parsers size text (afterRead parsers size buf r) ∧ (afterRead parsers size buf r).file = r.file ∧
      ((afterRead parsers size buf r).ended = none → (afterRead parsers size buf r).buf <:+ buf) ∧
      (Accepting parsers → Ready parsers r (buf ++ r.file) → (afterRead parsers size buf r).ended = none ∧
        Ready parsers (afterRead parsers size buf r) ((afterRead parsers size buf r).buf ++ r.file)) := by
  have hnul' : '\x00' ∉ buf := fun h => hnul (mem_append_left _ h)
  have hlen : ({ r with buf := buf } : Reader σ).buf.length ≤ buf.length := Nat.le_refl _
  obtain ⟨new, hcons, hclean, hready⟩ := cutLines_consumes parsers hlen hnul' hempty hgo
  unfold afterRead
  simp only
  generalize cutLines parsers buf.length { r with buf := buf } = r' at hcons hclean hready ⊢
  have hcreates' : ∀ c ∈ r'.calls, c.create = (findKey parsers c.line).isSome := by
    rw [hcons.calls]
    exact fun c hc => (mem_append.mp hc).elim (hcreates c) (hcons.creates c)
  have hprefix : r'.calls.map (·.line) <+: linesOf text := by
    rw [hcons.calls, hlines, map_append]
    exact (prefix_append_right_inj _).mpr (hcons.lines r.file)
  cases hend : r'.ended with
  | some e =>
    rw [if_pos (by rfl)]
    have hneg := hcons.refused e hend
    refine ⟨⟨hcreates', hprefix, fun h => absurd (hend.symm.trans h) (by simp), ?_⟩, hcons.file,
      fun h => absurd (hend.symm.trans h) (by simp), fun hacc hr => ?_⟩
    · intro ret hret hpos
      rw [hend] at hret
      have := Option.some.inj hret
      omega
    · exact absurd (hend.symm.trans (hready hacc _ hr).1) (by simp)
  | none =>
    have hshort' : ∀ line ∈ (r'.buf ++ r.file).splitOn '\n', line.length < size := fun line hline =>
      hshort line (hcons.short hend r.file hline)
    have hfull : r'.buf.length ≠ size := (length_lt_of_short (hclean hend) hshort').ne
    rw [if_neg (by simp), if_neg hfull]
    refine ⟨⟨hcreates', hprefix, fun _ => ?_, fun ret hret => ?_⟩, hcons.file, fun _ => hcons.inside hend,
      fun hacc hr => hready hacc _ hr⟩
    · refine ⟨hclean hend, ?_, hcons.file ▸ hshort', ?_, hcons.ret hend hret⟩
      · rw [hcons.file]
        exact fun h => hnul ((mem_append.mp h).elim
          (fun hb => mem_append_left _ ((hcons.inside hend).subset hb)) (mem_append_right _))
      · rw [hcons.file, hlines, hcons.calls, map_append, append_assoc]
        exact congrArg _ (hcons.rest hend r.file)
    · simp [hend] at hret

/-- A bound on the reads that are still to come. -/
def need (r : Reader σ) : Nat := if r.buf = [] ∧ r.file = [] then 1 else r.file.length + 2

theorem runChecks_nonneg (hacc : Accepting parsers) (obj : σ) {ret : Int} (hret : 0 ≤ ret) :
    0 ≤ (runChecks parsers obj ret).2 := by
  induction parsers generalizing obj ret with
  | nil => exact hret
  | cons p ps ih =>
    have hrest : Accepting ps := fun q hq => hacc q (mem_cons_of_mem p hq)
    unfold runChecks
    cases hc : p.check with
    | none => exact ih hrest obj hret
    | some check =>
      have hpos := (hacc p mem_cons_self).2 check hc obj
      simp only [if_neg (Int.not_lt.mpr hpos)]
      exact ih hrest _ hpos

theorem emptyLinesLast_append_newline (hclean : '\n' ∉ buf) (start : Bool) :
    emptyLinesLast start (buf ++ ['\n']) = true := by
  induction buf generalizing start with
  | nil => simp [emptyLinesLast]
  | cons c buf ih =>
    have hc : c ≠ '\n' := fun he => hclean (he ▸ mem_cons_self)
    simp [emptyLinesLast, hc, ih fun h => hclean (mem_cons_of_mem c h)]

/-- What one read that returns keeps, and how far it gets. -/
structure Advances (parsers : List (Parser σ)) (size : Nat) (text : List Char) (r r' : Reader σ) : Prop where
  inv : Inv parsers size text r'
  fewer : r'.ended = none → need r' < need r
  ready : Accepting parsers → Ready parsers r (r.buf ++ r.file) →
    (∀ ret ∈ r'.ended, 0 ≤ ret) ∧ Ready parsers r' (r'.buf ++ r'.file)

theorem finish_advances (hI : Inv parsers size text r) (hgo : r.ended = none) (hbuf : r.buf = [])
    (hfile : r.file = []) :
    Advances parsers size text r (finish parsers r) := by
  have hR := hI.reading hgo
  have hall : linesOf text = r.calls.map (·.line) := by
    rw [hR.lines, hbuf, hfile]
    exact append_nil _
  refine ⟨⟨hI.creates, hI.lines, fun h => ?_, fun _ _ _ => hall.symm⟩, fun h => ?_,
    fun hacc _ => ⟨fun ret hret => ?_, ?_⟩⟩
  · cases h
  · cases h
  · exact Option.some.inj hret ▸ runChecks_nonneg hacc r.obj hR.ret
  · refine .inr fun line hline => ?_
    simp [finish, hbuf, hfile, linesOf] at hline

theorem lastLine_advances (hI : Inv parsers size text r) (hgo : r.ended = none) (hbuf : r.buf ≠ [])
    (hfile : r.file = []) : Advances parsers size text r (afterRead parsers size (r.buf ++ ['\n']) r) := by
  have hR := hI.reading hgo
  have hroom : r.buf.length < size := length_lt_of_short hR.clean hR.short
  have hsame : linesOf (r.buf ++ ['\n'] ++ r.file) = linesOf (r.buf ++ r.file) := by
    rw [hfile, append_nil, append_nil, linesOf_cut hR.clean, linesOf_last hR.clean]
    exact append_nil _
  have hnul : '\x00' ∉ r.buf ++ ['\n'] ++ r.file := by simpa using hR.nul
  have hshort : ∀ line ∈ (r.buf ++ ['\n'] ++ r.file).splitOn '\n', line.length < size := by
    rw [hfile, append_nil, splitOn_cut hR.clean]
    intro line hline
    rcases mem_cons.mp hline with rfl | hline
    · exact hroom
    · obtain rfl : line = [] := by simpa using hline
      exact Nat.lt_of_le_of_lt (Nat.zero_le _) hroom
  obtain ⟨hinv, hkeep, hinside, hready⟩ := afterRead_inv hI.creates hgo hnul
    (emptyLinesLast_append_newline hR.clean true) hshort (hsame ▸ hR.lines) hR.ret
  refine ⟨hinv, fun hgo' => ?_, fun hacc hr => ?_⟩
  · -- a part of the buffer without a newline, at its end
    have hnil : (afterRead parsers size (r.buf ++ ['\n']) r).buf = [] := by
      obtain ⟨front, hfront⟩ := hinside hgo'
      rcases eq_nil_or_concat (afterRead parsers size (r.buf ++ ['\n']) r).buf with hnil | ⟨init, c, hinit⟩
      · exact hnil
      rw [hinit] at hfront
      have hc : c = '\n' := by simpa using congrArg List.getLast? hfront
      exact absurd (by simp [hinit, hc]) (hinv.reading hgo').clean
    simp [need, hnil, hkeep, hfile, hbuf]
  · have hr' : Ready parsers r (r.buf ++ ['\n'] ++ r.file) := by rwa [Ready, hsame]
    obtain ⟨hgo', hr''⟩ := hready hacc hr'
    exact ⟨fun ret hret => by simp [hgo'] at hret, by rwa [hkeep]⟩

theorem chunk_advances (hI : Inv parsers size text r) (hgo : r.ended = none) (hfile : r.file ≠ []) {chunk : List Char}
    (hchunk : chunk <+: r.file) (hne : chunk ≠ []) (hstop : emptyLinesLast true (r.buf ++ chunk) = true) :
    Advances parsers size text r
      (afterRead parsers size (r.buf ++ chunk) { r with file := r.file.drop chunk.length }) := by
  have hR := hI.reading hgo
  obtain ⟨rest, hrest⟩ := hchunk
  have hdrop : r.file.drop chunk.length = rest := by rw [← hrest, drop_left]
  rw [hdrop]
  have hall : r.buf ++ chunk ++ rest = r.buf ++ r.file := by rw [append_assoc, hrest]
  obtain ⟨hinv, hkeep, -, hready⟩ := afterRead_inv (r := { r with file := rest }) hI.creates hgo
    (hall ▸ hR.nul) hstop (hall ▸ hR.short) (hall ▸ hR.lines) hR.ret
  refine ⟨hinv, fun _ => ?_, fun hacc hr => ?_⟩
  · have hlen : rest.length < r.file.length := by
      have := length_pos_iff.mpr hne
      rw [← hrest, length_append]
      omega
    have hneed : need r = r.file.length + 2 := if_neg fun h => hfile h.2
    simp only [need, hkeep] at hneed ⊢
    split <;> omega
  · obtain ⟨hgo', hr'⟩ := hready hacc (by rw [Ready, hall]; exact hr)
    exact ⟨fun ret hret => by simp [hgo'] at hret, by rwa [hkeep]⟩

theorem readStep_advances (hI : Inv parsers size text r) (hgo : r.ended = none) {most : Nat}
    (hstop : StopsAtEmpty size r (.bytes most)) :
    Advances parsers size text r (readStep parsers size r (.bytes most)) := by
  have hR := hI.reading hgo
  have hroom : r.buf.length < size := length_lt_of_short hR.clean hR.short
  have hchunk : r.chunk size most = [] ↔ r.file = [] := by
    simp only [Reader.chunk, take_eq_nil_iff]
    exact ⟨fun h => h.resolve_left (by omega), .inr⟩
  have hrun : ¬ r.ended.isSome = true := by simp [hgo]
  rw [readStep, if_neg hrun]
  split
  case isTrue hnil =>
    split
    case isTrue hbuf => exact finish_advances hI hgo hbuf (hchunk.mp hnil)
    case isFalse hbuf => exact lastLine_advances hI hgo hbuf (hchunk.mp hnil)
  case isFalse hne =>
    exact chunk_advances hI hgo (fun h => hne (hchunk.mpr h)) (List.take_prefix _ _) hne hstop

/-! ## Whole files -/

/-- Nothing was refused, and the next line will not be either. -/
def Good (parsers : List (Parser σ)) (r : Reader σ) : Prop :=
  (r.ended = none → Ready parsers r (r.buf ++ r.file)) ∧ ∀ ret ∈ r.ended, 0 ≤ ret

theorem readStep_of_ended (h : r.ended ≠ none) (read : Read) : readStep parsers size r read = r := by
  have hend : r.ended.isSome = true := Option.isSome_iff_ne_none.mpr h
  cases read <;> simp [readStep, hend]

theorem readStep_inv (hI : Inv parsers size text r) {read : Read} (hstop : StopsAtEmpty size r read) :
    Inv parsers size text (readStep parsers size r read) := by
  by_cases hgo : r.ended = none
  · cases read with
    | intr => exact hI
    | bytes most => exact (readStep_advances hI hgo hstop).inv
    | fail errno =>
      have hrun : ¬ r.ended.isSome = true := by simp [hgo]
      rw [readStep, if_neg hrun]
      refine ⟨hI.creates, hI.lines, fun h => (by cases h), fun ret hret hpos => ?_⟩
      have := Option.some.inj hret
      omega
  · rwa [readStep_of_ended hgo]

theorem readStep_good (hI : Inv parsers size text r) (hgood : Good parsers r) (hacc : Accepting parsers) {read : Read}
    (hread : ∀ errno, read ≠ .fail errno) (hstop : StopsAtEmpty size r read) :
    Good parsers (readStep parsers size r read) := by
  by_cases hgo : r.ended = none
  · cases read with
    | intr => exact hgood
    | fail errno => exact absurd rfl (hread errno)
    | bytes most =>
      obtain ⟨hpos, hready⟩ := (readStep_advances hI hgo hstop).ready hacc (hgood.1 hgo)
      exact ⟨fun _ => hready, hpos⟩
  · rwa [readStep_of_ended hgo]

/-- Each read that returns brings the loop closer to its end. -/
theorem run_ended {reads : List Read} (hI : Inv parsers size text r)
    (hstop : Meets (readStep parsers size) (StopsAtEmpty size) r reads)
    (hneed : r.ended = none → need r ≤ reads.countP Read.isBytes) :
    (run (readStep parsers size) r reads).ended ≠ none := by
  induction reads generalizing r with
  | nil =>
    intro hgo
    have hpos : 0 < need r := by unfold need; split <;> omega
    have := hneed hgo
    simp at this
    omega
  | cons read reads ih =>
    refine ih (readStep_inv hI hstop.1) hstop.2 fun hgo' => ?_
    have hgo : r.ended = none := by
      by_contra hend
      rw [readStep_of_ended hend] at hgo'
      exact hend hgo'
    have hle := hneed hgo
    cases read with
    | intr => exact hle
    | fail errno => simp [readStep, hgo] at hgo'
    | bytes most =>
      have hlt := (readStep_advances hI hgo hstop.1).fewer hgo'
      rw [countP_cons_of_pos rfl] at hle
      omega

theorem openConfig_inv {obj : σ} (hnul : '\x00' ∉ text) (hshort : ∀ line ∈ text.splitOn '\n', line.length < size) :
    Inv parsers size text (openConfig text obj) where
  creates c hc := absurd hc not_mem_nil
  lines := nil_prefix
  reading _ := ⟨not_mem_nil, hnul, hshort, rfl, Int.le_refl 0⟩
  whole _ hret := by cases hret

theorem findKey_isSome {line : CStr} (hplain : Plain parsers line) :
    (findKey parsers line).isSome = true ↔ firstWord line ∈ parsers.map (·.key) := by
  rw [findKey, findIdx?_isSome, any_eq_true]
  constructor
  · rintro ⟨p, hp, hkey⟩
    rw [hplain.whole p hp (startsWith_iff.mp hkey)]
    exact mem_map_of_mem hp
  intro hmem
  obtain ⟨p, hp, hkey⟩ := mem_map.mp hmem
  refine ⟨p, hp, startsWith_iff.mpr ?_⟩
  rw [hkey]
  -- the word stands at the start of the line
  have hdrop : line.dropWhile isblank = line := by
    cases line with
    | nil => rfl
    | cons c line =>
      have hc : isblank c = false := by
        by_contra hb
        exact hplain.indented (by simpa using hb) hmem
      simp [hc]
  rw [firstWord, hdrop]
  exact takeWhile_prefix _

/-- Every line that is not blank reaches its section once, complete and in order: for files without
NUL whose lines fit the buffer, if keywords are whole words at the start of a line and a read that
gets to an empty line ends with it. -/
theorem initParseConfigFile_lines {obj : σ} {reads : List Read} (hnul : '\x00' ∉ text)
    (hshort : ∀ line ∈ text.splitOn '\n', line.length < size) (hplain : ∀ line ∈ linesOf text, Plain parsers line)
    (hstop : Meets (readStep parsers size) (StopsAtEmpty size) (openConfig text obj) reads) :
    let r := run (readStep parsers size) (openConfig text obj) reads
    (∀ c ∈ r.calls, c.create = true ↔ firstWord c.line ∈ parsers.map (·.key)) ∧
    r.calls.map (·.line) <+: linesOf text ∧
    (text.length + 2 ≤ reads.countP Read.isBytes → ∃ ret, r.ended = some ret ∧
      (0 ≤ ret → r.calls.map (·.line) = linesOf text) ∧
      (Accepting parsers → (∀ errno, .fail errno ∉ reads) →
        (∀ line ∈ (linesOf text).head?, firstWord line ∈ parsers.map (·.key)) → 0 ≤ ret)) := by
  have hstart : Inv parsers size text (openConfig text obj) := openConfig_inv hnul hshort
  have hinv : Inv parsers size text (run (readStep parsers size) (openConfig text obj) reads) :=
    Transition.run_induct (C := StopsAtEmpty size) (fun r read hI hC => readStep_inv hI hC) hstart hstop
  refine ⟨fun c hc => ?_, hinv.lines, fun henough => ?_⟩
  · have hline : c.line ∈ linesOf text := hinv.lines.subset (mem_map_of_mem hc)
    rw [hinv.creates c hc, findKey_isSome (hplain c.line hline)]
  have hneed : need (openConfig text obj) ≤ text.length + 2 := by
    unfold need
    split
    · omega
    · exact Nat.le_refl _
  obtain ⟨ret, hret⟩ := Option.ne_none_iff_exists'.mp (run_ended hstart hstop fun _ => hneed.trans henough)
  refine ⟨ret, hret, hinv.whole ret hret, fun hacc hfail hfirst => ?_⟩
  have hready : Ready parsers (openConfig text obj) text := .inr fun line hline =>
    (findKey_isSome (hplain line (mem_of_mem_head? hline))).mpr (hfirst line hline)
  have hgood : Good parsers (openConfig text obj) := ⟨fun _ => hready, fun ret hret => by cases hret⟩
  have hnofail : Meets (readStep parsers size) (fun _ read => ∀ errno, read ≠ .fail errno)
      (openConfig text obj) reads :=
    Meets.of_labels fun read hread errno he => hfail errno (he ▸ hread)
  have hend := Transition.run_induct (I := fun r => Inv parsers size text r ∧ Good parsers r)
    (fun r read hr hC => ⟨readStep_inv hr.1 hC.1, readStep_good hr.1 hr.2 hacc hC.2 hC.1⟩)
    ⟨hstart, hgood⟩ (hstop.and hnofail)
  exact hend.2.2 ret hret

end

/-- The sections of `main`, with parsers that take every line. -/
def sections : List (Parser Unit) :=
  ["import", "on", "service"].map fun key => ⟨key.toList, fun _ _ _ => ((), 0), none⟩

theorem initParseConfigFile_lines_boot :
    let text := "on boot\n start a\n\nservice a b".toList
    let reads := Read.bytes 17 :: Read.intr :: replicate 40 (Read.bytes 4)
    (run (readStep sections 24) (openConfig text ()) reads).calls.map (·.line) = linesOf text := by
  intro text reads
  have hacc : Accepting sections := by
    intro p hp
    obtain ⟨key, -, rfl⟩ := mem_map.mp hp
    exact ⟨fun _ _ _ => Int.le_refl 0, fun check hcheck => by cases hcheck⟩
  have hnofail : ∀ errno, Read.fail errno ∉ reads := by
    intro errno hmem
    simp [reads] at hmem
  obtain ⟨-, -, hall⟩ := @initParseConfigFile_lines Unit sections 24 text () reads
    (by decide) (by decide) (by decide) (by decide)
  obtain ⟨ret, -, hwhole, hpos⟩ := hall (by decide)
  exact hwhole (hpos hacc hnofail (by decide))

/-- An empty line costs the line behind it, a longer word counts as the keyword that it starts with,
and an indented keyword does not count. -/
theorem not_initParseConfigFile_lines :
    (let text := "on boot\n\nservice a b\n".toList
     let r := run (readStep sections 64) (openConfig text ()) [.bytes 63, .bytes 63, .bytes 63]
     r.ended = some 0 ∧ r.calls.map (·.line) ≠ linesOf text) ∧
    (let r := run (readStep sections 64) (openConfig "service a b\noneshot\n".toList ()) [.bytes 63]
     ∃ c ∈ r.calls, c.create = true ∧ firstWord c.line ∉ sections.map (·.key)) ∧
    (let r := run (readStep sections 64) (openConfig "on boot\n service a b\n".toList ()) [.bytes 63]
     ∃ c ∈ r.calls, c.create = false ∧ firstWord c.line ∈ sections.map (·.key)) := by
  decide

end System.Nxinit
