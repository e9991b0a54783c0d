-- SUMMARY: Reading the end of a file of lines, and filtering it in place.
import FruitClawApps.FruitClaw.Config
import FruitClawApps.Lib.Bytes

/-!
# The end of the memory

`fc_read_tail_file` reads a window at the end of a file, without the line that the window cuts, and
doubles it if nothing is left. `fc_filter_memory_jsonl_tail` keeps the lines that look like entries.
It works in the buffer itself: a store outside of the string and its terminator is no result here.
-/

namespace FruitClaw.Memory

open CStr Bytes List

/-! ## Reading -/

/-- The next window: `size_t` may wrap around, and then the whole buffer is used. -/
def nextWindow (outLen window : Nat) : Nat :=
  let next := window * 2 % 2 ^ 32
  if next ≤ window ∨ next > outLen - 1 then outLen - 1 else next

variable {window outLen : Nat} {s line : CStr}

theorem lt_nextWindow (h : window < outLen - 1) :
    window < nextWindow outLen window ∧ nextWindow outLen window ≤ outLen - 1 := by
  unfold nextWindow
  grind

/-- The loop of `fc_read_tail_file` on the content of the file. -/
def readWindow (content : CStr) (outLen window : Nat) : CStr :=
  -- zero if the file is not longer than the window
  let start := content.length - window
  let out := content.drop start
  if 0 < start ∧ 0 < out.length then
    let skip := (ofMem out).idxOf '\n' + 1
    if '\n' ∈ ofMem out ∧ skip < out.length then out.drop skip
    else if _ : window < outLen - 1 then readWindow content outLen (nextWindow outLen window)
    else []
  else out
termination_by outLen - 1 - window
decreasing_by
  have := lt_nextWindow ‹window < outLen - 1›
  omega

/-- The result and the text in the buffer, where the file can be opened with that content or not. -/
def fcReadTailFile (file : Except Errno CStr) (maxBytes outLen : Nat) : Ret × CStr :=
  if outLen = 0 then (.error .einval, [])
  else
    match file with
    | .error e => (.error e, [])
    | .ok content =>
      let window := min maxBytes (outLen - 1)
      if window = 0 then (.ok (), []) else (.ok (), readWindow content outLen window)

/-- The text in front of a line. -/
def EndsLine (front : CStr) : Prop := front = [] ∨ front.getLast? = some '\n'

theorem drop_line {out : CStr} (h : '\n' ∈ out) :
    ∃ line, '\n' ∉ line ∧ out.idxOf '\n' = line.length ∧ out = line ++ '\n' :: out.drop (out.idxOf '\n' + 1) := by
  obtain ⟨line, rest, rfl, hline⟩ := eq_append_cons_of_mem h
  have hidx : (line ++ '\n' :: rest).idxOf '\n' = line.length := by
    rw [idxOf_append_of_notMem hline, idxOf_cons_self, Nat.add_zero]
  exact ⟨line, hline, hidx, by simp [hidx]⟩

theorem readWindow_suffix {content : CStr} (hnul : '\x00' ∉ content) (h : window ≤ outLen - 1) :
    (readWindow content outLen window).length ≤ outLen - 1 ∧
      ∃ front, content = front ++ readWindow content outLen window ∧
        (readWindow content outLen window ≠ [] → EndsLine front) := by
  have hstr (k : Nat) : ofMem (content.drop k) = content.drop k :=
    ofMem_eq_self fun hmem => hnul (mem_of_mem_drop hmem)
  fun_induction readWindow content outLen window with
  | case1 window start out hcut skip hline =>
    rw [hstr] at hline
    obtain ⟨line, -, hidx, hout⟩ := drop_line hline.1
    have hskip : skip = line.length + 1 := by rw [← hidx, ← hstr]
    refine ⟨by grind, content.take start ++ (line ++ ['\n']), ?_, fun _ => .inr (by simp)⟩
    rw [hskip, append_assoc, append_assoc, singleton_append, ← hidx, ← hout, take_append_drop]
  | case2 window start out hcut skip hline hwider ih => exact ih (lt_nextWindow hwider).2
  | case3 => exact ⟨Nat.zero_le _, content, (append_nil _).symm, fun hne => absurd rfl hne⟩
  | case4 window start out hcut =>
    have hstart : start = 0 ∨ out = [] := by grind
    refine ⟨by grind, content.take start, (take_append_drop _ _).symm, fun hne => .inl ?_⟩
    rw [hstart.resolve_right hne, take_zero]

/-- Lines at the end that fit into the buffer with the line end in front of them are not lost. -/
theorem readWindow_ne_nil {front last : CStr} (hnul : '\x00' ∉ front ++ last) (hfront : EndsLine front)
    (hne : last ≠ []) (hlast : last.length ≤ outLen - 2) (hwindow : 0 < window) (h : window ≤ outLen - 1) :
    readWindow (front ++ last) outLen window ≠ [] := by
  have hpos : 0 < last.length := length_pos_iff.mpr hne
  fun_induction readWindow (front ++ last) outLen window with
  | case1 window start out hcut skip hline => exact fun hnil => absurd (drop_eq_nil_iff.mp hnil) (by omega)
  | case2 window start out hcut skip hline hwider ih =>
    exact ih (Nat.lt_of_le_of_lt (Nat.zero_le _) (lt_nextWindow hwider).1) (lt_nextWindow hwider).2
  | case3 window start out hcut skip hline hwidest =>
    -- the widest window has the line end in front of the last lines
    obtain ⟨lines, rfl⟩ := getLast?_eq_some_iff.mp (hfront.resolve_left (by rintro rfl; grind))
    have hout : out = lines.drop start ++ '\n' :: last := by grind
    have hstr : ofMem out = lines.drop start ++ '\n' :: last := by
      rw [← hout]
      exact ofMem_eq_self fun hmem => hnul (mem_of_mem_drop hmem)
    exact absurd ⟨by simp [hstr], by grind⟩ hline
  | case4 window start out hcut => grind

/-- The text is a part at the end of the file, without a cut line. It is the whole file if that fits
the window. It is not empty if the last line fits, or more generally any lines at the end, with one
byte to spare. -/
theorem fcReadTailFile_suffix {content : CStr} (hnul : '\x00' ∉ content) {maxBytes outLen : Nat} (hmax : 0 < maxBytes)
    (hout : 2 ≤ outLen) :
    ∃ out, fcReadTailFile (.ok content) maxBytes outLen = (.ok (), out) ∧ out.length ≤ outLen - 1 ∧
      (∃ front, content = front ++ out ∧ (out ≠ [] → EndsLine front)) ∧
      (content.length ≤ min maxBytes (outLen - 1) → out = content) ∧
      ∀ front last, content = front ++ last → EndsLine front → last ≠ [] → last.length ≤ outLen - 2 → out ≠ [] := by
  have hle : min maxBytes (outLen - 1) ≤ outLen - 1 := Nat.min_le_right _ _
  have hpos : 0 < min maxBytes (outLen - 1) := by omega
  obtain ⟨hlen, hfront⟩ := readWindow_suffix hnul hle
  refine ⟨_, ?_, hlen, hfront, fun hfits => ?_, ?_⟩
  · rw [fcReadTailFile, if_neg (by omega)]
    simp only [if_neg (Nat.ne_of_gt hpos)]
  · rw [readWindow, Nat.sub_eq_zero_of_le hfits]
    simp
  · rintro front last rfl hends hne hlast
    exact readWindow_ne_nil hnul hends hne hlast hpos hle

theorem fcReadTailFile_suffix_cut : ∃ out, fcReadTailFile (.ok "a\nbc\n".toList) 2 6 = (.ok (), out) ∧ out ≠ [] := by
  obtain ⟨out, hread, -, -, -, hne⟩ :=
    @fcReadTailFile_suffix "a\nbc\n".toList (by decide) 2 6 (by decide) (by decide)
  exact ⟨out, hread, hne "a\n".toList "bc\n".toList rfl (.inr rfl) (by decide) (by decide)⟩

/-! ## Filtering -/

/-- Bytes are stored in the memory of the string and its terminator. -/
def store (mem : List Char) (off : Nat) (bytes : List Char) : Option (List Char) :=
  if off + bytes.length ≤ mem.length then some (splice mem off bytes) else none

/-- The loop at the end of `fc_trim`, on the string of that length at `p`. -/
def trimEndAt (p : Nat) : Nat → List Char → Option (List Char)
  | 0, mem => some mem
  | 1, mem => if isspace (mem.getD p '\x00') then store mem p ['\x00'] else some mem
  | len + 2, mem =>
    if isspace (mem.getD (p + len + 1) '\x00') then store mem (p + len + 1) ['\x00'] >>= trimEndAt p (len + 1)
    else if mem.getD (p + len) '\x00' = '\\' ∧
        (mem.getD (p + len + 1) '\x00' = 'n' ∨ mem.getD (p + len + 1) '\x00' = 'r') then
      store mem (p + len) ['\x00'] >>= trimEndAt p len
    else some mem

/-- `fc_trim` on the string at `p`. -/
def fcTrimAt (p : Nat) (mem : List Char) : Option (List Char) :=
  let s := ofMem (mem.drop p)
  let rest := s.dropWhile isspace
  let start := p + (s.length - rest.length)
  (if start ≠ p then store mem p (slice mem start (rest.length + 1)) else some mem) >>= trimEndAt p rest.length

/-- A line that is trimmed looks like an entry of the memory. -/
def looksLikeMemory (line : CStr) : Bool :=
  2 ≤ line.length ∧ line.head? = some '\x7b' ∧ line.getLast? = some '\x7d' ∧ strstr line "\"ts_ms\"".toList ∧
    strstr line "\"source\"".toList ∧ strstr line "\"text\"".toList

/-- The line at `readp` is trimmed, and written if it is kept: the memory and where to write
next. -/
def keepLine (readp writep : Nat) (mem : List Char) : Option (List Char × Nat) := do
  let mem ← fcTrimAt readp mem
  let line := ofMem (mem.drop readp)
  if looksLikeMemory line then
    let mem ← store mem writep line
    let mem ← store mem (writep + line.length) ['\n']
    some (mem, writep + line.length + 1)
  else some (mem, writep)

/-- The loop of `fc_filter_memory_jsonl_tail`. -/
def filterFrom : Nat → List Char → Nat → Nat → Option (List Char × Nat)
  | 0, _, _, _ => none
  | fuel + 1, mem, readp, writep =>
    let text := ofMem (mem.drop readp)
    let next := readp + text.idxOf '\n'
    if text = [] then some (mem, writep)
    else if '\n' ∈ text then do
      let mem ← store mem next ['\x00']
      let (mem, writep) ← keepLine readp writep mem
      let mem ← store mem next ['\n']
      filterFrom fuel mem (next + 1) writep
    else keepLine readp writep mem

def fcFilterMemoryJsonlTail (mem : List Char) : Option (List Char) := do
  let (mem, writep) ← filterFrom (mem.length + 1) mem 0 0
  store mem writep ['\x00']

/-- What is left of a line. -/
def keptLine (line : CStr) : CStr := if looksLikeMemory (fcTrim line) then fcTrim line ++ ['\n'] else []

/-- What the filter is to leave. -/
def memoryLines (s : CStr) : CStr := (s.splitOn '\n').flatMap keptLine

theorem store_front (a b : List Char) {w y : List Char} (h : y.length ≤ w.length) :
    store (a ++ (w ++ b)) a.length y = some (a ++ (y ++ (w.drop y.length ++ b))) := by
  rw [store, if_pos (by simp; omega), splice]
  simp [drop_append, Nat.sub_eq_zero_of_le h]

theorem store_mid (a b : List Char) {x y : List Char} {n : Nat} (hn : n = a.length) (h : x.length = y.length) :
    store (a ++ (x ++ b)) n y = some (a ++ (y ++ b)) := by
  have hstore := store_front a b h.ge
  rwa [← h, drop_length, nil_append, ← hn] at hstore

theorem getD_mid (a b : List Char) (x : Char) {n : Nat} (hn : n = a.length) : (a ++ x :: b).getD n '\x00' = x := by
  simp [hn]

theorem trimEndAt_spec (a b r : List Char) :
    ∃ junk, trimEndAt a.length r.length (a ++ (r.reverse ++ '\x00' :: b)) =
        some (a ++ ((fcTrimEnd r).reverse ++ '\x00' :: (junk ++ b))) ∧
      junk.length + (fcTrimEnd r).length = r.length := by
  fun_induction fcTrimEnd r generalizing b with
  | case1 => exact ⟨[], rfl, rfl⟩
  | case2 c hspace =>
    have hstore := @store_mid a ('\x00' :: b) [c] ['\x00'] _ rfl rfl
    exact ⟨['\x00'], by simpa [trimEndAt, hspace] using hstore, rfl⟩
  | case3 c hspace => exact ⟨[], by simp [trimEndAt, hspace], rfl⟩
  | case4 c d rest hspace ih =>
    obtain ⟨junk, htrim, hlen⟩ := ih ('\x00' :: b)
    have hc := getD_mid (a ++ (rest.reverse ++ [d])) ('\x00' :: b) c (n := a.length + rest.length + 1) (by simp; omega)
    have hstore := @store_mid (a ++ (rest.reverse ++ [d])) ('\x00' :: b) [c] ['\x00'] (a.length + rest.length + 1)
      (by simp; omega) rfl
    refine ⟨junk ++ ['\x00'], ?_, by grind⟩
    simp_all [trimEndAt]
  | case5 c d rest hspace hlit ih =>
    obtain ⟨junk, htrim, hlen⟩ := ih (c :: '\x00' :: b)
    have hc := getD_mid (a ++ (rest.reverse ++ [d])) ('\x00' :: b) c (n := a.length + rest.length + 1) (by simp; omega)
    have hstore := @store_mid (a ++ rest.reverse) (c :: '\x00' :: b) [d] ['\x00'] (a.length + rest.length) (by simp) rfl
    refine ⟨junk ++ [c, '\x00'], ?_, by grind⟩
    simp_all [trimEndAt]
  | case6 c d rest hspace hlit =>
    have hc := getD_mid (a ++ (rest.reverse ++ [d])) ('\x00' :: b) c (n := a.length + rest.length + 1) (by simp; omega)
    refine ⟨[], ?_, Nat.zero_add _⟩
    simp_all [trimEndAt]

theorem fcTrimAt_spec (hnul : '\x00' ∉ s) (a b : List Char) :
    ∃ junk, fcTrimAt a.length (a ++ (s ++ '\x00' :: b)) = some (a ++ (fcTrim s ++ '\x00' :: (junk ++ b))) ∧
      junk.length + (fcTrim s).length = s.length := by
  have hstr : ofMem ((a ++ (s ++ '\x00' :: b)).drop a.length) = s := by
    rw [drop_left, ofMem_append hnul]
    simp [ofMem]
  obtain ⟨blanks, hs⟩ : ∃ blanks, s = blanks ++ s.dropWhile isspace := ⟨_, (takeWhile_append_dropWhile ..).symm⟩
  simp only [fcTrimAt, hstr, fcTrim]
  generalize s.dropWhile isspace = rest at hs
  subst hs
  -- the string is moved to the front of its memory
  have hmove : (if a.length + ((blanks ++ rest).length - rest.length) ≠ a.length then
        store (a ++ (blanks ++ rest ++ '\x00' :: b)) a.length
          (slice (a ++ (blanks ++ rest ++ '\x00' :: b)) (a.length + ((blanks ++ rest).length - rest.length))
            (rest.length + 1))
      else some (a ++ (blanks ++ rest ++ '\x00' :: b))) =
      some (a ++ (rest ++ '\x00' :: ((blanks ++ rest ++ ['\x00']).drop (rest.length + 1) ++ b))) := by
    have hslice : slice (a ++ (blanks ++ rest ++ '\x00' :: b)) (a.length + blanks.length) (rest.length + 1) =
        rest ++ ['\x00'] := by
      have hmid := slice_mid (a ++ blanks) (rest ++ ['\x00']) b
      simpa using hmid
    have hstore := @store_mid a ((blanks ++ rest ++ ['\x00']).drop (rest.length + 1) ++ b)
      ((blanks ++ rest ++ ['\x00']).take (rest.length + 1)) (rest ++ ['\x00']) _ rfl (by simp)
    rw [← append_assoc (List.take _ _), take_append_drop] at hstore
    rw [length_append, Nat.add_sub_cancel, hslice]
    split
    · simpa using hstore
    · have hnone : blanks = [] := eq_nil_of_length_eq_zero (by omega)
      simp [hnone]
  obtain ⟨junk, htrim, hlen⟩ :=
    trimEndAt_spec a ((blanks ++ rest ++ ['\x00']).drop (rest.length + 1) ++ b) rest.reverse
  rw [reverse_reverse, length_reverse] at htrim
  refine ⟨junk ++ (blanks ++ rest ++ ['\x00']).drop (rest.length + 1), ?_, by simp at hlen ⊢; omega⟩
  rw [hmove, append_assoc junk]
  exact htrim

theorem fcTrimEnd_suffix (r : List Char) : fcTrimEnd r <:+ r := by
  fun_induction fcTrimEnd r with
  | case1 => exact suffix_rfl
  | case2 c => exact nil_suffix
  | case3 c => exact suffix_rfl
  | case4 c d rest hspace ih => exact ih.trans (suffix_cons _ _)
  | case5 c d rest hspace hlit ih => exact ih.trans ⟨[c, d], rfl⟩
  | case6 => exact suffix_rfl

theorem mem_of_mem_fcTrim {c : Char} (h : c ∈ fcTrim s) : c ∈ s := by
  have hend := (fcTrimEnd_suffix (s.dropWhile isspace).reverse).subset (mem_reverse.mp h)
  exact (dropWhile_suffix _).subset (mem_reverse.mp hend)

/-- A line moves to the end of what was kept, or goes. -/
theorem keepLine_spec (hnul : '\x00' ∉ line) (out gap b : List Char) :
    ∃ gap', keepLine (out.length + gap.length) out.length (out ++ (gap ++ (line ++ '\x00' :: b))) =
        some (out ++ (keptLine line ++ (gap' ++ b)), out.length + (keptLine line).length) ∧
      (keptLine line).length + gap'.length = gap.length + line.length + 1 := by
  obtain ⟨junk, htrim, hlen⟩ := fcTrimAt_spec hnul (out ++ gap) b
  have hstr : ofMem ((out ++ gap ++ (fcTrim line ++ '\x00' :: (junk ++ b))).drop (out ++ gap).length) =
      fcTrim line := by
    rw [drop_left, ofMem_append fun hmem => hnul (mem_of_mem_fcTrim hmem)]
    simp [ofMem]
  simp only [append_assoc, length_append] at htrim hstr
  rw [keepLine, htrim]
  simp only [Option.bind_eq_bind, Option.bind_some, hstr]
  by_cases hlooks : looksLikeMemory (fcTrim line) = true
  · -- the two stores are in the memory of the gap and the line
    have hfirst := @store_front out b (gap ++ (fcTrim line ++ '\x00' :: junk)) (fcTrim line) (by simp; omega)
    have hsecond := @store_front (out ++ fcTrim line) b
      ((gap ++ (fcTrim line ++ '\x00' :: junk)).drop (fcTrim line).length) ['\n'] (by simp; omega)
    simp only [append_assoc, length_append, cons_append] at hfirst hsecond
    refine ⟨((gap ++ (fcTrim line ++ '\x00' :: junk)).drop (fcTrim line).length).drop 1, ?_, ?_⟩
    · simp [hlooks, hfirst, hsecond, keptLine, Nat.add_assoc]
    · simp [hlooks, keptLine]
      omega
  · exact ⟨gap ++ (fcTrim line ++ '\x00' :: junk), by simp [hlooks, keptLine], by simp [hlooks, keptLine]; omega⟩

theorem memoryLines_append (h : '\n' ∉ line) (rest : CStr) :
    memoryLines (line ++ '\n' :: rest) = keptLine line ++ memoryLines rest := by
  rw [memoryLines, splitOn_append_cons_self_of_not_mem h, flatMap_cons, memoryLines]

theorem memoryLines_line (h : '\n' ∉ line) : memoryLines line = keptLine line := by
  rw [memoryLines, splitOn_eq_singleton h, flatMap_singleton]

theorem filterFrom_spec {todo : CStr} (hnul : '\x00' ∉ todo) (out gap : List Char) {fuel : Nat}
    (hfuel : todo.length < fuel) :
    ∃ rest, filterFrom fuel (out ++ (gap ++ (todo ++ ['\x00']))) (out.length + gap.length) out.length =
        some (out ++ (memoryLines todo ++ rest), out.length + (memoryLines todo).length) ∧
      (memoryLines todo).length + rest.length = gap.length + todo.length + 1 := by
  induction fuel generalizing todo out gap with
  | zero => exact absurd hfuel (Nat.not_lt_zero _)
  | succ fuel ih =>
    have htext : ofMem ((out ++ (gap ++ (todo ++ ['\x00']))).drop (out.length + gap.length)) = todo := by
      rw [← append_assoc, ← length_append, drop_left, ofMem_append hnul]
      simp [ofMem]
    simp only [filterFrom, htext]
    by_cases hnl : '\n' ∈ todo
    · obtain ⟨line, hline, hidx, htodo⟩ := drop_line hnl
      generalize todo.drop (todo.idxOf '\n' + 1) = rest at htodo
      subst htodo
      simp only [mem_append, not_or, mem_cons] at hnul
      rw [if_neg (by simp), if_pos hnl, hidx]
      -- the line end becomes a terminator, and a line end again
      have hcut := @store_mid (out ++ (gap ++ line)) (rest ++ ['\x00']) ['\n'] ['\x00']
        (out.length + gap.length + line.length) (by simp; omega) rfl
      obtain ⟨gap₁, hkeep, hlen₁⟩ := keepLine_spec hnul.1 out gap (rest ++ ['\x00'])
      obtain ⟨gap₂, hback, hlen₂⟩ : ∃ gap₂, store (out ++ (keptLine line ++ (gap₁ ++ (rest ++ ['\x00']))))
          (out.length + gap.length + line.length) ['\n'] =
            some (out ++ (keptLine line ++ (gap₂ ++ (rest ++ ['\x00'])))) ∧ gap₂.length = gap₁.length := by
        rcases eq_nil_or_concat gap₁ with rfl | ⟨front, x, rfl⟩
        · -- the line has filled the gap, and its own line end is there
          have hkept : keptLine line = fcTrim line ++ ['\n'] := by grind [keptLine]
          have hsame := @store_mid (out ++ fcTrim line) (rest ++ ['\x00']) ['\n'] ['\n']
            (out.length + gap.length + line.length) (by simp [hkept] at hlen₁ ⊢; omega) rfl
          exact ⟨[], by simpa [hkept] using hsame, rfl⟩
        · have hend := @store_mid (out ++ (keptLine line ++ front)) (rest ++ ['\x00']) [x] ['\n']
            (out.length + gap.length + line.length) (by simp at hlen₁ ⊢; omega) rfl
          exact ⟨front ++ ['\n'], by simpa using hend, by simp⟩
      obtain ⟨rest', hloop, hlen⟩ := ih hnul.2.2 (out ++ keptLine line) gap₂ (by simp at hfuel; omega)
      have hnext : out.length + gap.length + line.length + 1 = (out ++ keptLine line).length + gap₂.length := by
        rw [length_append]
        omega
      refine ⟨rest', ?_, ?_⟩
      · simp only [append_assoc, cons_append, nil_append, length_append] at hcut hloop hnext ⊢
        rw [hcut]
        simp only [Option.bind_eq_bind, Option.bind_some, hkeep, hback, hnext]
        rw [hloop, memoryLines_append hline]
        simp [Nat.add_assoc]
      · rw [memoryLines_append hline]
        simp
        omega
    · by_cases hempty : todo = []
      · subst hempty
        have hnone : memoryLines [] = [] := rfl
        exact ⟨gap ++ ['\x00'], by simp [hnone], by simp [hnone]⟩
      obtain ⟨gap', hkeep, hlen⟩ := keepLine_spec hnul out gap []
      rw [if_neg hempty, if_neg hnl, memoryLines_line hnl]
      exact ⟨gap', by simpa using hkeep, hlen⟩

/-- Whether the filter stays in the memory of the string, and what it leaves. -/
theorem fcFilterMemoryJsonlTail_eq (hnul : '\x00' ∉ s) : ∃ rest, fcFilterMemoryJsonlTail (s ++ ['\x00']) =
      if (memoryLines s).length ≤ s.length then some (memoryLines s ++ '\x00' :: rest) else none := by
  obtain ⟨rest, hloop, hlen⟩ := @filterFrom_spec s hnul [] [] ((s ++ ['\x00']).length + 1) (by simp)
  simp only [nil_append, length_nil, Nat.zero_add] at hloop hlen
  rw [fcFilterMemoryJsonlTail, hloop]
  cases rest with
  | nil =>
    have hlong : ¬ (memoryLines s).length ≤ s.length := by
      simp at hlen
      omega
    exact ⟨[], by simp [store, hlong]⟩
  | cons c rest =>
    have hstore := @store_mid (memoryLines s) rest [c] ['\x00'] _ rfl rfl
    exact ⟨rest, by simp at hlen; simpa [show (memoryLines s).length ≤ s.length by omega] using hstore⟩

theorem not_mem_memoryLines (hnul : '\x00' ∉ s) : '\x00' ∉ memoryLines s := by
  intro h
  obtain ⟨line, hline, hmem⟩ := mem_flatMap.mp h
  have htrim : '\x00' ∈ fcTrim line := by grind [keptLine]
  exact hnul ((isInfix_of_mem_splitOn hline).subset (mem_of_mem_fcTrim htrim))

/-- The filter leaves the trimmed lines that look like entries, each with its line end, and stays in
the memory of the string and its terminator, exactly if this text is not longer than the string
was. -/
theorem fcFilterMemoryJsonlTail_exact {s : CStr} (hnul : '\x00' ∉ s) :
    (∃ mem, fcFilterMemoryJsonlTail (s ++ ['\x00']) = some mem ∧ ofMem mem = memoryLines s) ↔
      (memoryLines s).length ≤ s.length := by
  obtain ⟨rest, heq⟩ := fcFilterMemoryJsonlTail_eq hnul
  rw [heq]
  split
  case isTrue h =>
    refine ⟨fun _ => h, fun _ => ⟨_, rfl, ?_⟩⟩
    rw [ofMem_append (not_mem_memoryLines hnul)]
    simp [ofMem]
  case isFalse h => simp [h]

/-- An entry without its line end. -/
private def openEntry : CStr := "\x7b\"ts_ms\":1,\"source\":\"a\",\"text\":\"b\"\x7d".toList

/-- Two entries, and a line between them that is none. -/
private def threeLines : CStr := openEntry ++ "\n# a note\n ".toList ++ openEntry ++ ['\n']

theorem fcFilterMemoryJsonlTail_exact_lines :
    ∃ mem, fcFilterMemoryJsonlTail (threeLines ++ ['\x00']) = some mem ∧ ofMem mem = memoryLines threeLines :=
  (@fcFilterMemoryJsonlTail_exact threeLines (by decide +kernel)).mpr (by decide +kernel)

/-- The last line gets a line end that was not there, and the terminator is written behind the old
one. -/
theorem not_fcFilterMemoryJsonlTail_exact : fcFilterMemoryJsonlTail (openEntry ++ ['\x00']) = none := by
  obtain ⟨rest, heq⟩ := @fcFilterMemoryJsonlTail_eq openEntry (by decide)
  rw [heq, if_neg (by decide)]

end FruitClaw.Memory
