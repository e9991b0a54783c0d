-- SUMMARY: JSON lines: escaping into fixed buffers, and when an appended line decodes.
import FruitClawApps.FruitClaw.PathJail
import FruitClawApps.Lib.JsonText
import Mathlib.Data.Nat.Digits.Defs

/-!
# Memory and sessions

`fc_memory_append` and `fc_session_append` add one line to a file, a JSON object made from strings
that `fc_json_escape` has written into buffers. A string that does not fit leaves its buffer without
a terminator, and most callers ignore the error. What a buffer held before is an argument here.
-/

namespace FruitClaw.Memory

open List

/-! ## Escaping -/

/-- The escape of a character in `fc_json_escape`. -/
def escapeChar (c : Char) : CStr :=
  if c = '"' then ['\\', '"']
  else if c = '\\' then ['\\', '\\']
  else if c = '\n' then ['\\', 'n']
  else if c = '\r' then ['\\', 'r']
  else if c = '\t' then ['\\', 't']
  else if c.toNat < 32 then ['\\', 'u', '0', '0', (c.toNat / 16).digitChar, (c.toNat % 16).digitChar]
  else [c]

/-- The string with all its escapes. -/
def escape (s : CStr) : CStr := s.flatMap escapeChar

/-- The loop of `fc_json_escape` behind `off` bytes: the result, and the bytes that are
written from there on. -/
def escapeFrom (outLen off : Nat) : CStr → Ret × List Char
  | [] => (.ok (), ['\x00'])
  | c :: s =>
    if off + (escapeChar c).length < outLen then
      let (ret, bytes) := escapeFrom outLen (off + (escapeChar c).length) s
      (ret, escapeChar c ++ bytes)
    else (.error .enospc, [])

def fcJsonEscape (s : CStr) (outLen : Nat) : Ret × List Char :=
  if outLen = 0 then (.error .einval, []) else escapeFrom outLen 0 s

/-- The string that a buffer holds after bytes were written over the memory that it had. -/
def overwritten (memory bytes : List Char) : CStr := CStr.ofMem (bytes ++ memory.drop bytes.length)

/-! ## Lines -/

/-- What the calls of an append answer. -/
structure AppendOutcome where
  /-- Whether `malloc` has memory for the content of a session, and for its line. -/
  contentBuffer : Bool
  lineBuffer : Bool
  opened : Ret
  /-- The number of bytes that `write` takes when it is given so many. -/
  written : Nat → Except Errno Nat

def fcAppendTextFile (env : AppendOutcome) (path text : CStr) : Ret × List FileOp :=
  match env.opened with
  | .error e => (.error e, [])
  | .ok () =>
    match env.written text.length with
    -- `O_CREAT` makes the file if there is none
    | .error e => (.error e, [.append path []])
    | .ok n => (if n = text.length then .ok () else .error .eio, [.append path (text.take n)])

/-- The format of a field of a line. -/
def fieldFormat (field : CStr × CStr) : CStr := ",\"".toList ++ field.1 ++ "\":\"".toList ++ field.2 ++ "\"".toList

/-- The format of a line, with the strings as they are in their buffers. -/
def jsonLine (tsMs : Int) (fields : List (CStr × CStr)) : CStr :=
  "\x7b\"ts_ms\":".toList ++ formatInt tsMs ++ fields.flatMap fieldFormat ++ "\x7d\n".toList

/-- The fields of a line of memory. -/
def memoryFields (source text : CStr) : List (CStr × CStr) := [("source".toList, source), ("text".toList, text)]

/-- The fields of a line of a session, which has a name or none. -/
def sessionFields (named : Bool) (role name content : CStr) : List (CStr × CStr) :=
  if named then [("role".toList, role), ("name".toList, name), ("content".toList, content)]
  else [("role".toList, role), ("content".toList, content)]

/-- The memory that the buffers of an append had before. -/
structure Junk where
  source : List Char
  text : List Char
  role : List Char
  name : List Char
  content : List Char

section

variable (root : DataRoot) (env : AppendOutcome) (tsMs : Int64) (junk : Junk)

def fcMemoryAppend (source text : Option CStr) : Ret × List FileOp :=
  match text, fcDataPath root "memory.jsonl".toList fcPathLen with
  | none, _ => (.error .einval, [])
  | _, .error _ => (.error .einval, [])
  | some text, .ok path =>
    let escSource := overwritten junk.source (fcJsonEscape (source.getD "agent".toList) 64).2
    let escText := overwritten junk.text (fcJsonEscape text (fcMaxEventText * 6)).2
    let line := (jsonLine tsMs.toInt (memoryFields escSource escText)).take (fcMaxEventText * 6 + 160 - 1)
    fcAppendTextFile env path line

/-- The end of `fc_session_append`, with the file and the arguments that must be there. -/
def appendEntry (path role : CStr) (name : Option CStr) (content : CStr) : Ret × List FileOp :=
  if !env.contentBuffer then (.error .enomem, [])
  else
    let escRole := overwritten junk.role (fcJsonEscape role 32).2
    let escName := overwritten junk.name (fcJsonEscape (name.getD []) 64).2
    -- the only one of the three whose result is looked at
    match fcJsonEscape content (content.length * 6 + 1) with
    | (.error e, _) => (.error e, [])
    | (.ok (), bytes) =>
      let escContent := overwritten junk.content bytes
      if !env.lineBuffer then (.error .enomem, [])
      else
        let fields := sessionFields (name.getD [] ≠ []) escRole escName escContent
        fcAppendTextFile env path ((jsonLine tsMs.toInt fields).take (escContent.length + 192 - 1))

def fcSessionAppend (sessionId role name content : Option CStr) : Ret × List FileOp :=
  match sessionId, role, content with
  | some sessionId, some role, some content =>
    match fcSessionPath root (some sessionId) fcPathLen with
    | .error e => (.error e, [])
    | .ok path => appendEntry env tsMs junk path role name content
  | _, _, _ => (.error .einval, [])

end

/-! ## Escaped strings -/

theorem decodes_escapeChar : JsonText.Decodes escapeChar := by
  intro c r
  unfold escapeChar
  split_ifs
  all_goals try (subst c; rfl)
  · rename_i hcontrol
    simp [JsonText.parseString, JsonText.unicodeEscape_control hcontrol]
  · exact JsonText.parseString_plain (by assumption) (by assumption) r

/-- An escape has at most six characters, and neither a NUL nor a line end is among them. -/
theorem escapeChar_shape (c : Char) :
    (escapeChar c).length ≤ 6 ∧ '\x00' ∉ escapeChar c ∧ '\n' ∉ escapeChar c := by
  have hcodes : ∀ k < 32, '\x00' ∉ ['\\', 'u', '0', '0', (k / 16).digitChar, (k % 16).digitChar] ∧
      '\n' ∉ ['\\', 'u', '0', '0', (k / 16).digitChar, (k % 16).digitChar] := by decide
  unfold escapeChar
  split_ifs with _ _ hline _ _ hcontrol
  all_goals try decide
  · exact ⟨by simp, hcodes _ hcontrol⟩
  refine ⟨by simp, ?_, ?_⟩
  · rw [mem_singleton]
    rintro rfl
    exact hcontrol (by decide)
  · rw [mem_singleton]
    exact fun h => hline h.symm

theorem escape_cons (c : Char) (s : CStr) : escape (c :: s) = escapeChar c ++ escape s := flatMap_cons ..

theorem escape_length_le (s : CStr) : (escape s).length ≤ s.length * 6 := by
  induction s with
  | nil => exact le_rfl
  | cons c s ih =>
    have hc := (escapeChar_shape c).1
    rw [escape_cons, length_append, length_cons]
    omega

theorem not_mem_escape (s : CStr) : '\x00' ∉ escape s ∧ '\n' ∉ escape s := by
  simp only [escape, mem_flatMap, not_exists, not_and]
  exact ⟨fun c _ => (escapeChar_shape c).2.1, fun c _ => (escapeChar_shape c).2.2⟩

theorem escapeFrom_fits {outLen off : Nat} {s : CStr} (h : off + (escape s).length < outLen) :
    escapeFrom outLen off s = (.ok (), escape s ++ ['\x00']) := by
  induction s generalizing off with
  | nil => rfl
  | cons c s ih =>
    rw [escape_cons, length_append] at h
    have hc : off + (escapeChar c).length < outLen := by omega
    rw [escapeFrom, if_pos hc, ih (by omega), escape_cons, append_assoc]

/-- A string that fits is in the buffer with its escapes, whatever was there before. -/
theorem fcJsonEscape_fits {s : CStr} {outLen : Nat} (h : (escape s).length < outLen) (memory : List Char) :
    (fcJsonEscape s outLen).1 = .ok () ∧ overwritten memory (fcJsonEscape s outLen).2 = escape s := by
  have hlen : outLen ≠ 0 := by omega
  rw [fcJsonEscape, if_neg hlen, escapeFrom_fits (by omega)]
  refine ⟨rfl, ?_⟩
  rw [overwritten, CStr.ofMem, append_assoc, takeWhile_append_of_pos]
  · simp
  · intro c hc
    exact decide_eq_true fun h0 => (not_mem_escape s).1 (h0 ▸ hc)

/-- What a buffer holds that was zero are the escapes of a part of the string that fits. -/
theorem fcJsonEscape_zero (s : CStr) (outLen : Nat) (hlen : 0 < outLen) :
    ∃ t, (escape t).length < outLen ∧
      overwritten (replicate outLen '\x00') (fcJsonEscape s outLen).2 = escape t := by
  have hloop : ∀ off < outLen, ∃ t, off + (escape t).length < outLen ∧
      ((escapeFrom outLen off s).2 = escape t ∨ (escapeFrom outLen off s).2 = escape t ++ ['\x00']) := by
    induction s with
    | nil => exact fun off hoff => ⟨[], hoff, .inr rfl⟩
    | cons c s ih =>
      intro off hoff
      rw [escapeFrom]
      split
      · rename_i hc
        obtain ⟨t, ht, hbytes⟩ := ih _ hc
        refine ⟨c :: t, by rw [escape_cons, length_append]; omega, ?_⟩
        rw [escape_cons, append_assoc]
        exact hbytes.imp (congrArg _) (congrArg _)
      · exact ⟨[], hoff, .inl rfl⟩
  obtain ⟨t, ht, hbytes⟩ := hloop 0 hlen
  refine ⟨t, by omega, ?_⟩
  have hrest (k : Nat) : CStr.ofMem (escape t ++ replicate k '\x00') = escape t := by
    rw [CStr.ofMem_append (not_mem_escape t).1]
    cases k <;> simp [CStr.ofMem, replicate_succ]
  rw [fcJsonEscape, if_neg hlen.ne', overwritten, drop_replicate]
  rcases hbytes with hbytes | hbytes <;> rw [hbytes]
  · exact hrest _
  · rw [append_assoc]
    exact hrest (_ + 1)

/-! ## Records -/

variable (tsMs : Int) (fields : List (CStr × CStr))

/-- The document that a line stands for. -/
def recordJson : Json :=
  .obj (("ts_ms".toList, .num tsMs) :: fields.map fun field => (field.1, .str field.2))

/-- The text of a member with a string. -/
def fieldText (field : CStr × CStr) : CStr :=
  JsonText.quote field.1 ++ ':' :: ('"' :: (escape field.2 ++ ['"']))

/-- The texts of the members of a document. -/
def recordTexts : List CStr :=
  (JsonText.quote "ts_ms".toList ++ ':' :: formatInt tsMs) :: fields.map fieldText

/-- The text of a document. -/
def recordText : CStr :=
  '\x7b' :: JsonText.bracket '\x7d' (recordTexts tsMs fields)

theorem fieldText_reads (n : Nat) (field : CStr × CStr) :
    JsonText.Reads (JsonText.parseMember (JsonText.parseValue (n + 1))) '\x7d' (field.1, .str field.2)
      (fieldText field) := by
  refine JsonText.parseMember_reads field.1 fun rest _ => ?_
  have hback := JsonText.parseValue_string decodes_escapeChar n field.2 rest
  rw [cons_append, append_assoc]
  exact hback

theorem recordTexts_reads (n : Nat) (tsMs : Int) (fields : List (CStr × CStr)) :
    List.Forall₂ (JsonText.Reads (JsonText.parseMember (JsonText.parseValue (n + 1))) '\x7d')
      (("ts_ms".toList, .num tsMs) :: fields.map fun field => (field.1, .str field.2))
      (recordTexts tsMs fields) := by
  refine .cons (JsonText.parseMember_reads _ fun rest hr => JsonText.parseValue_number n tsMs hr) ?_
  induction fields with
  | nil => exact .nil
  | cons field fields ih => exact .cons (fieldText_reads n field) ih

theorem parse_recordText :
    JsonText.parse (recordText tsMs fields) = some (recordJson tsMs fields) := by
  refine JsonText.parse_object ?_
  -- The text is not empty, so the parser has fuel for the values.
  rw [JsonText.bracket, length_append]
  exact recordTexts_reads _ tsMs fields

/-- The keys of the fields, which need no escapes. -/
def recordKeys : List CStr := ["source".toList, "text".toList, "role".toList, "name".toList, "content".toList]

theorem recordKeys_plain : ∀ key ∈ recordKeys, JsonText.quote key = '"' :: (key ++ ['"']) ∧ '\n' ∉ key := by decide

section

variable (tsMs : Int) {fields : List (CStr × CStr)}

theorem newline_not_mem_recordText (hkeys : ∀ field ∈ fields, field.1 ∈ recordKeys) :
    '\n' ∉ recordText tsMs fields := by
  rw [recordText, mem_cons, not_or]
  refine ⟨by decide, JsonText.not_mem_bracket (by decide) (by decide) fun text htext => ?_⟩
  rcases mem_cons.mp htext with rfl | htext
  · rw [mem_append, mem_cons, not_or, not_or]
    exact ⟨by decide, by decide, not_mem_formatInt (by decide) (by decide) tsMs⟩
  obtain ⟨field, hfield, rfl⟩ := mem_map.mp htext
  obtain ⟨hquote, hkey⟩ := recordKeys_plain _ (hkeys field hfield)
  rw [fieldText, hquote]
  simp [hkey, (not_mem_escape field.2).2]

/-- The strings of the fields with all their escapes. -/
def escaped (fields : List (CStr × CStr)) : List (CStr × CStr) := fields.map fun field => (field.1, escape field.2)

theorem fieldFormat_escape {field : CStr × CStr} (hkey : field.1 ∈ recordKeys) :
    fieldFormat (field.1, escape field.2) = ',' :: fieldText field := by
  have hopen : ",\"".toList = [',', '"'] := by decide
  have hmid : "\":\"".toList = ['"', ':', '"'] := by decide
  have hend : "\"".toList = ['"'] := by decide
  rw [fieldFormat, fieldText, (recordKeys_plain _ hkey).1, hopen, hmid, hend]
  simp only [List.append_assoc, List.cons_append, List.nil_append]

theorem jsonLine_escaped (hkeys : ∀ field ∈ fields, field.1 ∈ recordKeys) :
    jsonLine tsMs (escaped fields) = recordText tsMs fields ++ ['\n'] := by
  have hopen : "\x7b\"ts_ms\":".toList = '\x7b' :: (JsonText.quote "ts_ms".toList ++ [':']) := by decide
  have hend : "\x7d\n".toList = ['\x7d', '\n'] := by decide
  have hjoin (first : CStr) :
      [','].intercalate (first :: fields.map fieldText) = first ++ (escaped fields).flatMap fieldFormat := by
    induction fields generalizing first with
    | nil => simp [escaped]
    | cons field fields ih =>
      rw [map_cons, JsonText.intercalate_comma, ih fun f hf => hkeys f (mem_cons_of_mem _ hf)]
      show _ = first ++ (fieldFormat (field.1, escape field.2) ++ (escaped fields).flatMap fieldFormat)
      rw [fieldFormat_escape (hkeys field mem_cons_self), cons_append]
  unfold jsonLine
  rw [recordText, JsonText.bracket, recordTexts, hjoin, hopen, hend]
  simp only [append_assoc, cons_append, nil_append]

theorem jsonLine_length (fields : List (CStr × CStr)) :
    (jsonLine tsMs fields).length =
      11 + (formatInt tsMs).length + (fields.map fun field => 6 + field.1.length + field.2.length).sum := by
  have hopen : "\x7b\"ts_ms\":".toList.length = 9 := by decide
  have hend : "\x7d\n".toList.length = 2 := by decide
  have hfield (field : CStr × CStr) : (fieldFormat field).length = 6 + field.1.length + field.2.length := by
    have hfirst : ",\"".toList.length = 2 := by decide
    have hmid : "\":\"".toList.length = 3 := by decide
    have hlast : "\"".toList.length = 1 := by decide
    unfold fieldFormat
    simp only [length_append, hfirst, hmid, hlast]
    omega
  unfold jsonLine
  simp only [length_append, hopen, hend, length_flatMap, hfield]
  omega

end

theorem formatInt_length_le (t : Int64) : (formatInt t.toInt).length ≤ 20 := by
  have hlow := t.le_toInt
  have hhigh := t.toInt_lt
  have hdigits : (Nat.toDigits 10 t.toInt.natAbs).length ≤ 19 :=
    Nat.toDigits_length 10 _ 19 (by decide) (by omega)
  unfold formatInt
  split
  · rw [length_cons]
    omega
  · omega

/-! ## Exact appends -/

/-- The file of the memory, and the file of a session. -/
def memoryFile (root : DataRoot) : CStr :=
  match fcDataPath root "memory.jsonl".toList fcPathLen with
  | .ok path => path
  | .error _ => []

@[inherit_doc memoryFile]
def sessionFile (root : DataRoot) (sessionId : Option CStr) : CStr :=
  match fcSessionPath root sessionId fcPathLen with
  | .ok path => path
  | .error _ => []

/-- An append that returns zero has added one line to the file, which decodes to the record.
Another one has left the contents of the file as they were. All other files stay as they are
in any case. -/
def Exact (path : CStr) (record : Json → Prop) (result : Ret × List FileOp) : Prop :=
  ∀ fs : FileStore, (∀ other, other ≠ path → FileStore.run fs result.2 other = fs other) ∧
    match result.1 with
    | .ok () => ∃ line doc, FileStore.run fs result.2 path = some ((fs path).getD [] ++ (line ++ ['\n'])) ∧
        '\n' ∉ line ∧ JsonText.parse line = some doc ∧ record doc
    | .error _ => (FileStore.run fs result.2 path).getD [] = (fs path).getD []

/-- What a line of the memory decodes to. -/
def MemoryRecord (source text : Option CStr) (doc : Json) : Prop :=
  doc.isObject = true ∧ doc.stringMember "source".toList = some (source.getD "agent".toList) ∧
    doc.stringMember "text".toList = text

/-- What a line of a session decodes to. An empty name is not written. -/
def SessionRecord (role name content : Option CStr) (doc : Json) : Prop :=
  doc.isObject = true ∧ doc.stringMember "role".toList = role ∧
    (doc.stringMember "name".toList).getD [] = name.getD [] ∧ doc.stringMember "content".toList = content

/-- If the file can be opened, `write` takes a line of `n` bytes as a whole, or nothing of it. -/
def AppendOutcome.Whole (env : AppendOutcome) (n : Nat) : Prop :=
  env.opened = .ok () → ∀ taken, env.written n = .ok taken → taken = n ∨ taken = 0

/-- Every call succeeds. -/
def AppendOutcome.success : AppendOutcome := ⟨true, true, .ok (), .ok⟩

theorem exact_nothing (path : CStr) (record : Json → Prop) (e : Errno) : Exact path record (.error e, []) :=
  fun _ => ⟨fun _ _ => rfl, rfl⟩

theorem run_append (fs : FileStore) (path bytes : CStr) :
    (∀ other, other ≠ path → FileStore.run fs [.append path bytes] other = fs other) ∧
      FileStore.run fs [.append path bytes] path = some ((fs path).getD [] ++ bytes) := by
  refine ⟨fun other hother => FileStore.run_frame (by simpa using hother), ?_⟩
  simp [FileStore.run, FileOp.apply]

section

variable {env : AppendOutcome} {path : CStr} {record : Json → Prop} (tsMs : Int) {fields : List (CStr × CStr)}

/-- An append of a line that decodes to the record is exact, unless `write` takes a part of it. -/
theorem exact_line_iff (hkeys : ∀ field ∈ fields, field.1 ∈ recordKeys) (hrecord : record (recordJson tsMs fields)) :
    Exact path record (fcAppendTextFile env path (jsonLine tsMs (escaped fields))) ↔
      env.Whole (jsonLine tsMs (escaped fields)).length := by
  unfold fcAppendTextFile AppendOutcome.Whole
  cases env.opened with
  | error e => exact iff_of_true (exact_nothing path record e) nofun
  | ok =>
    cases env.written (jsonLine tsMs (escaped fields)).length with
    | error e =>
      refine iff_of_true (fun fs => ⟨(run_append fs path []).1, ?_⟩) nofun
      dsimp only
      rw [(run_append fs path []).2, append_nil]
      rfl
    | ok n =>
      simp only [Except.ok.injEq, forall_eq', forall_const]
      rw [jsonLine_escaped tsMs hkeys]
      by_cases hall : n = (recordText tsMs fields ++ ['\n']).length
      · refine iff_of_true (fun fs => ⟨(run_append fs path _).1, ?_⟩) (.inl hall)
        rw [if_pos hall]
        refine ⟨recordText tsMs fields, _, ?_, newline_not_mem_recordText tsMs hkeys, parse_recordText _ _, hrecord⟩
        rw [(run_append fs path _).2, hall, take_length]
      rw [if_neg hall]
      refine ⟨fun hexact => .inr ?_, fun h fs => ⟨(run_append fs path _).1, ?_⟩⟩
      · have hsame := (hexact fun _ => none).2
        dsimp only at hsame
        rw [(run_append _ path _).2] at hsame
        simpa using hsame
      · rw [h.resolve_left hall, (run_append fs path _).2, take_zero, append_nil]
        rfl

/-- A line that has been written decodes to the record, if the append is exact. -/
theorem record_of_exact (hkeys : ∀ field ∈ fields, field.1 ∈ recordKeys)
    (h : Exact path record (fcAppendTextFile .success path (jsonLine tsMs (escaped fields)))) :
    record (recordJson tsMs fields) := by
  have hret : (fcAppendTextFile .success path (jsonLine tsMs (escaped fields))) =
      (.ok (), [.append path (jsonLine tsMs (escaped fields))]) := by
    simp [fcAppendTextFile, AppendOutcome.success]
  rw [hret] at h
  obtain ⟨line, doc, hfile, -, hparse, hrecord⟩ := (h fun _ => none).2
  rw [(run_append _ path _).2, jsonLine_escaped tsMs hkeys] at hfile
  obtain rfl : recordText tsMs fields = line := append_cancel_right (Option.some.inj hfile)
  rw [parse_recordText] at hparse
  exact Option.some.inj hparse ▸ hrecord

end

/-- Buffers that were zero. -/
def Junk.zero : Junk :=
  ⟨replicate 64 '\x00', replicate (fcMaxEventText * 6) '\x00', replicate 32 '\x00',
    replicate 64 '\x00', []⟩

section

variable (root : DataRoot) (tsMs : Int64) (source text sessionId role name content : Option CStr)

/-- The strings of a call that reaches the escapes fit their buffers. -/
def MemoryFits : Prop :=
  ∀ t path, text = some t → fcDataPath root "memory.jsonl".toList fcPathLen = .ok path →
    (escape (source.getD "agent".toList)).length < 64 ∧ (escape t).length < fcMaxEventText * 6

@[inherit_doc MemoryFits]
def SessionFits : Prop :=
  ∀ r c path, role = some r → content = some c → fcSessionPath root sessionId fcPathLen = .ok path →
    (escape r).length < 32 ∧ (escape (name.getD [])).length < 64

variable (env : AppendOutcome)

/-- If there is a line to be written, `write` takes it as a whole or not at all. -/
abbrev MemoryWhole : Prop :=
  ∀ t path, text = some t → fcDataPath root "memory.jsonl".toList fcPathLen = .ok path →
    env.Whole (jsonLine tsMs.toInt (escaped (memoryFields (source.getD "agent".toList) t))).length

@[inherit_doc MemoryWhole]
abbrev SessionWhole : Prop :=
  ∀ r c path, role = some r → content = some c → fcSessionPath root sessionId fcPathLen = .ok path →
    env.contentBuffer ∧ env.lineBuffer →
      env.Whole (jsonLine tsMs.toInt (escaped (sessionFields (name.getD [] ≠ []) r (name.getD []) c))).length

/-- The append to the memory is exact. -/
abbrev MemoryExact (junk : Junk) : Prop :=
  Exact (memoryFile root) (MemoryRecord source text) (fcMemoryAppend root env tsMs junk source text)

/-- The append to the session is exact. -/
abbrev SessionExact (junk : Junk) : Prop :=
  Exact (sessionFile root sessionId) (SessionRecord role name content)
    (fcSessionAppend root env tsMs junk sessionId role name content)

end

section

variable {root : DataRoot} {env : AppendOutcome} {tsMs : Int64} (junk : Junk)
  {source text sessionId role name content : Option CStr}

theorem memoryFields_keys (source text : CStr) : ∀ field ∈ memoryFields source text, field.1 ∈ recordKeys := by
  simp [memoryFields, recordKeys]

theorem sessionFields_keys (named : Bool) (role name content : CStr) :
    ∀ field ∈ sessionFields named role name content, field.1 ∈ recordKeys := by
  cases named <;> simp [sessionFields, recordKeys]

/-- The line of an append whose buffers hold whole escapes is not cut. -/
theorem fcMemoryAppend_line {path text s t : CStr} (hpath : fcDataPath root "memory.jsonl".toList fcPathLen = .ok path)
    (hsource : overwritten junk.source (fcJsonEscape (source.getD "agent".toList) 64).2 = escape s)
    (htext : overwritten junk.text (fcJsonEscape text (fcMaxEventText * 6)).2 = escape t)
    (hs : (escape s).length < 64) (ht : (escape t).length < fcMaxEventText * 6) :
    fcMemoryAppend root env tsMs junk source (some text) =
      fcAppendTextFile env path (jsonLine tsMs.toInt (escaped (memoryFields s t))) := by
  have hts := formatInt_length_le tsMs
  have hlen := jsonLine_length tsMs.toInt (memoryFields (escape s) (escape t))
  simp only [memoryFields, map_cons, map_nil, sum_cons, sum_nil] at hlen
  unfold fcMemoryAppend
  rw [hpath]
  dsimp only
  rw [hsource, htext, take_of_length_le]
  · rfl
  · rw [memoryFields, hlen]
    simp
    omega

theorem fcMemoryAppend_exact_iff (hfits : MemoryFits root source text) :
    MemoryExact root tsMs source text env junk ↔ MemoryWhole root tsMs source text env := by
  unfold MemoryExact MemoryWhole
  cases hpath : fcDataPath root "memory.jsonl".toList fcPathLen with
  | error e =>
    refine iff_of_true ?_ nofun
    unfold fcMemoryAppend
    rw [hpath]
    cases text <;> exact exact_nothing _ _ _
  | ok path =>
    cases text with
    | none => exact iff_of_true (exact_nothing _ _ _) nofun
    | some t =>
      obtain ⟨hs, ht⟩ := hfits t path rfl hpath
      rw [fcMemoryAppend_line junk hpath (fcJsonEscape_fits hs junk.source).2 (fcJsonEscape_fits ht junk.text).2 hs ht,
        memoryFile, hpath]
      dsimp only
      rw [exact_line_iff _ (memoryFields_keys _ _) ⟨rfl, rfl, rfl⟩]
      exact ⟨fun h t _ ht _ => Option.some.inj ht ▸ h, fun h => h t path rfl rfl⟩

theorem memoryFits_of_exact (h : MemoryExact root tsMs source text .success .zero) : MemoryFits root source text := by
  rintro text path rfl hpath
  obtain ⟨s, hs, hsource⟩ := fcJsonEscape_zero (source.getD "agent".toList) 64 (by decide)
  obtain ⟨t, ht, htext⟩ := fcJsonEscape_zero text (fcMaxEventText * 6) (by decide)
  rw [MemoryExact, fcMemoryAppend_line .zero hpath hsource htext hs ht, memoryFile, hpath] at h
  obtain ⟨-, hs', ht'⟩ := record_of_exact _ (memoryFields_keys s t) h
  obtain rfl : s = source.getD "agent".toList := Option.some.inj hs'
  obtain rfl : t = text := Option.some.inj ht'
  exact ⟨hs, ht⟩

theorem sessionRecord_fields {role content : CStr} (tsMs : Int) (r n c : CStr) :
    SessionRecord role name content (recordJson tsMs (sessionFields (name.getD [] ≠ []) r n c)) ↔
      r = role ∧ (name.getD [] ≠ [] → n = name.getD []) ∧ c = content := by
  by_cases hname : name.getD [] = []
  · rw [decide_eq_false (not_not.mpr hname)]
    refine ⟨fun ⟨_, hr, _, hc⟩ => ⟨Option.some.inj hr, fun h => absurd hname h, Option.some.inj hc⟩, ?_⟩
    rintro ⟨rfl, -, rfl⟩
    exact ⟨rfl, rfl, hname.symm, rfl⟩
  · rw [decide_eq_true hname]
    refine ⟨fun ⟨_, hr, hn, hc⟩ => ⟨Option.some.inj hr, fun _ => hn, Option.some.inj hc⟩, ?_⟩
    rintro ⟨rfl, hn, rfl⟩
    exact ⟨rfl, rfl, hn hname, rfl⟩

@[inherit_doc fcMemoryAppend_line]
theorem appendEntry_line {path role content r n : CStr}
    (hrole : overwritten junk.role (fcJsonEscape role 32).2 = escape r)
    (hname : overwritten junk.name (fcJsonEscape (name.getD []) 64).2 = escape n)
    (hr : (escape r).length < 32) (hn : (escape n).length < 64) :
    appendEntry env tsMs junk path role name content =
      if env.contentBuffer && env.lineBuffer then
        fcAppendTextFile env path
          (jsonLine tsMs.toInt (escaped (sessionFields (name.getD [] ≠ []) r n content)))
      else (.error .enomem, []) := by
  have hts := formatInt_length_le tsMs
  obtain ⟨hret, hcontent⟩ := fcJsonEscape_fits (Nat.lt_succ_of_le (escape_length_le content)) junk.content
  have hfields (named : Bool) : escaped (sessionFields named r n content) =
      sessionFields named (escape r) (escape n) (escape content) := by
    cases named <;> rfl
  have hlen (named : Bool) : (jsonLine tsMs.toInt (sessionFields named (escape r) (escape n) (escape content))).length ≤
      (escape content).length + 192 - 1 := by
    rw [jsonLine_length]
    cases named <;>
      simp [sessionFields, map_cons, map_nil, sum_cons, sum_nil] <;> omega
  unfold appendEntry
  generalize fcJsonEscape content (content.length * 6 + 1) = answer at hret hcontent
  obtain ⟨ret, bytes⟩ := answer
  subst hret
  cases env.contentBuffer <;> cases env.lineBuffer <;> try rfl
  dsimp only at hcontent ⊢
  rw [hcontent, hrole, hname, take_of_length_le (hlen _), hfields]
  rfl

theorem fcSessionAppend_path {sessionId role content path : CStr}
    (hpath : fcSessionPath root (some sessionId) fcPathLen = .ok path) :
    fcSessionAppend root env tsMs junk (some sessionId) (some role) name (some content) =
      appendEntry env tsMs junk path role name content := by
  unfold fcSessionAppend
  dsimp only
  rw [hpath]

theorem fcSessionAppend_exact_iff (hfits : SessionFits root sessionId role name content) :
    SessionExact root tsMs sessionId role name content env junk ↔
      SessionWhole root tsMs sessionId role name content env := by
  unfold SessionExact SessionWhole fcSessionAppend
  split
  · rename_i sessionId r c
    cases hpath : fcSessionPath root (some sessionId) fcPathLen with
    | error e => exact iff_of_true (exact_nothing _ _ _) nofun
    | ok path =>
      obtain ⟨hr, hn⟩ := hfits r c path rfl rfl hpath
      dsimp only
      rw [appendEntry_line junk (fcJsonEscape_fits hr junk.role).2 (fcJsonEscape_fits hn junk.name).2 hr hn,
        sessionFile, hpath]
      by_cases hbuffers : (env.contentBuffer && env.lineBuffer) = true
      · rw [if_pos hbuffers, exact_line_iff _ (sessionFields_keys _ _ _ _)
          ((sessionRecord_fields _ _ _ _).mpr ⟨rfl, fun _ => rfl, rfl⟩)]
        exact ⟨fun h r' c' _ hr hc _ _ => Option.some.inj hr ▸ Option.some.inj hc ▸ h,
          fun h => h r c path rfl rfl rfl (Bool.and_eq_true_iff.mp hbuffers)⟩
      · rw [if_neg hbuffers]
        exact iff_of_true (exact_nothing _ _ _) fun _ _ _ _ _ _ h => absurd (Bool.and_eq_true_iff.mpr h) hbuffers
  · rename_i hnone
    refine iff_of_true (exact_nothing _ _ _) ?_
    rintro r c path rfl rfl hpath
    cases sessionId with
    | none => cases hpath
    | some sessionId => exact (hnone sessionId r c rfl rfl rfl).elim

theorem sessionFits_of_exact (h : SessionExact root tsMs sessionId role name content .success .zero) :
    SessionFits root sessionId role name content := by
  rintro role content path rfl rfl hpath
  cases sessionId with
  | none => cases hpath
  | some sessionId =>
    obtain ⟨r, hr, hrole⟩ := fcJsonEscape_zero role 32 (by decide)
    obtain ⟨n, hn, hname⟩ := fcJsonEscape_zero (name.getD []) 64 (by decide)
    rw [SessionExact, fcSessionAppend_path .zero hpath, appendEntry_line .zero hrole hname hr hn, sessionFile,
      hpath] at h
    obtain ⟨rfl, hn', -⟩ := (sessionRecord_fields _ r n content).mp
      (record_of_exact _ (sessionFields_keys _ r n content) h)
    refine ⟨hr, ?_⟩
    by_cases hnone : name.getD [] = []
    · rw [hnone]
      decide
    · exact hn' hnone ▸ hn

end

/-- Every call whose strings fit their buffers is exact, whatever they held, unless `write` takes a
part of the line. Where a string does not fit there are buffers, with calls that all succeed, for
which it is not. -/
theorem append_exact_iff (root : DataRoot) (tsMs : Int64) (source text sessionId role name content : Option CStr) :
    ((∀ env junk, (∀ n, env.Whole n) → MemoryExact root tsMs source text env junk) ↔ MemoryFits root source text) ∧
      ((∀ env junk, (∀ n, env.Whole n) → SessionExact root tsMs sessionId role name content env junk) ↔
        SessionFits root sessionId role name content) ∧
      (MemoryFits root source text → ∀ env junk,
        (MemoryExact root tsMs source text env junk ↔ MemoryWhole root tsMs source text env)) ∧
      (SessionFits root sessionId role name content → ∀ env junk,
        (SessionExact root tsMs sessionId role name content env junk ↔
          SessionWhole root tsMs sessionId role name content env)) := by
  have hwhole (n : Nat) : AppendOutcome.success.Whole n := fun _ taken h => .inl (Except.ok.inj h).symm
  refine ⟨⟨fun h => memoryFits_of_exact (h .success .zero hwhole), fun hfits env junk henv => ?_⟩,
    ⟨fun h => sessionFits_of_exact (h .success .zero hwhole), fun hfits env junk henv => ?_⟩,
    fun hfits env junk => fcMemoryAppend_exact_iff junk hfits,
      fun hfits env junk => fcSessionAppend_exact_iff junk hfits⟩
  · exact (fcMemoryAppend_exact_iff junk hfits).mpr fun _ _ _ _ => henv _
  · exact (fcSessionAppend_exact_iff junk hfits).mpr fun _ _ _ _ _ _ _ => henv _

/-- A source of 64 characters, one more than the buffer holds. -/
def longSource : CStr := replicate 64 'a'

/-- A source that does not fit is cut, and the append returns zero. A `write` that takes three bytes
of a line leaves them in the file, and the append fails. -/
theorem not_exact_append :
    ((fcMemoryAppend (fcDataDir true) .success 0 .zero longSource (some ['x'])).1 = .ok () ∧
      ¬ MemoryExact (fcDataDir true) 0 longSource (some ['x']) .success .zero) ∧
    ((fcMemoryAppend (fcDataDir true) { AppendOutcome.success with written := fun _ => .ok 3 } 0 .zero none
        (some ['x'])).1 = .error .eio ∧
      ¬ MemoryExact (fcDataDir true) 0 none (some ['x'])
        { AppendOutcome.success with written := fun _ => .ok 3 } .zero) := by
  obtain ⟨path, hpath⟩ : ∃ path, fcDataPath (fcDataDir true) "memory.jsonl".toList fcPathLen = .ok path := ⟨_, rfl⟩
  have hshort : MemoryFits (fcDataDir true) none (some ['x']) := by
    intro t path ht _
    cases ht
    decide +kernel
  refine ⟨⟨by decide +kernel, fun h => ?_⟩, by decide +kernel, fun h => ?_⟩
  · exact absurd (memoryFits_of_exact h _ path rfl hpath).1 (by decide +kernel)
  · have hwhole := (fcMemoryAppend_exact_iff .zero hshort).mp h _ path rfl hpath rfl 3 rfl
    revert hwhole
    decide +kernel

end FruitClaw.Memory
