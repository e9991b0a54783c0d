-- SUMMARY: How a chunked response is split across the calls of recv makes no difference.
import FruitClawApps.Lib.Scanner
import FruitClawApps.Netutils.Webclient.Perform

/-!
# Reading byte by byte

Each parser stops in the middle of a line when the bytes run out, and goes on there in a later turn.
So the client is a machine that takes one byte at a time. It is defined for responses with a chunked
body that are not redirects.
-/

namespace Netutils.Webclient

open List

/-! ## The parsers, one byte at a time -/

variable (c : Char) (ws : Ws)

def statusByte : Except Errno (Ws × Bool) :=
  if c = '\n' then
    let line := ws.line.set ws.ndx '\x00'
    match statusLine (CStr.ofMem line) with
    | .error e => .error e
    | .ok code =>
      .ok
        ({ ws with
          line := line
          httpstatus := httpstatusOf code
          statusCode := code
          state := .headers
          gotContentLength := false
          chunked := false
          gotLocation := false
          ndx := 0 }, true)
  else if ws.ndx = maxHttpLine - 1 then .error .e2big
  else .ok ({ ws with line := ws.line.set ws.ndx c, ndx := ws.ndx + 1 }, false)

def headerByte : Except Errno (Ws × Bool) :=
  let line := ws.line.set ws.ndx c
  if c == '\n' || ws.ndx == maxHttpLine - 1 then
    if ws.skipToNextLine then .ok ({ ws with line := line, ndx := 0, skipToNextLine := !(c == '\n') }, false)
    else headerLine (c == '\n') { ws with line := line }
  else .ok ({ ws with line := line, ndx := ws.ndx + 1 }, false)

def chunkHeaderByte : Except Errno (Ws × Bool) :=
  let line := ws.line.set ws.ndx c
  if c == '\n' || ws.ndx == maxHttpLine - 1 then
    match chunkHeaderLine (c == '\n') { ws with line := line } with
    | .error e => .error e
    | .ok ws => .ok (ws, true)
  else .ok ({ ws with line := line, ndx := ws.ndx + 1 }, false)

def chunkEnddataByte : Except Errno (Ws × Bool) :=
  let buf := ws.line.set ws.ndx c
  if c = '\n' then
    if ws.ndx = 0 ∨ buf[ws.ndx - 1]? ≠ some '\r' ∨ ws.ndx ≠ 1 then .error .eproto
    else
      let state := if ws.chunkLen = 0 then .chunkedTrailer else .chunkedHeader
      .ok ({ ws with line := buf, ndx := 0, state := state }, true)
  else .ok ({ ws with line := buf, ndx := ws.ndx + 1 }, false)

def chunkTrailerByte : Except Errno (Ws × Bool) :=
  let buf := ws.line.set ws.ndx c
  if c = '\n' then
    if ws.ndx = 0 ∨ buf[ws.ndx - 1]? ≠ some '\r' then .error .eproto
    else if ws.ndx ≠ 1 then .ok ({ ws with line := buf, ndx := 0 }, false)
    else .ok ({ ws with line := buf, state := .waitClose }, true)
  else .ok ({ ws with line := buf, ndx := ws.ndx + 1 }, false)

/-- A parser that scans with the given action, and leaves in the buffer what it does not take. -/
def Scans (parse : List Char → Ws → Except Errno Ws) (act : Char → Ws → Except Errno (Ws × Bool)) : Prop :=
  ∀ bytes ws, parse bytes ws = (Scanner.run act bytes ws).map fun r => { r.1 with unread := r.2.2 }

variable {ws ws' : Ws} {parse : List Char → Ws → Except Errno Ws} {act : Char → Ws → Except Errno (Ws × Bool)}
variable {state : WsState} {bytes : List Char} {c : Char} {gotNl done : Bool}

theorem Scans.run (hscans : Scans parse act) (h : parse bytes ws = .ok ws') :
    ∃ ws₁ done rest, Scanner.run act bytes ws = .ok (ws₁, done, rest) ∧ ws' = { ws₁ with unread := rest } := by
  rw [hscans] at h
  cases hrun : Scanner.run act bytes ws with
  | error e =>
    rw [hrun] at h
    cases h
  | ok r =>
    rw [hrun] at h
    cases h
    exact ⟨r.1, r.2.1, r.2.2, rfl, rfl⟩

theorem scans_status : Scans wgetParsestatus statusByte := by
  intro bytes
  induction bytes with
  | nil => exact fun _ => rfl
  | cons c rest ih =>
    intro ws
    rw [wgetParsestatus, Scanner.run, statusByte]
    split_ifs
    · dsimp only
      cases statusLine (CStr.ofMem (ws.line.set ws.ndx '\x00')) <;> rfl
    · rfl
    · exact ih _

theorem scans_headers : Scans wgetParseheaders headerByte := by
  intro bytes
  induction bytes with
  | nil => exact fun _ => rfl
  | cons c rest ih =>
    intro ws
    simp only [wgetParseheaders, Scanner.run, headerByte]
    split_ifs
    · exact ih _
    · cases headerLine (c == '\n') { ws with line := ws.line.set ws.ndx c } with
      | error e => rfl
      | ok r =>
        obtain ⟨ws', done⟩ := r
        cases done with
        | true => rfl
        | false => exact ih ws'
    · exact ih _

theorem scans_chunkheader : Scans wgetParsechunkheader chunkHeaderByte := by
  intro bytes
  induction bytes with
  | nil => exact fun _ => rfl
  | cons c rest ih =>
    intro ws
    simp only [wgetParsechunkheader, Scanner.run, chunkHeaderByte]
    split_ifs
    · cases chunkHeaderLine (c == '\n') { ws with line := ws.line.set ws.ndx c } <;> rfl
    · exact ih _

theorem scans_chunkenddata : Scans wgetParsechunkenddata chunkEnddataByte := by
  intro bytes
  induction bytes with
  | nil => exact fun _ => rfl
  | cons c rest ih =>
    intro ws
    simp only [wgetParsechunkenddata, Scanner.run, chunkEnddataByte]
    split
    · split <;> rfl
    · exact ih _

theorem scans_chunktrailer : Scans wgetParsechunktrailer chunkTrailerByte := by
  intro bytes
  induction bytes with
  | nil => exact fun _ => rfl
  | cons c rest ih =>
    intro ws
    simp only [wgetParsechunktrailer, Scanner.run, chunkTrailerByte]
    split
    · split
      · rfl
      split
      · exact ih _
      · rfl
    · exact ih _

/-! ## The receive buffer is not looked at -/

/-- The state with an empty receive buffer. -/
abbrev Ws.drained (ws : Ws) : Ws := { ws with unread := [] }

theorem Ws.drained_eq (h : ws.unread = []) : ws.drained = ws := by rw [Ws.drained, ← h]

/-- What a byte does does not depend on the bytes behind it. -/
def Oblivious (act : Char → Ws → Except Errno (Ws × Bool)) : Prop :=
  ∀ c ws, act c ws.drained = (act c ws).map fun r => (r.1.drained, r.2)

theorem oblivious_status : Oblivious statusByte := by
  intro c ws
  unfold statusByte
  by_cases hnl : c = '\n'
  · rw [if_pos hnl, if_pos hnl]
    dsimp only [Ws.drained]
    cases statusLine (CStr.ofMem (ws.line.set ws.ndx '\x00')) <;> rfl
  · by_cases hfull : ws.ndx = maxHttpLine - 1 <;> simp [hnl, hfull, Ws.drained, Except.map]

theorem headerField_drained (gotNl : Bool) (line : CStr) (ws : Ws) :
    headerField gotNl line ws.drained = (headerField gotNl line ws).map fun r => (r.1.drained, r.2) := by
  unfold headerField
  split
  · cases parseurl (line.drop "location: ".length) false <;> rfl
  split
  · split
    · cases wgetParseint (line.drop "Content-Length: ".length) 10 <;> rfl
    · rfl
  split
  · split <;> rfl
  · rfl

theorem headerLine_drained (gotNl : Bool) (ws : Ws) :
    headerLine gotNl ws.drained = (headerLine gotNl ws).map fun r => (r.1.drained, r.2) := by
  have hfield := headerField_drained gotNl (CStr.ofMem (ws.line.set (lineEnd gotNl ws.ndx) '\x00'))
    { ws with line := ws.line.set (lineEnd gotNl ws.ndx) '\x00' }
  simp only [headerLine, Ws.drained]
  split_ifs
  iterate 4
    · rfl
  · rw [hfield]
    cases headerField gotNl _ { ws with line := ws.line.set (lineEnd gotNl ws.ndx) '\x00' } with
    | error e => rfl
    | ok r =>
      obtain ⟨ws', found⟩ := r
      dsimp only [Except.map]
      split <;> rfl
  all_goals rfl

theorem oblivious_headers : Oblivious headerByte := by
  intro c ws
  have hline := headerLine_drained (c == '\n') { ws with line := ws.line.set ws.ndx c }
  simp only [headerByte, Ws.drained]
  split_ifs
  · rfl
  · exact hline
  · rfl

theorem chunkHeaderLine_drained (gotNl : Bool) (ws : Ws) :
    chunkHeaderLine gotNl ws.drained = (chunkHeaderLine gotNl ws).map Ws.drained := by
  have hsize : chunkSizeLine gotNl ws.drained = chunkSizeLine gotNl ws := rfl
  unfold chunkHeaderLine
  rw [hsize]
  cases chunkSizeLine gotNl ws with
  | error e => rfl
  | ok r =>
    obtain ⟨line, found⟩ := r
    dsimp only
    split
    · rfl
    cases wgetParseint (CStr.ofMem line) 16 with
    | error e => rfl
    | ok len =>
      dsimp only
      split <;> rfl

variable {line : List Char}

theorem chunkSizeLine_length {found : Bool} (h : chunkSizeLine gotNl ws = .ok (line, found)) :
    line.length = ws.line.length := by
  unfold chunkSizeLine at h
  split at h
  · cases h
    rfl
  split at h
  · cases h
  dsimp only at h
  split at h
  · cases h
  split at h <;> cases h
  · rw [length_set, length_set]
  · exact length_set

theorem oblivious_chunkheader : Oblivious chunkHeaderByte := by
  intro c ws
  have hline := chunkHeaderLine_drained (c == '\n') { ws with line := ws.line.set ws.ndx c }
  simp only [chunkHeaderByte, Ws.drained]
  split_ifs
  · rw [hline]
    cases chunkHeaderLine (c == '\n') { ws with line := ws.line.set ws.ndx c } <;> rfl
  · rfl

theorem oblivious_chunkenddata : Oblivious chunkEnddataByte := by
  intro c ws
  simp only [chunkEnddataByte, Ws.drained]
  split_ifs <;> rfl

theorem oblivious_chunktrailer : Oblivious chunkTrailerByte := by
  intro c ws
  simp only [chunkTrailerByte, Ws.drained]
  split_ifs <;> rfl

/-! ## The machine -/

/-- The action for a byte in each state that parses lines. -/
def byteOf : WsState → Option (Char → Ws → Except Errno (Ws × Bool))
  | .statusline => some statusByte
  | .headers => some headerByte
  | .chunkedHeader => some chunkHeaderByte
  | .chunkedEnddata => some chunkEnddataByte
  | .chunkedTrailer => some chunkTrailerByte
  | _ => none

theorem byteOf_some {state : WsState} (h : byteOf state = some act) :
    Oblivious act ∧ state ≠ .data ∧ state ≠ .chunkedData := by
  cases state <;> cases h
  · exact ⟨oblivious_status, nofun, nofun⟩
  · exact ⟨oblivious_headers, nofun, nofun⟩
  · exact ⟨oblivious_chunkheader, nofun, nofun⟩
  · exact ⟨oblivious_chunkenddata, nofun, nofun⟩
  · exact ⟨oblivious_chunktrailer, nofun, nofun⟩

/-! ## What a byte does -/

/-- The URL of a `Location` header in the line buffer. -/
def locationUrl (line : List Char) : Option CStr :=
  let text := CStr.ofMem line
  if startsWithNoCase text "location: ".toList then some (text.drop "location: ".length) else none

/-- The target is what `netlib_parseurl` makes of a URL, or as before. -/
def TargetFrom (ws : Ws) (target : Target) (got : Bool) : Option CStr → Prop
  | none => target = ws.target ∧ got = ws.gotLocation
  | some url => parseurl url false = .ok target ∧ got = true

/-- What a byte does to a state whose line buffer it turns into `line`. The flag says that its
parser has come to its end. -/
inductive Took (ws : Ws) (line : List Char) : Ws → Bool → Prop
  | line {ndx : Nat}
      (hndx : (ndx = 0 ∧ (ws.ndx = 0 ∨ ws.skipToNextLine = true ∨ ws.state = .chunkedTrailer)) ∨
        (ndx = ws.ndx + 1 ∧ (ws.ndx ≠ maxHttpLine - 1 ∨ ws.state ∈ [WsState.chunkedEnddata, .chunkedTrailer])))
      (skip : Bool) :
      Took ws line { ws with line := line, ndx := ndx, skipToNextLine := skip } false
  | status (hstate : ws.state = .statusline) (code : Nat) :
      Took ws line
        { ws with
          line := line
          httpstatus := httpstatusOf code
          statusCode := code
          state := .headers
          gotContentLength := false
          chunked := false
          gotLocation := false
          ndx := 0 } true
  | field (hstate : ws.state = .headers) (hndx : ws.ndx ≠ 0) (hskip : ws.skipToNextLine = false) {target : Target}
      {located : Bool} (hlocated : TargetFrom ws target located (locationUrl line)) (len : Nat)
      (gotLen chunked skip : Bool) :
      Took ws line
        { ws with
          line := line
          target := target
          gotLocation := located
          expectedRespBodyLen := len
          gotContentLength := gotLen
          chunked := chunked
          ndx := 0
          skipToNextLine := skip } false
  | plain (hstate : ws.state = .headers) (hplain : ws.chunked = false) :
      Took ws line { ws with line := line, state := .data } true
  | chunked (hstate : ws.state = .headers) (hchunked : ws.chunked = true) :
      Took ws line { ws with line := line, state := .chunkedHeader, ndx := 0 } true
  | size (hstate : ws.state = .chunkedHeader) {len : Nat} (hlen : len ≠ 0) :
      Took ws line
        { ws with line := line, ndx := 0, chunkLen := len, state := .chunkedData, chunkReceived := 0 } true
  | last (hstate : ws.state = .chunkedHeader) :
      Took ws line { ws with line := line, ndx := 0, chunkLen := 0, state := .chunkedTrailer } true
  | enddata (hstate : ws.state = .chunkedEnddata) {state : WsState}
      (hnext : state = if ws.chunkLen = 0 then .chunkedTrailer else .chunkedHeader) :
      Took ws line { ws with line := line, ndx := 0, state := state } true
  | trailer (hstate : ws.state = .chunkedTrailer) : Took ws line { ws with line := line, state := .waitClose } true

theorem took_headerLine (hline : line.length = ws.line.length) (hstate : ws.state = .headers)
    (hskip : ws.skipToNextLine = false) (h : headerLine gotNl { ws with line := line } = .ok (ws', done)) :
    ∃ line, line.length = ws.line.length ∧ Took ws line ws' done := by
  unfold headerLine at h
  split at h
  · cases h
    exact ⟨_, hline, .line (.inl ⟨‹_›, .inl ‹_›⟩) _⟩
  rename_i hndx
  split at h
  · split at h <;> cases h
    · exact ⟨_, hline, .chunked hstate ‹_›⟩
    · exact ⟨_, hline, .plain hstate (Bool.eq_false_iff.mpr ‹_›)⟩
  dsimp only at h
  split at h
  · cases h
  split at h
  · cases h
  split at h
  · cases h
  rename_i hfield
  split at h <;> cases h
  unfold headerField at hfield
  split at hfield
  · rename_i hlocation
    split at hfield <;> cases hfield
    refine ⟨_, length_set.trans hline, .field hstate hndx hskip ?_ _ _ _ _⟩
    rw [locationUrl, if_pos hlocation]
    exact ⟨‹_›, rfl⟩
  rename_i hother
  repeat' split at hfield
  all_goals cases hfield
  all_goals
    refine ⟨_, length_set.trans hline, .field hstate hndx hskip ?_ _ _ _ _⟩
    rw [locationUrl, if_neg hother]
    exact ⟨rfl, rfl⟩

theorem took_chunkHeaderLine (hline : line.length = ws.line.length)
    (hstate : ws.state = .chunkedHeader) (h : chunkHeaderLine gotNl { ws with line := line } = .ok ws') :
    ∃ line, line.length = ws.line.length ∧ Took ws line ws' true := by
  unfold chunkHeaderLine at h
  split at h
  · cases h
  rename_i hsize
  repeat' split at h
  all_goals cases h
  · exact ⟨_, (chunkSizeLine_length hsize).trans hline, .size hstate ‹_›⟩
  · obtain rfl := not_ne_iff.mp ‹_›
    exact ⟨_, (chunkSizeLine_length hsize).trans hline, .last hstate⟩

/-- What a byte does in the state of the parser that takes it. -/
theorem took_of_byte (hbyte : byteOf ws.state = some act) (h : act c ws = .ok (ws', done)) :
    ∃ line, line.length = ws.line.length ∧ Took ws line ws' done := by
  cases hstate : ws.state <;> rw [hstate] at hbyte <;> cases hbyte
  · simp only [statusByte] at h
    repeat' split at h
    all_goals cases h
    · exact ⟨_, length_set, .status hstate _⟩
    · exact ⟨_, length_set, .line (.inr ⟨rfl, .inl ‹_›⟩) _⟩
  · simp only [headerByte, Bool.or_eq_true, beq_iff_eq] at h
    split_ifs at h with hend
    · cases h
      exact ⟨_, length_set, .line (.inl ⟨rfl, .inr (.inl ‹_›)⟩) _⟩
    · exact took_headerLine length_set hstate (Bool.eq_false_iff.mpr ‹_›) h
    · cases h
      exact ⟨_, length_set, .line (.inr ⟨rfl, .inl (not_or.mp hend).2⟩) _⟩
  · simp only [chunkHeaderByte, Bool.or_eq_true, beq_iff_eq] at h
    split_ifs at h with hend
    · split at h <;> cases h
      exact took_chunkHeaderLine length_set hstate ‹_›
    · cases h
      exact ⟨_, length_set, .line (.inr ⟨rfl, .inl (not_or.mp hend).2⟩) _⟩
  · simp only [chunkEnddataByte] at h
    split at h
    · split at h <;> cases h
      exact ⟨_, length_set, .enddata hstate rfl⟩
    · cases h
      exact ⟨_, length_set, .line (.inr ⟨rfl, .inr (by simp [hstate])⟩) _⟩
  · simp only [chunkTrailerByte] at h
    repeat' split at h
    all_goals cases h
    · exact ⟨_, length_set, .line (.inl ⟨rfl, .inr (.inr hstate)⟩) _⟩
    · exact ⟨_, length_set, .trailer hstate⟩
    · exact ⟨_, length_set, .line (.inr ⟨rfl, .inr (by simp [hstate])⟩) _⟩

theorem Took.stays (h : Took ws line ws' false) : ws'.state = ws.state := by
  cases h <;> rfl

theorem Took.line_eq (h : Took ws line ws' done) : ws'.line = line := by
  cases h <;> rfl

/-- While the line goes on, the parser of the state stays. -/
theorem byte_stays (hbyte : byteOf ws.state = some act) (h : act c ws = .ok (ws', false)) : ws'.state = ws.state := by
  obtain ⟨line, -, htook⟩ := took_of_byte hbyte h
  exact htook.stays

/-- The parsers, in the order in which `parsePass` tries them. -/
def stages : List (WsState × (List Char → Ws → Except Errno Ws)) :=
  [(.statusline, wgetParsestatus), (.headers, wgetParseheaders), (.chunkedHeader, wgetParsechunkheader),
    (.chunkedEnddata, wgetParsechunkenddata), (.chunkedTrailer, wgetParsechunktrailer)]

def passStages (stages : List (WsState × (List Char → Ws → Except Errno Ws))) (ws : Ws) : Except Errno Ws :=
  stages.foldlM (fun ws stage => inState stage.1 stage.2 ws) ws

theorem parsePass_eq (ws : Ws) :
    parsePass ws = passStages stages ws >>= fun ws =>
      if ws.state = .waitClose ∧ ws.unread ≠ [] then .error .eproto else .ok ws := by
  simp only [parsePass, passStages, stages, List.foldlM, bind_assoc, pure_bind]

theorem passStages_keeps {P : Ws → Prop} {list : List (WsState × (List Char → Ws → Except Errno Ws))}
    (hkeeps : ∀ stage ∈ list, ∀ ws ws', P ws → inState stage.1 stage.2 ws = .ok ws' → P ws') (hws : P ws)
    (h : passStages list ws = .ok ws') : P ws' := by
  induction list generalizing ws with
  | nil =>
    cases h
    exact hws
  | cons stage rest ih =>
    obtain ⟨ws₁, hstage, hrest⟩ := Except.bind_eq_ok_iff.mp h
    have hnext := hkeeps stage mem_cons_self ws ws₁ hws hstage
    exact ih (fun other hother => hkeeps other (mem_cons_of_mem _ hother)) hnext hrest

variable {stage : WsState × (List Char → Ws → Except Errno Ws)}

/-- Every parser of a pass scans with the action for its state. -/
theorem stage_scans (hstage : stage ∈ stages) : ∃ act, byteOf stage.1 = some act ∧ Scans stage.2 act := by
  simp only [stages, mem_cons, not_mem_nil, or_false] at hstage
  rcases hstage with rfl | rfl | rfl | rfl | rfl
  · exact ⟨_, rfl, scans_status⟩
  · exact ⟨_, rfl, scans_headers⟩
  · exact ⟨_, rfl, scans_chunkheader⟩
  · exact ⟨_, rfl, scans_chunkenddata⟩
  · exact ⟨_, rfl, scans_chunktrailer⟩

section

variable {P : Ws → Prop}
  (hact : ∀ {ws line ws' done}, line.length = ws.line.length → Took ws line ws' done → P ws → P ws')
  (hunread : ∀ ws rest, P ws → P { ws with unread := rest })
include hact hunread

/-- What every byte keeps, the parsers of a pass keep. -/
theorem stage_keeps (hstage : stage ∈ stages) (hws : P ws) (h : inState stage.1 stage.2 ws = .ok ws') : P ws' := by
  obtain ⟨act, hbyte, hscans⟩ := stage_scans hstage
  rw [inState] at h
  split at h
  · next hstate =>
    obtain ⟨ws₁, done, rest, hrun, rfl⟩ := hscans.run h
    have hkeeps {c : Char} {s s' : Ws} {done : Bool} (hs : s.state = stage.1 ∧ P s) (h : act c s = .ok (s', done)) :
        P s' := by
      obtain ⟨line, hline, htook⟩ := took_of_byte (hs.1 ▸ hbyte) h
      exact hact hline htook hs.2
    have hend := Scanner.run_post (P := fun s => s.state = stage.1 ∧ P s) (Q := P)
      (fun _ _ _ hs h => ⟨(byte_stays (hs.1 ▸ hbyte) h).trans hs.1, hkeeps hs h⟩) (fun _ _ _ => hkeeps)
      ⟨hstate, hws⟩ hrun
    exact hunread _ _ (hend.elim And.right id)
  · cases h
    exact hws

theorem parsePass_keeps (hws : P ws) (h : parsePass ws = .ok ws') : P ws' := by
  rw [parsePass_eq] at h
  obtain ⟨ws₁, hstages, hlast⟩ := Except.bind_eq_ok_iff.mp h
  have hend := passStages_keeps (fun _ hstage _ _ => stage_keeps hact hunread hstage) hws hstages
  split at hlast <;> cases hlast
  exact hend

end

/-- The body is chunked as far as it is known, and inside a chunk the response is no redirect
and there is data to come. -/
def Ws.onward (ws : Ws) : Bool :=
  decide (ws.state ≠ .data) &&
    decide (ws.state = .chunkedData → ws.httpstatus ≠ .moved ∧ ws.chunkReceived < ws.chunkLen)

theorem Ws.onward_iff : ws.onward = true ↔ ws.state ≠ .data ∧
    (ws.state = .chunkedData → ws.httpstatus ≠ .moved ∧ ws.chunkReceived < ws.chunkLen) := by
  simp only [Ws.onward, Bool.and_eq_true, decide_eq_true_eq]

variable (s : Ws × List Char)

/-- One byte: the state behind it, and what the sink has got. -/
def feed (c : Char) : Option (Ws × List Char) :=
  match byteOf s.1.state with
  | some act =>
    match act c s.1 with
    | .error _ => none
    | .ok (ws, _) => if ws.onward then some (ws, s.2) else none
  | none =>
    if s.1.state = .chunkedData then some (consume { s.1 with unread := [c] } 1, s.2 ++ [c]) else none

def reads (bytes : List Char) : Option (Ws × List Char) := bytes.foldlM feed s

@[simp] theorem reads_nil : reads s [] = some s := rfl

theorem reads_cons (c : Char) (bytes : List Char) :
    reads s (c :: bytes) = (feed s c).bind (reads · bytes) := rfl

theorem reads_append (xs ys : List Char) :
    reads s (xs ++ ys) = (reads s xs).bind (reads · ys) := foldlM_append ..

/-- The reading of all bytes that are still to come, those in the buffer first. -/
def pending (ws : Ws) (sunk future : List Char) : Option (Ws × List Char) :=
  reads (ws.drained, sunk) (ws.unread ++ future)

/-- A scan does what the machine does with its bytes. -/
theorem reads_scan (hact : byteOf ws.state = some act) (bytes sunk future : List Char) :
    reads (ws, sunk) (bytes ++ future) =
      match Scanner.run act bytes ws with
      | .error _ => none
      | .ok (ws', _, rest) => if ws'.onward then reads (ws', sunk) (rest ++ future) else none := by
  have hgood {ws' : Ws} (hstate : ws'.state = ws.state) : ws'.onward = true := by
    obtain ⟨-, hdata, hchunk⟩ := byteOf_some hact
    simp [Ws.onward, hstate, hdata, hchunk]
  induction bytes generalizing ws with
  | nil =>
    rw [Scanner.run]
    simp [hgood rfl]
  | cons c rest ih =>
    rw [cons_append, reads_cons, feed, Scanner.run]
    rw [hact]
    dsimp only
    cases hbyte : act c ws with
    | error e => rfl
    | ok r =>
      obtain ⟨ws', done⟩ := r
      cases done with
      | true =>
        dsimp only
        split <;> rfl
      | false =>
        have hstate := byte_stays hact hbyte
        dsimp only
        rw [if_pos (hgood hstate)]
        exact ih (hstate ▸ hact) fun h => hgood (h.trans hstate)

theorem pending_run (hact : byteOf ws.state = some act) (sunk future : List Char) : pending ws sunk future =
      match Scanner.run act ws.unread ws with
      | .error _ => none
      | .ok (ws', _, rest) => if ws'.onward then pending { ws' with unread := rest } sunk future else none := by
  have hdrained : byteOf ws.drained.state = some act := hact
  rw [pending, reads_scan hdrained, Scanner.run_map (byteOf_some hact).1]
  cases Scanner.run act ws.unread ws <;> rfl

end Netutils.Webclient
