-- SUMMARY: The index into the HTTP client's line buffer, and exactly when it stays in bounds.
import FruitClawApps.Netutils.Webclient.Chunked

/-!
# The index into the line buffer

Each of the five parsers writes the next byte where `ndx` says, and goes on with the index that the
last one has left. Three of them stop at the end of the buffer. Those for the end of a chunk and for
the trailer do not.
-/

namespace Netutils.Webclient

open Transition List

/-! ## What a turn writes -/

variable {ws ws' : Ws} {state : WsState} {parse : List Char → Ws → Except Errno Ws}
  {act : Char → Ws → Except Errno (Ws × Bool)} {stage : WsState × (List Char → Ws → Except Errno Ws)}

/-- Every parser that gets the bytes starts in a state with the property. -/
def AtStages (Q : Ws → Prop) : List (WsState × (List Char → Ws → Except Errno Ws)) → Ws → Prop
  | [], _ => True
  | (state, parse) :: rest, ws =>
    (ws.state = state → Q ws) ∧
      match inState state parse ws with
      | .error _ => True
      | .ok ws' => AtStages Q rest ws'

instance AtStages.decidable {Q : Ws → Prop} [DecidablePred Q] :
    (list : List (WsState × (List Char → Ws → Except Errno Ws))) → (ws : Ws) → Decidable (AtStages Q list ws)
  | [], _ => isTrue trivial
  | (state, parse) :: rest, ws =>
    have : Decidable (match inState state parse ws with
        | .error _ => True
        | .ok ws' => AtStages Q rest ws') :=
      match inState state parse ws with
      | .error _ => isTrue trivial
      | .ok ws' => AtStages.decidable rest ws'
    inferInstanceAs (Decidable (_ ∧ _))

/-- The state in which the parsers get the bytes, if the next step is a turn over received bytes. -/
def Client.turn (ctx : Ctx) (c : Client) (l : Answers) : Option Ws :=
  if c.result.isSome then none
  else if c.inLoop || c.ws.state ∈ [WsState.statusline, .headers, .data, .chunkedHeader, .chunkedData] then
    c.received ctx l
  else none

theorem Client.turn_eq {ctx : Ctx} {c : Client} {l : Answers} (hrunning : c.result = none)
    (hhere : c.inLoop = true ∨ c.ws.state ∈ [WsState.statusline, .headers, .data, .chunkedHeader, .chunkedData]) :
    c.turn ctx l = c.received ctx l := by
  rw [turn, hrunning, if_neg (by simp), if_pos (by simpa using hhere)]

def InTurn (ctx : Ctx) (Q : Ws → Prop) (c : Client) (l : Answers) : Prop :=
  match c.turn ctx l with
  | none => True
  | some ws => AtStages Q stages ws

instance {ctx : Ctx} {Q : Ws → Prop} [DecidablePred Q] (c : Client) (l : Answers) : Decidable (InTurn ctx Q c l) :=
  match h : c.turn ctx l with
  | none => isTrue (by rw [InTurn, h]; trivial)
  | some ws => decidable_of_iff (AtStages Q stages ws) (by rw [InTurn, h])

/-- The parser of the state writes only inside of the line buffer. -/
def InBounds (ws : Ws) : Prop :=
  match byteOf ws.state with
  | none => True
  | some act => ∀ ws' ∈ Scanner.visited act ws.unread ws, ws'.ndx < maxHttpLine

instance : DecidablePred InBounds := fun ws =>
  match h : byteOf ws.state with
  | none => isTrue (by rw [InBounds, h]; trivial)
  | some act =>
    decidable_of_iff (∀ ws' ∈ Scanner.visited act ws.unread ws, ws'.ndx < maxHttpLine) (by rw [InBounds, h])

/-! ## Lines that fit -/

variable (bytes : List Char)

/-- The bytes up to the first newline, with it. -/
def firstLine : List Char := bytes.take (bytes.findIdx (· == '\n') + 1)

/-- The lines of a trailer fit into the line buffer, up to the empty one or one that does not end
in a carriage return and a newline. There are `n` bytes of the first line already, and `cr` says
that the last of them is a carriage return. -/
def TrailerFits : Nat → Bool → List Char → Prop
  | _, _, [] => True
  | n, cr, c :: rest =>
    n < maxHttpLine ∧
      if c = '\n' then (cr = true ∧ n ≠ 1 → TrailerFits 0 false rest) else TrailerFits (n + 1) (c == '\r') rest

instance TrailerFits.decidable : (n : Nat) → (cr : Bool) → (bytes : List Char) → Decidable (TrailerFits n cr bytes)
  | _, _, [] => isTrue trivial
  | n, cr, c :: rest =>
    have : Decidable (TrailerFits 0 false rest) := TrailerFits.decidable 0 false rest
    have : Decidable (TrailerFits (n + 1) (c == '\r') rest) := TrailerFits.decidable (n + 1) (c == '\r') rest
    inferInstanceAs (Decidable (n < maxHttpLine ∧
      if c = '\n' then (cr = true ∧ n ≠ 1 → TrailerFits 0 false rest) else TrailerFits (n + 1) (c == '\r') rest))

/-- A carriage return is in front of the place that is written next. -/
def Ws.afterCr (ws : Ws) : Bool := decide (ws.ndx ≠ 0) && decide (ws.line[ws.ndx - 1]? = some '\r')

/-- What follows the data of a chunk, and what follows the last chunk, fits into the line buffer. -/
def TailFits (ws : Ws) : Prop :=
  (ws.state = .chunkedEnddata → ws.unread ≠ [] → ws.ndx + (firstLine ws.unread).length ≤ maxHttpLine) ∧
    (ws.state = .chunkedTrailer → TrailerFits ws.ndx ws.afterCr ws.unread)

instance : DecidablePred TailFits := fun _ => inferInstanceAs (Decidable (_ ∧ _))

/-! ## Parsers without a bound -/

theorem firstLine_newline (rest : List Char) : firstLine ('\n' :: rest) = ['\n'] := by
  simp [firstLine, findIdx_cons]

theorem firstLine_cons {c : Char} (h : c ≠ '\n') (rest : List Char) :
    firstLine (c :: rest) = c :: firstLine rest := by
  have hne : (c == '\n') = false := by simpa using h
  rw [firstLine, firstLine, findIdx_cons, hne]
  rfl

theorem visited_enddata (ws : Ws) :
    (∀ ws' ∈ Scanner.visited chunkEnddataByte bytes ws, ws'.ndx < maxHttpLine) ↔
      (bytes ≠ [] → ws.ndx + (firstLine bytes).length ≤ maxHttpLine) := by
  induction bytes generalizing ws with
  | nil => simp [Scanner.visited]
  | cons c rest ih =>
    by_cases hnl : c = '\n'
    · subst hnl
      -- the newline ends the line, with or without an error
      have hstop : ∀ ws', chunkEnddataByte '\n' ws ≠ .ok (ws', false) := by
        intro ws' h
        simp only [chunkEnddataByte, if_pos] at h
        split at h <;> cases h
      rw [Scanner.visited_cons_stop hstop, firstLine_newline, forall_mem_singleton]
      exact ⟨fun h _ => h, fun h => h (cons_ne_nil _ _)⟩
    have hgo : chunkEnddataByte c ws = .ok ({ ws with line := ws.line.set ws.ndx c, ndx := ws.ndx + 1 }, false) := by
      simp only [chunkEnddataByte, if_neg hnl]
    rw [Scanner.visited_cons_go hgo, forall_mem_cons, ih, firstLine_cons hnl, length_cons]
    by_cases hrest : rest = []
    · subst hrest
      have hnone : (firstLine []).length = 0 := rfl
      simp only [hnone, ne_eq, not_true_eq_false, false_implies, and_true, reduceCtorEq, not_false_eq_true,
        forall_const]
      omega
    simp only [ne_eq, hrest, not_false_eq_true, forall_const, reduceCtorEq]
    omega

theorem Ws.afterCr_iff (ws : Ws) (c : Char) :
    ws.afterCr = true ↔ ¬ (ws.ndx = 0 ∨ (ws.line.set ws.ndx c)[ws.ndx - 1]? ≠ some '\r') := by
  by_cases hzero : ws.ndx = 0
  · simp [Ws.afterCr, hzero]
  have hset : (ws.line.set ws.ndx c)[ws.ndx - 1]? = ws.line[ws.ndx - 1]? :=
    getElem?_set_ne (by omega)
  simp [Ws.afterCr, hzero, hset]

/-- What a newline does in a trailer: only a line that is not empty is passed over. -/
theorem chunkTrailerByte_newline (ws : Ws) :
    if ws.afterCr = true ∧ ws.ndx ≠ 1 then
      chunkTrailerByte '\n' ws = .ok ({ ws with line := ws.line.set ws.ndx '\n', ndx := 0 }, false)
    else ∀ ws', chunkTrailerByte '\n' ws ≠ .ok (ws', false) := by
  simp only [ws.afterCr_iff '\n', chunkTrailerByte, if_pos]
  split
  · next h => rw [if_neg h.1, if_pos h.2]
  next h =>
  intro ws' hact
  split at hact
  · cases hact
  split at hact
  · exact h ⟨‹_›, ‹_›⟩
  · cases hact

theorem visited_trailer (hline : ws.line.length = maxHttpLine) :
    (∀ ws' ∈ Scanner.visited chunkTrailerByte bytes ws, ws'.ndx < maxHttpLine) ↔
      TrailerFits ws.ndx ws.afterCr bytes := by
  induction bytes generalizing ws with
  | nil => simp [Scanner.visited, TrailerFits]
  | cons c rest ih =>
    rw [TrailerFits]
    by_cases hnl : c = '\n'
    · subst hnl
      have hbyte := chunkTrailerByte_newline ws
      by_cases hnext : ws.afterCr = true ∧ ws.ndx ≠ 1
      · rw [if_pos hnext] at hbyte
        rw [Scanner.visited_cons_go hbyte, forall_mem_cons, ih (by simpa using hline)]
        exact and_congr_right fun _ => ⟨fun h _ => h, fun h => h hnext⟩
      rw [if_neg hnext] at hbyte
      rw [Scanner.visited_cons_stop hbyte]
      simp [hnext]
    · have hgo : chunkTrailerByte c ws = .ok ({ ws with line := ws.line.set ws.ndx c, ndx := ws.ndx + 1 }, false) := by
        simp only [chunkTrailerByte, if_neg hnl]
      rw [Scanner.visited_cons_go hgo, forall_mem_cons, if_neg hnl]
      refine and_congr_right fun hlt => ?_
      rw [ih (by simpa using hline)]
      have hcr : Ws.afterCr { ws with line := ws.line.set ws.ndx c, ndx := ws.ndx + 1 } = (c == '\r') := by
        rw [← hline] at hlt
        simp [Ws.afterCr, hlt, Bool.beq_eq_decide_eq]
      rw [hcr]

/-! ## Parsers with a bound -/

/-- The states in which the next parser that writes needs an index inside of the line buffer. -/
def WsState.lined : WsState → Bool
  | .connect | .prepareRequest | .sendRequest | .sendRequestBody | .statusline | .headers | .chunkedHeader => true
  | _ => false

def Ws.Lined (ws : Ws) : Prop := ws.state.lined = true → ws.ndx < maxHttpLine

theorem lined_of_zero (h : ws.ndx = 0) : ws.Lined := fun _ => by
  rw [h]
  exact Nat.succ_pos _

/-- The parsers of these states do not let the index leave the line buffer, and a byte that ends
the work of a parser sets it back. -/
theorem Took.lined {line : List Char} {done : Bool} (htook : Took ws line ws' done) (h : ws.Lined) : ws'.Lined := by
  cases htook with
  | line hndx =>
    rcases hndx with ⟨rfl, -⟩ | ⟨rfl, hroom⟩
    · exact lined_of_zero rfl
    intro hlined
    have hlt := h hlined
    rcases hroom with hroom | hstate
    · dsimp only
      omega
    · dsimp only at hlined
      cases hws : ws.state <;> simp_all [WsState.lined]
  | plain | trailer => exact nofun
  | _ => exact lined_of_zero rfl

theorem inBounds_of_lined (hact : byteOf ws.state = some act) (hlined : ws.state.lined = true) (h : ws.Lined) :
    InBounds ws := by
  rw [InBounds, hact]
  intro s hs
  have hkeeps := Scanner.visited_all (P := fun s => s.state = ws.state ∧ s.Lined) ?_ ⟨rfl, h⟩ s hs
  · exact hkeeps.2 (hkeeps.1 ▸ hlined)
  rintro c s s' ⟨hstate, hs⟩ hbyte
  obtain ⟨line, -, htook⟩ := took_of_byte (hstate ▸ hact) hbyte
  exact ⟨htook.stays.trans hstate, htook.lined hs⟩

/-- Which parsers need a condition: they write in bounds if the bytes they get fit. -/
theorem inBounds_iff (hlined : ws.Lined) (hline : ws.line.length = maxHttpLine) : InBounds ws ↔ TailFits ws := by
  cases hstate : ws.state with
  | chunkedEnddata =>
    simpa [InBounds, TailFits, hstate, byteOf] using visited_enddata ws.unread ws
  | chunkedTrailer =>
    simpa [InBounds, TailFits, hstate, byteOf] using visited_trailer ws.unread hline
  | statusline | headers | chunkedHeader =>
    obtain ⟨act, hact⟩ : ∃ act, byteOf ws.state = some act := ⟨_, by rw [hstate, byteOf]⟩
    have hstays : ws.state.lined = true := by rw [hstate, WsState.lined]
    have hin := inBounds_of_lined hact hstays hlined
    simp [hin, TailFits, hstate]
  | _ => simp [InBounds, TailFits, hstate, byteOf]

/-! ## From parser to parser -/

/-- A state between two parsers: the line buffer has its size, and the index fits the parser that is
next. -/
structure Ws.Steady (ws : Ws) : Prop where
  line : ws.line.length = maxHttpLine
  lined : ws.Lined

theorem byte_steady {line : List Char} {done : Bool} (hline : line.length = ws.line.length)
    (htook : Took ws line ws' done) (h : ws.Steady) : ws'.Steady :=
  ⟨by rw [htook.line_eq, hline, h.line], htook.lined h.lined⟩

theorem Ws.Steady.unread (ws : Ws) (rest : List Char) (h : ws.Steady) : Ws.Steady { ws with unread := rest } :=
  ⟨h.line, h.lined⟩

/-- The parsers of a pass write in bounds exactly if those without a bound get lines that fit. -/
theorem atStages_iff {list : List (WsState × (List Char → Ws → Except Errno Ws))} (hlist : list ⊆ stages)
    (hsteady : ws.Steady) : AtStages InBounds list ws ↔ AtStages TailFits list ws := by
  induction list generalizing ws with
  | nil => exact Iff.rfl
  | cons stage rest ih =>
    obtain ⟨state, parse⟩ := stage
    have hmem := cons_subset.mp hlist
    refine and_congr (imp_congr_right fun _ => inBounds_iff hsteady.lined hsteady.line) ?_
    split
    · exact Iff.rfl
    · exact ih hmem.2 (stage_keeps byte_steady Ws.Steady.unread hmem.1 hsteady ‹_›)

/-! ## Runs -/

section

variable {ctx : Ctx} {c : Client} {l : Answers} {ws : Ws}

theorem Ws.Steady.of_state {ws' : Ws} (h : ws.Steady) (hline : ws'.line = ws.line)
    (hstate : ws'.state.lined = true → ws'.ndx = ws.ndx ∧ ws.state.lined = true) : ws'.Steady := by
  refine ⟨by rw [hline, h.line], fun hlined => ?_⟩
  obtain ⟨hndx, hlined'⟩ := hstate hlined
  rw [hndx]
  exact h.lined hlined'

theorem disposePass_steady {ws' : Ws} {sunk sunk' : List Char} (h : ws.Steady)
    (hdispose : disposePass ctx ws sunk = .ok (ws', sunk')) : ws'.Steady := by
  refine h.of_state (disposePass_line hdispose) fun hlined => ?_
  rcases disposePass_cases hdispose with rfl | ⟨hdata, rfl⟩ | ⟨-, rfl⟩
  · exact ⟨rfl, hlined⟩
  · -- body data leaves the client in a state without a line, or at the end of a chunk
    simp only [consume] at hlined
    rcases hdata with hdata | hdata
    · simp [hdata, WsState.lined] at hlined
    · split_ifs at hlined <;> simp_all [WsState.lined]
  · cases hlined

theorem parseTurn_steady (h : c.ws.Steady) : (parseTurn ctx c).ws.Steady := by
  unfold parseTurn
  split
  · exact h
  rename_i ws hpass
  have hsteady := parsePass_keeps byte_steady Ws.Steady.unread h hpass
  split
  · exact hsteady
  · exact disposePass_steady hsteady ‹_›

theorem receiveTurn_steady (h : c.ws.Steady) : (receiveTurn ctx l c).ws.Steady :=
  receiveTurn_rule (P := fun c => c.ws.Steady) (fun _ _ => h) (h.of_state rfl nofun)
    fun _ _ => parseTurn_steady (h.of_state rfl fun hlined => ⟨rfl, hlined⟩)

theorem step_steady (h : c.ws.Steady) : (step ctx c l).ws.Steady := by
  have hstep := stepTo_step ctx l c
  generalize step ctx c l = c' at hstep ⊢
  cases hstep with
  | idle => exact h
  | turn => exact receiveTurn_steady h
  | outer _ _ hblock =>
    cases hblock with
    | failed => exact h
    -- a new connection starts with an empty line
    | opened => exact ⟨h.line, lined_of_zero rfl⟩
    | connected hstate | prepared hstate => exact h.of_state rfl fun _ => ⟨rfl, by simp [hstate, WsState.lined]⟩
    | sent hstate =>
      rcases hstate with hstate | hstate
      all_goals exact h.of_state rfl fun _ => ⟨rfl, by simp [hstate, WsState.lined]⟩
    | closed hstate => rcases hstate with rfl | rfl <;> exact h.of_state rfl nofun

theorem begin_steady {alloc : Ret} (h : begin ctx alloc = .ok c) : c.ws.Steady := by
  unfold begin at h
  repeat' split at h
  all_goals cases h
  exact ⟨length_replicate, nofun⟩

theorem Client.turn_steady (h : c.ws.Steady) (hturn : c.turn ctx l = some ws) : ws.Steady := by
  unfold Client.turn Client.received at hturn
  repeat' split at hturn
  all_goals cases hturn
  · exact h
  · exact h.of_state rfl fun hlined => ⟨rfl, hlined⟩

theorem inTurn_iff (h : c.ws.Steady) : InTurn ctx InBounds c l ↔ InTurn ctx TailFits c l := by
  unfold InTurn
  split
  · exact Iff.rfl
  · exact atStages_iff (List.Subset.refl _) (Client.turn_steady h ‹_›)

/-- However the bytes of the server arrive, the index into the line buffer stays in bounds exactly
if the lines behind the data of each chunk and in the trailer fit into the buffer. -/
theorem lineIndex_inBounds_iff {alloc : Ret} (hbegin : begin ctx alloc = .ok c) (ls : List Answers) :
    Meets (step ctx) (InTurn ctx InBounds) c ls ↔ Meets (step ctx) (InTurn ctx TailFits) c ls :=
  ⟨meets_induct (fun _ _ hsteady hin => ⟨step_steady hsteady, (inTurn_iff hsteady).mp hin⟩) (begin_steady hbegin),
    meets_induct (fun _ _ hsteady hfits => ⟨step_steady hsteady, (inTurn_iff hsteady).mpr hfits⟩) (begin_steady hbegin)⟩

end

/-! ### Two trailers -/

/-- The server has sent the head of a chunked response, the last chunk and the start of a
trailer. -/
def trailerAnswers (trailer : List Char) : List Answers :=
  sampleAnswers ++ [⟨.ok (), .ok (), .ok 0, .ok (sampleHead ++ "0\r\n".toList ++ trailer)⟩]

theorem lineIndex_inBounds_shortTrailer :
    Meets (step sampleCtx) (InTurn sampleCtx InBounds) sampleStart (trailerAnswers "X: y\r\n\r\n".toList) :=
  (lineIndex_inBounds_iff sampleStart_begin _).mpr (by decide)

/-- A field of 201 bytes is written past the end of the line buffer. -/
theorem not_inBounds_longTrailer :
    ¬ Meets (step sampleCtx) (InTurn sampleCtx InBounds) sampleStart (trailerAnswers (replicate 201 'x')) := by
  decide +kernel

end Netutils.Webclient
