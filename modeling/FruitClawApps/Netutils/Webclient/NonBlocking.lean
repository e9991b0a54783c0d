-- SUMMARY: Non-blocking requests end as blocking ones do, unless recv would block in a trailer.
import FruitClawApps.Netutils.Webclient.LineBounds

/-!
# Non-blocking requests

With `WEBCLIENT_FLAG_NON_BLOCKING` a `recv` that would block makes `webclient_perform` return
`-EAGAIN`, with everything but its position kept in the context. The next call enters the inner loop
for five states, but it may be left in eight.
-/

namespace Netutils.Webclient

open Transition List

/-! ## Returning and calling again -/

def eagain : Errno := .other 11

/-- The errors that `errout_with_errno` takes for a request in progress: `EAGAIN`, `EINPROGRESS` and
`EALREADY`. -/
def wouldBlock (e : Errno) : Bool := e = eagain ∨ e = .other 115 ∨ e = .other 114

variable (ctx : Ctx) (c : Client)

def Client.inProgress : Bool :=
  match c.result with
  | some (.error e) => wouldBlock e
  | _ => false

/-- `errout_with_errno` of a non-blocking request, and the call that resumes it: the state is
kept, and the next block is one of the outer loop. -/
def Client.again : Client := if c.inProgress then { c with inLoop := false, result := none } else c

/-- A step of a non-blocking request. -/
def nbStep (l : Answers) : Client := (step ctx c l).again

/-- A step whose `recv` would block. -/
def suspend : Client :=
  nbStep ctx c { socket := .ok (), connect := .ok (), sent := .ok 0, received := .error eagain }

/-- A step of a non-blocking request whose `recv`, if it calls it, would block a number of times
before. -/
def nbTurn (t : Nat × Answers) : Client :=
  nbStep ctx (if c.receives then (suspend ctx)^[t.1] c else c) t.2

/-- Whatever the system calls answer, the client gets to a `recv` or returns. -/
def Progresses : Prop :=
  ∀ answers : Nat → Answers, ∃ n,
    let c' := run (step ctx) c ((range n).map answers)
    c'.receives = true ∨ c'.result.isSome = true

/-- The result, the data in the sink and the status of the response. -/
def Client.outcome : Option Ret × List Char × Nat := (c.result, c.sunk, c.ws.statusCode)

/-- Every call after a would-block makes progress, and the request comes to what the blocking one
comes to with the same answers. -/
def AsBlocking (script : List (Nat × Answers)) : Prop :=
  Meets (nbTurn ctx) (fun c t => c.receives = true → ∀ k < t.1, Progresses ctx ((suspend ctx)^[k + 1] c)) c script ∧
    (run (nbTurn ctx) c script).outcome = (run (step ctx) c (script.map Prod.snd)).outcome

/-- The outer loop has a block for the state in which `recv` would block. -/
def Resumable (t : Nat × Answers) : Prop :=
  c.receives = true → 0 < t.1 → c.ws.state ∉ [WsState.chunkedEnddata, .chunkedTrailer, .waitClose]

instance Resumable.decidable (c : Client) (t : Nat × Answers) : Decidable (Resumable c t) :=
  inferInstanceAs (Decidable (_ → _ → ¬ _))

/-! ## Errors -/

/-- A call that does not fail as one that would block. -/
def Firm {α : Type} (x : Except Errno α) : Prop := ∀ e, x = .error e → wouldBlock e = false

theorem Firm.ok {α : Type} (a : α) : Firm (.ok a : Except Errno α) := nofun

theorem Firm.error {α : Type} {e : Errno} (h : wouldBlock e = false) : Firm (.error e : Except Errno α) := by
  intro e' he
  cases he
  exact h

theorem Firm.bind {α β : Type} {x : Except Errno α} {f : α → Except Errno β} (hx : Firm x) (hf : ∀ a, Firm (f a)) :
    Firm (x >>= f) := by
  cases x with
  | error e => exact fun e' he => hx e' (by cases he; rfl)
  | ok a => exact hf a

/-- The answers of a step other than a `recv` that would block. -/
structure Answers.Firm (l : Answers) : Prop where
  socket : Webclient.Firm l.socket
  connect : Webclient.Firm l.connect
  sent : Webclient.Firm l.sent
  received : Webclient.Firm l.received

theorem firm_wgetParseint (cp : CStr) (base : Nat) : Firm (wgetParseint cp base) := by
  unfold wgetParseint
  repeat' split
  all_goals first | exact .ok _ | exact .error rfl

theorem firm_netlibParseurl (sl hl pl port : Nat) (str : CStr) : Firm (netlibParseurl sl hl pl port str) := by
  simp only [netlibParseurl]
  repeat' split
  all_goals first | exact .ok _ | exact .error rfl

theorem firm_parseurl (url : CStr) (requirePort : Bool) : Firm (parseurl url requirePort) := by
  unfold parseurl
  split
  · exact .error (firm_netlibParseurl _ _ _ _ _ _ ‹_›)
  · repeat' split
    all_goals first | exact .ok _ | exact .error rfl

theorem firm_statusByte (c : Char) (ws : Ws) : Firm (statusByte c ws) := by
  have hline (text : CStr) : Firm (statusLine text) := by
    unfold statusLine
    repeat' split
    all_goals first | exact .ok _ | exact .error rfl
  unfold statusByte
  dsimp only
  repeat' split
  · exact .error (hline _ _ ‹_›)
  all_goals first | exact .ok _ | exact .error rfl

theorem firm_headerField (gotNl : Bool) (line : CStr) (ws : Ws) : Firm (headerField gotNl line ws) := by
  unfold headerField
  repeat' split
  · exact .error (firm_parseurl _ _ _ ‹_›)
  · exact .ok _
  · exact .error (firm_wgetParseint _ _ _ ‹_›)
  all_goals first | exact .ok _ | exact .error rfl

theorem firm_headerByte (c : Char) (ws : Ws) : Firm (headerByte c ws) := by
  have hline (gotNl : Bool) (ws : Ws) : Firm (headerLine gotNl ws) := by
    unfold headerLine
    dsimp only
    repeat' split
    all_goals first | exact .ok _ | exact .error rfl | exact .error (firm_headerField _ _ _ _ ‹_›)
  simp only [headerByte]
  repeat' split
  all_goals first | exact .ok _ | exact hline _ _

theorem firm_chunkHeaderByte (c : Char) (ws : Ws) : Firm (chunkHeaderByte c ws) := by
  have hsize (gotNl : Bool) (ws : Ws) : Firm (chunkSizeLine gotNl ws) := by
    unfold chunkSizeLine
    dsimp only
    repeat' split
    all_goals first | exact .ok _ | exact .error rfl
  have hline (gotNl : Bool) (ws : Ws) : Firm (chunkHeaderLine gotNl ws) := by
    unfold chunkHeaderLine
    repeat' split
    · exact .error (hsize _ _ _ ‹_›)
    · exact .error rfl
    · exact .error (firm_wgetParseint _ _ _ ‹_›)
    all_goals exact .ok _
  simp only [chunkHeaderByte]
  repeat' split
  · exact .error (hline _ _ _ ‹_›)
  all_goals exact .ok _

theorem firm_chunkEnddataByte (c : Char) (ws : Ws) : Firm (chunkEnddataByte c ws) := by
  simp only [chunkEnddataByte]
  repeat' split
  all_goals first | exact .ok _ | exact .error rfl

theorem firm_chunkTrailerByte (c : Char) (ws : Ws) : Firm (chunkTrailerByte c ws) := by
  simp only [chunkTrailerByte]
  repeat' split
  all_goals first | exact .ok _ | exact .error rfl

variable {state : WsState} {parse : List Char → Ws → Except Errno Ws} {act : Char → Ws → Except Errno (Ws × Bool)}

theorem firm_inState (hscans : Scans parse act) (hact : ∀ c ws, Firm (act c ws)) (ws : Ws) :
    Firm (inState state parse ws) := by
  unfold inState
  split
  · rw [hscans]
    intro e he
    cases hrun : Scanner.run act ws.unread ws with
    | error e' =>
      rw [hrun] at he
      cases he
      obtain ⟨c, ws', herr⟩ := Scanner.run_error hrun
      exact hact c ws' _ herr
    | ok r =>
      rw [hrun] at he
      cases he
  · exact .ok _

theorem firm_parsePass (ws : Ws) : Firm (parsePass ws) := by
  refine .bind (firm_inState scans_status firm_statusByte _) fun _ => ?_
  refine .bind (firm_inState scans_headers firm_headerByte _) fun _ => ?_
  refine .bind (firm_inState scans_chunkheader firm_chunkHeaderByte _) fun _ => ?_
  refine .bind (firm_inState scans_chunkenddata firm_chunkEnddataByte _) fun _ => ?_
  refine .bind (firm_inState scans_chunktrailer firm_chunkTrailerByte _) fun _ => ?_
  split
  · exact .error rfl
  · exact .ok _

section

variable {ctx : Ctx} {c : Client} {l : Answers}

theorem inProgress_of_none (h : c.result = none) : c.inProgress = false := by
  rw [Client.inProgress, h]

theorem inProgress_fail {e : Errno} (h : wouldBlock e = false) : (c.fail e).inProgress = false := h

theorem Client.again_of_firm (h : c.inProgress = false) : c.again = c := by
  rw [again, if_neg (by rw [h]; exact Bool.false_ne_true)]

theorem Client.inProgress_again (c : Client) : c.again.inProgress = false := by
  unfold again
  split
  · rfl
  · exact Bool.eq_false_of_not_eq_true ‹_›

section

variable (hsink : ∀ sunk data, Firm (ctx.sink sunk data))
include hsink

theorem firm_disposePass (ws : Ws) (sunk : List Char) :
    Firm (disposePass ctx ws sunk) := by
  have hdeliver : Firm (deliver ctx ws sunk) := by
    unfold deliver
    dsimp only
    split
    · rename_i e he
      split at he
      · cases he
      · exact .error (hsink _ _ _ he)
    · exact .ok _
  have hfollow : Firm (followRedirect ws) := by
    unfold followRedirect
    split_ifs <;> first | exact .ok _ | exact .error rfl
  unfold disposePass
  split_ifs
  · exact hdeliver
  · split
    · exact .error (hfollow _ ‹_›)
    · exact .ok _
  · exact .ok _

theorem parseTurn_firm (hrunning : c.result = none) :
    (parseTurn ctx c).inProgress = false := by
  unfold parseTurn
  split
  · exact inProgress_fail (firm_parsePass _ _ ‹_›)
  split
  · exact inProgress_fail (firm_disposePass hsink _ _ _ ‹_›)
  · exact inProgress_of_none hrunning

theorem receiveTurn_firm (hl : l.Firm) (hrunning : c.result = none) :
    (receiveTurn ctx l c).inProgress = false := by
  refine receiveTurn_rule (P := fun c => c.inProgress = false) (fun e he => inProgress_fail ?_)
    (inProgress_of_none hrunning) fun _ _ => parseTurn_firm hsink hrunning
  rcases he with he | rfl | rfl
  · exact hl.received _ he
  · rfl
  · rfl

/-- Only a system call that would block suspends the request. -/
theorem step_firm (hl : l.Firm) (hc : c.inProgress = false) :
    (step ctx c l).inProgress = false := by
  have hstep := stepTo_step ctx l c
  generalize step ctx c l = c' at hstep ⊢
  cases hstep with
  | idle => exact hc
  | turn hrunning => exact receiveTurn_firm hsink hl hrunning
  | outer hrunning _ hblock =>
    cases hblock with
    | failed he =>
      refine inProgress_fail ?_
      rcases he with rfl | rfl | he | he
      · rfl
      · rfl
      · exact hl.connect _ he
      · exact hl.sent _ he
    | opened _ hresult =>
      rcases hresult with rfl | ⟨e, rfl, he⟩
      · rfl
      · exact hl.socket _ he
    | closed _ hresult => rcases hresult with rfl | rfl <;> rfl
    | _ => exact inProgress_of_none hrunning

end

end

/-! ## The states of the inner loop -/

/-- The states in which the inner loop may be. -/
def WsState.receiving : WsState → Bool
  | .statusline | .headers | .data | .chunkedHeader | .chunkedData => true
  | .chunkedEnddata | .chunkedTrailer | .waitClose => true
  | _ => false

def Client.Looping (c : Client) : Prop := c.inLoop = true → c.ws.state.receiving = true

theorem parsePass_receiving {ws ws' : Ws} (hws : ws.state.receiving = true) (h : parsePass ws = .ok ws') :
    ws'.state.receiving = true := by
  refine parsePass_keeps (P := fun ws => ws.state.receiving = true) ?_ (fun _ _ hs => hs) hws h
  intro s line s' done _ htook hs
  cases htook with
  | line | field => exact hs
  | enddata _ hnext =>
    rw [hnext]
    split <;> rfl
  | _ => rfl

theorem disposePass_receiving {ctx : Ctx} {ws ws' : Ws} {sunk sunk' : List Char} (hws : ws.state.receiving = true)
    (h : disposePass ctx ws sunk = .ok (ws', sunk')) : ws'.state.receiving = true ∨ ws'.state = .close := by
  rcases disposePass_cases h with rfl | ⟨-, rfl⟩ | ⟨-, rfl⟩
  · exact .inl hws
  · simp only [consume]
    split_ifs
    · exact .inl rfl
    all_goals exact .inl hws
  · exact .inr rfl

section

variable {ctx : Ctx} {c : Client} {l : Answers}

theorem parseTurn_looping (hws : c.ws.state.receiving = true) : (parseTurn ctx c).Looping := by
  unfold parseTurn
  split
  · exact fun _ => hws
  rename_i ws hpass
  have hws₁ := parsePass_receiving hws hpass
  split
  · exact fun _ => hws₁
  rename_i ws' sunk hdispose
  intro hloop
  rcases disposePass_receiving hws₁ hdispose with hws' | hclose
  · exact hws'
  · simp [hclose] at hloop

theorem receiveTurn_looping (hws : c.ws.state.receiving = true) : (receiveTurn ctx l c).Looping :=
  receiveTurn_rule (fun _ _ _ => hws) (fun hloop => absurd hloop Bool.false_ne_true) fun _ _ => parseTurn_looping hws

theorem OuterBlock.inLoop {c' : Client} (h : OuterBlock ctx l c c') : c'.inLoop = c.inLoop := by
  cases h <;> rfl

theorem step_looping (h : c.Looping) : (step ctx c l).Looping := by
  have hstep := stepTo_step ctx l c
  generalize step ctx c l = c' at hstep ⊢
  cases hstep with
  | idle => exact h
  | turn _ hhere =>
    refine receiveTurn_looping ?_
    rcases hhere with hloop | hstate
    · exact h hloop
    · cases hws : c.ws.state <;> simp_all [WsState.receiving]
  -- the blocks of the outer loop do not enter the inner one
  | outer _ hloop hblock => exact fun hin => absurd (hin.symm.trans (hblock.inLoop.trans hloop)) Bool.noConfusion

theorem nbStep_looping (h : c.Looping) : (nbStep ctx c l).Looping := by
  unfold nbStep Client.again
  split
  · exact fun hloop => absurd hloop Bool.false_ne_true
  · exact step_looping h

theorem nbTurn_looping (h : c.Looping) (t : Nat × Answers) : (nbTurn ctx c t).Looping := by
  refine nbStep_looping ?_
  split
  · exact Function.Iterate.rec Client.Looping h (fun _ => nbStep_looping) t.1
  · exact h

/-! ## A suspended request -/

theorem Client.receives_iff :
    c.receives = true ↔ c.result = none ∧ c.ws.unread = [] ∧
      (c.inLoop = true ∨ c.ws.state ∈ [WsState.statusline, .headers, .data, .chunkedHeader, .chunkedData]) := by
  simp [receives, and_assoc]

/-- A step that calls `recv` is a turn of the inner loop. -/
theorem step_of_receives (h : c.receives = true) : step ctx c l = receiveTurn ctx l c := by
  obtain ⟨hrunning, -, hhere⟩ := Client.receives_iff.mp h
  unfold step
  rw [hrunning]
  rcases hhere with hloop | hstate
  · rw [hloop]
    rfl
  · simp only [mem_cons, not_mem_nil, or_false] at hstate
    rcases hstate with hstate | hstate | hstate | hstate | hstate <;> rw [hstate] <;> cases c.inLoop <;> rfl

theorem suspend_eq (h : c.receives = true) : suspend ctx c = { c with inLoop := false } := by
  obtain ⟨hrunning, hunread, -⟩ := Client.receives_iff.mp h
  rw [suspend, nbStep, step_of_receives h]
  simp [receiveTurn, hunread, Client.again, Client.inProgress, Client.fail, wouldBlock, hrunning]

/-- The outer loop turns for ever in a state for which it has no block. -/
theorem step_stuck (hrunning : c.result = none) (hloop : c.inLoop = false)
    (hstate : c.ws.state ∈ [WsState.chunkedEnddata, .chunkedTrailer, .waitClose]) : step ctx c l = c := by
  unfold step
  rw [hrunning, hloop]
  simp only [mem_cons, not_mem_nil, or_false] at hstate
  rcases hstate with hstate | hstate | hstate <;> rw [hstate] <;> rfl

theorem not_progresses (h : c.receives = true)
    (hstate : c.ws.state ∈ [WsState.chunkedEnddata, .chunkedTrailer, .waitClose]) :
    ¬ Progresses ctx (suspend ctx c) := by
  obtain ⟨hrunning, -, -⟩ := Client.receives_iff.mp h
  rw [suspend_eq h]
  intro hprogress
  obtain ⟨n, hn⟩ := hprogress fun _ => ⟨.ok (), .ok (), .ok 0, .ok []⟩
  have hstuck (ls : List Answers) : run (step ctx) { c with inLoop := false } ls = { c with inLoop := false } := by
    refine run_invariant (I := fun s => s = { c with inLoop := false }) ?_ rfl ls
    rintro _ l rfl
    exact step_stuck hrunning rfl hstate
  simp only [hstuck] at hn
  rcases hn with hreceives | hdone
  · obtain ⟨-, -, hhere | hhere⟩ := Client.receives_iff.mp hreceives
    · cases hhere
    · simp only [mem_cons, not_mem_nil, or_false] at hstate hhere
      rcases hstate with hstate | hstate | hstate <;> simp [hstate] at hhere
  · rw [hrunning] at hdone
    cases hdone

/-- In the other states of the inner loop the outer loop leads back to it. -/
theorem receives_suspended (h : c.receives = true) (hlooping : c.Looping)
    (hstate : c.ws.state ∉ [WsState.chunkedEnddata, .chunkedTrailer, .waitClose]) :
    ({ c with inLoop := false } : Client).receives = true := by
  obtain ⟨hrunning, hunread, hhere⟩ := Client.receives_iff.mp h
  refine Client.receives_iff.mpr ⟨hrunning, hunread, .inr ?_⟩
  rcases hhere with hloop | hhere
  · have hws := hlooping hloop
    revert hws hstate
    cases c.ws.state <;> decide
  · exact hhere

theorem suspend_iterate (h : c.receives = true) (hlooping : c.Looping)
    (hstate : c.ws.state ∉ [WsState.chunkedEnddata, .chunkedTrailer, .waitClose]) (k : Nat) :
    (suspend ctx)^[k + 1] c = { c with inLoop := false } := by
  induction k with
  | zero => exact suspend_eq h
  | succ k ih => rw [Function.iterate_succ_apply', ih, suspend_eq (receives_suspended h hlooping hstate)]

/-! ## Simulation -/

/-- The states of a non-blocking and a blocking request: the same, or both with the same end. -/
structure Alike (a b : Client) : Prop where
  looping : a.Looping
  firm : a.inProgress = false
  same : a = b ∨ (a.result.isSome = true ∧ b.result.isSome = true ∧ a.outcome = b.outcome)

theorem step_done (h : c.result.isSome = true) : step ctx c l = c := if_pos h

/-- Whether the inner loop is entered or goes on makes no difference to what a turn does. -/
theorem receiveTurn_enter (hunread : c.ws.unread = []) :
    receiveTurn ctx l { c with inLoop := false } = receiveTurn ctx l c ∨
      ((receiveTurn ctx l { c with inLoop := false }).result.isSome = true ∧
        (receiveTurn ctx l c).result.isSome = true ∧
        (receiveTurn ctx l { c with inLoop := false }).outcome = (receiveTurn ctx l c).outcome) := by
  simp only [receiveTurn, hunread, ne_eq, not_true_eq_false, if_false]
  cases l.received with
  | error e => exact .inr ⟨rfl, rfl, rfl⟩
  | ok bytes =>
    dsimp only
    split
    · unfold eofTurn
      split_ifs
      · exact .inr ⟨rfl, rfl, rfl⟩
      · exact .inr ⟨rfl, rfl, rfl⟩
      · exact .inl rfl
    · exact .inl rfl

theorem nbStep_eq (hsink : ∀ sunk data, Firm (ctx.sink sunk data)) (hl : l.Firm) (hc : c.inProgress = false) :
    nbStep ctx c l = step ctx c l :=
  Client.again_of_firm (step_firm hsink hl hc)

/-- A step keeps the two requests alike, however often `recv` would block before it. -/
theorem alike_step {a b : Client} {t : Nat × Answers} (hsink : ∀ sunk data, Firm (ctx.sink sunk data))
    (h : Alike a b) (ht : Resumable a t ∧ t.2.Firm) : Alike (nbTurn ctx a t) (step ctx b t.2) := by
  refine ⟨nbTurn_looping h.looping t, Client.inProgress_again _, ?_⟩
  obtain ⟨blocks, l⟩ := t
  rcases h.same with rfl | ⟨hdone, hdone', hsame⟩
  · by_cases hreceives : a.receives = true
    · cases blocks with
      | zero =>
        rw [nbTurn, if_pos hreceives]
        exact .inl (nbStep_eq hsink ht.2 h.firm)
      | succ k =>
        have hstate := ht.1 hreceives k.succ_pos
        obtain ⟨-, hunread, -⟩ := Client.receives_iff.mp hreceives
        rw [nbTurn, if_pos hreceives, suspend_iterate hreceives h.looping hstate,
          nbStep_eq (c := { a with inLoop := false }) hsink ht.2 h.firm,
          step_of_receives (receives_suspended hreceives h.looping hstate), step_of_receives hreceives]
        exact receiveTurn_enter hunread
    · rw [nbTurn, if_neg hreceives]
      exact .inl (nbStep_eq hsink ht.2 h.firm)
  · have hreceives : ¬ a.receives = true := by
      intro hreceives
      rw [(Client.receives_iff.mp hreceives).1] at hdone
      cases hdone
    rw [nbTurn, if_neg hreceives, nbStep_eq hsink ht.2 h.firm, step_done hdone, step_done hdone']
    exact .inr ⟨hdone, hdone', hsame⟩

theorem resumable_progresses {t : Nat × Answers} (hlooping : c.Looping) (h : Resumable c t)
    (hreceives : c.receives = true)
    (k : Nat) (hk : k < t.1) : Progresses ctx ((suspend ctx)^[k + 1] c) := by
  have hstate := h hreceives (Nat.zero_lt_of_lt hk)
  rw [suspend_iterate hreceives hlooping hstate]
  exact fun _ => ⟨0, .inl (receives_suspended hreceives hlooping hstate)⟩

theorem begin_alike {alloc : Ret} (h : begin ctx alloc = .ok c) : Alike c c := by
  unfold begin at h
  repeat' split at h
  all_goals cases h
  exact ⟨nofun, rfl, .inl rfl⟩

/-- A non-blocking request makes progress after every would-block of `recv` and ends as the
blocking one, exactly if `recv` would block only in states that the outer loop resumes. -/
theorem nonBlocking_iff {alloc : Ret} (hbegin : begin ctx alloc = .ok c)
    (hsink : ∀ sunk data, Firm (ctx.sink sunk data)) {script : List (Nat × Answers)} (hfirm : ∀ t ∈ script, t.2.Firm) :
    AsBlocking ctx c script ↔ Meets (nbTurn ctx) Resumable c script := by
  have halike := begin_alike hbegin
  constructor
  · rintro ⟨hprogress, -⟩
    refine meets_induct (I := fun _ => True) (fun c t _ hstep => ⟨trivial, ?_⟩) trivial hprogress
    intro hreceives hblocks hstate
    exact not_progresses hreceives hstate (hstep hreceives 0 hblocks)
  intro h
  refine ⟨?_, ?_⟩
  · exact meets_induct (fun c t hlooping hstep => ⟨nbTurn_looping hlooping t, resumable_progresses hlooping hstep⟩)
      halike.looping h
  have hend := run_related (fun _ _ _ => alike_step hsink) halike (h.and (.of_labels hfirm))
  rcases hend.same with hsame | ⟨-, -, hsame⟩
  · rw [hsame]
  · exact hsame

end

/-! ### Two responses that pause -/

def receivedAnswers (bytes : List Char) : Answers := ⟨.ok (), .ok (), .ok 0, .ok bytes⟩

/-- A response in two pieces with a `recv` between them that would block. The server then closes
the connection. -/
def pausedScript (first second : List Char) : List (Nat × Answers) :=
  (sampleAnswers ++ [receivedAnswers first]).map (0, ·) ++
    [(1, receivedAnswers second), (0, receivedAnswers []), (0, receivedAnswers [])]

theorem firm_pausedScript (first second : List Char) : ∀ t ∈ pausedScript first second, t.2.Firm := by
  simp only [pausedScript, sampleAnswers, receivedAnswers, mem_append, mem_map, mem_replicate,
    mem_cons, not_mem_nil, or_false]
  rintro t (⟨l, ⟨-, rfl⟩ | rfl, rfl⟩ | rfl | rfl | rfl)
  all_goals exact ⟨.ok _, .ok _, .ok _, .ok _⟩

theorem nonBlocking_pausedHeader : AsBlocking sampleCtx sampleStart (pausedScript sampleHead "0\r\n\r\n".toList) :=
  (nonBlocking_iff sampleStart_begin (fun _ _ => .ok _) (firm_pausedScript _ _)).mpr (by decide)

/-- A `recv` that would block behind the last chunk is never called again. -/
theorem not_asBlocking_pausedTrailer :
    let script := pausedScript (sampleHead ++ "0\r\n".toList) "\r\n".toList
    (run (step sampleCtx) sampleStart (script.map Prod.snd)).result = some (.ok ()) ∧
      (run (nbTurn sampleCtx) sampleStart script).result = none ∧
      ¬ AsBlocking sampleCtx sampleStart script := by
  refine ⟨by decide, by decide, fun h => ?_⟩
  have hdiffer : (run (nbTurn sampleCtx) sampleStart
    (pausedScript (sampleHead ++ "0\r\n".toList) "\r\n".toList)).outcome ≠
      (run (step sampleCtx) sampleStart
        ((pausedScript (sampleHead ++ "0\r\n".toList) "\r\n".toList).map Prod.snd)).outcome := by
    decide
  exact hdiffer h.2

end Netutils.Webclient
