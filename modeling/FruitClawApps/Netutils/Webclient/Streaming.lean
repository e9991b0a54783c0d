-- SUMMARY: The HTTP client takes a chunked response as the byte machine does.
import FruitClawApps.Netutils.Webclient.Bytewise

/-!
# Receiving a chunked response

A turn of the inner loop tries the parsers in a fixed order and hands data to the sink, which does
what the byte machine does. The end of the stream closes the request. The sink may refuse data, and
then the request fails.
-/

namespace Netutils.Webclient

open Transition List

/-! ## A pass of the parsers -/

section

variable {ws : Ws} {sunk future : List Char} {final : Ws × List Char} {act : Char → Ws → Except Errno (Ws × Bool)}
  {parse : List Char → Ws → Except Errno Ws}

/-- What a part of a turn keeps: the machine ends as before, and no byte comes back. -/
structure Resumed (ws : Ws) (sunk future : List Char) (final : Ws × List Char) (ws' : Ws) : Prop where
  onward : ws'.onward = true
  ends : pending ws' sunk future = some final
  shrinks : ws'.unread.length ≤ ws.unread.length

theorem Resumed.trans {ws' ws'' : Ws} (h : Resumed ws sunk future final ws')
    (h' : Resumed ws' sunk future final ws'') : Resumed ws sunk future final ws'' :=
  ⟨h'.onward, h'.ends, h'.shrinks.trans h.shrinks⟩

/-- A parser in its state takes bytes as the machine does, at least one if there is one. -/
theorem parse_resumed (hscans : Scans parse act) (hact : byteOf ws.state = some act)
    (h : pending ws sunk future = some final) : ∃ ws', parse ws.unread ws = .ok ws' ∧ Resumed ws sunk future final ws' ∧
      ws'.unread.length ≤ ws.unread.length - 1 := by
  rw [pending_run hact] at h
  rw [hscans]
  cases hrun : Scanner.run act ws.unread ws with
  | error e =>
    rw [hrun] at h
    cases h
  | ok r =>
    obtain ⟨ws', done, rest⟩ := r
    rw [hrun] at h
    dsimp only at h
    have hlen := Scanner.run_length hrun
    split at h
    · rename_i hon
      exact ⟨_, rfl, ⟨hon, h, hlen.trans (Nat.sub_le _ _)⟩, hlen⟩
    · cases h

theorem inState_resumed {state : WsState} (hscans : Scans parse act) (hact : byteOf state = some act)
    (hon : ws.onward = true) (h : pending ws sunk future = some final) :
    ∃ ws', inState state parse ws = .ok ws' ∧ Resumed ws sunk future final ws' ∧
      (ws.state = state → ws'.unread.length ≤ ws.unread.length - 1) ∧ (ws.state ≠ state → ws' = ws) := by
  unfold inState
  split
  · rename_i hstate
    obtain ⟨ws', hparse, hresumed, hlen⟩ := parse_resumed hscans (hstate ▸ hact) h
    exact ⟨ws', hparse, hresumed, fun _ => hlen, fun hne => absurd hstate hne⟩
  · rename_i hstate
    exact ⟨ws, rfl, ⟨hon, h, Nat.le_refl _⟩, fun heq => absurd heq hstate, fun _ => rfl⟩

theorem pending_state (h : pending ws sunk future = some final) (hne : ws.unread ++ future ≠ []) :
    (byteOf ws.state).isSome = true ∨ ws.state = .chunkedData := by
  obtain ⟨c, bytes, hbytes⟩ := exists_cons_of_ne_nil hne
  rw [pending, hbytes, reads_cons, feed] at h
  cases hact : byteOf ws.state with
  | some act => exact .inl rfl
  | none =>
    rw [hact] at h
    dsimp only at h
    split at h
    · exact .inr ‹_›
    · cases h

theorem pending_idle (h : pending ws sunk future = some final) (hne : ws.unread ++ future ≠ []) {state : WsState}
    (hstate : ws.state = state) (hidle : byteOf state = none) : state = .chunkedData := by
  subst hstate
  rcases pending_state h hne with hparser | hchunk
  · rw [hidle] at hparser
    cases hparser
  · exact hchunk

/-- What the parsers of the given states have done since the state `ws₀`. -/
def Passed (ws₀ : Ws) (sunk future : List Char) (final : Ws × List Char) (states : List WsState) (ws : Ws) :
    Prop :=
  Resumed ws₀ sunk future final ws ∧
    (ws.unread.length < ws₀.unread.length ∨ (ws = ws₀ ∧ ws₀.state ∉ states))

theorem Passed.next {ws₀ : Ws} {states : List WsState} (h : Passed ws₀ sunk future final states ws)
    (hne : ws₀.unread ≠ []) (state : WsState) (hscans : Scans parse act) (hact : byteOf state = some act) :
    ∃ ws', inState state parse ws = .ok ws' ∧ Passed ws₀ sunk future final (state :: states) ws' := by
  obtain ⟨hresumed, hprogress⟩ := h
  obtain ⟨ws', hpass, hresumed', htakes, hsame⟩ := inState_resumed hscans hact hresumed.onward hresumed.ends
  refine ⟨ws', hpass, hresumed.trans hresumed', ?_⟩
  have hshrinks := hresumed'.shrinks
  rcases hprogress with hless | ⟨rfl, hnot⟩
  · exact .inl (by omega)
  have hpos := length_pos_iff.mpr hne
  by_cases hstate : ws.state = state
  · have := htakes hstate
    exact .inl (by omega)
  right
  refine ⟨hsame hstate, ?_⟩
  rw [mem_cons, not_or]
  exact ⟨hstate, hnot⟩

/-- A pass of the parsers over bytes that are there does what the machine does. Only inside a
chunk it leaves them all. -/
theorem parsePass_resumed (hon : ws.onward = true) (hne : ws.unread ≠ []) (h : pending ws sunk future = some final) :
    ∃ ws', parsePass ws = .ok ws' ∧ Resumed ws sunk future final ws' ∧
      (ws'.unread.length < ws.unread.length ∨ (ws' = ws ∧ ws.state = .chunkedData)) := by
  have hstart : Passed ws sunk future final [] ws := ⟨⟨hon, h, Nat.le_refl _⟩, .inr ⟨rfl, not_mem_nil⟩⟩
  obtain ⟨ws₁, hws₁, h₁⟩ := hstart.next hne .statusline scans_status rfl
  obtain ⟨ws₂, hws₂, h₂⟩ := h₁.next hne .headers scans_headers rfl
  obtain ⟨ws₃, hws₃, h₃⟩ := h₂.next hne .chunkedHeader scans_chunkheader rfl
  obtain ⟨ws₄, hws₄, h₄⟩ := h₃.next hne .chunkedEnddata scans_chunkenddata rfl
  obtain ⟨ws₅, hws₅, hresumed, hprogress⟩ := h₄.next hne .chunkedTrailer scans_chunktrailer rfl
  -- Bytes behind the end of the response would be an error of the machine too.
  have hclose : ¬ (ws₅.state = .waitClose ∧ ws₅.unread ≠ []) := by
    rintro ⟨hstate, hleft⟩
    cases pending_idle hresumed.ends (by simp [hleft]) hstate rfl
  refine ⟨ws₅, ?_, hresumed, ?_⟩
  · simp only [parsePass, hws₁, hws₂, hws₃, hws₄, hws₅, bind, Except.bind, if_neg hclose]
  rcases hprogress with hless | ⟨hsame, hnot⟩
  · exact .inl hless
  refine .inr ⟨hsame, ?_⟩
  rcases pending_state h (by simp [hne]) with hparser | hdata
  · cases hstate : ws.state <;> simp_all [byteOf]
  · exact hdata

/-! ## The data of a chunk -/

/-- The state of a client that has taken `n` more bytes of a chunk. -/
def Ws.took (ws : Ws) (n : Nat) : Ws :=
  { ws with
    receivedBodyLen := ws.receivedBodyLen + n
    unread := ws.unread.drop n
    chunkReceived := ws.chunkReceived + n }

theorem consume_lt {n : Nat} (hstate : ws.state = .chunkedData) (hlt : ws.chunkReceived + n < ws.chunkLen) :
    consume ws n = ws.took n := by
  have hmore : ¬ ws.chunkLen = ws.chunkReceived + n := by omega
  simp only [consume, Ws.took, hstate, if_true, if_neg hmore]

theorem consume_end {n : Nat} (hstate : ws.state = .chunkedData) (heq : ws.chunkReceived + n = ws.chunkLen) :
    consume ws n = { ws.took n with state := .chunkedEnddata, ndx := 0 } := by
  simp only [consume, Ws.took, hstate, if_true, if_pos heq.symm]

theorem consume_took {n k : Nat} (hstate : ws.state = .chunkedData) :
    consume (ws.took n) k = consume ws (n + k) := by
  simp only [consume, Ws.took, hstate, if_true, drop_drop, Nat.add_assoc]

/-- Data that belongs to the chunk goes to the sink as it is. -/
theorem reads_data {data : List Char} (hdata : data ≠ []) (hstate : ws.state = .chunkedData)
    (hunread : ws.unread = []) (hlen : ws.chunkReceived + data.length ≤ ws.chunkLen) :
    reads (ws, sunk) data = some (consume ws data.length, sunk ++ data) := by
  induction data generalizing ws sunk with
  | nil => exact absurd rfl hdata
  | cons c rest ih =>
    have hfeed : feed (ws, sunk) c = some (consume ws 1, sunk ++ [c]) := by
      simp [feed, byteOf, hstate, consume, hunread]
    rw [reads_cons, hfeed, Option.bind_some]
    cases rest with
    | nil => rfl
    | cons d rest =>
      rw [length_cons, length_cons] at hlen
      have hrest : reads (ws.took 1, sunk ++ [c]) (d :: rest) =
          some (consume (ws.took 1) (d :: rest).length, sunk ++ [c] ++ d :: rest) := by
        refine ih (cons_ne_nil d rest) hstate ?_ ?_
        · rw [Ws.took, hunread, drop_nil]
        · dsimp only [Ws.took, length_cons]
          omega
      rw [consume_lt hstate (by omega), hrest, consume_took hstate, append_assoc, Nat.add_comm 1]
      rfl

@[simp] theorem consume_unread (ws : Ws) (n : Nat) : (consume ws n).unread = ws.unread.drop n := by
  simp only [consume]
  split_ifs <;> rfl

@[simp] theorem consume_drained (ws : Ws) (n : Nat) : (consume ws n).drained = consume ws.drained n := by
  simp only [consume, Ws.drained]
  split_ifs <;> simp

theorem consume_onward {n : Nat} (hstate : ws.state = .chunkedData) (hmoved : ws.httpstatus ≠ .moved)
    (hlen : ws.chunkReceived + n ≤ ws.chunkLen) : (consume ws n).onward = true := by
  rcases Nat.lt_or_eq_of_le hlen with hlt | heq
  · rw [consume_lt hstate hlt]
    simp [Ws.onward, Ws.took, hstate, hmoved, hlt]
  · rw [consume_end hstate heq]
    simp [Ws.onward]

variable (ctx : Ctx)

/-- The sink refuses data that continues what it has got of the body. -/
def Refuses (body sunk : List Char) (e : Errno) : Prop :=
  ∃ data, data ≠ [] ∧ sunk ++ data <+: body ∧ ctx.sink sunk data = .error e

theorem feed_sunk {s s' : Ws × List Char} {c : Char} (h : feed s c = some s') : s.2 <+: s'.2 := by
  rw [feed] at h
  split at h
  · split at h
    · cases h
    split at h
    · cases h
      exact prefix_rfl
    · cases h
  · split at h
    · cases h
      exact prefix_append s.2 [c]
    · cases h

theorem reads_sunk {s s' : Ws × List Char} {bytes : List Char} (h : reads s bytes = some s') : s.2 <+: s'.2 := by
  induction bytes generalizing s with
  | nil =>
    cases h
    exact prefix_rfl
  | cons c bytes ih =>
    obtain ⟨s₁, hfeed, hrest⟩ := Option.bind_eq_some_iff.mp h
    exact (feed_sunk hfeed).trans (ih hrest)

/-- Data that is there goes to the sink up to the end of the chunk. -/
theorem deliver_resumed (hstate : ws.state = .chunkedData) (hon : ws.onward = true) (hne : ws.unread ≠ [])
    (h : pending ws sunk future = some final) :
    (∃ e, deliver ctx ws sunk = .error e ∧ Refuses ctx final.2 sunk e) ∨
      ∃ ws' sunk', deliver ctx ws sunk = .ok (ws', sunk') ∧ Resumed ws sunk' future final ws' ∧
        ws'.unread.length < ws.unread.length := by
  obtain ⟨hmoved, hleft⟩ := (Ws.onward_iff.mp hon).2 hstate
  have hpos := length_pos_iff.mpr hne
  obtain ⟨n, hn⟩ : ∃ n, bodyCount ws = n := ⟨_, rfl⟩
  have hmin : n = min ws.unread.length (ws.chunkLen - ws.chunkReceived) := hn.symm.trans (if_pos hstate)
  have hlen : (ws.unread.take n).length = n := by
    rw [length_take]
    omega
  have hdata : ws.unread.take n ≠ [] := by
    rw [← length_pos_iff, hlen]
    omega
  -- The machine takes the same data byte by byte.
  have hreads := @reads_data ws.drained sunk _ hdata hstate rfl (by rw [hlen]; dsimp only; omega)
  rw [pending, ← take_append_drop n ws.unread, append_assoc, reads_append, hreads, hlen,
    Option.bind_some] at h
  cases hsink : ctx.sink sunk (ws.unread.take n) with
  | error e =>
    refine .inl ⟨e, ?_, ws.unread.take n, hdata, reads_sunk h, hsink⟩
    simp only [deliver, hn, if_neg hdata, hsink]
  | ok u =>
    have hfewer : (consume ws n).unread.length < ws.unread.length := by
      rw [consume_unread, length_drop]
      omega
    refine .inr ⟨consume ws n, sunk ++ ws.unread.take n, ?_, ⟨?_, ?_, Nat.le_of_lt hfewer⟩, hfewer⟩
    · simp only [deliver, hn, if_neg hdata, hsink]
    · exact consume_onward hstate hmoved (by omega)
    · rw [pending, consume_drained, consume_unread]
      exact h

theorem deliver_nothing (hstate : ws.state = .chunkedData) (hon : ws.onward = true)
    (hnone : ws.unread = []) : deliver ctx ws sunk = .ok (ws, sunk) := by
  have hcount : bodyCount ws = 0 := by simp [bodyCount, hnone]
  have hsame : consume ws 0 = ws := consume_lt hstate ((Ws.onward_iff.mp hon).2 hstate).2
  simp [deliver, hcount, hsame]

theorem disposePass_resumed (hon : ws.onward = true) (h : pending ws sunk future = some final) :
    (∃ e, disposePass ctx ws sunk = .error e ∧ Refuses ctx final.2 sunk e) ∨
      ∃ ws' sunk', disposePass ctx ws sunk = .ok (ws', sunk') ∧ Resumed ws sunk' future final ws' ∧
        (ws.state = .chunkedData → ws.unread ≠ [] → ws'.unread.length < ws.unread.length) := by
  have hchunked := Ws.onward_iff.mp hon
  have hsame : Resumed ws sunk future final ws := ⟨hon, h, Nat.le_refl _⟩
  by_cases hstate : ws.state = .chunkedData
  · have hdispose : disposePass ctx ws sunk = deliver ctx ws sunk := by
      rw [disposePass, if_pos (.inr hstate), if_pos (hchunked.2 hstate).1]
    rw [hdispose]
    by_cases hne : ws.unread = []
    · exact .inr ⟨ws, sunk, deliver_nothing ctx hstate hon hne, hsame, fun _ hsome => absurd hne hsome⟩
    rcases deliver_resumed ctx hstate hon hne h with hrefused | ⟨ws', sunk', hdeliver, hresumed, hfewer⟩
    · exact .inl hrefused
    · exact .inr ⟨ws', sunk', hdeliver, hresumed, fun _ _ => hfewer⟩
  · refine .inr ⟨ws, sunk, ?_, hsame, fun hdata => absurd hdata hstate⟩
    rw [disposePass, if_neg (not_or.mpr ⟨hchunked.1, hstate⟩)]

/-! ## A turn -/

theorem pending_open (hfinal : final.1.state = .waitClose) (h : pending ws sunk future = some final) :
    ws.state ≠ .close := by
  intro hclose
  by_cases hnone : ws.unread ++ future = []
  · rw [pending, hnone, reads_nil] at h
    cases h
    rw [hclose] at hfinal
    cases hfinal
  · cases pending_idle h hnone hclose rfl

/-- The request has failed because the sink has refused data of the body. -/
def Client.Refused (body : List Char) (c : Client) : Prop :=
  ∃ e, c.result = some (.error e) ∧ Refuses ctx body c.sunk e

/-- A turn over bytes that are there takes at least one of them, as the machine does. -/
theorem parseTurn_resumed {c : Client} (hon : c.ws.onward = true) (hne : c.ws.unread ≠ [])
    (hfinal : final.1.state = .waitClose) (h : pending c.ws c.sunk future = some final) :
    (parseTurn ctx c).Refused ctx final.2 ∨
      ∃ ws' sunk', parseTurn ctx c = { c with ws := ws', sunk := sunk', inLoop := true } ∧
        Resumed c.ws sunk' future final ws' ∧ ws'.unread.length < c.ws.unread.length := by
  obtain ⟨ws₁, hpass, hresumed, hprogress⟩ := parsePass_resumed hon hne h
  rcases disposePass_resumed ctx hresumed.onward hresumed.ends with
    ⟨e, hdispose, hrefuses⟩ | ⟨ws', sunk', hdispose, hresumed', hfewer⟩
  · refine .inl ⟨e, ?_, ?_⟩
    · simp only [parseTurn, hpass, hdispose, Client.fail]
    · simpa only [parseTurn, hpass, hdispose, Client.fail] using hrefuses
  have hopen : decide (ws'.state ≠ .close) = true := decide_eq_true (pending_open hfinal hresumed'.ends)
  refine .inr ⟨ws', sunk', ?_, ⟨hresumed'.onward, hresumed'.ends, hresumed'.shrinks.trans hresumed.shrinks⟩, ?_⟩
  · simp only [parseTurn, hpass, hdispose, hopen]
  have hle := hresumed'.shrinks
  rcases hprogress with hless | ⟨rfl, hdata⟩
  · omega
  · exact hfewer hdata hne

end

/-! ## Whole responses -/

/-- The next step of the client calls `recv`. -/
def Client.receives (c : Client) : Bool :=
  c.result.isNone && c.ws.unread.isEmpty &&
    (c.inLoop || c.ws.state ∈ [WsState.statusline, .headers, .data, .chunkedHeader, .chunkedData])

/-- A step in front of a server that sends a stream of bytes and closes the connection behind it.
A `recv` gets at most `n` bytes, but at least one if one is left. -/
def serve (ctx : Ctx) (s : Client × List Char) (n : Nat) : Client × List Char :=
  let got := if s.1.receives then s.2.take (min (max n 1) ctx.buflen) else []
  (step ctx s.1 { socket := .ok (), connect := .ok (), sent := .ok 0, received := .ok got }, s.2.drop got.length)

/-- The request has come to its end. The sink has got all of the body, unless it did not want it,
and only a wrong `Content-Length` that was `announced` beside the chunks spoils the result. -/
def Client.Ended (ctx : Ctx) (announced : Bool) (body : List Char) (c : Client) : Prop :=
  (c.sunk = body ∧ (c.result = some (.ok ()) ∨ (announced = true ∧ c.result = some (.error .eproto)))) ∨
    c.Refused ctx body

/-- The client is about to receive, or to look at what it has received. -/
structure Client.Listening (c : Client) : Prop where
  running : c.result = none
  here : c.inLoop = true ∨ c.ws.state = .statusline

theorem Client.Listening.step {c : Client} (h : c.Listening) (ctx : Ctx) (l : Answers) :
    step ctx c l = receiveTurn ctx l c := by
  rw [Webclient.step, h.running]
  rcases h.here with hloop | hstate
  · rw [hloop]
    rfl
  · rw [hstate]
    cases c.inLoop <;> rfl

theorem Client.Listening.receives {c : Client} (h : c.Listening) : c.receives = c.ws.unread.isEmpty := by
  rcases h.here with hloop | hstate
  · simp [Client.receives, h.running, hloop]
  · simp [Client.receives, h.running, hstate]

section

variable {ctx : Ctx} {final : Ws × List Char} {s : Client × List Char}

/-- A step of a listening client with bytes to come is a turn over the first of them. -/
theorem serve_turn (hbuf : 0 < ctx.buflen) (hlisten : s.1.Listening) (hsome : s.1.ws.unread ++ s.2 ≠ []) (n : Nat) :
    ∃ got stream, got ≠ [] ∧ got ++ stream = s.1.ws.unread ++ s.2 ∧
      serve ctx s n = (parseTurn ctx { s.1 with ws := { s.1.ws with unread := got }, inLoop := true }, stream) := by
  obtain ⟨c, stream⟩ := s
  rw [serve, hlisten.receives, hlisten.step, receiveTurn]
  by_cases hunread : c.ws.unread = []
  · obtain ⟨got, hgot⟩ : ∃ got, got = stream.take (min (max n 1) ctx.buflen) := ⟨_, rfl⟩
    have hfits : got.take ctx.buflen = got := by
      rw [take_eq_self_iff, hgot, length_take]
      omega
    have hne : got ≠ [] := by
      have hstream : stream ≠ [] := by simpa [hunread] using hsome
      rw [hgot, ne_eq, take_eq_nil_iff, not_or]
      exact ⟨by omega, hstream⟩
    refine ⟨got, stream.drop got.length, hne, ?_, ?_⟩
    · have hpre : got <+: stream := hgot ▸ take_prefix _ stream
      rw [prefix_iff_eq_append.mp hpre, hunread, nil_append]
    · simp only [hunread, isEmpty_nil, if_true, ← hgot, ne_eq, not_true_eq_false, if_false, hfits, if_neg hne]
  · refine ⟨c.ws.unread, stream, hunread, rfl, ?_⟩
    simp [hunread]

theorem serve_done {c : Client} (hdone : c.result.isSome = true) (ctx : Ctx) (stream : List Char) (ns : List Nat) :
    (run (serve ctx) (c, stream) ns).1 = c := by
  refine run_invariant (I := fun s : Client × List Char => s.1 = c) ?_ rfl ns
  rintro ⟨_, stream⟩ n rfl
  exact if_pos hdone

theorem serve_close {c : Client} (hrunning : c.result = none) (hloop : c.inLoop = false)
    (hstate : c.ws.state = .close) (hhere : c.ws.redirected = false) (stream : List Char) {ns : List Nat}
    (hns : 0 < ns.length) :
    (run (serve ctx) (c, stream) ns).1 = { c with ws := { c.ws with state := .done }, result := some (.ok ()) } := by
  obtain ⟨n, ns, rfl⟩ := exists_cons_of_length_pos hns
  have hstep : (serve ctx (c, stream) n).1 =
      { c with ws := { c.ws with state := .done }, result := some (.ok ()) } := by
    simp [serve, step, hrunning, hloop, hstate, closeBlock, hhere]
  have hdone : (serve ctx (c, stream) n).1.result.isSome = true := by
    rw [hstep]
    rfl
  rw [run_cons, ← hstep]
  exact serve_done hdone ctx _ ns

/-- The end of the stream behind the whole response closes the request. -/
theorem serve_end (hlisten : s.1.Listening) (hend : s.1.ws.unread ++ s.2 = []) (hstate : s.1.ws.state = .waitClose)
    {ns : List Nat} (hns : 2 ≤ ns.length) :
    (run (serve ctx) s ns).1.Ended ctx s.1.ws.gotContentLength s.1.sunk := by
  obtain ⟨c, stream⟩ := s
  obtain ⟨hunread, rfl⟩ : c.ws.unread = [] ∧ stream = [] := by simpa using hend
  obtain ⟨n, ns, rfl⟩ := exists_cons_of_length_pos (Nat.lt_of_lt_of_le Nat.two_pos hns)
  have hrunning : c.result = none := hlisten.running
  dsimp only at hstate
  have hturn : serve ctx (c, []) n = (eofTurn c, []) := by
    rw [serve, hlisten.step, receiveTurn]
    simp [hunread]
  rw [run_cons, hturn]
  by_cases hwrong : c.ws.gotContentLength = true ∧ c.ws.expectedRespBodyLen ≠ c.ws.receivedBodyLen
  · have heof : eofTurn c = c.fail .eproto := by simp [eofTurn, hstate, hwrong]
    rw [heof, serve_done rfl]
    exact .inl ⟨rfl, .inr ⟨hwrong.1, rfl⟩⟩
  have heof : eofTurn c =
      { c with ws := { c.ws with state := .close, redirected := false }, inLoop := false } := by
    rw [eofTurn, if_neg (by simp [hstate]), if_neg hwrong]
  rw [heof, serve_close (c := { c with ws := { c.ws with state := .close, redirected := false }, inLoop := false })
    hrunning rfl rfl rfl [] (Nat.lt_of_succ_lt_succ hns)]
  exact .inl ⟨rfl, .inl rfl⟩

/-- Whatever `recv` returns, a response that the byte machine takes to its end goes to the sink
as the machine has it. -/
theorem serve_ended (hbuf : 0 < ctx.buflen) (hfinal : final.1.state = .waitClose) {ns : List Nat}
    (hlisten : s.1.Listening) (hon : s.1.ws.onward = true) (h : pending s.1.ws s.1.sunk s.2 = some final)
    (hns : (s.1.ws.unread ++ s.2).length + 2 ≤ ns.length) :
    (run (serve ctx) s ns).1.Ended ctx final.1.gotContentLength final.2 := by
  induction ns generalizing s with
  | nil => simp at hns
  | cons n ns ih =>
    by_cases hend : s.1.ws.unread ++ s.2 = []
    · rw [pending, hend, reads_nil] at h
      cases h
      exact serve_end hlisten hend hfinal (by omega)
    obtain ⟨got, stream, hgot, hsplit, hserve⟩ := serve_turn hbuf hlisten hend n
    rw [run_cons, hserve]
    have hpending : pending { s.1.ws with unread := got } s.1.sunk stream = some final := by
      rw [pending, hsplit]
      exact h
    rcases parseTurn_resumed ctx (c := { s.1 with ws := { s.1.ws with unread := got }, inLoop := true })
      hon hgot hfinal hpending with hrefused | ⟨ws', sunk', hturn, hresumed, hfewer⟩
    · obtain ⟨e, hresult, hrefuses⟩ := hrefused
      rw [serve_done (by rw [hresult]; rfl)]
      exact .inr ⟨e, hresult, hrefuses⟩
    rw [hturn]
    refine ih ⟨hlisten.running, .inl rfl⟩ hresumed.onward hresumed.ends ?_
    rw [← hsplit, length_append, length_cons] at hns
    rw [length_append]
    dsimp only at hfewer ⊢
    omega

end

/-! ## Before the response -/

/-- The states between the opening of a connection and the first byte of the response. -/
def WsState.sending : WsState → Bool
  | .connect | .prepareRequest | .sendRequest | .sendRequestBody | .statusline => true
  | _ => false

/-- The states in which the request has been put into the buffer. -/
def WsState.requested : WsState → Bool
  | .sendRequest | .sendRequestBody | .statusline => true
  | _ => false

/-- What holds of the buffers all the time. -/
structure Client.Tidy (ctx : Ctx) (c : Client) : Prop where
  line : c.ws.line.length = maxHttpLine
  unread : c.inLoop = false → c.ws.state.sending = true → c.ws.unread = []
  room : c.inLoop = false → c.ws.state.requested = true → 0 < ctx.buflen

variable {ws' : Ws}

theorem stage_line {stage : WsState × (List Char → Ws → Except Errno Ws)} {ws : Ws} (hstage : stage ∈ stages)
    (h : inState stage.1 stage.2 ws = .ok ws') : ws'.line.length = ws.line.length :=
  stage_keeps (P := fun s => s.line.length = ws.line.length) (fun hline htook hs => by rw [htook.line_eq, hline, hs])
    (fun _ _ hs => hs) hstage rfl h

theorem parsePass_line {ws : Ws} (h : parsePass ws = .ok ws') : ws'.line.length = ws.line.length :=
  parsePass_keeps (P := fun s => s.line.length = ws.line.length)
    (fun hline htook hs => by rw [htook.line_eq, hline, hs]) (fun _ _ hs => hs) rfl h

theorem consume_line (ws : Ws) (n : Nat) : (consume ws n).line = ws.line := by
  simp only [consume]
  split_ifs <;> rfl

theorem disposePass_line {ctx : Ctx} {ws : Ws} {sunk sunk' : List Char}
    (h : disposePass ctx ws sunk = .ok (ws', sunk')) :
    ws'.line = ws.line := by
  rcases disposePass_cases h with rfl | ⟨-, rfl⟩ | ⟨-, rfl⟩
  · rfl
  · exact consume_line ws (bodyCount ws)
  · rfl

section

variable {ctx : Ctx} {c : Client} {l : Answers}

theorem Client.Tidy.of_receiving (hline : c.ws.line.length = maxHttpLine)
    (hloop : c.inLoop = true ∨ c.ws.state = .close) : c.Tidy ctx := by
  refine ⟨hline, fun hout hsending => ?_, fun hout hrequested => ?_⟩
  all_goals
    rcases hloop with hin | hclose
    · rw [hin] at hout
      cases hout
    · simp_all [WsState.sending, WsState.requested]

theorem parseTurn_tidy (hline : c.ws.line.length = maxHttpLine) (hloop : c.inLoop = true) :
    (parseTurn ctx c).Tidy ctx := by
  unfold parseTurn
  split
  · exact .of_receiving hline (.inl hloop)
  rename_i ws hpass
  have hline' := (parsePass_line hpass).trans hline
  split
  · exact .of_receiving hline' (.inl hloop)
  rename_i ws' sunk hdispose
  refine .of_receiving ?_ ?_
  · rw [disposePass_line hdispose, hline']
  by_cases hclose : ws'.state = .close
  · exact .inr hclose
  · exact .inl (decide_eq_true hclose)

theorem receiveTurn_tidy (h : c.Tidy ctx) : (receiveTurn ctx l c).Tidy ctx :=
  receiveTurn_rule (fun _ _ => ⟨h.line, h.unread, h.room⟩) (.of_receiving h.line (.inr rfl))
    fun _ _ => parseTurn_tidy h.line rfl

theorem step_tidy (h : c.Tidy ctx) : (step ctx c l).Tidy ctx := by
  have hstep := stepTo_step ctx l c
  generalize step ctx c l = c' at hstep ⊢
  cases hstep with
  | idle => exact h
  | turn => exact receiveTurn_tidy h
  | outer _ hloop hblock =>
    have hunread {state : WsState} (hstate : c.ws.state = state) (hsending : state.sending = true) : c.ws.unread = [] :=
      h.unread hloop (by rw [hstate, hsending])
    have hroom {state : WsState} (hstate : c.ws.state = state) (hrequested : state.requested = true) : 0 < ctx.buflen :=
      h.room hloop (by rw [hstate, hrequested])
    cases hblock with
    | failed => exact ⟨h.line, h.unread, h.room⟩
    | opened hstate =>
      rcases hstate with rfl | rfl
      · exact ⟨h.line, fun _ _ => rfl, h.room⟩
      · exact ⟨h.line, fun _ _ => rfl, nofun⟩
    | connected hstate => exact ⟨h.line, fun _ _ => hunread hstate rfl, nofun⟩
    | prepared hstate hbuf => exact ⟨h.line, fun _ _ => hunread hstate rfl, fun _ _ => hbuf⟩
    | sent hstate =>
      rcases hstate with hstate | hstate
      all_goals exact ⟨h.line, fun _ _ => hunread hstate rfl, fun _ _ => hroom hstate rfl⟩
    | closed hstate => rcases hstate with rfl | rfl <;> exact ⟨h.line, nofun, nofun⟩

theorem begin_tidy {alloc : Ret} (h : begin ctx alloc = .ok c) : c.Tidy ctx := by
  unfold begin at h
  repeat' split at h
  all_goals cases h
  exact ⟨length_replicate, nofun, nofun⟩

/-- The request has been sent, and the client is about to call `recv` for the first time. -/
structure Client.Waiting (c : Client) : Prop where
  running : c.result = none
  outside : c.inLoop = false
  here : c.ws.state = .statusline

theorem run_tidy {alloc : Ret} (h : begin ctx alloc = .ok c) (ls : List Answers) :
    (run (step ctx) c ls).Tidy ctx :=
  run_invariant (fun _ _ => step_tidy) (begin_tidy h) ls

end

end Netutils.Webclient
