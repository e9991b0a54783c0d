-- SUMMARY: Which hosts the HTTP client contacts, and where redirects lead.
import FruitClawApps.Netutils.Webclient.LineBounds

/-!
# The hosts of a request

The target of a request is replaced when a `Location` header is parsed, and nowhere else.
-/

namespace Netutils.Webclient

open List

/-! ## The parsers -/

/-- The last `Location` header among the lines that the bytes complete. A line that goes on behind
a full buffer is passed over. -/
def lastLocation : List Char → Ws → Option CStr
  | [], _ => none
  | c :: rest, ws =>
    match headerByte c ws with
    | .ok (ws', false) =>
      let complete := ws'.ndx = 0 ∧ ws.ndx ≠ 0 ∧ ws.skipToNextLine = false
      (lastLocation rest ws').or (if complete then locationUrl ws'.line else none)
    | _ => none

section

variable {ws ws' : Ws} {accepts : CStr → Prop} {stage : WsState × (List Char → Ws → Except Errno Ws)}

/-- The target behind header lines comes from the last `Location` among them. -/
theorem headers_target {bytes rest : List Char} {done : Bool} (hstate : ws.state = .headers)
    (h : Scanner.run headerByte bytes ws = .ok (ws', done, rest)) :
    TargetFrom ws ws'.target ws'.gotLocation (lastLocation bytes ws) := by
  induction bytes generalizing ws with
  | nil =>
    cases h
    exact ⟨rfl, rfl⟩
  | cons c bytes ih =>
    have hact : byteOf ws.state = some headerByte := by rw [hstate, byteOf]
    rw [Scanner.run_cons] at h
    rw [lastLocation]
    cases hbyte : headerByte c ws with
    | error e =>
      rw [hbyte] at h
      cases h
    | ok r =>
      obtain ⟨ws₁, ended⟩ := r
      obtain ⟨line, -, htook⟩ := took_of_byte hact hbyte
      rw [hbyte] at h
      cases ended with
      | true =>
        cases h
        cases htook with
        | status hother => exact absurd (hother.symm.trans hstate) (by decide)
        | _ => exact ⟨rfl, rfl⟩
      | false =>
        have hrest := ih (htook.stays.trans hstate) h
        dsimp only
        cases hlast : lastLocation bytes ws₁ with
        | some url =>
          rw [hlast] at hrest
          exact hrest
        | none =>
          rw [hlast] at hrest
          rw [Option.none_or, hrest.1, hrest.2]
          cases htook with
          | line hndx =>
            rw [if_neg]
            · exact ⟨rfl, rfl⟩
            rintro ⟨hzero, hpos, hskip⟩
            rcases hndx with ⟨-, hnone | hpassed | hother⟩ | ⟨hnext, -⟩
            · exact hpos hnone
            · exact absurd (hskip.symm.trans hpassed) (by decide)
            · exact absurd (hother.symm.trans hstate) (by decide)
            · exact absurd (hnext.symm.trans hzero) (Nat.succ_ne_zero _)
          | field _ hndx hskip hlocated =>
            rw [if_pos ⟨rfl, hndx, hskip⟩]
            exact hlocated

/-- If the parser completes a `Location` header, the host that `netlib_parseurl` finds in the last
one is accepted. -/
def LocationOk (accepts : CStr → Prop) (ws : Ws) : Prop :=
  ws.state = .headers →
    ∀ url ∈ lastLocation ws.unread ws, ∀ target ∈ (parseurl url false).toOption, accepts target.hostname

instance [DecidablePred accepts] : DecidablePred (LocationOk accepts) := fun ws =>
  inferInstanceAs (Decidable (ws.state = .headers → ∀ url ∈ lastLocation ws.unread ws, _))

/-- Behind a redirect or a `Location` header, the target is accepted. -/
def Ws.Accepted (accepts : CStr → Prop) (ws : Ws) : Prop :=
  0 < ws.nredirect ∨ ws.gotLocation = true → accepts ws.target.hostname

theorem stage_accepted (hstage : stage ∈ stages) (hok : ws.state = stage.1 → LocationOk accepts ws)
    (hws : ws.Accepted accepts) (h : inState stage.1 stage.2 ws = .ok ws') : ws'.Accepted accepts := by
  have hcount : ws'.nredirect = ws.nredirect :=
    stage_keeps (P := (·.nredirect = ws.nredirect)) (fun _ htook hs => by cases htook <;> exact hs) (fun _ _ hs => hs)
      hstage rfl h
  obtain ⟨act, hbyte, hscans⟩ := stage_scans hstage
  rw [inState] at h
  split at h
  · rename_i hstate
    obtain ⟨ws₁, done, rest, hrun, rfl⟩ := hscans.run h
    by_cases hheaders : ws.state = .headers
    · rw [← hstate, hheaders] at hbyte
      cases hbyte
      have htarget := headers_target hheaders hrun
      cases hlast : lastLocation ws.unread ws with
      | some url =>
        rw [hlast] at htarget
        exact fun _ => hok hstate hheaders url hlast ws₁.target (by rw [htarget.1]; rfl)
      | none =>
        rw [hlast] at htarget
        rw [Ws.Accepted, hcount]
        dsimp only
        rwa [htarget.1, htarget.2]
    · -- no other parser has a `Location`, and a status line only takes the flag away
      have hkeeps {c : Char} {s s' : Ws} {done : Bool} (hs : s.state = ws.state ∧ s.Accepted accepts)
          (h : act c s = .ok (s', done)) : s'.Accepted accepts := by
        obtain ⟨line, -, htook⟩ := took_of_byte (hs.1 ▸ hstate ▸ hbyte) h
        cases htook with
        | field hother => exact absurd (hs.1.symm.trans hother) hheaders
        | status => exact fun hpos => hs.2 (.inl (hpos.resolve_right Bool.false_ne_true))
        | _ => exact hs.2
      have hend := Scanner.run_post (P := fun s => s.state = ws.state ∧ s.Accepted accepts) (Q := Ws.Accepted accepts)
        (fun _ _ _ hs h => ⟨(byte_stays (hs.1 ▸ hstate ▸ hbyte) h).trans hs.1, hkeeps hs h⟩) (fun _ _ _ => hkeeps)
        ⟨rfl, hws⟩ hrun
      exact hend.elim And.right id
  · cases h
    exact hws

theorem passStages_accepted {list : List (WsState × (List Char → Ws → Except Errno Ws))} (hlist : list ⊆ stages)
    (hok : AtStages (LocationOk accepts) list ws) (hws : ws.Accepted accepts) (h : passStages list ws = .ok ws') :
    ws'.Accepted accepts := by
  induction list generalizing ws with
  | nil =>
    cases h
    exact hws
  | cons stage rest ih =>
    obtain ⟨ws₁, hstage, hrest⟩ := Except.bind_eq_ok_iff.mp h
    obtain ⟨hmem, hlist⟩ := cons_subset.mp hlist
    have hnext := hok.2
    dsimp only at hstage
    rw [hstage] at hnext
    exact ih hlist hnext (stage_accepted hmem hok.1 hws hstage) hrest

theorem parsePass_accepted (hok : AtStages (LocationOk accepts) stages ws) (hws : ws.Accepted accepts)
    (h : parsePass ws = .ok ws') : ws'.Accepted accepts := by
  rw [parsePass_eq] at h
  obtain ⟨ws₁, hstages, hlast⟩ := Except.bind_eq_ok_iff.mp h
  split at hlast <;> cases hlast
  exact passStages_accepted (List.Subset.refl _) hok hws hstages

/-- A redirect is followed only if there was a `Location` header. -/
theorem disposePass_accepted {ctx : Ctx} {sunk sunk' : List Char} (hws : ws.Accepted accepts)
    (h : disposePass ctx ws sunk = .ok (ws', sunk')) : ws'.Accepted accepts := by
  rcases disposePass_cases h with rfl | ⟨-, rfl⟩ | ⟨hgot, rfl⟩
  · exact hws
  · unfold consume
    dsimp only
    split_ifs <;> exact hws
  · exact fun _ => hws (.inr hgot)

end

/-! ## Runs -/

section

variable (accepts : CStr → Prop) (ctx : Ctx)

/-- Every host that was contacted because of a redirect is accepted. -/
def RedirectsAccepted (c : Client) : Prop :=
  ∀ e ∈ c.log, 0 < e.peer.hop → accepts e.peer.host

/-- If the step completes a `Location` header, its host is accepted. -/
abbrev LocationAccepted (c : Client) (l : Answers) : Prop := InTurn ctx (LocationOk accepts) c l

/-- Behind a redirect, the target and the other end of the connection are accepted. -/
structure RedirectInv (c : Client) : Prop where
  target : c.ws.Accepted accepts
  conn : 0 < c.conn.hop → accepts c.conn.host
  log : RedirectsAccepted accepts c

variable {accepts ctx} {c : Client} {l : Answers}

theorem RedirectsAccepted.append {c' : Client} {e : NetEvent} (h : RedirectsAccepted accepts c)
    (hlog : c'.log = c.log ++ [e]) (he : 0 < e.peer.hop → accepts e.peer.host) : RedirectsAccepted accepts c' := by
  intro e' he' hhop
  rw [hlog, List.mem_append, List.mem_singleton] at he'
  rcases he' with hold | rfl
  · exact h e' hold hhop
  · exact he hhop

theorem RedirectInv.parseTurn (h : RedirectInv accepts c) (hok : AtStages (LocationOk accepts) stages c.ws) :
    RedirectInv accepts (parseTurn ctx c) := by
  unfold Webclient.parseTurn
  split
  · exact ⟨h.target, h.conn, h.log⟩
  have htarget := parsePass_accepted hok h.target ‹_›
  split
  · exact ⟨htarget, h.conn, h.log⟩
  · exact ⟨disposePass_accepted htarget ‹_›, h.conn, h.log⟩

theorem RedirectInv.step (h : RedirectInv accepts c) (hloc : LocationAccepted accepts ctx c l) :
    RedirectInv accepts (step ctx c l) := by
  have hstep := stepTo_step ctx l c
  generalize Webclient.step ctx c l = c' at hstep ⊢
  cases hstep with
  | idle => exact h
  | turn hrunning hhere =>
    rw [LocationAccepted, InTurn, Client.turn_eq hrunning hhere] at hloc
    refine receiveTurn_rule (fun _ _ => ⟨h.target, h.conn, h.log⟩) ⟨h.target, h.conn, h.log⟩ fun bytes hbytes => ?_
    rw [hbytes] at hloc
    exact RedirectInv.parseTurn (c := { c with ws := { c.ws with unread := bytes }, inLoop := true })
      ⟨h.target, h.conn, h.log⟩ hloc
  | outer _ _ hblock =>
    have htarget (hpos : 0 < c.ws.nredirect) := h.target (.inl hpos)
    cases hblock with
    | connected => exact ⟨h.target, htarget, h.log.append rfl htarget⟩
    | sent _ _ hlog =>
      refine ⟨h.target, h.conn, ?_⟩
      rcases hlog with rfl | ⟨bytes, rfl⟩
      · exact h.log
      · exact h.log.append rfl h.conn
    | _ => exact ⟨h.target, h.conn, h.log⟩

theorem begin_inv {alloc : Ret} (h : begin ctx alloc = .ok c) : RedirectInv accepts c := by
  unfold begin at h
  split at h
  · cases h
  split at h
  · cases h
  · cases h
    exact ⟨fun hpos => absurd hpos (by simp [Ws.fresh]), fun hpos => absurd hpos (Nat.lt_irrefl 0), nofun⟩

/-- If every target that a run takes from a `Location` header is accepted, then so is
every host that it contacts because of a redirect. -/
theorem redirectsAccepted_run {ls : List Answers} {alloc : Ret} (h : begin ctx alloc = .ok c)
    (hloc : Transition.Meets (step ctx) (LocationAccepted accepts ctx) c ls) :
    Transition.Always (step ctx) (RedirectsAccepted accepts) c ls :=
  Transition.always_induct (fun _ hinv => hinv.log) (fun _ _ hinv hloc => hinv.step hloc) (begin_inv h) hloc

end

end Netutils.Webclient
