-- SUMMARY: Redirects are followed however their bodies are framed, but for a single empty chunk.
import FruitClawApps.Netutils.Webclient.NonBlocking

/-!
# Redirects and the framing of the body

The inner loop decides about a redirect where the data of the body starts. A chunked body without
data has no such place.
-/

namespace Netutils.Webclient

open Transition List

/-! ## Framing -/

/-- What the state says about the framing of the body. -/
def Ws.Framed (ws : Ws) : Prop :=
  match ws.state with
  | .data => ws.chunked = false
  | .chunkedHeader => ws.chunked = true
  | .chunkedData | .chunkedEnddata => ws.chunked = true ∧ ws.chunkLen ≠ 0
  | .chunkedTrailer | .waitClose => ws.chunked = true ∧ ws.chunkLen = 0
  | _ => True

section

variable {ws ws' : Ws} {ctx : Ctx} {c : Client} {l : Answers}

theorem byte_framed {line : List Char} {done : Bool} (htook : Took ws line ws' done) (h : ws.Framed) : ws'.Framed := by
  unfold Ws.Framed at h ⊢
  cases htook with
  | line => exact h
  | status => trivial
  | field hstate => simp only [hstate]
  | plain _ hplain => exact hplain
  | chunked _ hchunked => exact hchunked
  | size hstate hlen =>
    rw [hstate] at h
    exact ⟨h, hlen⟩
  | last hstate =>
    rw [hstate] at h
    exact ⟨h, rfl⟩
  | enddata hstate hnext =>
    rw [hstate] at h
    rw [if_neg h.2] at hnext
    simp only [hnext, h.1]
  | trailer hstate =>
    rw [hstate] at h
    exact h

theorem parsePass_framed (h : ws.Framed) (hpass : parsePass ws = .ok ws') : ws'.Framed :=
  parsePass_keeps (fun _ => byte_framed) (fun _ _ hs => hs) h hpass

theorem disposePass_framed {sunk sunk' : List Char} (h : ws.Framed)
    (hdispose : disposePass ctx ws sunk = .ok (ws', sunk')) : ws'.Framed := by
  rcases disposePass_cases hdispose with rfl | ⟨-, rfl⟩ | ⟨-, rfl⟩
  · exact h
  · simp only [consume]
    split_ifs with hstate
    · rw [Ws.Framed, hstate] at h
      exact h
    all_goals exact h
  · trivial

theorem step_framed (h : c.ws.Framed) : (step ctx c l).ws.Framed := by
  have hstep := stepTo_step ctx l c
  generalize step ctx c l = c' at hstep ⊢
  cases hstep with
  | idle => exact h
  | turn =>
    refine receiveTurn_rule (P := fun c => c.ws.Framed) (fun _ _ => h) trivial fun bytes _ => ?_
    unfold parseTurn
    split
    · exact h
    have hframed := @parsePass_framed { c.ws with unread := bytes } _ h ‹_›
    split
    · exact hframed
    · exact disposePass_framed hframed ‹_›
  | outer _ _ hblock =>
    cases hblock with
    | failed => exact h
    | opened hstate => rcases hstate with rfl | rfl <;> first | exact h | trivial
    | connected | prepared => trivial
    | sent _ hnext =>
      simp only [mem_cons, not_mem_nil, or_false] at hnext
      rcases hnext with rfl | rfl | rfl <;> trivial
    | closed hstate => rcases hstate with rfl | rfl <;> trivial

theorem begin_framed {alloc : Ret} (h : begin ctx alloc = .ok c) : c.ws.Framed := by
  unfold begin at h
  repeat' split at h
  all_goals cases h
  trivial

/-! ## Redirects -/

/-- A redirect with a `Location` has been read up to the data of its body, or up to its end if
there is no data. -/
def Ws.Redirects (ws : Ws) : Prop :=
  byteOf ws.state = none ∧ ws.httpstatus = .moved ∧ ws.gotLocation = true ∧ ws.nredirect < maxRedirect

instance : DecidablePred Ws.Redirects := fun _ => inferInstanceAs (Decidable (_ ∧ _ ∧ _ ∧ _))

/-- The state of a request that goes on at the target of a `Location`. -/
def Ws.followed (ws : Ws) : Ws := { ws with nredirect := ws.nredirect + 1, state := .close, redirected := true }

theorem disposePass_followed (h : ws.Redirects) (hdata : ws.state = .data ∨ ws.state = .chunkedData)
    (sunk : List Char) : disposePass ctx ws sunk = .ok (ws.followed, sunk) := by
  obtain ⟨-, hmoved, hlocated, hroom⟩ := h
  have hcount : ¬ ws.nredirect + 1 > maxRedirect := Nat.not_lt.mpr hroom
  simp [disposePass, hdata, hmoved, followRedirect, hlocated, hcount, Ws.followed]

end

/-! ### Two redirects -/

def redirectText (body : String) : List Char :=
  ("HTTP/1.1 302 Found\r\nLocation: http://other/\r\nTransfer-Encoding: chunked\r\n\r\n" ++ body).toList

/-- The client in front of the data of a redirect. -/
def redirectWs : Ws :=
  ((parsePass { sampleClient.ws with unread := redirectText "1\r\nx\r\n0\r\n\r\n" }).toOption).getD sampleClient.ws

end Netutils.Webclient
