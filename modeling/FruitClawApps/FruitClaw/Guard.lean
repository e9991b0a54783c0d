-- SUMMARY: The watchdog guard as threads over lock sections, and who owns it.
import FruitClawApps.Lib.CLib
import FruitClawApps.Lib.Threads

/-!
# The watchdog guard

One watchdog is shared by all threads. A thread that arms a short guard or starts a long one owns
it. A call is cut into its sections under `g_guard_lock`, between which other threads run. The
registers and the stage numbers in them are not modelled.
-/

namespace FruitClaw.Guard

open List

/-- `EBUSY`. -/
def ebusy : Errno := .other 16

/-! ## The shared variables -/

/-- The variables behind `g_guard_lock`, and whether the session thread runs. -/
structure Shared where
  /-- `g_short_guard_active`. -/
  active : Bool
  /-- `g_short_guard_owner`, if `g_short_guard_owner_valid`. -/
  owner : Option Nat
  /-- `g_short_guard_fd`, if it is not negative. -/
  fd : Option Nat
  uptimeTripped : Bool
  sessionStarted : Bool
  sessionStop : Bool
  sessionRuns : Bool
deriving DecidableEq

namespace Shared

/-- The variables before any thread has run. -/
def initial : Shared := ⟨false, none, none, false, false, false, false⟩

/-- `fc_guard_set_short_active(true, ...)`. -/
def activate (self : Nat) (g : Shared) : Shared := { g with active := true, owner := some self, fd := none }

/-- `fc_guard_set_short_active(false, 0)`, which does not look at the owner. -/
def deactivate (g : Shared) : Shared := { g with active := false, owner := none, fd := none }

/-- The guard is active and the thread owns it. -/
def OwnedBy (g : Shared) (t : Nat) : Prop := g.active = true ∧ g.owner = some t

instance (g : Shared) (t : Nat) : Decidable (g.OwnedBy t) := inferInstanceAs (Decidable (_ ∧ _))

theorem OwnedBy.unique {g : Shared} {t u : Nat} (ht : g.OwnedBy t) (hu : g.OwnedBy u) : t = u :=
  Option.some.inj (ht.2.symm.trans hu.2)

theorem activate_ownedBy (g : Shared) (t : Nat) : (g.activate t).OwnedBy t := ⟨rfl, rfl⟩

end Shared

/-- What one turn of the loop in `fc_guard_begin_short` finds. -/
inductive Begin where
  | taken | reentrant | busy | timedOut
deriving DecidableEq

/-- The lock section of `fc_guard_begin_short`. -/
def beginShort (self : Nat) (g : Shared) : Begin × Shared :=
  if g.uptimeTripped then (.timedOut, g)
  else if g.active then
    if g.owner = some self then (.reentrant, g) else (.busy, g)
  else (.taken, g.activate self)

/-- `fc_guard_bind_short_fd`. -/
def bindShortFd (fd : Nat) (g : Shared) : Shared := if g.active then { g with fd := some fd } else g

/-- `fc_guard_short_fd_matches`. -/
def shortFdMatches (fd : Nat) (g : Shared) : Bool := g.active && (g.fd == none || g.fd == some fd)

/-! ## Threads -/

/-- The two functions that take the guard. -/
inductive Call where
  | arm | longStart
deriving DecidableEq

/-- What a call that returned zero left with its caller. A call by the owner of the guard
leaves no descriptor. A long guard has a feeder thread. -/
structure Handle where
  fd : Option Nat
  feeder : Bool
deriving DecidableEq

/-- The next section of a thread. -/
inductive Pc where
  /-- In none of the functions. -/
  | idle
  /-- Between two turns of the loop in `fc_guard_begin_short`. -/
  | waiting (call : Call)
  | begun (call : Call)
  | opened (call : Call) (fd : Nat)
  | bound (call : Call) (fd : Nat)
  /-- Before the feeder of a long guard is created. -/
  | programmed (fd : Nat)
  /-- At the first section of `fc_guard_disarm`, with the answer of the call around it. -/
  | disarming (fd : Nat) (ret : Ret)
  | matching (fd : Nat) (ret : Ret)
  /-- Before the guard is set inactive. -/
  | clearing (ret : Ret)
  /-- Asleep for ever. -/
  | stuck
deriving DecidableEq

/-- The thread is inside a call, and it has taken the guard there or is giving it up. -/
def Pc.inside : Pc → Bool
  | .idle | .waiting _ | .stuck => false
  | _ => true

/-- A thread: where it is, what it holds with the newest first, and what its last call
returned. -/
structure Thread where
  pc : Pc
  handles : List Handle
  ret : Option Ret
deriving DecidableEq

namespace Thread

def initial : Thread := ⟨.idle, [], none⟩

/-- The call returns. -/
def returns (th : Thread) (ret : Ret) : Thread := { th with pc := .idle, ret := some ret }

/-- The call returns zero and leaves a handle. -/
def opens (th : Thread) (h : Handle) : Thread :=
  { pc := .idle, handles := h :: th.handles, ret := some (.ok ()) }

/-- The thread has taken the guard, or is about to give it up. -/
def Engaged (th : Thread) : Prop := th.handles ≠ [] ∨ th.pc.inside = true

end Thread

/-! ## Sections -/

/-- A section, with what the system calls in front of it or behind it answer. -/
inductive Act where
  /-- A turn of the loop in `fc_guard_begin_short`. The flag says that the deadline is over. -/
  | attempt (call : Call) (timeUp : Bool)
  | open (answer : Except Errno Nat)
  | bind
  /-- `WDIOC_STOP` and `fc_guard_program_fd`. -/
  | program (answer : Ret)
  /-- `pthread_create` for the feeder. -/
  | spawn (answer : Ret)
  /-- The call that gives back a handle, counted from the newest: `fc_guard_disarm` for a
  short guard, `fc_guard_long_stop` for a long one. The flag says that the feeder was joined. -/
  | release (i : Nat) (joined : Bool)
  | checkUptime
  | checkFd (ioctls : Ret)
  | clear
  | sessionStart (created : Ret)
  | sessionStop
  /-- The session thread sees that it is to stop, and ends. -/
  | sessionExit
  /-- The end of `fc_guard_prepare_controlled_reboot`, which has joined the session thread. -/
  | sessionJoin
  /-- `g_uptime_tripped` is set. -/
  | uptimeTrip
  /-- `fc_guard_recover_now`, which resets the board. -/
  | recover
deriving DecidableEq

/-- The section of a thread. A label that does not fit the place of the thread does nothing. -/
def next (self : Nat) (g : Shared) (th : Thread) : Act → Shared × Thread
  | .attempt call timeUp =>
    if th.pc = .idle ∨ th.pc = .waiting call then
      match beginShort self g with
      | (.taken, g) => (g, { th with pc := .begun call })
      | (.reentrant, g) => (g, th.opens ⟨none, false⟩)
      | (.busy, g) => (g, if timeUp then th.returns (.error ebusy) else { th with pc := .waiting call })
      | (.timedOut, g) => (g, th.returns (.error .etimedout))
    else (g, th)
  | .open answer =>
    match th.pc, answer with
    | .begun call, .ok fd => (g, { th with pc := .opened call fd })
    | .begun _, .error e => (g, { th with pc := .clearing (.error e) })
    | _, _ => (g, th)
  | .bind =>
    match th.pc with
    | .opened call fd => (bindShortFd fd g, { th with pc := .bound call fd })
    | _ => (g, th)
  | .program answer =>
    match th.pc, answer with
    | .bound .arm fd, .ok () => (g, th.opens ⟨some fd, false⟩)
    | .bound .longStart fd, .ok () => (g, { th with pc := .programmed fd })
    | .bound _ _, .error e => (g, { th with pc := .clearing (.error e) })
    | _, _ => (g, th)
  | .spawn answer =>
    match th.pc, answer with
    | .programmed fd, .ok () => (g, th.opens ⟨some fd, true⟩)
    | .programmed fd, .error e => (g, { th with pc := .disarming fd (.error e) })
    | _, _ => (g, th)
  | .release i joined =>
    match th.pc, th.handles[i]? with
    | .idle, some h =>
      let th := { th with handles := th.handles.eraseIdx i }
      -- the feeder of an expired guard resets the board and is not joined
      if h.feeder && !joined then (g, { th with pc := .stuck })
      else
        match h.fd with
        | none => (g, th.returns (.ok ()))
        | some fd => (g, { th with pc := .disarming fd (.ok ()) })
    | _, _ => (g, th)
  | .checkUptime =>
    match th.pc with
    | .disarming fd ret => (g, if g.uptimeTripped then th.returns ret else { th with pc := .matching fd ret })
    | _ => (g, th)
  | .checkFd ioctls =>
    match th.pc with
    | .matching fd ret =>
      if shortFdMatches fd g then
        -- the call around it, if there is one, has an error of its own to return
        (g, { th with pc := .clearing (match ret with | .ok () => ioctls | .error e => .error e) })
      else (g, th.returns ret)
    | _ => (g, th)
  | .clear =>
    match th.pc with
    | .clearing ret => (g.deactivate, th.returns ret)
    | _ => (g, th)
  | .sessionStart created =>
    if g.sessionStarted then (g, th)
    else
      match created with
      | .ok () => ({ g with sessionStop := false, sessionStarted := true, sessionRuns := true }, th)
      | .error _ => ({ g with sessionStop := false }, th)
  | .sessionStop => ({ g with sessionStop := true }, th)
  | .sessionExit =>
    if g.sessionRuns && g.sessionStop then ({ g.deactivate with sessionRuns := false }, th) else (g, th)
  | .sessionJoin =>
    if g.sessionRuns then (g, th) else ({ g with sessionStarted := false, sessionStop := false }, th)
  | .uptimeTrip => ({ g with uptimeTripped := true }, th)
  | .recover => (g.activate self, { th with pc := .stuck })

abbrev State := Threads.System Shared Thread

abbrev Label := Nat × Act

def step : State → Label → State := Threads.System.step next

/-- No thread has run yet. -/
def boot : State := ⟨.initial, fun _ => .initial⟩

/-! ## Ownership -/

variable (s : State) (l : Label)

/-- The thread has armed a guard that it has not disarmed. -/
def Holds (t : Nat) : Prop := (s.threads t).handles ≠ []

instance (s : State) (t : Nat) : Decidable (Holds s t) := inferInstanceAs (Decidable (¬ _))

/-- The step is another thread's turn to take the guard, and it is turned away: the
thread goes on waiting, or its call returns `-EBUSY`. -/
def TurnedAway : Prop :=
  ∀ call timeUp, l.2 = .attempt call timeUp →
    (s.threads l.1).pc = .idle ∨ (s.threads l.1).pc = .waiting call →
      (step s l).threads l.1 =
        if timeUp then (s.threads l.1).returns (.error ebusy)
        else { s.threads l.1 with pc := .waiting call }

/-- What ownership means for a step. A thread that holds a guard behind the step owns the
active guard there, whether it holds one guard or several nested ones. While a thread holds
a guard, the others are turned away. -/
def Exclusive : Prop :=
  (∀ t, Holds (step s l) t → (step s l).shared.OwnedBy t) ∧
    ∀ t, Holds s t → t ≠ l.1 → TurnedAway s l

/-- The section does none of three things: it does not end the session thread while the
guard is active, it does not reset the board, and it does not give back an outer guard
before an inner one. -/
def Act.orderly (g : Shared) : Act → Bool
  | .sessionExit => !g.active
  | .uptimeTrip | .recover => false
  | .release i _ => i == 0
  | _ => true

def Orderly : Prop := l.2.orderly s.shared = true

instance (s : State) (l : Label) : Decidable (Orderly s l) := inferInstanceAs (Decidable (_ = _))

/-! ## The assertion of a thread -/

/-- What a thread can rely on: it owns the guard while it is engaged, it holds nothing
while it is inside a call that takes or clears the guard, and only its outermost guard has
a descriptor. -/
structure Settled (t : Nat) (g : Shared) (th : Thread) : Prop where
  quiet : g.uptimeTripped = false
  owned : th.Engaged → g.OwnedBy t
  apart : th.pc.inside = true → th.handles = []
  nested : ∀ h ∈ th.handles.dropLast, h.fd = none

section

variable {t u : Nat} {g g' : Shared} {th : Thread} {a : Act}

theorem Settled.of_free (hquiet : g.uptimeTripped = false) (hnone : th.handles = [])
    (hout : th.pc.inside = false) : Settled t g th where
  quiet := hquiet
  owned := by
    rintro (hholds | hin)
    · exact absurd hnone hholds
    · rw [hout] at hin
      cases hin
  apart := fun _ => hnone
  nested := by simp [hnone]

theorem Settled.foreign (h : Settled t g th) (hu : g.OwnedBy u) (hut : u ≠ t) :
    th.handles = [] ∧ th.pc.inside = false := by
  have hno : ¬ th.Engaged := fun he => hut (hu.unique (h.owned he))
  rw [Thread.Engaged, not_or, not_not, Bool.not_eq_true] at hno
  exact hno

theorem Settled.move (h : Settled t g th) (hin : th.pc.inside = true)
    (hquiet : g'.uptimeTripped = false) (howned : g.OwnedBy t → g'.OwnedBy t) (pc : Pc) :
    Settled t g' { th with pc := pc } where
  quiet := hquiet
  owned := fun _ => howned (h.owned (Or.inr hin))
  apart := fun _ => h.apart hin
  nested := h.nested

theorem Settled.leave (h : Settled t g th) (hin : th.pc.inside = true)
    (hquiet : g'.uptimeTripped = false) (ret : Ret) : Settled t g' (th.returns ret) :=
  .of_free hquiet (h.apart hin) rfl

theorem Settled.opens (h : Settled t g th) (hin : th.pc.inside = true) (handle : Handle) :
    Settled t g (th.opens handle) where
  quiet := h.quiet
  owned := fun _ => h.owned (Or.inr hin)
  apart := nofun
  nested := by
    have hnone := h.apart hin
    simp [Thread.opens, hnone]

theorem Settled.idle (h : Settled t g th) {pc : Pc}
    (hpc : pc.inside = false) (ret : Option Ret) : Settled t g { th with pc := pc, ret := ret } where
  quiet := h.quiet
  owned := by
    rintro (hholds | hin)
    · exact h.owned (Or.inl hholds)
    · rw [hpc] at hin
      cases hin
  apart := by
    intro hin
    rw [hpc] at hin
    cases hin
  nested := h.nested

/-! ## Attempts -/

theorem beginShort_owned (hquiet : g.uptimeTripped = false) (hu : g.OwnedBy u) :
    beginShort t g = (if u = t then .reentrant else .busy, g) := by
  unfold beginShort
  rw [hquiet, hu.1, hu.2]
  by_cases hut : u = t <;> simp [hut]

/-- What a turn of `fc_guard_begin_short` finds as long as the board is not reset. -/
theorem beginShort_cases (hquiet : g.uptimeTripped = false) :
    (g.active = false ∧ beginShort t g = (.taken, g.activate t)) ∨
      (g.OwnedBy t ∧ beginShort t g = (.reentrant, g)) ∨
      (¬ g.OwnedBy t ∧ beginShort t g = (.busy, g)) := by
  unfold beginShort Shared.OwnedBy
  rw [hquiet]
  cases hactive : g.active with
  | false => simp
  | true =>
    by_cases howner : g.owner = some t <;> simp [howner]

theorem attempt_settled (h : Settled t g th) (call : Call) (timeUp : Bool) :
    Settled t (next t g th (.attempt call timeUp)).1 (next t g th (.attempt call timeUp)).2 := by
  unfold next
  dsimp only
  split
  · rcases beginShort_cases (t := t) h.quiet with ⟨hfree, heq⟩ | ⟨howned, heq⟩ | ⟨-, heq⟩ <;> rw [heq]
    · -- A guard that is free is held by nobody, so the thread starts from nothing.
      have hnone : th.handles = [] := by
        by_contra hholds
        have hactive := (h.owned (Or.inl hholds)).1
        rw [hfree] at hactive
        cases hactive
      exact
        { quiet := h.quiet
          owned := fun _ => g.activate_ownedBy t
          apart := fun _ => hnone
          nested := h.nested }
    · refine ⟨h.quiet, fun _ => howned, nofun, ?_⟩
      intro handle hmem
      -- The new guard has no descriptor, and the others are where they were.
      cases hhandles : th.handles with
      | nil => simp [Thread.opens, hhandles] at hmem
      | cons first rest =>
        have hnested := h.nested
        simp only [Thread.opens, hhandles, dropLast_cons_cons, mem_cons] at hmem hnested
        rcases hmem with rfl | hmem
        · rfl
        · exact hnested handle hmem
    · cases timeUp with
      | true | false => exact h.idle rfl _
  · exact h

/-! ## Giving back -/

theorem release_settled (h : Settled t g th) (joined : Bool) :
    Settled t (next t g th (.release 0 joined)).1 (next t g th (.release 0 joined)).2 := by
  unfold next
  dsimp only
  split
  · rename_i handle hpc hhandle
    obtain ⟨rest, hrest⟩ : ∃ rest, th.handles = handle :: rest := by
      cases hhandles : th.handles with
      | nil => simp [hhandles] at hhandle
      | cons first rest =>
        rw [hhandles, getElem?_cons_zero] at hhandle
        exact ⟨rest, by rw [Option.some.inj hhandle]⟩
    have howned : g.OwnedBy t := h.owned (Or.inl (by rw [hrest]; exact cons_ne_nil _ _))
    have hnested := h.nested
    rw [hrest] at hnested ⊢
    have hinner : ∀ inner ∈ rest.dropLast, inner.fd = none := by
      intro inner hmem
      cases rest with
      | nil => cases hmem
      | cons second others =>
        exact hnested inner (mem_cons_of_mem _ hmem)
    split
    · exact ⟨h.quiet, fun _ => howned, nofun, hinner⟩
    split
    · exact ⟨h.quiet, fun _ => howned, nofun, hinner⟩
    rename_i fd hfd
    -- Only the outermost guard has a descriptor, so no other guard is left.
    have hlast : rest = [] := by
      cases rest with
      | nil => rfl
      | cons second others =>
        rw [hnested handle mem_cons_self] at hfd
        cases hfd
    exact ⟨h.quiet, fun _ => howned, fun _ => hlast, hinner⟩
  · exact h

/-- A section leaves the handles of its thread, adds one, or gives one back. -/
theorem next_handles (t : Nat) (g : Shared) (th : Thread) (a : Act) :
    (next t g th a).2.handles = th.handles ∨ (∃ h, (next t g th a).2.handles = h :: th.handles) ∨
      ∃ i joined, a = .release i joined ∧ (next t g th a).2.handles = th.handles.eraseIdx i := by
  cases a with simp only [next]
  | attempt call timeUp =>
    split
    · split
      · exact Or.inl rfl
      · exact Or.inr (Or.inl ⟨_, rfl⟩)
      · split <;> exact Or.inl rfl
      · exact Or.inl rfl
    · exact Or.inl rfl
  | program | spawn =>
    split
    · exact Or.inr (Or.inl ⟨_, rfl⟩)
    all_goals exact Or.inl rfl
  | release i joined =>
    split
    · refine Or.inr (Or.inr ⟨i, joined, rfl, ?_⟩)
      split
      · rfl
      · split <;> rfl
    · exact Or.inl rfl
  | «open» | bind | clear | sessionExit | sessionJoin => split <;> exact Or.inl rfl
  | checkUptime | checkFd =>
    split
    · split <;> exact Or.inl rfl
    · exact Or.inl rfl
  | sessionStart created =>
    split
    · exact Or.inl rfl
    · split <;> exact Or.inl rfl
  | sessionStop | uptimeTrip | recover => exact Or.inl trivial

/-- A thread that is in none of the functions, or asleep for ever, stays so in every section
that does not begin a call. -/
theorem next_outside {t : Nat} {g : Shared} {th : Thread} {a : Act} (h : th.pc = .idle ∨ th.pc = .stuck)
    (hattempt : ∀ call timeUp, a ≠ .attempt call timeUp) (hrelease : ∀ i joined, a ≠ .release i joined) :
    ((next t g th a).2.pc = .idle ∨ (next t g th a).2.pc = .stuck) ∧ (next t g th a).2.handles = th.handles := by
  cases a with
  | attempt call timeUp => exact absurd rfl (hattempt call timeUp)
  | release i joined => exact absurd rfl (hrelease i joined)
  | recover => exact ⟨Or.inr rfl, rfl⟩
  | sessionStart created =>
    simp only [next]
    split
    · exact ⟨h, rfl⟩
    · split <;> exact ⟨h, rfl⟩
  | sessionExit | sessionJoin =>
    simp only [next]
    split <;> exact ⟨h, rfl⟩
  | sessionStop | uptimeTrip => exact ⟨h, rfl⟩
  | «open» | bind | program | spawn | checkUptime | checkFd | clear =>
    rcases h with hpc | hpc
    all_goals
      simp only [next, hpc]
      simp

/-- A thread keeps its assertion in an orderly section of its own. -/
theorem next_settled (h : Settled t g th) (ha : a.orderly g = true) :
    Settled t (next t g th a).1 (next t g th a).2 := by
  cases a with
  | attempt call timeUp => exact attempt_settled h call timeUp
  | release i joined =>
    have hi : i = 0 := by simpa [Act.orderly] using ha
    subst hi
    exact release_settled h joined
  | «open» answer =>
    simp only [next]
    split
    case h_3 => exact h
    all_goals
      rename_i hpc
      exact h.move (by rw [hpc]; rfl) h.quiet id _
  | bind =>
    simp only [next]
    split
    · rename_i hpc
      refine h.move (by rw [hpc]; rfl) ?_ (fun howned => ?_) _
      · unfold bindShortFd
        split <;> exact h.quiet
      · unfold bindShortFd
        split <;> exact howned
    · exact h
  | program answer =>
    simp only [next]
    split
    · rename_i hpc
      exact h.opens (by rw [hpc]; rfl) _
    case h_4 => exact h
    all_goals
      rename_i hpc
      exact h.move (by rw [hpc]; rfl) h.quiet id _
  | spawn answer =>
    simp only [next]
    split
    · rename_i hpc
      exact h.opens (by rw [hpc]; rfl) _
    · rename_i hpc
      exact h.move (by rw [hpc]; rfl) h.quiet id _
    · exact h
  | checkUptime =>
    simp only [next, h.quiet]
    split
    · rename_i hpc
      exact h.move (by rw [hpc]; rfl) h.quiet id _
    · exact h
  | checkFd ioctls =>
    simp only [next]
    split
    · rename_i fd ret hpc
      split
      · exact h.move (by rw [hpc]; rfl) h.quiet id _
      · exact h.leave (by rw [hpc]; rfl) h.quiet ret
    · exact h
  | clear =>
    simp only [next]
    split
    · rename_i ret hpc
      have hquiet : g.deactivate.uptimeTripped = false := h.quiet
      exact h.leave (by rw [hpc]; rfl) hquiet ret
    · exact h
  | sessionStart created =>
    simp only [next]
    split
    · exact h
    split <;> exact ⟨h.quiet, h.owned, h.apart, h.nested⟩
  | sessionStop => exact ⟨h.quiet, h.owned, h.apart, h.nested⟩
  | sessionExit =>
    have hfree : g.active = false := by simpa [Act.orderly] using ha
    simp only [next]
    split
    · refine ⟨h.quiet, fun he => ?_, h.apart, h.nested⟩
      have hactive := (h.owned he).1
      rw [hfree] at hactive
      cases hactive
    · exact h
  | sessionJoin =>
    simp only [next]
    split
    · exact h
    · exact ⟨h.quiet, h.owned, h.apart, h.nested⟩
  | uptimeTrip | recover => cases ha

/-- A thread leaves the guard of another thread alone. -/
theorem next_foreign (h : Settled t g th) (ha : a.orderly g = true) (hu : g.OwnedBy u) (hut : u ≠ t) :
    (next t g th a).1.OwnedBy u := by
  obtain ⟨hnone, hout⟩ := h.foreign hu hut
  cases a with
  | attempt call timeUp =>
    simp only [next, beginShort_owned h.quiet hu, if_neg hut]
    split <;> exact hu
  | «open» | program | spawn | checkUptime | sessionJoin =>
    simp only [next]
    split <;> exact hu
  | bind | clear =>
    simp only [next]
    split
    · rename_i hpc
      rw [hpc] at hout
      cases hout
    · exact hu
  | release i joined =>
    simp only [next, hnone, getElem?_nil]
    split
    · rename_i hcontra
      cases hcontra
    · exact hu
  | checkFd ioctls =>
    simp only [next]
    split
    · split <;> exact hu
    · exact hu
  | sessionStart created =>
    simp only [next]
    split
    · exact hu
    split <;> exact hu
  | sessionStop => exact hu
  | sessionExit =>
    have hfree : g.active = false := by simpa [Act.orderly] using ha
    have hactive := hu.1
    rw [hfree] at hactive
    cases hactive
  | uptimeTrip | recover => cases ha

end

/-! ## Runs -/

theorem settled_boot : boot.All Settled := fun _ => .of_free rfl rfl rfl

variable {s : State} {l : Label}

theorem settled_step (h : s.All Settled) (hl : Orderly s l) : (step s l).All Settled := by
  refine Threads.System.all_step h (next_settled (h l.1) hl) fun u hu hsettled => ?_
  exact
    { quiet := (next_settled (h l.1) hl).quiet
      owned := fun he => next_foreign (h l.1) hl (hsettled.owned he) hu
      apart := hsettled.apart
      nested := hsettled.nested }

theorem turnedAway_of_settled (h : s.All Settled) {t : Nat} (ht : Holds s t) (hne : t ≠ l.1) : TurnedAway s l := by
  obtain ⟨u, a⟩ := l
  rintro call timeUp rfl hpc
  have howned := (h t).owned (Or.inl ht)
  simp only [step, Threads.System.step_self, next, if_pos hpc]
  rw [beginShort_owned (h t).quiet howned, if_neg hne]

theorem exclusive_of_settled (h : s.All Settled) (hl : Orderly s l) : Exclusive s l :=
  ⟨fun t ht => (settled_step h hl t).owned (Or.inl ht), fun _ ht hne => turnedAway_of_settled h ht hne⟩

/-- In an orderly run the guard belongs to the thread that armed it. -/
theorem exclusive_of_orderly (ls : List Label) (h : Transition.Meets step Orderly boot ls) :
    Transition.Meets step Exclusive boot ls :=
  Transition.meets_induct (fun _ _ hI hl => ⟨settled_step hI hl, exclusive_of_settled hI hl⟩)
    settled_boot h

/-- Two threads that take turns, a guard armed twice by its owner, and a session thread that
ends when the guard is free. -/
def orderlyRun : List Label :=
  [(0, .sessionStart (.ok ())), (1, .attempt .arm true), (1, .open (.ok 3)), (2, .attempt .longStart false),
    (1, .bind), (1, .program (.ok ())), (1, .attempt .longStart true), (2, .attempt .longStart true),
    (1, .release 0 true), (1, .release 0 true), (1, .checkUptime), (1, .checkFd (.ok ())), (1, .clear),
    (0, .sessionStop), (3, .sessionExit), (2, .attempt .longStart true), (2, .open (.ok 3)), (2, .bind),
    (2, .program (.ok ())), (2, .spawn (.ok ()))]

theorem exclusive_orderlyRun : Transition.Meets step Orderly boot orderlyRun ∧
    Transition.Meets step Exclusive boot orderlyRun :=
  ⟨by decide, exclusive_of_orderly orderlyRun (by decide)⟩

/-- A thread arms the guard, and the session guard is stopped. -/
def sessionStopRun : List Label :=
  [(0, .sessionStart (.ok ())), (1, .attempt .arm true), (1, .open (.ok 3)), (1, .bind), (1, .program (.ok ())),
    (0, .sessionStop), (3, .sessionExit), (2, .attempt .arm true)]

/-- The session thread takes the guard away from the thread that holds it when it ends. The
arm of another thread then succeeds. -/
theorem not_exclusive_sessionStop :
    ¬ Transition.Meets step Exclusive boot sessionStopRun ∧
      Holds (Transition.run step boot sessionStopRun) 1 ∧
      (Transition.run step boot sessionStopRun).shared.OwnedBy 2 := by
  refine ⟨fun h => ?_, by decide, by decide⟩
  obtain ⟨-, -, -, -, -, -, hexit, -⟩ := h
  have howned := hexit.1 1 (by decide)
  revert howned
  decide

end FruitClaw.Guard
