-- SUMMARY: The action manager of init: events, a cursor and ready actions.
import FruitClawApps.Lib.CLib
import FruitClawApps.Lib.Transition

/-!
# Actions and events

Accepted events wait in slots. `update_ready` queues the next action of the first waiting event,
with a cursor that all events share. Commands of the first queued action run one after the other.
What a command does besides triggering events is a label of the step.
-/

namespace System.Nxinit

/-- `struct action_s`: commands are argument vectors, and there is at least one. -/
structure Action where
  event : Option CStr
  cmds : List (List CStr)
  cmds_ne : cmds ≠ []

/-- A command starts or ends: the position of its action in the file and its own
in the action. -/
inductive Entry
  | start (action cmd : Nat)
  | finish (action cmd : Nat)
  deriving DecidableEq

/-- `struct action_manager_s`, with what was accepted and run so far. -/
structure Manager where
  events : List (Option CStr)
  current : Option Nat
  ready : List Nat
  /-- the command of the first ready action that is due -/
  running : Option Nat
  /-- `pid_running` is the id of a process -/
  waiting : Bool
  accepted : List CStr
  log : List Entry
  deriving DecidableEq

variable (actions : List Action)

/-- The trigger of the action at a position. -/
def trigger (i : Nat) : Option CStr := actions[i]?.bind (·.event)

/-! ## Events -/

def addReady (ready : List Nat) (a : Nat) : List Nat := if a ∈ ready then ready else ready ++ [a]

/-- The next action behind the cursor that has the event as its trigger. -/
def scan (current : Option Nat) (event : CStr) : Option Nat :=
  let first := current.elim 0 (· + 1)
  (List.range' first (actions.length - first)).find? fun i => trigger actions i = some event

/-- The loop over the slots: events without a further action are removed, up to
the first one that has one. The result has the slots, the cursor and the action. -/
def updateSlots : List (Option CStr) → Option Nat → List (Option CStr) × Option Nat × Option Nat
  | [], current => ([], current, none)
  | none :: rest, current =>
    let r := updateSlots rest current
    (none :: r.1, r.2)
  | some event :: rest, current => match scan actions current event with
    | some a => (some event :: rest, some a, some a)
    | none =>
      let r := updateSlots rest none
      (none :: r.1, r.2)

def updateReady (m : Manager) : Manager :=
  let r := updateSlots actions m.events m.current
  { m with
    events := r.1
    current := r.2.1
    ready := r.2.2.elim m.ready (addReady m.ready) }

/-- Puts an event into the first free slot. -/
def fillSlot (event : CStr) : List (Option CStr) → Option (List (Option CStr))
  | [] => none
  | none :: rest => some (some event :: rest)
  | some other :: rest => (fillSlot event rest).map (some other :: ·)

/-- `alloc` says whether `strdup` gets memory. -/
def initActionAddEvent (event : CStr) (alloc : Bool) (m : Manager) : Manager :=
  match fillSlot event m.events with
  | none => m
  | some events => if alloc then { m with events := events, accepted := m.accepted ++ [event] } else m

/-! ## Commands -/

/-- The event that `init_builtin_run` adds for a command: `trigger` takes two
arguments, and `exec` runs what stands behind its first `--`. -/
def triggered : Nat → List CStr → Option CStr
  | 0, _ => none
  | n + 1, argv =>
    if argv.head? = some "trigger".toList then if argv.length = 2 then argv[1]? else none
    -- without anything behind the `--` the source goes on to compare a null pointer, here there is no event
    else if argv.head? = some "exec".toList then
      if 3 ≤ argv.length ∧ argv.length ≤ 99 then triggered n ((argv.dropWhile (· ≠ "--".toList)).drop 1) else none
    else none

/-- What the environment decides about a command. -/
structure Outcome where
  /-- the command runs as a process of its own -/
  pid : Bool
  alloc : Bool
  deriving DecidableEq

/-- The command that is due in an action. -/
def command (a c : Nat) : List CStr := (actions[a]?.bind (·.cmds[c]?)).getD []

def cmdCount (a : Nat) : Nat := (actions[a]?.map (·.cmds.length)).getD 0

def initActionReapCommand (m : Manager) : Manager :=
  match m.ready with
  | [] => { m with waiting := false }
  | a :: rest =>
    let c := m.running.getD 0
    let log := m.log ++ [.finish a c]
    if c + 1 = cmdCount actions a then { m with waiting := false, running := none, ready := rest, log := log }
    else { m with waiting := false, running := some (c + 1), log := log }

/-- Starts the command that is due. -/
def startCommand (o : Outcome) (m : Manager) : Manager :=
  match m.ready with
  | [] => m
  | a :: _ =>
    let c := m.running.getD 0
    let m := { m with running := some c, log := m.log ++ [.start a c] }
    match triggered (command actions a c).length (command actions a c) with
    | some event => initActionReapCommand actions (initActionAddEvent event o.alloc m)
    | none => if o.pid then { m with waiting := true } else initActionReapCommand actions m

def initActionRunCommand (o : Outcome) (m : Manager) : Manager :=
  if m.waiting then m else startCommand actions o (updateReady actions m)

/-! ## Turns -/

/-- What happens to the manager: an event from elsewhere, a turn of the main
loop, or the end of the process of a command. -/
inductive Turn
  | event (name : CStr) (alloc : Bool)
  | run (o : Outcome)
  | reap
  deriving DecidableEq

def turn (m : Manager) : Turn → Manager
  | .event name alloc => initActionAddEvent name alloc m
  | .run o => initActionRunCommand actions o m
  | .reap => if m.waiting then initActionReapCommand actions m else m

/-- The manager that `main` starts with. -/
def Manager.start (slots : Nat) : Manager where
  events := List.replicate slots none
  current := none
  ready := []
  running := none
  waiting := false
  accepted := []
  log := []

end System.Nxinit
