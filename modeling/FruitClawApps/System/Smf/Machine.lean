-- SUMMARY: The state machine of smf.c, with a trace of the visited states.
import FruitClawApps.Lib.Forest
import FruitClawApps.Lib.Transition

/-!
# State machine framework

A chart is a forest of states with optional initial links. The context holds the current state and
the flags of `struct internal_ctx`; the actions are functions of the user. Every function also
returns the states it visits.
-/

namespace System.Smf

/-- The states of a machine: a forest of finite height whose initial links lead
to states inside. -/
structure Chart (S : Type*) extends Forest S where
  initial : S → Option S
  height : Nat
  depth_le : ∀ s, depth s ≤ height
  initial_below : ∀ {s i}, initial s = some i → toForest.Above s i

/-- `struct smf_ctx`, the bits of `struct internal_ctx` and the object around them. -/
structure Ctx (S σ : Type*) where
  current : S
  previous : Option S
  executing : S
  terminateVal : Int
  newState : Bool
  terminate : Bool
  isExit : Bool
  handled : Bool
  obj : σ

/-- What happens in a run of a machine. -/
inductive Event (S : Type*)
  | start
  | enter (s : S)
  | exit (s : S)
  | run (s : S)
  /-- `smf_set_terminate`, from a run action or from an entry or exit action -/
  | terminate (inRun : Bool)
  deriving DecidableEq

/-- An entry or exit action: the object it leaves, and the value if it calls
`smf_set_terminate`. -/
abbrev Method (S σ : Type*) := Ctx S σ → σ × Option Int

/-- A run action, cut at its calls of the framework. -/
inductive Script (S σ : Type*)
  | done (obj : σ) (handled : Bool)
  | terminate (obj : σ) (val : Int) (next : Ctx S σ → Script S σ)
  | transition (obj : σ) (target : Option S) (next : Ctx S σ → Script S σ)

/-- The actions of the states, any of which may be missing. -/
structure Actions (S σ : Type*) where
  entry : S → Option (Method S σ)
  run : S → Option (Ctx S σ → Script S σ)
  exit : S → Option (Method S σ)

/-- A transition that was carried out: the state whose run action asked for it,
the state asked for and what it visited. -/
structure Move (S : Type*) where
  source : S
  target : S
  visits : List (Event S)

/-- The context with the events and transitions so far. -/
structure Machine (S σ : Type*) where
  ctx : Ctx S σ
  trace : List (Event S)
  moves : List (Move S)

variable {S σ : Type*} [DecidableEq S] (C : Chart S) (A : Actions S σ)

/-! ## Looking around in the chart -/

def isDescendantOf (testState targetState : S) : Bool := (C.path testState).contains targetState

/-- The first state on the way up from `states` whose parent is the given one. -/
def getChildOf (states : S) (parent : Option S) : Option S :=
  (C.path states).find? fun state => C.parent state = parent

def getLcaOf (source dest : S) : Option S :=
  (C.above (C.parent source)).find? fun ancestor => isDescendantOf C dest ancestor

/-- Follows the initial links. -/
def descend : Nat → S → S
  | 0, s => s
  | n + 1, s => match C.initial s with
    | none => s
    | some i => descend n i

def leaf (s : S) : S := descend C C.height s

/-- The state whose inside a transition leaves and enters. -/
def topmostOf (executing newState : S) : Option S :=
  if executing ≠ newState ∧ C.parent executing = C.parent newState then C.parent executing
  else if isDescendantOf C executing newState then some newState
  else if isDescendantOf C newState executing then some executing
  else getLcaOf C executing newState

/-! ## Entry and exit actions -/

/-- What a row of entry or exit actions leads to; `stop` says that one of them
has set `terminate`. -/
structure Visited (S σ : Type*) where
  ctx : Ctx S σ
  trace : List (Event S)
  stop : Bool

variable (ctx : Ctx S σ) (m : Machine S σ) (initState : S)

def Visited.none : Visited S σ := ⟨ctx, [], false⟩

def Visited.andThen (r : Visited S σ) (next : Ctx S σ → Visited S σ) : Visited S σ :=
  if r.stop then r
  else { next r.ctx with trace := r.trace ++ (next r.ctx).trace }

def smfSetTerminate (val : Int) : Ctx S σ :=
  { ctx with terminate := true, terminateVal := val }

/-- Calls the action, if there is one, and looks at `terminate` only then. -/
def visit (event : Event S) (method : Option (Method S σ)) (ctx : Ctx S σ) : Visited S σ :=
  match method with
  | none => ⟨ctx, [event], false⟩
  | some m => match m ctx with
    | (obj, none) => ⟨{ ctx with obj := obj }, [event], ctx.terminate⟩
    | (obj, some val) => ⟨smfSetTerminate { ctx with obj := obj } val, [event, .terminate false], true⟩

variable (newState : S) (s : S)

def enter (ctx : Ctx S σ) : Visited S σ :=
  visit (.enter s) (A.entry s) { ctx with executing := s }

def exit (ctx : Ctx S σ) : Visited S σ :=
  visit (.exit s) (A.exit s) { ctx with executing := if (A.exit s).isSome then s else ctx.executing }

def visitAll (f : S → Ctx S σ → Visited S σ) : List S → Ctx S σ → Visited S σ
  | [], ctx => .none ctx
  | s :: rest, ctx => (f s ctx).andThen (visitAll f rest)

/-- The loop from `to_execute` down to the state above `newState`. -/
def entryLoop (newState : S) : Nat → Option S → Ctx S σ → Visited S σ
  | 0, _, ctx => .none ctx
  | _ + 1, none, ctx => .none ctx
  | n + 1, some toExecute, ctx =>
    if toExecute = newState then .none ctx
    else (enter A toExecute ctx).andThen (entryLoop newState n (getChildOf C newState (some toExecute)))

def Visited.setExecuting (r : Visited S σ) (s : S) : Visited S σ :=
  { r with ctx := { r.ctx with executing := s } }

def smfExecuteAllEntryActions (topmost : Option S) : Visited S σ :=
  if some newState = topmost then .none ctx
  else
    let r := (entryLoop C A newState (C.path newState).length (getChildOf C newState topmost) ctx).andThen
      (enter A newState)
    r.setExecuting r.ctx.current

/-- The loop from the current state up to the state below `topmost`. -/
def smfExecuteAllExitActions (topmost : Option S) : Visited S σ :=
  (visitAll (exit A) (C.upTo topmost ctx.current) ctx).setExecuting ctx.executing

/-! ## Transitions -/

/-- The exit action of a state that transitions to itself. -/
def leaveSelf (ctx : Ctx S σ) : Visited S σ :=
  if ctx.executing = newState then visit (.exit newState) (A.exit newState) ctx else .none ctx

/-- The entry action of a state that transitions to itself. -/
def enterSelf (ctx : Ctx S σ) : Visited S σ :=
  let ctx := { ctx with isExit := false }
  if ctx.executing = newState then visit (.enter newState) (A.entry newState) ctx else .none ctx

/-- Updates the state variables and enters the final target. -/
def arrive (topmost : Option S) (newState : S) (ctx : Ctx S σ) : Visited S σ :=
  let newState := leaf C newState
  smfExecuteAllEntryActions C A
    { ctx with previous := some ctx.current, current := newState, executing := newState } newState topmost

/-- The flags of a transition that leaves states. -/
def Ctx.leaving : Ctx S σ := { ctx with isExit := true, newState := true }

/-- `smf_set_state` behind its checks. -/
def changeState : Visited S σ :=
  let topmost := topmostOf C ctx.executing newState
  (((smfExecuteAllExitActions C A ctx.leaving topmost).andThen
    (leaveSelf A newState)).andThen
    (enterSelf A newState)).andThen
    (arrive C A topmost newState)

def smfSetState (newState : Option S) : Machine S σ :=
  match newState with
  | none => m
  | some newState =>
    if m.ctx.isExit then m
    else
      let r := changeState C A m.ctx newState
      { ctx := r.ctx
        trace := m.trace ++ r.trace
        moves := m.moves ++ [⟨m.ctx.executing, newState, r.trace⟩] }

def smfClearInternalState : Ctx S σ :=
  { ctx with isExit := false, terminate := false, handled := false, newState := false }

/-- The context that `smf_set_initial` prepares. -/
def Ctx.begin : Ctx S σ :=
  { smfClearInternalState ctx with current := initState, previous := none, terminateVal := 0, executing := initState }

/-- The entry actions from the root down to the initial state. -/
def enterInitial : Visited S σ :=
  match getChildOf C initState none with
  | none => Visited.none ctx  -- every state has a root above it
  | some topmost => ((enter A topmost ctx).setExecuting initState).andThen fun ctx =>
    smfExecuteAllEntryActions C A ctx initState (some topmost)

def smfSetInitial : Machine S σ :=
  let initState := leaf C initState
  let r := enterInitial C A (m.ctx.begin initState) initState
  { m with ctx := r.ctx, trace := m.trace ++ .start :: r.trace }

/-! ## Run actions -/

/-- Carries out a run action; the result says whether it has handled the event. -/
def perform : Script S σ → Machine S σ → Machine S σ × Bool
  | .done obj handled, m => ({ m with ctx := { m.ctx with obj := obj } }, handled)
  | .terminate obj val next, m =>
    let ctx := smfSetTerminate { m.ctx with obj := obj } val
    perform (next ctx) { m with ctx := ctx, trace := m.trace ++ [.terminate true] }
  | .transition obj target next, m =>
    let m := smfSetState C A { m with ctx := { m.ctx with obj := obj } } target
    perform (next m.ctx) m

def runAction (action : Ctx S σ → Script S σ) (m : Machine S σ) : Machine S σ :=
  let r := perform C A (action m.ctx) { m with trace := m.trace ++ [.run s] }
  { r.1 with ctx := { r.1.ctx with handled := r.2 || r.1.ctx.handled } }

def Machine.setExecuting : Machine S σ :=
  { m with ctx := { m.ctx with executing := s } }

/-- The loop over the ancestors of the current state. -/
def ancestorLoop : List S → Machine S σ → Machine S σ × Bool
  | [], m => (m.setExecuting m.ctx.current, false)
  | s :: rest, m =>
    let m := m.setExecuting s
    match A.run s with
    | none => ancestorLoop rest m
    | some action =>
      let m := runAction C A s action m
      if m.ctx.terminate then (m.setExecuting m.ctx.current, true)
      else if m.ctx.newState || m.ctx.handled then (m.setExecuting m.ctx.current, false)
      else ancestorLoop rest m

def smfExecuteAncestorRunActions : Machine S σ × Bool :=
  if m.ctx.terminate then (m, true)
  else if m.ctx.newState || m.ctx.handled then (m, false)
  else ancestorLoop C A (C.above (C.parent m.ctx.current)) m

/-- The result is the value `smf_run_state` returns. -/
def smfRunState : Machine S σ × Int :=
  if m.ctx.terminate then (m, m.ctx.terminateVal)
  else
    let m := { m with ctx := { smfClearInternalState m.ctx with executing := m.ctx.current } }
    let m := match A.run m.ctx.current with
      | none => m
      | some action => runAction C A m.ctx.current action m
    let r := smfExecuteAncestorRunActions C A m
    (r.1, if r.2 then r.1.ctx.terminateVal else 0)

/-! ## Calls -/

inductive Call (S : Type*)
  | setInitial (s : S)
  | runState

def step : Call S → Machine S σ
  | .setInitial s => smfSetInitial C A m s
  | .runState => (smfRunState C A m).1

end System.Smf
