-- SUMMARY: The services of init: start, stop, reap and refresh.
import Mathlib.Data.List.Basic

/-!
# Services

A service has flags and the id of the process that was started last. The system may give an id again
as soon as its process has exited. The log keeps where signals went and whom `reap_process` charged
for an exit.
-/

namespace System.Nxinit

/-- `struct service_s`; `id` stands for its address. -/
structure Service where
  id : Nat
  disabled : Bool
  oneshot : Bool
  running : Bool
  restarting : Bool
  gentleKill : Bool
  sigkill : Bool
  remove : Bool
  pid : Nat
  timeStarted : Int
  timeKill : Int
  restartPeriod : Int
  deriving DecidableEq

/-- A child that was not waited for yet. Commands have no owner. -/
structure Child where
  pid : Nat
  owner : Option Nat
  exited : Bool
  deriving DecidableEq

inductive Record
  /-- a service sends a signal, and the child that has its process id -/
  | signal (service : Nat) (target : Option Child)
  /-- `waitpid` returns a child, and the service that is charged -/
  | reaped (child : Child) (service : Option Nat)
  deriving DecidableEq

/-- The children and the log. -/
structure World where
  children : List Child
  log : List Record
  deriving DecidableEq

structure Services where
  services : List Service
  world : World
  deriving DecidableEq

/-- The result of `posix_spawnp`. -/
inductive Spawn
  | fail
  | pid (pid : Nat)
  deriving DecidableEq

/-- `SYSTEM_NXINIT_SERVICE_GENTLE_KILL_TIMEOUT` -/
def gentleKillTimeout : Int := 200

/-! ## Operations of a service -/

def initServiceReap (s : Service) : Service :=
  let s := { s with running := false }
  let s := if s.oneshot then { s with disabled := true, remove := true } else s
  if s.disabled then s else { s with restarting := true }

/-- The child a signal to `pid` gets to. -/
def World.target (w : World) (pid : Nat) : Option Child :=
  (w.children.find? fun c => c.pid = pid ∧ c.exited = false).or (w.children.find? (·.pid = pid))

/-- `esrch` says whether the system reports that there is no such process, which
it may do as soon as the process has exited. -/
def killService (esrch : Bool) (s : Service) (w : World) : Service × World :=
  let gone := esrch && (w.target s.pid).all (·.exited)
  (if gone then initServiceReap s else s, { w with log := w.log ++ [.signal s.id (w.target s.pid)] })

def World.alive (w : World) (pid : Nat) : Bool := w.children.any fun c => c.pid = pid ∧ c.exited = false

def initServiceStart (spawn : Spawn) (now : Int) (s : Service) (w : World) : Service × World :=
  if s.running then (s, w)
  else match spawn with
    | .fail => (initServiceReap s, w)
    | .pid pid =>
      -- the system does not use the id of a process that is alive
      if pid = 0 ∨ w.alive pid = true then (initServiceReap s, w)
      else ({ s with pid := pid, timeStarted := now, running := true, restarting := false, disabled := false },
        { w with children := w.children ++ [⟨pid, some s.id, false⟩] })

def initServiceStop (esrch : Bool) (now : Int) (s : Service) (w : World) : Service × World :=
  if s.running || s.restarting then
    if s.disabled then (s, w)
    else
      let s := { s with disabled := true, restarting := false }
      if s.gentleKill then
        let r := killService esrch { s with sigkill := false } w
        ({ r.1 with timeKill := now }, r.2)
      else killService esrch s w
  else (s, w)

/-- What the environment decides while a service is refreshed. -/
structure Choice where
  spawn : Spawn
  esrch : Bool
  deriving DecidableEq

/-- The body of the loop of `init_service_refresh`; the service may be removed. -/
def refreshService (choice : Choice) (now : Int) (s : Service) (w : World) : Option Service × World :=
  if s.restarting then
    if now - s.timeStarted ≥ s.restartPeriod then
      let r := initServiceStart choice.spawn now s w
      (some r.1, r.2)
    else (some s, w)
  else if s.running && s.gentleKill && s.disabled then
    if s.sigkill then (some s, w)
    else if now - s.timeKill ≥ gentleKillTimeout then
      let r := killService choice.esrch s w
      (some { r.1 with sigkill := true }, r.2)
    else (some s, w)
  else if s.remove && s.disabled && !s.running then (none, w)
  else (some s, w)

def initServiceFindByPid (services : List Service) (pid : Nat) : Option Service :=
  services.find? (pid = ·.pid)

/-! ## Steps -/

/-- What happens: operations on a service, the start of a command as a child,
the exit of a child, and one round of `reap_process`. A call of
`init_service_refresh` is a row of refresh steps. -/
inductive Act
  | start (service : Nat) (spawn : Spawn) (now : Int)
  | stop (service : Nat) (esrch : Bool) (now : Int)
  | refresh (service : Nat) (choice : Choice) (now : Int)
  | command (pid : Nat)
  | exit (pid : Nat)
  | reap (pid : Nat)
  deriving DecidableEq

/-- Lets the service at an address do something. -/
def Services.apply (st : Services) (id : Nat) (f : Service → World → Option Service × World) : Services :=
  match st.services.find? (·.id = id) with
  | none => st
  | some s =>
    let r := f s st.world
    { services := st.services.filterMap fun x => if x.id = id then r.1 else some x
      world := r.2 }

/-- One round of `reap_process`: `waitpid` returns an exited child. -/
def reapProcess (pid : Nat) (st : Services) : Services :=
  match st.world.children.find? fun c => c.pid = pid ∧ c.exited = true with
  | none => st
  | some child =>
    let service := initServiceFindByPid st.services pid
    let world := { children := st.world.children.erase child
                   log := st.world.log ++ [.reaped child (service.map (·.id))] }
    match service with
    | none => { st with world := world }
    | some s =>
      { services := st.services.map fun x => if x.id = s.id then initServiceReap x else x, world := world }

def act (st : Services) : Act → Services
  | .start id spawn now => st.apply id fun s w =>
    let r := initServiceStart spawn now s w
    (some r.1, r.2)
  | .stop id esrch now => st.apply id fun s w =>
    let r := initServiceStop esrch now s w
    (some r.1, r.2)
  | .refresh id choice now => st.apply id (refreshService choice now)
  | .command pid =>
    if pid = 0 ∨ st.world.alive pid = true then st
    else { st with world := { st.world with children := st.world.children ++ [⟨pid, none, false⟩] } }
  | .exit pid =>
    { st with world := { st.world with
        children := st.world.children.map fun c => if c.pid = pid then { c with exited := true } else c } }
  | .reap pid => reapProcess pid st

end System.Nxinit
