import CppUtils.Lib.TransitionSystem
import CppUtils.Lib.Window
import Mathlib

/-!
# The periodic execution thread

The owner starts, pauses, resumes and terminates a thread that calls a workload once a period. A step
is one block that holds `_cvMutex`, the end of a wait, or the beginning or the end of a workload call.
-/

namespace CppUtils.PeriodicThread

inductive WakeCause
  | notified
  | timeout
  | spurious
  deriving DecidableEq

/-- Where `threadFunc` is. `callWorkload` is the place between the wait while paused and the call. -/
inductive WorkerPc
  | none
  | starting (delayBeforeStartMs : ℕ)
  | delayWait
  | delayBlocked
  | delayWoken (cause : WakeCause)
  | pauseWait
  | pauseBlocked
  | pauseWoken (cause : WakeCause)
  | callWorkload
  | inWorkload
  | periodWait
  | periodBlocked
  | periodWoken (cause : WakeCause)
  | exited
  deriving DecidableEq

/-- Where the owner is: between two calls, or inside `terminate`. -/
inductive OwnerPc
  | outside
  | setTerminate
  | join
  | resetTerminate
  deriving DecidableEq

inductive Event
  | started
  | paused
  | resumed
  | terminateSet
  | terminated
  | workloadBegun
  | workloadEnded
  deriving DecidableEq

/-- The members of the object, with where both threads are and what happened. -/
structure State where
  joinable : Bool
  workload : Bool
  terminate : Bool
  paused : Bool
  owner : OwnerPc
  worker : WorkerPc
  history : List Event
  deriving DecidableEq

def State.initial (workload : Bool) : State :=
  ⟨false, workload, false, false, .outside, .none, []⟩

/-- `_cv.notify_all`. -/
def WorkerPc.notify : WorkerPc → WorkerPc
  | .delayBlocked => .delayWoken .notified
  | .pauseBlocked => .pauseWoken .notified
  | .periodBlocked => .periodWoken .notified
  | pc => pc

namespace State

def record (s : State) (e : Event) : State := { s with history := s.history ++ [e] }

def goTo (s : State) (pc : WorkerPc) : State := { s with worker := pc }

/-! ### The owner -/

def pause (s : State) : State :=
  { s with paused := true, worker := s.worker.notify, history := s.history ++ [.paused] }

def resume (s : State) : State :=
  { s with paused := false, worker := s.worker.notify, history := s.history ++ [.resumed] }

/-- `setWorkload` and `start` only assert while there is a thread. -/
def setWorkload (s : State) (workload : Bool) : State :=
  if !s.joinable then { s with workload } else s

def start (s : State) (workload : Bool) (delayBeforeStartMs : ℕ) : State :=
  if !s.joinable then
    { s with
      workload
      joinable := true
      worker := .starting delayBeforeStartMs
      history := s.history ++ [.started] }
  else s

inductive Call
  | setWorkload (workload : Bool)
  | start (workload : Bool) (delayBeforeStartMs : ℕ)
  | pause
  | resume
  | terminate

/-- One step of the owner; a call is its choice when it is between two calls. -/
def ownerStep (s : State) (call : Call) : Option State :=
  match s.owner with
  | .outside =>
    match call with
    | .setWorkload workload => some (s.setWorkload workload)
    | .start workload delayBeforeStartMs => some (s.start workload delayBeforeStartMs)
    | .pause => some s.pause
    | .resume => some s.resume
    | .terminate =>
      if s.joinable then some { s with owner := .setTerminate } else some (s.record .terminated)
  | .setTerminate =>
    some { s with
      terminate := true
      worker := s.worker.notify
      owner := .join
      history := s.history ++ [.terminateSet] }
  | .join =>
    if s.worker = .exited then some { s with joinable := false, worker := .none, owner := .resetTerminate }
    else none
  | .resetTerminate =>
    some { s with terminate := false, owner := .outside, history := s.history ++ [.terminated] }

/-! ### The thread -/

/-- What the surroundings decide: that the thread goes on, or that a wait ends by itself. -/
inductive Choice
  | go
  | timeout
  | spurious

def leavePause (s : State) : State :=
  if s.terminate then s.goTo .exited else s.goTo .callWorkload

def leavePeriod (s : State) : State :=
  if s.terminate then s.goTo .exited else s.goTo .pauseWait

def workerStep (s : State) (choice : Choice) : Option State :=
  match s.worker, choice with
  | .starting delayBeforeStartMs, .go =>
    if !s.workload then some (s.goTo .exited)
    else if delayBeforeStartMs > 0 then some (s.goTo .delayWait)
    else some (s.goTo .pauseWait)
  | .delayWait, .go =>
    if s.terminate then some (s.goTo .pauseWait) else some (s.goTo .delayBlocked)
  | .delayBlocked, .timeout => some (s.goTo (.delayWoken .timeout))
  | .delayBlocked, .spurious => some (s.goTo (.delayWoken .spurious))
  | .delayWoken cause, .go =>
    if s.terminate || cause = .timeout then some (s.goTo .pauseWait) else some (s.goTo .delayBlocked)
  | .pauseWait, .go =>
    if !s.paused || s.terminate then some s.leavePause else some (s.goTo .pauseBlocked)
  | .pauseBlocked, .spurious => some (s.goTo (.pauseWoken .spurious))
  | .pauseWoken _, .go =>
    if !s.paused || s.terminate then some s.leavePause else some (s.goTo .pauseBlocked)
  | .callWorkload, .go => some ((s.goTo .inWorkload).record .workloadBegun)
  | .inWorkload, .go => some ((s.goTo .periodWait).record .workloadEnded)
  | .periodWait, .go =>
    if s.paused || s.terminate then some s.leavePeriod else some (s.goTo .periodBlocked)
  | .periodBlocked, .timeout => some (s.goTo (.periodWoken .timeout))
  | .periodBlocked, .spurious => some (s.goTo (.periodWoken .spurious))
  | .periodWoken cause, .go =>
    if s.paused || s.terminate || cause = .timeout then some s.leavePeriod
    else some (s.goTo .periodBlocked)
  | _, _ => none

inductive Action
  | owner (call : Call)
  | worker (choice : Choice)

def step (s : State) : Action → Option State
  | .owner call => s.ownerStep call
  | .worker choice => s.workerStep choice

end State

def periodicSystem : TransitionSystem State where
  Init s := ∃ workload, s = .initial workload
  Step s s' := ∃ action, s.step action = some s'

def run (workload : Bool) (actions : List State.Action) : Option State :=
  actions.foldlM State.step (.initial workload)

theorem run_reachable {workload : Bool} {actions : List State.Action} {s : State}
    (h : run workload actions = some s) : periodicSystem.Reachable s :=
  TransitionSystem.Reachable.steps (.init ⟨workload, rfl⟩ trivial)
    (TransitionSystem.steps_of_foldlM (T := periodicSystem) (fun _ action _ h => ⟨action, h⟩) h)

end CppUtils.PeriodicThread
