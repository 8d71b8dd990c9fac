import CppUtils.Lib.FifoLedger
import CppUtils.Lib.TransitionSystem
import Mathlib

/-!
# The consumer blocking queue

A bounded queue whose consumers wait on one condition variable. A step of a thread is one block that
holds the mutex, or the end of a wait; a thread whose wait has ended takes the mutex again before it
goes on.
-/

namespace CppUtils.ConsumerBlockingQueue

/-- A queued item. The number of the push that brought it tells it from the others. -/
structure Item (T : Type) where
  id : ℕ
  value : T

/-- What became of an item that is not queued any more. -/
inductive Fate (ι : Type)
  | delivered (t : ι)
  | removed
  deriving DecidableEq

inductive WakeCause
  | notified
  | notifiedAll
  | timeout
  | spurious
  deriving DecidableEq

/-- The functions that wait: `pop` and both overloads of `waitForItem`. -/
inductive Waiter
  | pop
  | waitForItem
  | waitForItemOr
  deriving DecidableEq

inductive Event (ι T : Type)
  | pushed (item : Item T)
  | delivered (item : Item T) (t : ι)
  | removed (item : Item T) (pred : T → Bool)
  | gaveUp (t : ι) (waiter : Waiter) (cause : WakeCause)

structure QueueState (ι T : Type) where
  queue : List (Item T)
  nextId : ℕ
  history : List (Event ι T)

structure QueuePushResult where
  pushed : Bool
  queueSize : ℕ

/-- What a call returns. A `pop` or `try_pop` that returns true has moved an item to its receiver. -/
inductive Returned (T : Type)
  | nothing
  | push (queueSize : ℕ)
  | tryPush (result : QueuePushResult)
  | pop (receiver : Option T)
  | removeIf (removedCount : ℕ)

variable {ι T : Type}

namespace QueueState

def initial : QueueState ι T := ⟨[], 0, []⟩

def emplaceBack (s : QueueState ι T) (value : T) : QueueState ι T where
  queue := s.queue ++ [⟨s.nextId, value⟩]
  nextId := s.nextId + 1
  history := s.history ++ [.pushed ⟨s.nextId, value⟩]

def popFront (s : QueueState ι T) (t : ι) : Option (T × QueueState ι T) :=
  match s.queue with
  | [] => none
  | item :: queue => some (item.value, { s with queue, history := s.history ++ [.delivered item t] })

def tryPush (maxSize : ℕ) (s : QueueState ι T) (value : T) : QueuePushResult × QueueState ι T :=
  let queueSize := s.queue.length
  if queueSize ≥ maxSize then
    (⟨false, queueSize⟩, s)
  else
    (⟨true, queueSize + 1⟩, s.emplaceBack value)

/-- One attempt of `push`: none while the queue is full, otherwise the size that it returns. -/
def pushAttempt (maxSize : ℕ) (s : QueueState ι T) (value : T) : Option (ℕ × QueueState ι T) :=
  let queueSize := s.queue.length
  if queueSize ≥ maxSize then none else some (queueSize + 1, s.emplaceBack value)

def removeIf (s : QueueState ι T) (pred : T → Bool) : ℕ × QueueState ι T :=
  ((s.queue.filter fun item => pred item.value).length,
    { s with
      queue := s.queue.filter fun item => !pred item.value
      history := s.history ++ (s.queue.filter fun item => pred item.value).map (.removed · pred) })

def record (s : QueueState ι T) (e : Event ι T) : QueueState ι T :=
  { s with history := s.history ++ [e] }

end QueueState

/-! ### The threads -/

/-- A call of the queue with its arguments. -/
inductive Call (T : Type)
  | push (item : T)
  | tryPush (item : T)
  | tryPop
  | removeIf (pred : T → Bool)
  | wait (waiter : Waiter)
  | wakeAllThreads

/-- Where a thread is: outside the queue, with what its last call returned; about to enter the mutex;
blocked in a wait; or with a wake-up pending. -/
inductive ThreadPc (T : Type)
  | outside (returned : Returned T)
  | inside (call : Call T)
  | blocked (waiter : Waiter)
  | woken (waiter : Waiter) (cause : WakeCause)

def ThreadPc.isBlocked : ThreadPc T → Bool
  | .blocked _ => true
  | _ => false

/-- What the surroundings decide at a step: which call a thread makes, which blocked thread a
`notify_one` unblocks, what the extra wake condition returns, and when a wait ends by itself. -/
inductive Action (ι T : Type)
  | call (call : Call T)
  | go (notified : Option ι) (extraWakeCondition : Bool)
  | timeout
  | spurious

/-- The queue with the threads that use it. -/
structure QueueSystem (ι T : Type) where
  state : QueueState ι T
  threads : ι → ThreadPc T

variable [DecidableEq ι]

def QueueSystem.set (s : QueueSystem ι T) (t : ι) (pc : ThreadPc T) (state : QueueState ι T) :
    QueueSystem ι T :=
  ⟨state, Function.update s.threads t pc⟩

/-- `notify_one` unblocks the given thread, and none only when no thread is blocked. -/
def notifyOne [Fintype ι] (notified : Option ι) (threads : ι → ThreadPc T) :
    Option (ι → ThreadPc T) :=
  match notified with
  | none => if ∃ t, (threads t).isBlocked = true then none else some threads
  | some t =>
    match threads t with
    | .blocked waiter => some (Function.update threads t (.woken waiter .notified))
    | _ => none

def notifyAll (threads : ι → ThreadPc T) : ι → ThreadPc T := fun t =>
  match threads t with
  | .blocked waiter => .woken waiter .notifiedAll
  | pc => pc

def enter [Fintype ι] (maxSize : ℕ) (t : ι) (notified : Option ι) (extraWakeCondition : Bool)
    (s : QueueSystem ι T) : Call T → Option (QueueSystem ι T)
  | .push item =>
    match s.state.pushAttempt maxSize item with
    | none => some s
    | some (queueSize, state) =>
      (notifyOne notified s.threads).map fun threads =>
        ⟨state, Function.update threads t (.outside (.push queueSize))⟩
  | .tryPush item =>
    match s.state.tryPush maxSize item with
    | (⟨false, queueSize⟩, state) => some (s.set t (.outside (.tryPush ⟨false, queueSize⟩)) state)
    | (⟨true, queueSize⟩, state) =>
      (notifyOne notified s.threads).map fun threads =>
        ⟨state, Function.update threads t (.outside (.tryPush ⟨true, queueSize⟩))⟩
  | .tryPop =>
    match s.state.popFront t with
    | none => some (s.set t (.outside (.pop none)) s.state)
    | some (item, state) => some (s.set t (.outside (.pop (some item))) state)
  | .removeIf pred =>
    let (removedCount, state) := s.state.removeIf pred
    some (s.set t (.outside (.removeIf removedCount)) state)
  | .wait .pop =>
    match s.state.popFront t with
    | none => some (s.set t (.blocked .pop) s.state)
    | some (receiver, state) => some (s.set t (.outside (.pop (some receiver))) state)
  | .wait .waitForItem =>
    if s.state.queue.isEmpty then some (s.set t (.blocked .waitForItem) s.state)
    else some (s.set t (.outside .nothing) s.state)
  | .wait .waitForItemOr =>
    if !s.state.queue.isEmpty || extraWakeCondition then some (s.set t (.outside .nothing) s.state)
    else some (s.set t (.blocked .waitForItemOr) s.state)
  | .wakeAllThreads => some ⟨s.state, Function.update (notifyAll s.threads) t (.outside .nothing)⟩

/-- A thread whose wait has ended takes the mutex again. -/
def leave (t : ι) (extraWakeCondition : Bool) (s : QueueSystem ι T) (cause : WakeCause) :
    Waiter → QueueSystem ι T
  | .pop =>
    match s.state.popFront t with
    | none => s.set t (.outside (.pop none)) (s.state.record (.gaveUp t .pop cause))
    | some (receiver, state) => s.set t (.outside (.pop (some receiver))) state
  | .waitForItem =>
    if s.state.queue.isEmpty then
      s.set t (.outside .nothing) (s.state.record (.gaveUp t .waitForItem cause))
    else s.set t (.outside .nothing) s.state
  | .waitForItemOr =>
    if !s.state.queue.isEmpty || extraWakeCondition then s.set t (.outside .nothing) s.state
    else if cause = .timeout then
      s.set t (.outside .nothing) (s.state.record (.gaveUp t .waitForItemOr cause))
    else s.set t (.blocked .waitForItemOr) s.state

def step [Fintype ι] (maxSize : ℕ) (t : ι) (a : Action ι T) (s : QueueSystem ι T) :
    Option (QueueSystem ι T) :=
  match s.threads t, a with
  | .outside _, .call call => some (s.set t (.inside call) s.state)
  | .inside call, .go notified extraWakeCondition =>
    enter maxSize t notified extraWakeCondition s call
  | .blocked waiter, .timeout => some (s.set t (.woken waiter .timeout) s.state)
  | .blocked waiter, .spurious => some (s.set t (.woken waiter .spurious) s.state)
  | .woken waiter cause, .go _ extraWakeCondition => some (leave t extraWakeCondition s cause waiter)
  | _, _ => none

/-- Every interleaving of the calls of any threads, on an empty queue at first. -/
def queueSystem [Fintype ι] (maxSize : ℕ) : TransitionSystem (QueueSystem ι T) where
  Init s := s = ⟨.initial, fun _ => .outside .nothing⟩
  Step s s' := ∃ t a, step maxSize t a s = some s'

/-! ### What a step can do -/

/-- What a step of a thread does to the queue and to the threads. -/
inductive Move [Fintype ι] (maxSize : ℕ) (t : ι) (s : QueueSystem ι T) : QueueSystem ι T → Prop
  | pushed {notified : Option ι} {threads : ι → ThreadPc T} (value : T) (returned : Returned T)
      (hpc : s.threads t = .inside (.push value) ∧ returned = .push (s.state.queue.length + 1) ∨
        s.threads t = .inside (.tryPush value) ∧ returned = .tryPush ⟨true, s.state.queue.length + 1⟩)
      (hroom : s.state.queue.length < maxSize)
      (hnotify : notifyOne notified s.threads = some threads) :
    Move maxSize t s ⟨s.state.emplaceBack value, Function.update threads t (.outside returned)⟩
  | full {call : Call T} (hpc : s.threads t = .inside call) : Move maxSize t s s
  | delivered {item : T} {state : QueueState ι T}
      (hpc : (∃ call, s.threads t = .inside call) ∨ ∃ cause, s.threads t = .woken .pop cause)
      (hpop : s.state.popFront t = some (item, state)) :
    Move maxSize t s (s.set t (.outside (.pop (some item))) state)
  | removed {call : Call T} (pred : T → Bool) (hpc : s.threads t = .inside call) :
    Move maxSize t s (s.set t (.outside (.removeIf (s.state.removeIf pred).1)) (s.state.removeIf pred).2)
  | wakeAll {call : Call T} (hpc : s.threads t = .inside call) :
    Move maxSize t s ⟨s.state, Function.update (notifyAll s.threads) t (.outside .nothing)⟩
  | blocks {waiter : Waiter} (hempty : s.state.queue = []) :
    Move maxSize t s (s.set t (.blocked waiter) s.state)
  | leaves (returned : Returned T)
      (hpc : (∃ call, s.threads t = .inside call) ∨
        ∃ waiter cause, s.threads t = .woken waiter cause ∧ waiter ≠ .pop)
      (hpop : ∀ receiver, returned = .pop receiver → receiver = none ∧ s.state.queue = []) :
    Move maxSize t s (s.set t (.outside returned) s.state)
  | gaveUp {waiter : Waiter} {cause : WakeCause} (returned : Returned T)
      (hpc : s.threads t = .woken waiter cause) (hempty : s.state.queue = [])
      (hpop : ∀ receiver, returned = .pop receiver → receiver = none) :
    Move maxSize t s (s.set t (.outside returned) (s.state.record (.gaveUp t waiter cause)))
  | calls {returned : Returned T} (call : Call T) (hpc : s.threads t = .outside returned) :
    Move maxSize t s (s.set t (.inside call) s.state)
  | wakes {waiter : Waiter} {cause : WakeCause} (hpc : s.threads t = .blocked waiter) :
    Move maxSize t s (s.set t (.woken waiter cause) s.state)

omit [DecidableEq ι] in
theorem QueueState.popFront_eq_none {s : QueueState ι T} {t : ι} :
    s.popFront t = none ↔ s.queue = [] := by
  unfold popFront
  split <;> simp_all

variable [Fintype ι] {maxSize : ℕ} {s s' : QueueSystem ι T}

theorem enter_move {t : ι} {notified : Option ι} {extraWakeCondition : Bool} {call : Call T}
    (hpc : s.threads t = .inside call)
    (h : enter maxSize t notified extraWakeCondition s call = some s') : Move maxSize t s s' := by
  cases call with
  | push item =>
    simp only [enter, QueueState.pushAttempt] at h
    by_cases hfull : s.state.queue.length ≥ maxSize
    · rw [if_pos hfull] at h
      cases h
      exact .full hpc
    · rw [if_neg hfull] at h
      obtain ⟨threads, hnotify, rfl⟩ := Option.map_eq_some_iff.mp h
      exact .pushed item _ (.inl ⟨hpc, rfl⟩) (by omega) hnotify
  | tryPush item =>
    simp only [enter, QueueState.tryPush] at h
    by_cases hfull : s.state.queue.length ≥ maxSize
    · rw [if_pos hfull] at h
      cases h
      exact .leaves _ (.inl ⟨_, hpc⟩) (by simp)
    · rw [if_neg hfull] at h
      obtain ⟨threads, hnotify, rfl⟩ := Option.map_eq_some_iff.mp h
      exact .pushed item _ (.inr ⟨hpc, rfl⟩) (by omega) hnotify
  | tryPop =>
    simp only [enter] at h
    split at h
    · rename_i hnone
      cases h
      refine .leaves _ (.inl ⟨_, hpc⟩) fun receiver h => ⟨?_, QueueState.popFront_eq_none.mp hnone⟩
      cases h
      rfl
    · rename_i receiver state hpop
      cases h
      exact .delivered (.inl ⟨_, hpc⟩) hpop
  | removeIf pred =>
    cases h
    exact .removed pred hpc
  | wait waiter =>
    cases waiter with
    | pop =>
      simp only [enter] at h
      split at h
      · rename_i hnone
        cases h
        exact .blocks (QueueState.popFront_eq_none.mp hnone)
      · rename_i receiver state hpop
        cases h
        exact .delivered (.inl ⟨_, hpc⟩) hpop
    | waitForItem =>
      simp only [enter] at h
      split at h
      · rename_i hempty
        cases h
        exact .blocks (List.isEmpty_iff.mp hempty)
      · cases h
        exact .leaves _ (.inl ⟨_, hpc⟩) (by simp)
    | waitForItemOr =>
      simp only [enter] at h
      split at h
      · cases h
        exact .leaves _ (.inl ⟨_, hpc⟩) (by simp)
      · rename_i hwait
        cases h
        have hempty : s.state.queue = [] := by simp_all
        exact .blocks hempty
  | wakeAllThreads =>
    cases h
    exact .wakeAll hpc

theorem leave_move {t : ι} {extraWakeCondition : Bool} {waiter : Waiter} {cause : WakeCause}
    (hpc : s.threads t = .woken waiter cause) :
    Move maxSize t s (leave t extraWakeCondition s cause waiter) := by
  cases waiter with
  | pop =>
    simp only [leave]
    split
    · rename_i hnone
      refine .gaveUp _ hpc (QueueState.popFront_eq_none.mp hnone) fun receiver h => ?_
      cases h
      rfl
    · rename_i receiver state hpop
      exact .delivered (.inr ⟨cause, hpc⟩) hpop
  | waitForItem =>
    simp only [leave]
    split
    · rename_i hempty
      exact .gaveUp _ hpc (List.isEmpty_iff.mp hempty) (by simp)
    · exact .leaves _ (.inr ⟨_, _, hpc, by simp⟩) (by simp)
  | waitForItemOr =>
    simp only [leave]
    split
    · exact .leaves _ (.inr ⟨_, _, hpc, by simp⟩) (by simp)
    · rename_i hwait
      have hempty : s.state.queue = [] := by simp_all
      split
      · exact .gaveUp _ hpc hempty (by simp)
      · exact .blocks hempty

theorem step_move {t : ι} {a : Action ι T} (h : step maxSize t a s = some s') : Move maxSize t s s' := by
  unfold step at h
  split at h
  · rename_i call hpc
    cases h
    exact .calls call hpc
  · rename_i hpc
    exact enter_move hpc h
  · rename_i hpc
    cases h
    exact .wakes hpc
  · rename_i hpc
    cases h
    exact .wakes hpc
  · rename_i hpc
    cases h
    exact leave_move hpc
  · cases h

def run (maxSize : ℕ) (moves : List (ι × Action ι T)) : Option (QueueSystem ι T) :=
  moves.foldlM (fun s move => step maxSize move.1 move.2 s) ⟨.initial, fun _ => .outside .nothing⟩

theorem run_reachable {moves : List (ι × Action ι T)} (h : run maxSize moves = some s) :
    (queueSystem maxSize).Reachable s :=
  TransitionSystem.Reachable.steps (.init rfl trivial)
    (TransitionSystem.steps_of_foldlM (T := queueSystem maxSize)
      (fun _ move _ hstep => ⟨move.1, move.2, hstep⟩) h)

end CppUtils.ConsumerBlockingQueue
