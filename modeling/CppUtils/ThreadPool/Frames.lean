import CppUtils.ThreadPool.State

/-!
# Calls in progress

Where a thread is inside each function of the pool. A step of a function is one mutex-held block,
one atomic access or one local move; between two of them the thread stands at one of the points
below, which are named after what the function does next.
-/

namespace CppUtils

inductive Outcome
  | returned
  | threw
  deriving DecidableEq

/-- The public functions of the pool that user code calls, with their arguments. -/
inductive UserCall (Code : Type)
  | enqueue (task : Code) (tag : ℕ)
  | retire (tag : ℕ)
  | parallelFor (count : ℕ) (fn : ℕ → Code)
  | parallelForAsync (count : ℕ) (fn : ℕ → Code) (onAllCompleted : Code)
  | finishAllThreads (completePendingTasks : Bool)
  | abandonAllThreads

/-- What user code does next: call the pool and resume, return, or throw. -/
inductive UserStep (Code : Type)
  | call (request : UserCall Code) (resume : Outcome → Code)
  | ret
  | throw

/-- The code of tasks, of loop bodies and of the threads outside the pool. What it does may depend
on inputs the pool does not see. -/
structure UserCode where
  Code : Type
  Input : Type
  next : Code → Input → UserStep Code

inductive TryGetTaskPc (Code : Type)
  | own
  | checkQueued
  | steal (offset : ℕ)
  | popped (item : TaggedTask Code)

inductive RunWorkerPc (Code : Type)
  | starting
  | loopHead
  | tryGetTask (pc : TryGetTaskPc Code)
  | taggedTaskCanRun (item : TaggedTask Code)
  | begin (item : TaggedTask Code)
  | running (item : TaggedTask Code)
  | completeTaggedTask (item : TaggedTask Code) (fate : Fate)
  | scopeEnd (item : TaggedTask Code) (fate : Fate)
  | enterIdle
  | idlePredicate
  | idleWait
  | leaveIdle

inductive EnqueuePc (workers : ℕ) (Code : Type)
  | start (task : Closure Code) (tag : ℕ)
  | register (index : Fin workers) (item : TaggedTask Code)
  | increment (index : Fin workers) (item : TaggedTask Code)
  | push (index : Fin workers) (item : TaggedTask Code)
  | undoIncrement (item : TaggedTask Code)
  | completeTaggedTask (item : TaggedTask Code)
  | rethrow (item : TaggedTask Code)
  | gate
  | notify

/-- Inside `retire`; `tagState` is its local pointer and `removedCount` its local count. -/
inductive RetirePc
  | start
  | sweep (tagState : ℕ) (index : ℕ) (removedCount : ℕ)
  | subtractQueued (tagState : ℕ) (removedCount : ℕ)
  | subtractOutstanding (tagState : ℕ) (removedCount : ℕ)
  | wait (tagState : ℕ)

/-- Inside `finishAllThreads`. `item` is its local `TaggedTask`, none while it is empty. -/
inductive FinishPc (workers : ℕ) (Code : Type)
  | setTerminate
  | notifyAll
  | join (rest : List (Fin workers))
  | assertIdle
  | drain (drainedAny : Bool) (index : ℕ) (item : Option (TaggedTask Code × Fate))
  | decrement (index : ℕ) (item : TaggedTask Code)
  | taggedTaskCanRun (index : ℕ) (item : TaggedTask Code)
  | begin (index : ℕ) (item : TaggedTask Code)
  | running (index : ℕ) (item : TaggedTask Code)
  | completeTaggedTask (index : ℕ) (item : TaggedTask Code) (fate : Fate)
  | assertQueued (item : Option (TaggedTask Code × Fate))

inductive AbandonPc (Code : Type)
  | setTerminate
  | notifyAll
  | sweep (index : ℕ) (item : Option (TaggedTask Code))
  | decrement (index : ℕ) (item : TaggedTask Code)
  | completeTaggedTask (index : ℕ) (item : TaggedTask Code)
  | detach

/-- Inside `parallelFor`; `batch` is its local `state`. -/
inductive ParallelForPc (Code : Type)
  | start (count : ℕ) (fn : ℕ → Code)
  | single
  | helpers (batch : ℕ) (i helperCount : ℕ)
  | lock (batch : ℕ)
  | wait (batch : ℕ)

inductive ParallelForAsyncPc (Code : Type)
  | start (count : ℕ) (fn : ℕ → Code) (onAllCompleted : Code)
  | empty
  | helpers (batch : ℕ) (i helperCount : ℕ)

inductive DrainPc
  | fetch
  | inFn (index : ℕ)
  | complete (index : ℕ)
  | allCompleted
  | inCompletion
  deriving DecidableEq

/-- A call in progress. `body` is user code about to act, `calling` user code inside a call of the
pool, and `unwinding` an exception on its way to the frame below it. -/
inductive Frame (workers : ℕ) (Code : Type)
  | body (code : Code)
  | calling (resume : Outcome → Code)
  | unwinding
  | runWorker (own : Fin workers) (pc : RunWorkerPc Code)
  | enqueue (pc : EnqueuePc workers Code)
  | retire (tag : ℕ) (pc : RetirePc)
  | finishAllThreads (completePendingTasks : Bool) (pc : FinishPc workers Code)
  | abandonAllThreads (pc : AbandonPc Code)
  | parallelFor (pc : ParallelForPc Code)
  | parallelForAsync (pc : ParallelForAsyncPc Code)
  | drainIndices (batch : ℕ) (pc : DrainPc)

/-- What the surroundings decide at a step: where a node is allocated, whether a push throws, which
thread a `notify_one` unblocks, whether a wait ends by itself, and what user code sees. -/
inductive Choice (workers clients : ℕ) (Input : Type)
  | go
  | address (a : ℕ)
  | pushThrows
  | notify (t : ThreadId workers clients)
  | spurious
  | timeout
  | input (i : Input)

def Closure.frame {workers : ℕ} {Code : Type} : Closure Code → Frame workers Code
  | .user code => .body code
  | .drainIndices batch => .drainIndices batch .fetch

end CppUtils
