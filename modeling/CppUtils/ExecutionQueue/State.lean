import CppUtils.Lib.FifoLedger
import Mathlib

/-!
# The execution queue

A queue of tasks that any thread fills and any thread executes, and the history of what happened to
each task. Every function below is one block that holds `_queueMutex`.
-/

namespace CppUtils.ExecutionQueue

def untagged : ℤ := -1

inductive ExecutionMode
  | execFirst
  | execAll

/-- A queued task; `code` is none when the task is empty. The number of its `enqueue` call tells it
from the others. -/
structure QueuedTask (Code : Type) where
  id : ℕ
  tag : ℤ
  code : Option Code

/-- What became of a task that is not queued any more. -/
inductive Fate
  | takenBy (call : ℕ)
  | replacedBy (id : ℕ)
  | cleared
  deriving DecidableEq

/-- What happened to the queue. An `entered` holds the tasks queued when `exec` read their number, a
`returned` the number of tasks that the call could still have executed. -/
inductive Event (Code : Type)
  | enqueued (task : QueuedTask Code)
  | replaced (old new : QueuedTask Code)
  | cleared (task : QueuedTask Code)
  | entered (call : ℕ) (backlog : List (QueuedTask Code))
  | taken (task : QueuedTask Code) (call : ℕ)
  | called (task : QueuedTask Code) (call : ℕ)
  | returned (call tasksToExecute : ℕ)

/-- What a task throws. -/
inductive Exception
  | std (what : String)
  | unknown

/-- The queue with its log, the numbers of its calls and its history. -/
structure QueueState (Code : Type) where
  queue : List (QueuedTask Code)
  log : List String
  nextId : ℕ
  nextCall : ℕ
  history : List (Event Code)

variable {Code : Type}

def QueueState.initial : QueueState Code := ⟨[], [], 0, 0, []⟩

namespace QueueState

/-- The task that an `enqueue` with this tag replaces. -/
def existingTask (s : QueueState Code) (tag : ℤ) : Option (QueuedTask Code) :=
  if tag = untagged then none else s.queue.find? (·.tag = tag)

def enqueue (s : QueueState Code) (code : Option Code) (tag : ℤ) : QueueState Code :=
  let task : QueuedTask Code := ⟨s.nextId, tag, code⟩
  match s.existingTask tag with
  | some old =>
    { s with
      queue := s.queue.eraseP (·.tag = tag) ++ [task]
      nextId := s.nextId + 1
      history := s.history ++ [.replaced old task, .enqueued task] }
  | none =>
    { s with
      queue := s.queue ++ [task]
      nextId := s.nextId + 1
      history := s.history ++ [.enqueued task] }

def clear (s : QueueState Code) : QueueState Code :=
  { s with queue := [], history := s.history ++ s.queue.map .cleared }

/-- A call of `exec` starts; with `execAll` it reads the size of the queue. -/
def enter (s : QueueState Code) : ExecutionMode → QueueState Code
  | .execFirst => { s with nextCall := s.nextCall + 1 }
  | .execAll =>
    { s with nextCall := s.nextCall + 1, history := s.history ++ [.entered s.nextCall s.queue] }

def tasksToExecute (s : QueueState Code) : ExecutionMode → ℕ
  | .execFirst => 1
  | .execAll => s.queue.length

def tryPop (s : QueueState Code) (call : ℕ) : Option (QueuedTask Code × QueueState Code) :=
  match s.queue with
  | [] => none
  | task :: queue => some (task, { s with queue, history := s.history ++ [.taken task call] })

/-- What `exec` logs about a task that threw. -/
def logException (s : QueueState Code) : Exception → QueueState Code
  | .std what => { s with log := s.log ++ ["Exception in a queued task: " ++ what] }
  | .unknown => { s with log := s.log ++ ["Unknown exception in a queued task"] }

def record (s : QueueState Code) (e : Event Code) : QueueState Code :=
  { s with history := s.history ++ [e] }

end QueueState

/-! ### Reading the history -/

def Event.enqueued? : Event Code → Option (QueuedTask Code)
  | .enqueued task => some task
  | _ => none

def Event.fate? : Event Code → Option (ℕ × Fate)
  | .replaced old new => some (old.id, .replacedBy new.id)
  | .cleared task => some (task.id, .cleared)
  | .taken task call => some (task.id, .takenBy call)
  | _ => none

def Event.isCallOf (id : ℕ) : Event Code → Bool
  | .called task _ => task.id = id
  | _ => false

namespace QueueState

def enqueuedTasks (s : QueueState Code) : List (QueuedTask Code) :=
  s.history.filterMap Event.enqueued?

/-- Which tasks are queued and what became of the others. -/
def ledger (s : QueueState Code) : FifoLedger Fate :=
  ⟨s.nextId, s.queue.map QueuedTask.id, s.history.filterMap Event.fate?⟩

/-- What has become of a task: `none` for each time it is queued, and its fates. -/
def situations (s : QueueState Code) (id : ℕ) : List (Option Fate) := s.ledger.situations id

def timesCalled (s : QueueState Code) (id : ℕ) : ℕ := s.history.countP (Event.isCallOf id)

theorem mem_fates {s : QueueState Code} {id : ℕ} {fate : Fate} :
    (id, fate) ∈ s.ledger.fates ↔ ∃ e ∈ s.history, e.fate? = some (id, fate) :=
  List.mem_filterMap

/-! ### What an `enqueue` does -/

theorem enqueue_cases (s : QueueState Code) (code : Option Code) (tag : ℤ) :
    ((tag = untagged ∨ ∀ task ∈ s.queue, task.tag ≠ tag) ∧
      s.enqueue code tag = { s with
        queue := s.queue ++ [⟨s.nextId, tag, code⟩]
        nextId := s.nextId + 1
        history := s.history ++ [.enqueued ⟨s.nextId, tag, code⟩] }) ∨
    ∃ front old back, s.queue = front ++ old :: back ∧ old.tag = tag ∧ tag ≠ untagged ∧
      s.enqueue code tag = { s with
        queue := front ++ back ++ [⟨s.nextId, tag, code⟩]
        nextId := s.nextId + 1
        history := s.history
          ++ [.replaced old ⟨s.nextId, tag, code⟩, .enqueued ⟨s.nextId, tag, code⟩] } := by
  cases hexisting : s.existingTask tag with
  | none =>
    refine .inl ⟨?_, by rw [enqueue, hexisting]⟩
    unfold existingTask at hexisting
    split at hexisting
    · exact .inl ‹_›
    · exact .inr fun task htask => by simpa using List.find?_eq_none.mp hexisting task htask
  | some old =>
    have hfind : tag ≠ untagged ∧ s.queue.find? (·.tag = tag) = some old := by
      unfold existingTask at hexisting
      split at hexisting
      · cases hexisting
      · exact ⟨‹_›, hexisting⟩
    obtain ⟨htag, front, back, hqueue, hfront⟩ := List.find?_eq_some_iff_append.mp hfind.2
    have hold : (old :: back).eraseP (·.tag = tag) = back := List.eraseP_cons_of_pos htag
    have herase : s.queue.eraseP (·.tag = tag) = front ++ back := by
      rw [hqueue, List.eraseP_append_right _ fun task htask => by simpa using hfront task htask,
        hold]
    refine .inr ⟨front, old, back, hqueue, of_decide_eq_true htag, hfind.1, ?_⟩
    rw [enqueue, hexisting, herase]

end QueueState

end CppUtils.ExecutionQueue
