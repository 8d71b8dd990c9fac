import CppUtils.Lib.Threads
import CppUtils.Lib.BoundedQueue

/-!
# The state of the thread pool

`CThreadPool::State` of `threading/cthreadpool.h`, with the handles `_workerThreads` of the pool
object. The counters are integers, so that a count below zero is a value one can rule out instead
of a wrapped one. A condition variable is the set of threads blocked on it: a thread that is in the
wait but no longer in the set has a wake-up pending.

`History` records what no code reads: the serial numbers of the enqueue calls and what became of
their tasks.
-/

namespace CppUtils

/-- `Math::FastMod32`: the remainder by a fixed divisor, for 32-bit operands. -/
structure FastMod32 (divisor : ℕ) where
  mod : ℕ → ℕ
  mod_eq : ∀ x, x < 2 ^ 32 → mod x = x % divisor

/-- What the constructor fixes: the number of workers, a non-zero `uint32_t`. -/
structure PoolConfig where
  maxNumThreads : ℕ
  pos : 0 < maxNumThreads
  lt : maxNumThreads < 2 ^ 32
  laneSelectorMod : FastMod32 maxNumThreads

instance (cfg : PoolConfig) : NeZero cfg.maxNumThreads := ⟨cfg.pos.ne'⟩

/-- `laneSelectorMod.mod(x)` as the index of a lane; the argument is a `uint32_t`. -/
def PoolConfig.lane (cfg : PoolConfig) (x : ℕ) : Fin cfg.maxNumThreads :=
  ⟨cfg.laneSelectorMod.mod (x % 2 ^ 32), by
    rw [cfg.laneSelectorMod.mod_eq _ (Nat.mod_lt _ (Nat.two_pow_pos 32))]
    exact Nat.mod_lt _ cfg.pos⟩

theorem PoolConfig.lane_val (cfg : PoolConfig) (x : ℕ) :
    (cfg.lane x).val = x % 2 ^ 32 % cfg.maxNumThreads :=
  cfg.laneSelectorMod.mod_eq _ (Nat.mod_lt _ (Nat.two_pow_pos 32))

/-- The threads that use a pool: its workers, the thread that owns it, and any others. -/
inductive ThreadId (workers clients : ℕ)
  | worker (index : Fin workers)
  | owner
  | client (index : Fin clients)
  deriving DecidableEq, Fintype

/-- A callable: user code, or the helper `[state]{ state->drainIndices(); }` of a batch. -/
inductive Closure (Code : Type)
  | user (code : Code)
  | drainIndices (batch : ℕ)

/-- `TaggedTask`. `tagState` is the address of a `TaskTagState`, none for the null pointer. The
serial number and the tag given to `enqueue` are kept for the statements. -/
structure TaggedTask (Code : Type) where
  tagState : Option ℕ
  task : Closure Code
  id : ℕ
  tag : ℕ

/-- A node of the map `tagStates`: its key and its `TaskTagState`. -/
structure TagNode where
  tag : ℕ
  outstandingTaskCount : ℤ
  retired : Bool

namespace TagNode

@[simps] def add (node : TagNode) (k : ℤ) : TagNode :=
  { node with outstandingTaskCount := node.outstandingTaskCount + k }

@[simps] def retire (node : TagNode) : TagNode := { node with retired := true }

end TagNode

/-- What became of a task whose closure has been destroyed. -/
inductive Fate
  | ran
  | skipped
  | removedByRetire
  | abandoned
  | discarded
  | dropped
  deriving DecidableEq

/-! ### Records -/

/-- What happened to a task or to a tag: the task is registered under a tag, the tag is retired, the
body of a task begins on a worker (none for the thread that drains the pool), the closure of a task
is destroyed. -/
inductive TaskEvent (workers : ℕ)
  | registered (id tag : ℕ)
  | retired (tag : ℕ)
  | begun (id : ℕ) (worker : Option (Fin workers))
  | finished (id : ℕ) (fate : Fate)
  deriving DecidableEq

namespace TaskEvent

variable {workers : ℕ}

/-- The closure of this task is destroyed. -/
def ends (id : ℕ) : TaskEvent workers → Bool
  | .finished id' _ => id' = id
  | _ => false

/-- The closure of this task is destroyed after its body ran. -/
def endsRan (id : ℕ) : TaskEvent workers → Bool
  | .finished id' fate => id' = id ∧ fate = .ran
  | _ => false

/-- The body of this task begins. -/
def begins (id : ℕ) : TaskEvent workers → Bool
  | .begun id' _ => id' = id
  | _ => false

section

variable (id id' tag : ℕ) (fate : Fate) (worker : Option (Fin workers))

@[simp] theorem ends_registered : (registered id' tag : TaskEvent workers).ends id = false := rfl

@[simp] theorem ends_retired : (retired tag : TaskEvent workers).ends id = false := rfl

@[simp] theorem ends_begun : (begun id' worker).ends id = false := rfl

@[simp] theorem ends_finished :
    (finished id' fate : TaskEvent workers).ends id = decide (id' = id) := rfl

@[simp] theorem endsRan_registered : (registered id' tag : TaskEvent workers).endsRan id = false := rfl

@[simp] theorem endsRan_retired : (retired tag : TaskEvent workers).endsRan id = false := rfl

@[simp] theorem endsRan_begun : (begun id' worker).endsRan id = false := rfl

@[simp] theorem endsRan_finished :
    (finished id' fate : TaskEvent workers).endsRan id = decide (id' = id ∧ fate = .ran) := rfl

@[simp] theorem begins_registered : (registered id' tag : TaskEvent workers).begins id = false := rfl

@[simp] theorem begins_retired : (retired tag : TaskEvent workers).begins id = false := rfl

@[simp] theorem begins_begun : (begun id' worker).begins id = decide (id' = id) := rfl

@[simp] theorem begins_finished : (finished id' fate : TaskEvent workers).begins id = false := rfl

end

end TaskEvent

/-- The serial numbers handed out, and the events so far, the latest first. -/
structure History (workers : ℕ) where
  nextTaskId : ℕ
  events : List (TaskEvent workers)

namespace History

variable {workers : ℕ} {Code : Type} (h : History workers)

@[simps] def newTask : History workers := { h with nextTaskId := h.nextTaskId + 1 }

@[simps] def register (item : TaggedTask Code) : History workers :=
  { h with events := .registered item.id item.tag :: h.events }

@[simps] def retire (tag : ℕ) : History workers := { h with events := .retired tag :: h.events }

@[simps] def beginBody (item : TaggedTask Code) (worker : Option (Fin workers)) : History workers :=
  { h with events := .begun item.id worker :: h.events }

@[simps] def finish (item : TaggedTask Code) (fate : Fate) : History workers :=
  { h with events := .finished item.id fate :: h.events }

/-- The closure in a local `TaggedTask`, if it holds one, is destroyed. -/
def finishLocal : Option (TaggedTask Code × Fate) → History workers
  | none => h
  | some (item, fate) => h.finish item fate

@[simp] theorem finishLocal_none : h.finishLocal (none : Option (TaggedTask Code × Fate)) = h := rfl

@[simp] theorem finishLocal_some (item : TaggedTask Code) (fate : Fate) :
    h.finishLocal (some (item, fate)) = h.finish item fate := rfl

@[simps] def finishAll (items : List (TaggedTask Code)) (fate : Fate) : History workers :=
  { h with events := items.map (fun item => .finished item.id fate) ++ h.events }

end History

/-! ### The shared state -/

/-- The default `maxSize` of `CConsumerBlockingQueue`: `int32_max`. -/
def laneMaxSize : ℕ := 2 ^ 31 - 1

abbrev Lane (Code : Type) := BoundedQueue (TaggedTask Code) laneMaxSize

structure PoolState (workers clients : ℕ) (Code : Type) where
  queues : Fin workers → Lane Code
  terminate : Bool
  startedWorkerCount : ℕ
  idleCount : ℤ
  idleCv : Finset (ThreadId workers clients)
  laneSelector : ℕ
  queuedCount : ℤ
  tagStateChanged : Finset (ThreadId workers clients)
  tagStates : ℕ → Option ℕ
  tagNodes : ℕ → Option TagNode
  workerThreads : List (Fin workers)
  exited : Finset (Fin workers)
  history : History workers

namespace PoolState

variable {workers clients : ℕ} {Code : Type}

/-- The state that the constructor leaves, with every worker thread started. -/
def initial (workers clients : ℕ) (Code : Type) : PoolState workers clients Code where
  queues _ := .empty
  terminate := false
  startedWorkerCount := 0
  idleCount := 0
  idleCv := ∅
  laneSelector := 0
  queuedCount := 0
  tagStateChanged := ∅
  tagStates _ := none
  tagNodes _ := none
  workerThreads := List.finRange workers
  exited := ∅
  history := ⟨0, []⟩

variable (s : PoolState workers clients Code)

def laneTotal : ℕ := ∑ i, (s.queues i).items.length

/-! Writes of the single words, and of the records. -/

@[simps] def setLane (index : Fin workers) (lane : Lane Code) : PoolState workers clients Code :=
  { s with queues := Function.update s.queues index lane }

@[simps] def requestStop : PoolState workers clients Code := { s with terminate := true }

@[simps] def countStarted : PoolState workers clients Code :=
  { s with startedWorkerCount := s.startedWorkerCount + 1 }

@[simps] def addIdle (k : ℤ) : PoolState workers clients Code :=
  { s with idleCount := s.idleCount + k }

@[simps] def addQueued (k : ℤ) : PoolState workers clients Code :=
  { s with queuedCount := s.queuedCount + k }

@[simps] def advanceSelector : PoolState workers clients Code :=
  { s with laneSelector := (s.laneSelector + 1) % 2 ^ 32 }

@[simps] def setNode (tagState : ℕ) (node : TagNode) : PoolState workers clients Code :=
  { s with tagNodes := Function.update s.tagNodes tagState (some node) }

@[simps] def setIdleCv (waiters : Finset (ThreadId workers clients)) :
    PoolState workers clients Code :=
  { s with idleCv := waiters }

@[simps] def setTagStateChanged (waiters : Finset (ThreadId workers clients)) :
    PoolState workers clients Code :=
  { s with tagStateChanged := waiters }

@[simps] def clearWorkerThreads : PoolState workers clients Code := { s with workerThreads := [] }

@[simps] def exit (worker : Fin workers) : PoolState workers clients Code :=
  { s with exited := insert worker s.exited }

@[simps] def setHistory (h : History workers) : PoolState workers clients Code :=
  { s with history := h }

@[simps] def setTags (tagStates : ℕ → Option ℕ) (tagNodes : ℕ → Option TagNode)
    (tagStateChanged : Finset (ThreadId workers clients)) : PoolState workers clients Code :=
  { s with tagStates := tagStates, tagNodes := tagNodes, tagStateChanged := tagStateChanged }

@[simps] def emplaceNode (tag address : ℕ) : PoolState workers clients Code :=
  { s with
    tagStates := Function.update s.tagStates tag (some address)
    tagNodes := Function.update s.tagNodes address (some ⟨tag, 0, false⟩) }

@[simps] def eraseNode (tag tagState : ℕ) : PoolState workers clients Code :=
  { s with
    tagStates := Function.update s.tagStates tag none
    tagNodes := Function.update s.tagNodes tagState none }

/-! ### The lanes -/

/-- `queues[index].try_pop`. -/
def tryPop (index : Fin workers) : Option (TaggedTask Code × PoolState workers clients Code) :=
  match (s.queues index).popFront with
  | none => none
  | some (item, lane) => some (item, s.setLane index lane)

/-- One attempt of `queues[index].push`; none while the lane is full, where `push` tries again.
No thread waits on the condition variable of a lane. -/
def push (index : Fin workers) (item : TaggedTask Code) : Option (PoolState workers clients Code) :=
  match (s.queues index).pushBack item with
  | none => none
  | some lane => some (s.setLane index lane)

/-- The items of a lane that `retire` removes. -/
def matching (index : Fin workers) (tagState : ℕ) : List (TaggedTask Code) :=
  (s.queues index).items.filter fun item => item.tagState = some tagState

/-- `queues[index].remove_if` with the predicate of `retire`; the removed tasks are destroyed. -/
def removeIf (index : Fin workers) (tagState : ℕ) : PoolState workers clients Code :=
  (s.setLane index ((s.queues index).eraseIf fun item => item.tagState = some tagState)).setHistory
    (s.history.finishAll (s.matching index tagState) .removedByRetire)

/-! ### Tags

`tagStates` is the index of the map and `tagNodes` its nodes by address. A pointer to a node that
has been erased has no value, so a step that follows one is not defined. -/

/-- `tagStates.try_emplace(tag)`: the address of the node, which for a new node is chosen by the
allocator among the free ones. -/
def tryEmplace (tag address : ℕ) : Option (ℕ × PoolState workers clients Code) :=
  match s.tagStates tag with
  | some tagState => some (tagState, s)
  | none =>
    match s.tagNodes address with
    | some _ => none
    | none => some (address, s.emplaceNode tag address)

/-- The last lines of `retire`: `tagStates.erase(it)`, if `it` is still this node. -/
def eraseTag (tag tagState : ℕ) : PoolState workers clients Code :=
  if s.tagStates tag = some tagState then s.eraseNode tag tagState else s

/-- `State::taggedTaskCanRun`. -/
def taggedTaskCanRun (tagState : Option ℕ) : Option Bool :=
  match tagState with
  | none => some true
  | some address =>
    match s.tagNodes address with
    | none => none
    | some node => some (!node.retired)

/-- `State::completeTaggedTask`. -/
def completeTaggedTask (tagState : Option ℕ) : Option (PoolState workers clients Code) :=
  match tagState with
  | none => some s
  | some address =>
    match s.tagNodes address with
    | none => none
    | some node =>
      if (node.add (-1)).outstandingTaskCount = 0 then
        some ((s.setNode address (node.add (-1))).setTagStateChanged ∅)
      else some (s.setNode address (node.add (-1)))

/-! ### What the operations do -/

variable {s} {s' : PoolState workers clients Code} {item : TaggedTask Code} {index : Fin workers}

theorem tryPop_eq_some (h : s.tryPop index = some (item, s')) :
    ∃ lane : Lane Code, (s.queues index).items = item :: lane.items ∧ s' = s.setLane index lane := by
  unfold tryPop at h
  split at h
  · cases h
  · rename_i lane hpop
    cases h
    exact ⟨lane, BoundedQueue.popFront_eq_some hpop, rfl⟩

theorem tryPop_eq_none : s.tryPop index = none ↔ (s.queues index).items = [] := by
  rw [← BoundedQueue.popFront_eq_none]
  unfold tryPop
  split <;> simp_all

theorem push_eq_some (h : s.push index item = some s') :
    ∃ lane : Lane Code, lane.items = (s.queues index).items ++ [item] ∧
      s' = s.setLane index lane := by
  unfold push at h
  split at h
  · cases h
  · rename_i lane hpush
    cases h
    exact ⟨lane, BoundedQueue.pushBack_eq_some hpush, rfl⟩

theorem push_eq_none : s.push index item = none ↔ laneMaxSize ≤ (s.queues index).items.length := by
  rw [← BoundedQueue.pushBack_eq_none (x := item)]
  unfold push
  split <;> simp_all

theorem laneTotal_setLane (s : PoolState workers clients Code) (index : Fin workers)
    (lane : Lane Code) :
    (s.setLane index lane).laneTotal + (s.queues index).items.length
      = s.laneTotal + lane.items.length := by
  obtain ⟨r, hbefore, hafter⟩ := sum_split (fun lane : Lane Code => lane.items.length) s.queues index
  have hset : (s.setLane index lane).laneTotal = lane.items.length + r := hafter lane
  have hold : s.laneTotal = (s.queues index).items.length + r := hbefore
  omega

theorem length_le_laneTotal (s : PoolState workers clients Code) (index : Fin workers) :
    (s.queues index).items.length ≤ s.laneTotal :=
  Finset.single_le_sum (f := fun i => (s.queues i).items.length) (fun _ _ => Nat.zero_le _)
    (Finset.mem_univ index)

theorem laneTotal_eq_zero (s : PoolState workers clients Code) :
    s.laneTotal = 0 ↔ ∀ i, (s.queues i).items = [] := by
  simp [laneTotal]

theorem laneTotal_tryPop (h : s.tryPop index = some (item, s')) :
    s'.laneTotal + 1 = s.laneTotal := by
  obtain ⟨lane, hlane, rfl⟩ := tryPop_eq_some h
  have htotal := s.laneTotal_setLane index lane
  have hlength := congrArg List.length hlane
  rw [List.length_cons] at hlength
  omega

theorem laneTotal_push (h : s.push index item = some s') : s'.laneTotal = s.laneTotal + 1 := by
  obtain ⟨lane, hlane, rfl⟩ := push_eq_some h
  have htotal := s.laneTotal_setLane index lane
  have hlength := congrArg List.length hlane
  rw [List.length_append, List.length_singleton] at hlength
  omega

theorem length_matching_add (s : PoolState workers clients Code) (index : Fin workers)
    (tagState : ℕ) :
    (s.matching index tagState).length
      + ((s.queues index).eraseIf fun item => item.tagState = some tagState).items.length
      = (s.queues index).items.length :=
  (List.length_eq_length_filter_add _).symm

theorem laneTotal_removeIf (s : PoolState workers clients Code) (index : Fin workers)
    (tagState : ℕ) :
    (s.removeIf index tagState).laneTotal + (s.matching index tagState).length = s.laneTotal := by
  have hset := s.laneTotal_setLane index
    ((s.queues index).eraseIf fun item => item.tagState = some tagState)
  have hlength := s.length_matching_add index tagState
  have hhistory : (s.removeIf index tagState).laneTotal = (s.setLane index
    ((s.queues index).eraseIf fun item => item.tagState = some tagState)).laneTotal := rfl
  omega

/-- The operations on tags leave the rest of the state as it is. -/
theorem tryEmplace_setTags {tag address tagState : ℕ}
    (h : s.tryEmplace tag address = some (tagState, s')) :
    ∃ tagStates tagNodes, s' = s.setTags tagStates tagNodes s.tagStateChanged := by
  unfold tryEmplace at h
  split at h
  · cases h
    exact ⟨_, _, rfl⟩
  · split at h
    · cases h
    · cases h
      exact ⟨_, _, rfl⟩

theorem completeTaggedTask_setTags {tagState : Option ℕ}
    (h : s.completeTaggedTask tagState = some s') :
    ∃ tagNodes waiters, s' = s.setTags s.tagStates tagNodes waiters := by
  unfold completeTaggedTask at h
  split at h
  · cases h
    exact ⟨_, _, rfl⟩
  · split at h
    · cases h
    · split at h <;> cases h <;> exact ⟨_, _, rfl⟩

theorem eraseTag_setTags (tag tagState : ℕ) :
    ∃ tagStates tagNodes, s.eraseTag tag tagState = s.setTags tagStates tagNodes s.tagStateChanged := by
  unfold eraseTag
  split <;> exact ⟨_, _, rfl⟩

@[simp] theorem eraseTag_idleCv (s : PoolState workers clients Code) (tag tagState : ℕ) :
    (s.eraseTag tag tagState).idleCv = s.idleCv := by
  unfold eraseTag
  split <;> rfl

@[simp] theorem eraseTag_history (s : PoolState workers clients Code) (tag tagState : ℕ) :
    (s.eraseTag tag tagState).history = s.history := by
  unfold eraseTag
  split <;> rfl

/-- The words that only the workers' loop and the shutdown functions write are unchanged. -/
structure SameControl (s s' : PoolState workers clients Code) : Prop where
  terminate : s'.terminate = s.terminate
  startedWorkerCount : s'.startedWorkerCount = s.startedWorkerCount
  idleCount : s'.idleCount = s.idleCount
  workerThreads : s'.workerThreads = s.workerThreads
  exited : s'.exited = s.exited

theorem sameControl_setTags (tagStates : ℕ → Option ℕ) (tagNodes : ℕ → Option TagNode)
    (waiters : Finset (ThreadId workers clients)) :
    s.SameControl (s.setTags tagStates tagNodes waiters) :=
  ⟨rfl, rfl, rfl, rfl, rfl⟩

theorem sameControl_tryPop (h : s.tryPop index = some (item, s')) : s.SameControl s' := by
  obtain ⟨lane, -, rfl⟩ := tryPop_eq_some h
  exact ⟨rfl, rfl, rfl, rfl, rfl⟩

theorem sameControl_push (h : s.push index item = some s') : s.SameControl s' := by
  obtain ⟨lane, -, rfl⟩ := push_eq_some h
  exact ⟨rfl, rfl, rfl, rfl, rfl⟩

theorem sameControl_completeTaggedTask {tagState : Option ℕ}
    (h : s.completeTaggedTask tagState = some s') : s.SameControl s' := by
  obtain ⟨tagNodes, waiters, rfl⟩ := completeTaggedTask_setTags h
  exact sameControl_setTags _ _ _

def NoneRetired (s : PoolState workers clients Code) : Prop :=
  ∀ address node, s.tagNodes address = some node → node.retired = false

theorem NoneRetired.setNode (h : s.NoneRetired) (address : ℕ) {node : TagNode}
    (hnode : node.retired = false) : (s.setNode address node).NoneRetired := by
  intro address' node' h'
  rw [setNode_tagNodes] at h'
  by_cases heq : address' = address
  · rw [heq, Function.update_self, Option.some.injEq] at h'
    rw [← h']
    exact hnode
  · rw [Function.update_of_ne heq] at h'
    exact h address' node' h'

theorem NoneRetired.tryEmplace (h : s.NoneRetired) {tag address tagState : ℕ}
    (hemplace : s.tryEmplace tag address = some (tagState, s')) : s'.NoneRetired := by
  unfold PoolState.tryEmplace at hemplace
  split at hemplace
  · cases hemplace
    exact h
  · split at hemplace
    · cases hemplace
    · cases hemplace
      exact h.setNode address rfl

theorem NoneRetired.completeTaggedTask (h : s.NoneRetired) {tagState : Option ℕ}
    (hcomplete : s.completeTaggedTask tagState = some s') : s'.NoneRetired := by
  unfold PoolState.completeTaggedTask at hcomplete
  split at hcomplete
  · cases hcomplete
    exact h
  · split at hcomplete
    · cases hcomplete
    · rename_i address _ node hnode
      have hretired : (node.add (-1)).retired = false := h address node hnode
      have hset := h.setNode address hretired
      split at hcomplete
      · cases hcomplete
        exact hset
      · cases hcomplete
        exact hset

end PoolState

end CppUtils
