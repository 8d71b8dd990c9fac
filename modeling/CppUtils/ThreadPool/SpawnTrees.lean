import CppUtils.Lib.Descent
import CppUtils.ThreadPool.BatchOwners

/-!
# What tasks have still to do

A task may enqueue further tasks, and those again. When that comes to an end whatever the code does, so
does the work of the pool once `terminate` is set: every step takes up a piece of user code and leaves
what it gives rise to, or brings a thread nearer to the end of the call that it is in.
-/

namespace CppUtils

open Threaded Relation

variable {clients workers : ℕ} {U : UserCode} {Code : Type} {cfg : PoolConfig}

/-! ### Finite trees of tasks -/

/-- What `makeParallelBatchState` fixes of a batch. -/
structure BatchCall (Code : Type) where
  count : ℕ
  fn : ℕ → Code
  onAllCompleted : Option Code

/-- The caller's own action. -/
def OnAllCompleted.code : OnAllCompleted workers clients Code → Option Code
  | .signal _ => none
  | .user code => some code

def ParallelBatchState.call (b : ParallelBatchState workers clients Code) : BatchCall Code :=
  ⟨b.counters.count, b.fn, b.onAllCompleted.code⟩

def Shared.calls (s : Shared workers clients Code) (batch : ℕ) : Option (BatchCall Code) :=
  (s.batches batch).map ParallelBatchState.call

/-- What can be left to do: user code about to act or inside a call, a run of `drainIndices`, an index of
a batch that no thread has fetched, the end of a batch that may still be reached. -/
inductive Work (Code : Type)
  | code (code : Code)
  | calling (resume : Outcome → Code)
  | drainIndices (batch : ℕ)
  | index (batch index : ℕ)
  | allCompleted (batch : ℕ)

/-- The second gives rise to the first in one step. -/
inductive GivesRise (U : UserCode) (calls : ℕ → Option (BatchCall U.Code)) :
    Work U.Code → Work U.Code → Prop
  | task {code i task tag resume} (hnext : U.next code i = .call (.enqueue task tag) resume) :
      GivesRise U calls (.code task) (.code code)
  | calling {code i task tag resume} (hnext : U.next code i = .call (.enqueue task tag) resume) :
      GivesRise U calls (.calling resume) (.code code)
  | resume {resume outcome} : GivesRise U calls (.code (resume outcome)) (.calling resume)
  | index {batch call i} (hcall : calls batch = some call) (hi : i < call.count) :
      GivesRise U calls (.index batch i) (.drainIndices batch)
  | fn {batch call i} (hcall : calls batch = some call) :
      GivesRise U calls (.code (call.fn i)) (.index batch i)
  | allCompleted {batch i} : GivesRise U calls (.allCompleted batch) (.index batch i)
  | onAllCompleted {batch call code} (hcall : calls batch = some call)
      (hcode : call.onAllCompleted = some code) :
      GivesRise U calls (.code code) (.allCompleted batch)

/-- The code makes no call of the pool but `enqueue`, and it and what it gives rise to come to an end,
whatever they see: a finite tree of tasks. -/
inductive EnqueueTree (U : UserCode) (calls : ℕ → Option (BatchCall U.Code)) : Work U.Code → Prop
  | mk {work} (honly : ∀ code i request resume, work = .code code →
        U.next code i = .call request resume → ∃ task tag, request = .enqueue task tag)
      (hgives : ∀ work', GivesRise U calls work' work → EnqueueTree U calls work') :
      EnqueueTree U calls work

/-- A finite tree gives rise to this. -/
def Grows (U : UserCode) (calls : ℕ → Option (BatchCall U.Code)) (work' work : Work U.Code) : Prop :=
  EnqueueTree U calls work ∧ GivesRise U calls work' work

section Trees

variable {calls : ℕ → Option (BatchCall U.Code)} {work work' : Work U.Code}

theorem Grows.enqueueTree (h : Grows U calls work' work) : EnqueueTree U calls work' := by
  obtain ⟨⟨-, hgives⟩, hrise⟩ := h
  exact hgives work' hrise

theorem grows_wellFounded : WellFounded (Grows U calls) := by
  refine ⟨fun work => ?_⟩
  by_cases htree : EnqueueTree U calls work
  · induction htree with
    | mk honly hgives ih => exact .intro _ fun work' h => ih work' h.2
  · exact .intro _ fun work' h => absurd h.1 htree

instance : IsWellFounded (Work U.Code) (Grows U calls) := ⟨grows_wellFounded⟩

end Trees

/-! ### The work of the frames and of the lanes -/

def Closure.work : Closure Code → Work Code
  | .user code => .code code
  | .drainIndices batch => .drainIndices batch

/-- What a frame has still to do of user code. -/
def Frame.work : Frame workers Code → Multiset (Work Code)
  | .body code => {.code code}
  | .calling resume => {.calling resume}
  | .enqueue (.start task _) => {task.work}
  | .enqueue (.register _ item) => {item.task.work}
  | .enqueue (.increment _ item) => {item.task.work}
  | .enqueue (.push _ item) => {item.task.work}
  | .runWorker _ (.tryGetTask (.popped item)) => {item.task.work}
  | .runWorker _ (.taggedTaskCanRun item) => {item.task.work}
  | .runWorker _ (.begin item) => {item.task.work}
  | .finishAllThreads _ (.decrement _ item) => {item.task.work}
  | .finishAllThreads _ (.taggedTaskCanRun _ item) => {item.task.work}
  | .finishAllThreads _ (.begin _ item) => {item.task.work}
  | .drainIndices batch (.inFn _) => {.allCompleted batch} + {.drainIndices batch}
  | .drainIndices batch (.complete _) => {.allCompleted batch} + {.drainIndices batch}
  | .drainIndices batch .allCompleted => {.allCompleted batch} + {.drainIndices batch}
  | .drainIndices batch _ => {.drainIndices batch}
  | _ => 0

/-- The steps of `runWorker` until it exits, once `terminate` is set. -/
def RunWorkerPc.cost (workers : ℕ) : RunWorkerPc Code → ℕ
  | .loopHead => 1
  | .starting => 2
  | .leaveIdle => 2
  | .idleWait => 3
  | .idlePredicate => 4
  | .enterIdle => 5
  | .tryGetTask (.steal offset) => workers - offset + 6
  | .tryGetTask .checkQueued => workers + 7
  | .tryGetTask .own => workers + 8
  | .scopeEnd _ _ => 2
  | .completeTaggedTask _ _ => 3
  | .running _ => 4
  | .begin _ => 5
  | .taggedTaskCanRun _ => 6
  | .tryGetTask (.popped _) => 7

/-- A task in a lane is worth the steps of the drain that take it out, and another pass over the lanes. -/
def PoolState.cost (s : PoolState workers clients Code) : ℕ :=
  s.idleCv.card + (workers + 20) * s.laneTotal

def EnqueuePc.cost (workers : ℕ) : EnqueuePc workers Code → ℕ
  | .start _ _ => workers + 27
  | .register _ _ => workers + 26
  | .increment _ _ => workers + 25
  | .push _ _ => workers + 24
  | .undoIncrement _ => 4
  | .completeTaggedTask _ => 3
  | .rethrow _ => 2
  | .gate => 2
  | .notify => 1

/-- The steps of `finishAllThreads` with nothing in the lanes. -/
def FinishPc.cost (workers : ℕ) : FinishPc workers Code → ℕ
  | .setTerminate => 2 * workers + 6
  | .notifyAll => 2 * workers + 5
  | .join rest => rest.length + workers + 4
  | .assertIdle => workers + 3
  | .drain false i _ => workers - i + 2
  | .drain true i _ => workers - i + workers + 5
  | .completeTaggedTask i _ _ => workers - i + workers + 6
  | .running i _ => workers - i + workers + 7
  | .begin i _ => workers - i + workers + 8
  | .taggedTaskCanRun i _ => workers - i + workers + 9
  | .decrement i _ => workers - i + workers + 10
  | .assertQueued _ => 1

def DrainPc.cost : DrainPc → ℕ
  | .fetch => 0
  | .inCompletion => 1
  | .allCompleted => 1
  | .complete _ => 2
  | .inFn _ => 3

def Frame.cost : Frame workers Code → ℕ
  | .unwinding => 1
  | .runWorker _ pc => pc.cost workers
  | .enqueue pc => pc.cost workers
  | .finishAllThreads _ pc => pc.cost workers
  | .drainIndices _ pc => pc.cost
  | _ => 0

def Frame.effort (f : Frame workers Code) : Effort (Work Code) := (f.work, f.cost)

theorem Closure.effort_frame (task : Closure Code) :
    (task.frame : Frame workers Code).effort = ({task.work}, 0) := by
  cases task <;> rfl

namespace PoolState

def work (s : PoolState workers clients Code) : Multiset (Work Code) :=
  s.queuedTasks.map fun x => x.1.task.work

def effort (s : PoolState workers clients Code) : Effort (Work Code) := (s.work, s.cost)

variable {s s' : PoolState workers clients Code} {item : TaggedTask Code} {index : Fin workers}

theorem effort_tryPop (h : s.tryPop index = some (item, s')) :
    s.effort = s'.effort + ({item.task.work}, workers + 20) := by
  have hwork := congrArg (Multiset.map fun x : HeldTask Code => x.1.task.work) (queuedTasks_tryPop h)
  have htotal := laneTotal_tryPop h
  have hidle : s'.idleCv = s.idleCv := by
    obtain ⟨lane, -, rfl⟩ := tryPop_eq_some h
    rfl
  rw [Multiset.map_cons, ← Multiset.singleton_add, add_comm] at hwork
  refine Prod.ext hwork ?_
  change s.cost = s'.cost + (workers + 20)
  rw [cost, cost, hidle, ← htotal, Nat.mul_add_one, Nat.add_assoc]

theorem effort_push (h : s.push index item = some s') :
    s'.effort = s.effort + ({item.task.work}, workers + 20) := by
  have hwork := congrArg (Multiset.map fun x : HeldTask Code => x.1.task.work) (queuedTasks_push h)
  have htotal := laneTotal_push h
  have hidle : s'.idleCv = s.idleCv := by
    obtain ⟨lane, -, rfl⟩ := push_eq_some h
    rfl
  rw [Multiset.map_cons, ← Multiset.singleton_add, add_comm] at hwork
  refine Prod.ext hwork ?_
  change s'.cost = s.cost + (workers + 20)
  rw [cost, cost, hidle, htotal, Nat.mul_add_one, Nat.add_assoc]

/-- The lanes stay as they are, and no further thread blocks in the idle wait. -/
structure Stays (s s' : PoolState workers clients Code) : Prop where
  queues : s'.queues = s.queues
  idleCv : s'.idleCv ⊆ s.idleCv

theorem stays_of_eq (hqueues : s'.queues = s.queues) (hidle : s'.idleCv = s.idleCv) : s.Stays s' :=
  ⟨hqueues, hidle.le⟩

theorem Stays.work (h : s.Stays s') : s'.work = s.work := by
  simp only [PoolState.work, queuedTasks, h.queues]

theorem Stays.cost (h : s.Stays s') : s'.cost ≤ s.cost := by
  simp only [PoolState.cost, laneTotal, h.queues]
  exact Nat.add_le_add_right (Finset.card_le_card h.idleCv) _

theorem stays_completeTaggedTask {tagState : Option ℕ} (h : s.completeTaggedTask tagState = some s') :
    s.Stays s' := by
  obtain ⟨tagNodes, waiters, rfl⟩ := completeTaggedTask_setTags h
  exact stays_of_eq rfl rfl

end PoolState

section Moves

variable {t : ThreadId cfg.maxNumThreads clients} {s s' : PoolState cfg.maxNumThreads clients Code}
  {after : List (Frame cfg.maxNumThreads Code)} {gives : Work Code → Work Code → Prop}
  {f : Frame cfg.maxNumThreads Code}

theorem PoolState.Stays.descends (hstays : s.Stays s')
    (hwork : (stackWeight Frame.effort after).1 = f.work)
    (hcost : (stackWeight Frame.effort after).2 < f.cost) :
    Descends gives (s'.effort + stackWeight Frame.effort after) (s.effort + f.effort) := by
  refine Descends.of_lt (congrArg₂ (· + ·) hstays.work hwork) ?_
  exact Nat.add_lt_add_of_le_of_lt hstays.cost hcost

theorem PoolState.Stays.descends_drop (hstays : s.Stays s') {work : Work Code} (hwork : f.work = {work})
    (hafter : (stackWeight Frame.effort after).1 = 0) :
    Descends gives (s'.effort + stackWeight Frame.effort after) (s.effort + f.effort) := by
  have hdrop : CutExpand gives (s'.work + 0) (s.work + {work}) := by
    rw [hstays.work]
    exact (cutExpand_add_left _).mpr cutExpand_zero
  rw [← hafter, ← hwork] at hdrop
  exact .of_cut hdrop

attribute [local simp] Frame.effort Frame.work Frame.cost EnqueuePc.cost RunWorkerPc.cost FinishPc.cost

theorem EnqueueMove.descends {pc : EnqueuePc cfg.maxNumThreads Code}
    (hmove : EnqueueMove cfg s pc s' after) :
    Descends gives (s'.effort + stackWeight Frame.effort after) (s.effort + (Frame.enqueue pc).effort) := by
  cases hmove with
  | push hpush =>
    rw [PoolState.effort_push hpush, add_assoc]
    refine Descends.add_left (.of_lt (by simp) ?_) _
    change cfg.maxNumThreads + 20 + 2 < cfg.maxNumThreads + 24
    omega
  | drop hemplace =>
    obtain ⟨tagStates, tagNodes, rfl⟩ := PoolState.tryEmplace_setTags hemplace
    exact (PoolState.stays_of_eq rfl rfl).descends_drop rfl rfl
  | pushThrows => exact (PoolState.stays_of_eq rfl rfl).descends_drop rfl rfl
  | register hemplace =>
    obtain ⟨tagStates, tagNodes, rfl⟩ := PoolState.tryEmplace_setTags hemplace
    exact (PoolState.stays_of_eq rfl rfl).descends rfl (by simp)
  | complete hcomplete => exact (PoolState.stays_completeTaggedTask hcomplete).descends rfl (by simp)
  | notify => exact PoolState.Stays.descends ⟨rfl, Finset.erase_subset _ _⟩ rfl (by simp)
  | _ => exact (PoolState.stays_of_eq rfl rfl).descends rfl (by simp)

theorem RunWorkerMove.descends {own : Fin cfg.maxNumThreads} {pc : RunWorkerPc Code}
    (hmove : RunWorkerMove cfg t s own pc s' after) :
    Descends gives (s'.effort + stackWeight Frame.effort after)
        (s.effort + (Frame.runWorker own pc).effort) ∨
      s.terminate = false ∧ (s'.effort + stackWeight Frame.effort after).1 =
        (s.effort + (Frame.runWorker own pc).effort).1 := by
  cases hmove with
  | enter hrunning => exact .inr ⟨Bool.eq_false_iff.mpr hrunning, rfl⟩
  | block hpc hpred =>
    have hrunning : s.terminate = false := Bool.eq_false_iff.mpr fun h => hpred (.inl h)
    obtain rfl | ⟨rfl, -⟩ := hpc
    · exact .inr ⟨hrunning, rfl⟩
    · exact .inr ⟨hrunning, rfl⟩
  | tryGetTask hget =>
    left
    cases hget with
    | popOwn hpop | steal _ hpop =>
      rw [PoolState.effort_tryPop hpop, add_assoc]
      refine Descends.add_left (.of_lt (by simp) ?_) _
      simp
      omega
    | victimEmpty hoffset =>
      refine (PoolState.stays_of_eq rfl rfl).descends rfl ?_
      simp
      omega
    | startStealing =>
      refine (PoolState.stays_of_eq rfl rfl).descends rfl ?_
      simp
    | _ => exact (PoolState.stays_of_eq rfl rfl).descends rfl (by simp)
  | skip => exact .inl ((PoolState.stays_of_eq rfl rfl).descends_drop rfl rfl)
  | @begin item =>
    have hafter : stackWeight Frame.effort [item.task.frame, .runWorker own (.running item)] =
        ({item.task.work}, 4) := by
      rw [stackWeight_cons, item.task.effort_frame]
      rfl
    refine .inl ((PoolState.stays_of_eq rfl rfl).descends ?_ ?_)
    · rw [hafter]
      rfl
    · rw [hafter]
      exact Nat.lt_succ_self 4
  | complete hcomplete =>
    exact .inl ((PoolState.stays_completeTaggedTask hcomplete).descends rfl (by simp))
  | pass hpc =>
    obtain rfl | ⟨rfl, -⟩ := hpc
    · exact .inl ((PoolState.stays_of_eq rfl rfl).descends rfl (by simp))
    · exact .inl ((PoolState.stays_of_eq rfl rfl).descends rfl (by simp))
  | spurious hblocked =>
    refine .inl (Descends.of_lt rfl ?_)
    refine Nat.add_lt_add_right (Nat.add_lt_add_right ?_ _) _
    exact Finset.card_erase_lt_of_mem hblocked
  | timeout => exact .inl (PoolState.Stays.descends ⟨rfl, Finset.erase_subset _ _⟩ rfl (by simp))
  | _ => exact .inl ((PoolState.stays_of_eq rfl rfl).descends rfl (by simp))

theorem FinishMove.descends {completePendingTasks : Bool} {pc : FinishPc cfg.maxNumThreads Code}
    (hmove : FinishMove cfg s completePendingTasks pc s' after)
    (hworkers : s.workerThreads.length ≤ cfg.maxNumThreads) :
    Descends gives (s'.effort + stackWeight Frame.effort after)
      (s.effort + (Frame.finishAllThreads completePendingTasks pc).effort) := by
  have hjoin : stackWeight Frame.effort (afterJoin cfg.maxNumThreads Code completePendingTasks) =
      (0, if completePendingTasks = true then cfg.maxNumThreads + 2 else 0) := by
    cases completePendingTasks <;> rfl
  have hjoin_lt : (stackWeight Frame.effort (afterJoin cfg.maxNumThreads Code completePendingTasks)).2 <
      cfg.maxNumThreads + 3 := by
    rw [hjoin]
    cases completePendingTasks <;> simp
  cases hmove with
  | setTerminate => exact (PoolState.stays_of_eq rfl rfl).descends rfl (by simp)
  | notifyAllJoined =>
    refine PoolState.Stays.descends ⟨rfl, Finset.empty_subset _⟩ (congrArg Prod.fst hjoin)
      (hjoin_lt.trans_le ?_)
    simp
    omega
  | notifyAll =>
    refine PoolState.Stays.descends ⟨rfl, Finset.empty_subset _⟩ rfl ?_
    simp
    omega
  | assertIdle => exact (PoolState.stays_of_eq rfl rfl).descends (congrArg Prod.fst hjoin) hjoin_lt
  | @pop drainedAny i item item' s₁ h hpop =>
    rw [PoolState.effort_tryPop hpop, add_assoc]
    refine Descends.add_left (.of_lt (by simp) ?_) _
    cases drainedAny <;> simp <;> omega
  | @laneEmpty drainedAny i item h hpop =>
    refine (PoolState.stays_of_eq rfl rfl).descends rfl ?_
    cases drainedAny <;> simp <;> omega
  | @nextPass drainedAny i item h hany =>
    refine (PoolState.stays_of_eq rfl rfl).descends rfl ?_
    rw [hany]
    simp
    omega
  | @drained drainedAny i item h hany =>
    refine (PoolState.stays_of_eq rfl rfl).descends rfl ?_
    cases drainedAny <;> simp
  | skip => exact (PoolState.stays_of_eq rfl rfl).descends_drop rfl rfl
  | @begin i item =>
    have hafter : stackWeight Frame.effort
        [(item.task.frame : Frame cfg.maxNumThreads Code),
          .finishAllThreads completePendingTasks (.running i item)] =
          ({item.task.work}, cfg.maxNumThreads - i + cfg.maxNumThreads + 7) := by
      rw [stackWeight_cons, item.task.effort_frame]
      simp
    refine (PoolState.stays_of_eq rfl rfl).descends ?_ ?_
    · rw [hafter]
      rfl
    · rw [hafter]
      simp
  | complete hcomplete => exact (PoolState.stays_completeTaggedTask hcomplete).descends rfl (by simp)
  | _ => exact (PoolState.stays_of_eq rfl rfl).descends rfl (by simp)

end Moves

/-! ### The work of the batches -/

/-- The indices of a batch that no thread has fetched. -/
def ParallelBatchState.unstarted (batch : ℕ) (b : ParallelBatchState workers clients Code) :
    Multiset (Work Code) :=
  ((List.range' b.counters.nextIndex (b.counters.count - b.counters.nextIndex)).map fun index =>
    Work.index batch index : List (Work Code))

namespace Shared

variable {s : Shared workers clients Code} {batch : ℕ} {b : ParallelBatchState workers clients Code}

def unstarted (s : Shared workers clients Code) (batch : ℕ) : Multiset (Work Code) :=
  match s.batches batch with
  | none => 0
  | some b => b.unstarted batch

/-- All that the tasks in the lanes and the batches have still to do. -/
def effort (s : Shared workers clients Code) : Effort (Work Code) :=
  s.pool.effort + (∑ batch ∈ Finset.range s.nextBatch, s.unstarted batch, 0)

theorem unstarted_setBatch (s : Shared workers clients Code) (batch : ℕ)
    (b : ParallelBatchState workers clients Code) :
    (s.setBatch batch b).unstarted = Function.update s.unstarted batch (b.unstarted batch) := by
  funext batch'
  by_cases h : batch' = batch
  · subst h
    simp [unstarted]
  · simp [unstarted, h]

theorem effort_setBatch (hmade : s.BatchesMade) (hbatch : s.batches batch = some b) :
    ∃ r, s.effort = (b.unstarted batch, 0) + r ∧
      ∀ b', (s.setBatch batch b').effort = (b'.unstarted batch, 0) + r := by
  have hmem : batch ∈ Finset.range s.nextBatch := Finset.mem_range.mpr (hmade.lt hbatch)
  have hold : s.unstarted batch = b.unstarted batch := by simp [unstarted, hbatch]
  refine ⟨s.pool.effort + (∑ batch' ∈ Finset.range s.nextBatch \ {batch}, s.unstarted batch', 0), ?_,
    fun b' => ?_⟩
  · have hsum := Finset.sum_update_of_mem hmem s.unstarted (s.unstarted batch)
    rw [Function.update_eq_self, hold] at hsum
    rw [effort, hsum, add_left_comm]
    rfl
  · have hsum := Finset.sum_update_of_mem hmem s.unstarted (b'.unstarted batch)
    rw [← unstarted_setBatch] at hsum
    rw [effort, setBatch_nextBatch, hsum, add_left_comm]
    rfl

theorem calls_setBatch (hbatch : s.batches batch = some b)
    {b' : ParallelBatchState workers clients Code} (hcall : b'.call = b.call) :
    (s.setBatch batch b').calls = s.calls := by
  funext batch'
  by_cases h : batch' = batch
  · subst h
    simp [calls, hbatch, hcall]
  · simp [calls, h]

end Shared

namespace BatchCounters

variable {b : BatchCounters} {pc pc' : DrainPc} {i : ℕ}

theorem drainStep_exit (h : (b.drainStep pc).2 = .exit) : pc = .fetch ∧ b.count ≤ b.nextIndex := by
  revert h
  fun_cases drainStep b pc
  all_goals intro h
  case case1 index b' hindex => exact ⟨rfl, hindex⟩
  all_goals cases h

theorem drainStep_callFn (h : (b.drainStep pc).2 = .callFn i) : pc = .fetch ∧ i = b.nextIndex ∧
    b.nextIndex < b.count ∧ (b.drainStep pc).1.nextIndex = (b.nextIndex + 1) % 2 ^ 64 := by
  revert h
  fun_cases drainStep b pc
  all_goals intro h
  case case2 index b' hindex => exact ⟨rfl, (DrainEffect.callFn.inj h).symm, Nat.lt_of_not_le hindex, rfl⟩
  all_goals cases h

theorem drainStep_complete (h : (b.drainStep pc).2 = .complete) :
    pc = .allCompleted ∧ (b.drainStep pc).1.nextIndex = b.nextIndex := by
  revert h
  fun_cases drainStep b pc
  all_goals intro h
  case case6 => exact ⟨rfl, rfl⟩
  all_goals cases h

theorem drainStep_goto (h : (b.drainStep pc).2 = .goto pc') :
    (b.drainStep pc).1.nextIndex = b.nextIndex ∧
      ((∃ i, pc = .inFn i ∧ pc' = .complete i) ∨ (∃ i, pc = .complete i ∧ pc' = .allCompleted) ∨
        (∃ i, pc = .complete i ∧ pc' = .fetch) ∨ pc = .inCompletion ∧ pc' = .fetch) := by
  revert h
  fun_cases drainStep b pc
  all_goals intro h
  all_goals cases h
  all_goals exact ⟨rfl, by simp⟩

end BatchCounters

section BatchMoves

variable {b : ParallelBatchState workers clients U.Code} {batch : ℕ}
  {calls : ℕ → Option (BatchCall U.Code)} {effort effort' : Effort (Work U.Code)} {n n' : ℕ}

theorem ParallelBatchState.unstarted_eq (b' : ParallelBatchState workers clients U.Code)
    (hnext : b'.counters.nextIndex = b.counters.nextIndex)
    (hcount : b'.counters.count = b.counters.count) : b'.unstarted batch = b.unstarted batch := by
  rw [unstarted, unstarted, hnext, hcount]

theorem ParallelBatchState.unstarted_of_le (h : b.counters.count ≤ b.counters.nextIndex) :
    b.unstarted batch = 0 := by
  rw [unstarted, Nat.sub_eq_zero_of_le h]
  rfl

theorem ParallelBatchState.unstarted_fetch (b' : ParallelBatchState workers clients U.Code)
    (h : b.counters.nextIndex < b.counters.count) (hnext : b'.counters.nextIndex = b.counters.nextIndex + 1)
    (hcount : b'.counters.count = b.counters.count) :
    b.unstarted batch = {.index batch b.counters.nextIndex} + b'.unstarted batch := by
  obtain ⟨k, hk⟩ := Nat.exists_eq_add_of_lt h
  have hlength : b.counters.count - b.counters.nextIndex = k + 1 := by omega
  have hlength' : b.counters.count - (b.counters.nextIndex + 1) = k := by omega
  rw [unstarted, unstarted, hnext, hcount, hlength, hlength', List.range'_succ]
  rfl

theorem ParallelBatchState.lt_of_mem_unstarted {work : Work U.Code} (h : work ∈ b.unstarted batch) :
    ∃ i < b.counters.count, work = .index batch i := by
  obtain ⟨i, hi, rfl⟩ := List.mem_map.mp (Multiset.mem_coe.mp h)
  rw [List.mem_range'_1] at hi
  exact ⟨i, by omega, rfl⟩

/-- One step of `drainIndices`, with the batch and the frame that it changes. -/
theorem DrainIndicesMove.descends {s s' : Shared cfg.maxNumThreads clients U.Code} {pc : DrainPc}
    {after : List (Frame cfg.maxNumThreads U.Code)} (hmove : DrainIndicesMove s batch pc s' after)
    (hmade : s.BatchesMade) (hsizes : ∀ batch call, s.calls batch = some call → call.count < 2 ^ 64)
    (htrees : ∀ work ∈ (Frame.drainIndices batch pc : Frame cfg.maxNumThreads U.Code).work,
      EnqueueTree U s.calls work) :
    Descends (Grows U s.calls) (s'.effort + stackWeight Frame.effort after)
        (s.effort + (Frame.drainIndices batch pc : Frame cfg.maxNumThreads U.Code).effort) ∧
      s'.calls = s.calls := by
  have key : ∀ {b b' : ParallelBatchState cfg.maxNumThreads clients U.Code}
      {after : List (Frame cfg.maxNumThreads U.Code)}, s.batches batch = some b → b'.call = b.call →
      Descends (Grows U s.calls) ((b'.unstarted batch, 0) + stackWeight Frame.effort after)
        ((b.unstarted batch, 0) + (Frame.drainIndices batch pc : Frame cfg.maxNumThreads U.Code).effort) →
      Descends (Grows U s.calls) ((s.setBatch batch b').effort + stackWeight Frame.effort after)
        (s.effort + (Frame.drainIndices batch pc : Frame cfg.maxNumThreads U.Code).effort) ∧
      (s.setBatch batch b').calls = s.calls := by
    intro b b' after hbatch hcall hdescends
    obtain ⟨r, hbefore, hafter⟩ := Shared.effort_setBatch hmade hbatch
    rw [hbefore, hafter, add_right_comm, add_right_comm _ r]
    exact ⟨hdescends.add_right r, Shared.calls_setBatch hbatch hcall⟩
  have hended : CutExpand (Grows U s.calls) {.drainIndices batch}
      ({.allCompleted batch} + {.drainIndices batch}) := by
    have hcut := (cutExpand_add_right (r := Grows U s.calls) {.drainIndices batch}).mpr
      (cutExpand_zero (x := .allCompleted batch))
    rwa [zero_add] at hcut
  have hcall : ∀ {b}, s.batches batch = some b → s.calls batch = some b.call := by
    intro b hbatch
    rw [Shared.calls, hbatch, Option.map_some]
  cases hmove with
  | @exit b _ hbatch heffect =>
    obtain ⟨rfl, hle⟩ := BatchCounters.drainStep_exit heffect
    refine key hbatch (by simp [ParallelBatchState.call]) ?_
    rw [ParallelBatchState.unstarted_of_le hle, stackWeight_nil, add_zero]
    refine Descends.of_cut ?_
    rw [zero_add]
    refine cutExpand_singleton fun work hwork => ?_
    obtain ⟨i, hi, rfl⟩ := ParallelBatchState.lt_of_mem_unstarted hwork
    rw [BatchCounters.drainStep_count] at hi
    exact ⟨htrees _ (Multiset.mem_singleton_self _), .index (hcall hbatch) hi⟩
  | @goto b _ pc' hbatch heffect =>
    obtain ⟨hnext, hpc⟩ := BatchCounters.drainStep_goto heffect
    refine key hbatch (by simp [ParallelBatchState.call]) ?_
    rw [ParallelBatchState.unstarted_eq { b with counters := (b.counters.drainStep pc).1 } hnext
      (by simp), stackWeight_cons, stackWeight_nil, add_zero]
    refine Descends.add_left ?_ _
    obtain ⟨i, rfl, rfl⟩ | ⟨i, rfl, rfl⟩ | ⟨i, rfl, rfl⟩ | ⟨rfl, rfl⟩ := hpc
    · exact .of_lt rfl (Nat.lt_succ_self _)
    · exact .of_lt rfl (Nat.lt_succ_self _)
    · exact .of_cut hended
    · exact .of_lt rfl (Nat.lt_succ_self _)
  | @callFn b _ index hbatch heffect =>
    obtain ⟨rfl, rfl, hlt, hnext⟩ := BatchCounters.drainStep_callFn heffect
    refine key hbatch (by simp [ParallelBatchState.call]) ?_
    have hsize : b.counters.count < 2 ^ 64 := hsizes batch _ (hcall hbatch)
    rw [Nat.mod_eq_of_lt (by omega)] at hnext
    rw [ParallelBatchState.unstarted_fetch { b with counters := (b.counters.drainStep .fetch).1 }
      hlt hnext (by simp)]
    generalize ParallelBatchState.unstarted batch { b with counters := _ } = left
    have htree : EnqueueTree U s.calls (.index batch b.counters.nextIndex) :=
      Grows.enqueueTree ⟨htrees _ (Multiset.mem_singleton_self _), .index (hcall hbatch) hlt⟩
    have hcut : CutExpand (Grows U s.calls)
        ({.code (b.fn b.counters.nextIndex)} + {.allCompleted batch} + (left + {.drainIndices batch}))
        ({.index batch b.counters.nextIndex} + (left + {.drainIndices batch})) := by
      refine (cutExpand_add_right _).mpr (cutExpand_singleton fun work hwork => ⟨htree, ?_⟩)
      obtain hwork | hwork := Multiset.mem_add.mp hwork
      · rw [Multiset.mem_singleton.mp hwork]
        exact .fn (hcall hbatch)
      · rw [Multiset.mem_singleton.mp hwork]
        exact .allCompleted
    refine Descends.of_cut ?_
    convert! hcut using 1
    · simp only [stackWeight_cons, stackWeight_nil, Frame.effort, Frame.work, add_zero, Prod.fst_add]
      abel
    · exact add_assoc _ _ _
  | @callUser b _ code hbatch heffect hcompleted =>
    obtain ⟨rfl, hnext⟩ := BatchCounters.drainStep_complete heffect
    refine key hbatch (by simp [ParallelBatchState.call]) ?_
    rw [ParallelBatchState.unstarted_eq { b with counters := (b.counters.drainStep .allCompleted).1 }
      hnext (by simp)]
    refine Descends.add_left ?_ _
    refine .of_cut ((cutExpand_add_right _).mpr (cutExpand_singleton_singleton ⟨htrees _ ?_, ?_⟩))
    · exact Multiset.mem_add.mpr (.inl (Multiset.mem_singleton_self _))
    · exact .onAllCompleted (hcall hbatch) (by simp [ParallelBatchState.call, hcompleted, OnAllCompleted.code])
  | @signal b _ sync u hbatch heffect hcompleted hwaiter =>
    obtain ⟨rfl, hnext⟩ := BatchCounters.drainStep_complete heffect
    refine key hbatch (by simp [ParallelBatchState.call, hcompleted, OnAllCompleted.code]) ?_
    rw [ParallelBatchState.unstarted_eq ⟨(b.counters.drainStep .allCompleted).1, b.fn, _⟩
      hnext (by simp), stackWeight_cons, stackWeight_nil, add_zero]
    exact (Descends.of_cut hended).add_left _

end BatchMoves

/-! ### One step -/

/-- The frames of the workers and of the drain while the tasks only enqueue. -/
def Frame.isDraining : Frame workers Code → Bool
  | .retire _ _ => false
  | .abandonAllThreads _ => false
  | .parallelFor _ => false
  | .parallelForAsync _ => false
  | _ => true

section Steps

variable {s s' : Shared cfg.maxNumThreads clients U.Code} {t : ThreadId cfg.maxNumThreads clients}
  {f : Frame cfg.maxNumThreads U.Code} {after : List (Frame cfg.maxNumThreads U.Code)}

theorem EnqueueTree.frames {calls : ℕ → Option (BatchCall U.Code)} {code : U.Code} {i : U.Input}
    (htree : EnqueueTree U calls (.code code)) :
    (∃ task tag resume, U.next code i = .call (.enqueue task tag) resume) ∨
      U.next code i = .ret ∨ U.next code i = .throw := by
  obtain ⟨honly, -⟩ := htree
  cases hnext : U.next code i with
  | call request resume =>
    obtain ⟨task, tag, rfl⟩ := honly code i request resume rfl hnext
    exact .inl ⟨task, tag, resume, rfl⟩
  | ret => exact .inr (.inl rfl)
  | throw => exact .inr (.inr rfl)

theorem Closure.isDraining_frame (task : Closure Code) :
    (task.frame : Frame workers Code).isDraining = true := by
  cases task <;> rfl

theorem FrameMove.isDraining (hmove : FrameMove cfg U t s f s' after) (hf : f.isDraining = true)
    (htrees : ∀ work ∈ f.work, EnqueueTree U s.calls work) : ∀ g ∈ after, g.isDraining = true := by
  cases hmove with
  | @body code i hallowed =>
    obtain ⟨task, tag, resume, hnext⟩ | hnext | hnext :=
      (htrees _ (Multiset.mem_singleton_self _)).frames (i := i)
    · rw [hnext]
      simp [UserStep.frames, UserCall.frame, Frame.isDraining]
    · rw [hnext]
      simp [UserStep.frames]
    · rw [hnext]
      simp [UserStep.frames, Frame.isDraining]
  | resume => simp [Frame.isDraining]
  | runWorker hmove =>
    cases hmove with
    | @begin item => exact List.forall_mem_cons.mpr ⟨item.task.isDraining_frame, by simp [Frame.isDraining]⟩
    | _ => simp [Frame.isDraining]
  | enqueue hmove => cases hmove <;> simp [Frame.isDraining]
  | @finishAllThreads completePendingTasks _ _ _ hmove =>
    cases hmove with
    | notifyAllJoined | assertIdle => cases completePendingTasks <;> simp [afterJoin, Frame.isDraining]
    | @begin i item => exact List.forall_mem_cons.mpr ⟨item.task.isDraining_frame, by simp [Frame.isDraining]⟩
    | _ => simp [Frame.isDraining]
  | drainIndices hmove => cases hmove <;> simp [Frame.isDraining]
  | retire | abandonAllThreads | parallelFor | parallelForAsync => cases hf

/-- Every step of a worker, of a task or of the drain descends, except that a worker goes on looking for
tasks until `terminate` is set. -/
theorem FrameMove.descends (hmove : FrameMove cfg U t s f s' after) (hf : f.isDraining = true)
    (hmade : s.BatchesMade) (hworkers : s.pool.workerThreads.length ≤ cfg.maxNumThreads)
    (hsizes : ∀ batch call, s.calls batch = some call → call.count < 2 ^ 64)
    (htrees : ∀ work ∈ f.work, EnqueueTree U s.calls work) :
    (Descends (Grows U s.calls) (s'.effort + stackWeight Frame.effort after) (s.effort + f.effort) ∨
      s.pool.terminate = false ∧
        (s'.effort + stackWeight Frame.effort after).1 = (s.effort + f.effort).1) ∧
      s'.calls = s.calls := by
  have hpool : ∀ {pool : PoolState cfg.maxNumThreads clients U.Code} {effort : Effort (Work U.Code)},
      Descends (Grows U s.calls) (pool.effort + effort) (s.pool.effort + f.effort) →
      Descends (Grows U s.calls) ((s.setPool pool).effort + effort) (s.effort + f.effort) := by
    intro pool effort hdescends
    rw [Shared.effort, Shared.effort, add_right_comm, add_right_comm s.pool.effort]
    exact hdescends.add_right _
  cases hmove with
  | @body code i hallowed =>
    have htree := htrees _ (Multiset.mem_singleton_self _)
    refine ⟨.inl (Descends.add_left ?_ _), rfl⟩
    obtain ⟨task, tag, resume, hnext⟩ | hnext | hnext := htree.frames (i := i)
    · rw [hnext]
      have hcut : CutExpand (Grows U s.calls) ({.code task} + {.calling resume}) {.code code} := by
        refine cutExpand_singleton fun work hwork => ⟨htree, ?_⟩
        obtain hwork | hwork := Multiset.mem_add.mp hwork
        · rw [Multiset.mem_singleton.mp hwork]
          exact .task hnext
        · rw [Multiset.mem_singleton.mp hwork]
          exact .calling hnext
      exact .of_cut hcut
    · rw [hnext]
      exact .of_drop _ _ _
    · rw [hnext]
      exact .of_drop _ _ _
  | resume =>
    have htree := htrees _ (Multiset.mem_singleton_self _)
    exact ⟨.inl (Descends.add_left (.of_cut (cutExpand_singleton_singleton ⟨htree, .resume⟩)) _), rfl⟩
  | runWorker hmove =>
    refine ⟨?_, rfl⟩
    have hstep : Descends (Grows U s.calls) _ _ ∨ _ := hmove.descends
    obtain hdescends | ⟨hrunning, hwork⟩ := hstep
    · exact .inl (hpool hdescends)
    · refine .inr ⟨hrunning, ?_⟩
      rw [Shared.effort, Shared.effort, add_right_comm, add_right_comm s.pool.effort]
      exact congrArg (· + ∑ batch ∈ Finset.range s.nextBatch, s.unstarted batch) hwork
  | enqueue hmove => exact ⟨.inl (hpool hmove.descends), rfl⟩
  | finishAllThreads hmove => exact ⟨.inl (hpool (hmove.descends hworkers)), rfl⟩
  | drainIndices hmove =>
    obtain ⟨hdescends, hcalls⟩ := hmove.descends hmade hsizes htrees
    exact ⟨.inl hdescends, hcalls⟩
  | retire | abandonAllThreads | parallelFor | parallelForAsync => cases hf

end Steps

theorem unwind_descends {calls : ℕ → Option (BatchCall U.Code)} {f : Frame workers U.Code}
    {after : List (Frame workers U.Code)} (hunwind : unwind f = some after) (hf : f.isDraining = true)
    (htrees : ∀ work ∈ f.work, EnqueueTree U calls work) :
    Descends (Grows U calls) (stackWeight Frame.effort after)
        (Frame.effort (.unwinding : Frame workers U.Code) + f.effort) ∧
      ∀ g ∈ after, g.isDraining = true := by
  unfold unwind at hunwind
  split at hunwind
  · cases hunwind
    have htree := htrees _ (Multiset.mem_singleton_self _)
    exact ⟨.of_cut (cutExpand_singleton_singleton ⟨htree, .resume⟩), by simp [Frame.isDraining]⟩
  · cases hunwind
    exact ⟨.of_lt rfl (by simp [Frame.effort, Frame.cost]), by simp [Frame.isDraining]⟩
  · cases hunwind
    exact ⟨.of_lt rfl (by simp [Frame.effort, Frame.cost]), by simp [Frame.isDraining]⟩
  · cases hunwind
    exact ⟨.of_lt (by simp [Frame.effort, Frame.work]) (by simp [Frame.effort, Frame.cost]),
      by simp [Frame.isDraining]⟩
  · cases hunwind
    exact ⟨.of_drop _ _ _, by simp [Frame.isDraining]⟩
  · cases hf
  · cases hf
  · cases hunwind

end CppUtils
