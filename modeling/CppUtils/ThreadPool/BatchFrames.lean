import CppUtils.ThreadPool.Batch
import CppUtils.ThreadPool.Custody

/-!
# The batches of the pool

The drainers of a batch are its `parallelFor` caller and the threads that run one of its helper
tasks. A helper task is created by the call that made the batch and runs at most once, so the runs
of `drainIndices` that may still happen are counted by the calls in progress and the queued tasks.
-/

namespace CppUtils

open Threaded

variable {clients workers : ℕ} {U : UserCode} {Code : Type} {cfg : PoolConfig}

/-- Where a frame stands inside `drainIndices` of this batch. -/
def Frame.drainPcs (batch : ℕ) : Frame workers Code → Multiset DrainPc
  | .drainIndices batch' pc => if batch' = batch then {pc} else 0
  | _ => 0

def Closure.helps (batch : ℕ) : Closure Code → ℕ
  | .drainIndices batch' => if batch' = batch then 1 else 0
  | .user _ => 0

/-- The runs of `drainIndices` of this batch that a frame is, or may still start. -/
def Frame.helpers (batch : ℕ) : Frame workers Code → ℕ
  | .enqueue (.start task _) => task.helps batch
  | .enqueue (.register _ item) => item.task.helps batch
  | .enqueue (.increment _ item) => item.task.helps batch
  | .enqueue (.push _ item) => item.task.helps batch
  | .runWorker _ (.tryGetTask (.popped item)) => item.task.helps batch
  | .runWorker _ (.taggedTaskCanRun item) => item.task.helps batch
  | .runWorker _ (.begin item) => item.task.helps batch
  | .finishAllThreads _ (.decrement _ item) => item.task.helps batch
  | .finishAllThreads _ (.taggedTaskCanRun _ item) => item.task.helps batch
  | .finishAllThreads _ (.begin _ item) => item.task.helps batch
  | .parallelFor (.helpers batch' i helperCount) =>
    if batch' = batch then helperCount - i + 1 else 0
  | .parallelForAsync (.helpers batch' i helperCount) =>
    if batch' = batch then helperCount - i else 0
  | .drainIndices batch' _ => if batch' = batch then 1 else 0
  | _ => 0

@[simp] theorem Frame.drainPcs_unwinding (batch : ℕ) :
    (unwinding : Frame workers Code).drainPcs batch = 0 := rfl

@[simp] theorem Frame.helpers_unwinding (batch : ℕ) :
    (unwinding : Frame workers Code).helpers batch = 0 := rfl

theorem Frame.card_drainPcs_le (f : Frame workers Code) (batch : ℕ) :
    (f.drainPcs batch).card ≤ f.helpers batch := by
  unfold drainPcs
  split
  · simp only [helpers]
    split <;> simp
  · simp

@[simp] theorem Closure.helpers_frame (task : Closure Code) (batch : ℕ) :
    (task.frame : Frame workers Code).helpers batch = task.helps batch := by
  cases task <;> rfl

theorem UserStep.helpers_frames (workers : ℕ) (step : UserStep Code) (batch : ℕ) :
    stackWeight (Frame.helpers batch) (step.frames : List (Frame workers Code)) = 0 ∧
      stackWeight (Frame.drainPcs batch) (step.frames : List (Frame workers Code)) = 0 := by
  rcases step with ⟨request, resume⟩ | _ | _
  · cases request <;> simp [UserStep.frames, UserCall.frame, Frame.helpers, Frame.drainPcs,
      Closure.helps]
  · simp [UserStep.frames]
  · simp [UserStep.frames, Frame.helpers, Frame.drainPcs]

namespace PoolState

def queuedHelpers (s : PoolState workers clients Code) (batch : ℕ) : ℕ :=
  (s.queuedTasks.map fun x => x.1.task.helps batch).sum

variable {s s' : PoolState workers clients Code} {item : TaggedTask Code} {index : Fin workers}
  {batch : ℕ}

theorem queuedHelpers_tryPop (h : s.tryPop index = some (item, s')) :
    s.queuedHelpers batch = item.task.helps batch + s'.queuedHelpers batch := by
  rw [queuedHelpers, queuedTasks_tryPop h, Multiset.map_cons, Multiset.sum_cons, queuedHelpers]

theorem queuedHelpers_push (h : s.push index item = some s') :
    s'.queuedHelpers batch = item.task.helps batch + s.queuedHelpers batch := by
  rw [queuedHelpers, queuedTasks_push h, Multiset.map_cons, Multiset.sum_cons, queuedHelpers]

theorem queuedHelpers_removeIf (s : PoolState workers clients Code) (index : Fin workers)
    (tagState : ℕ) : (s.removeIf index tagState).queuedHelpers batch ≤ s.queuedHelpers batch := by
  rw [queuedHelpers, queuedHelpers, s.queuedTasks_removeIf index tagState, Multiset.map_add,
    Multiset.sum_add]
  exact Nat.le_add_left _ _

end PoolState

section Moves

variable {s s' : PoolState cfg.maxNumThreads clients Code}
  {after : List (Frame cfg.maxNumThreads Code)} {batch : ℕ}

attribute [local simp] Frame.helpers Closure.helps

theorem EnqueueMove.helpers {pc : EnqueuePc cfg.maxNumThreads Code}
    (hmove : EnqueueMove cfg s pc s' after) :
    s'.queuedHelpers batch + stackWeight (Frame.helpers batch) after
      ≤ s.queuedHelpers batch + (Frame.enqueue pc).helpers batch := by
  cases hmove with
  | drop hemplace | register hemplace =>
    obtain ⟨tagStates, tagNodes, rfl⟩ := PoolState.tryEmplace_setTags hemplace
    exact Nat.add_le_add (le_of_eq rfl) (by simp)
  | push hpush =>
    rw [PoolState.queuedHelpers_push hpush]
    simp [add_comm]
  | complete hcomplete =>
    obtain ⟨tagNodes, waiters, rfl⟩ := PoolState.completeTaggedTask_setTags hcomplete
    exact Nat.add_le_add (le_of_eq rfl) (by simp)
  | _ => exact Nat.add_le_add (le_of_eq rfl) (by simp)

theorem RunWorkerMove.helpers {t : ThreadId cfg.maxNumThreads clients} {own : Fin cfg.maxNumThreads}
    {pc : RunWorkerPc Code} (hmove : RunWorkerMove cfg t s own pc s' after) :
    s'.queuedHelpers batch + stackWeight (Frame.helpers batch) after
      ≤ s.queuedHelpers batch + (Frame.runWorker own pc).helpers batch := by
  cases hmove with
  | tryGetTask hget =>
    cases hget with
    | popOwn hpop | steal _ hpop =>
      rw [PoolState.queuedHelpers_tryPop hpop]
      simp [add_comm]
    | _ => exact Nat.add_le_add (le_of_eq rfl) (by simp)
  | complete hcomplete =>
    obtain ⟨tagNodes, waiters, rfl⟩ := PoolState.completeTaggedTask_setTags hcomplete
    exact Nat.add_le_add (le_of_eq rfl) (by simp)
  | begin =>
    refine Nat.add_le_add (le_of_eq rfl) ?_
    rw [stackWeight_cons, Closure.helpers_frame]
    exact le_of_eq rfl
  | _ => exact Nat.add_le_add (le_of_eq rfl) (by simp)

theorem RetireMove.helpers {t : ThreadId cfg.maxNumThreads clients} {tag : ℕ} {pc : RetirePc}
    (hmove : RetireMove cfg t s tag pc s' after) :
    s'.queuedHelpers batch + stackWeight (Frame.helpers batch) after
      ≤ s.queuedHelpers batch + (Frame.retire tag pc : Frame cfg.maxNumThreads Code).helpers batch := by
  cases hmove with
  | sweep h => exact Nat.add_le_add (s.queuedHelpers_removeIf _ _) (by simp)
  | subtractOutstanding _ hwait | wait _ hwait =>
    cases hwait with
    | @finish =>
      obtain ⟨tagStates, tagNodes, herase⟩ := PoolState.eraseTag_setTags tag _
      rw [herase]
      exact Nat.add_le_add (le_of_eq rfl) (by simp)
    | block => exact Nat.add_le_add (le_of_eq rfl) (by simp)
  | _ => exact Nat.add_le_add (le_of_eq rfl) (by simp)

theorem FinishMove.helpers {completePendingTasks : Bool} {pc : FinishPc cfg.maxNumThreads Code}
    (hmove : FinishMove cfg s completePendingTasks pc s' after) :
    s'.queuedHelpers batch + stackWeight (Frame.helpers batch) after
      ≤ s.queuedHelpers batch + (Frame.finishAllThreads completePendingTasks pc).helpers batch := by
  have hjoin : stackWeight (Frame.helpers batch)
      (afterJoin cfg.maxNumThreads Code completePendingTasks) = 0 := by
    cases completePendingTasks <;> simp [afterJoin]
  cases hmove with
  | pop h hpop =>
    rw [PoolState.queuedHelpers_tryPop hpop, stackWeight_cons]
    exact le_of_eq (Nat.add_comm _ _)
  | complete hcomplete =>
    obtain ⟨tagNodes, waiters, rfl⟩ := PoolState.completeTaggedTask_setTags hcomplete
    exact Nat.add_le_add (le_of_eq rfl) (by simp)
  | notifyAllJoined | assertIdle => exact Nat.add_le_add (le_of_eq rfl) (by simp [hjoin])
  | begin =>
    refine Nat.add_le_add (le_of_eq rfl) ?_
    rw [stackWeight_cons, Closure.helpers_frame]
    exact le_of_eq rfl
  | _ => exact Nat.add_le_add (le_of_eq rfl) (by simp)

theorem AbandonMove.helpers {pc : AbandonPc Code} (hmove : AbandonMove cfg s pc s' after) :
    s'.queuedHelpers batch + stackWeight (Frame.helpers batch) after
      ≤ s.queuedHelpers batch
        + (Frame.abandonAllThreads pc : Frame cfg.maxNumThreads Code).helpers batch := by
  cases hmove with
  | pop h hpop =>
    rw [PoolState.queuedHelpers_tryPop hpop]
    exact Nat.add_le_add (Nat.le_add_left _ _) (by simp)
  | complete hcomplete =>
    obtain ⟨tagNodes, waiters, rfl⟩ := PoolState.completeTaggedTask_setTags hcomplete
    exact Nat.add_le_add (le_of_eq rfl) (by simp)
  | _ => exact Nat.add_le_add (le_of_eq rfl) (by simp)

end Moves

/-! ### What a step does to a batch -/

/-- What a step does to the words of a batch, to where its drainers stand and to the bound on their
number; none stands for a batch that is not made yet. -/
inductive BatchStep (maxNumThreads : ℕ) (c : Option BatchCounters) (m : Multiset DrainPc) (h : ℕ) :
    Option BatchCounters → Multiset DrainPc → ℕ → Prop
  | quiet {h' : ℕ} (hle : h' ≤ h) : BatchStep maxNumThreads c m h c m h'
  | enter {h' : ℕ} (hm : m = 0) (hpos : 0 < h) (hle : h' ≤ h) :
      BatchStep maxNumThreads c m h c {.fetch} h'
  | drain {b b' : BatchCounters} {m' : Multiset DrainPc} {h' : ℕ} (hc : c = some b)
      (hmove : b.DrainMove m b' m') (hne : m ≠ 0) (hle : h' + m.card ≤ h + m'.card) :
      BatchStep maxNumThreads c m h (some b') m' h'
  | make {count h' : ℕ} (hc : c = none) (hm : m = 0) (hcount : 0 < count)
      (hle : h' ≤ h + maxNumThreads + 1) :
      BatchStep maxNumThreads c m h (some (.initial count)) 0 h'

/-- The words of a batch, none before it is made. -/
def Shared.counters (s : Shared workers clients Code) (batch : ℕ) : Option BatchCounters :=
  (s.batches batch).map ParallelBatchState.counters

section Steps

variable {s s' : Shared cfg.maxNumThreads clients U.Code} {t : ThreadId cfg.maxNumThreads clients}
  {f : Frame cfg.maxNumThreads U.Code} {after : List (Frame cfg.maxNumThreads U.Code)} {batch : ℕ}

theorem Shared.counters_setBatch (s : Shared workers clients Code) (batch' : ℕ)
    (b : ParallelBatchState workers clients Code) (batch : ℕ) :
    (s.setBatch batch' b).counters batch
      = if batch = batch' then some b.counters else s.counters batch := by
  by_cases h : batch = batch'
  · subst h
    simp [Shared.counters]
  · simp [Shared.counters, h]

/-- A write of the wait block of a batch leaves the words of every batch alone. -/
theorem Shared.counters_setBatch_sync {s : Shared workers clients Code} {batch' : ℕ}
    {counters : BatchCounters} {fn : ℕ → Code} {onDone onDone' : OnAllCompleted workers clients Code}
    (hbatch : s.batches batch' = some ⟨counters, fn, onDone⟩) (batch : ℕ) :
    (s.setBatch batch' ⟨counters, fn, onDone'⟩).counters batch = s.counters batch := by
  rw [counters_setBatch]
  split
  · rename_i h
    rw [h, Shared.counters, hbatch, Option.map_some]
  · rfl

theorem Shared.counters_makeBatch (s : Shared workers clients Code) (count : ℕ) (fn : ℕ → Code)
    (onAllCompleted : OnAllCompleted workers clients Code) (batch : ℕ) :
    (s.makeBatch count fn onAllCompleted).counters batch
      = if batch = s.nextBatch then some (.initial count) else s.counters batch := by
  by_cases h : batch = s.nextBatch
  · subst h
    simp [Shared.counters]
  · simp [Shared.counters, h]

/-- A function of the pool, other than those of the batches. -/
def Frame.isPoolFunction : Frame workers Code → Bool
  | .runWorker _ _ => true
  | .enqueue _ => true
  | .retire _ _ => true
  | .finishAllThreads _ _ => true
  | .abandonAllThreads _ => true
  | _ => false

attribute [local simp] Frame.helpers Frame.drainPcs Closure.helps

theorem Closure.drainPcs_frame (task : Closure Code) :
    (task.frame : Frame workers Code).drainPcs batch = 0 ∨
      (task.frame : Frame workers Code).drainPcs batch = {.fetch} ∧ 0 < task.helps batch := by
  cases task with
  | user code => exact .inl rfl
  | drainIndices batch' =>
    by_cases h : batch' = batch
    · exact .inr (by simp [Closure.frame, h])
    · exact .inl (by simp [Closure.frame, h])

/-- A function of the pool starts a run of `drainIndices` only from a helper task. -/
theorem FrameMove.drainPcs_after (hmove : FrameMove cfg U t s f s' after)
    (hpool : f.isPoolFunction = true) (batch : ℕ) :
    stackWeight (Frame.drainPcs batch) after = 0 ∨
      stackWeight (Frame.drainPcs batch) after = {.fetch} ∧ 0 < f.helpers batch := by
  cases hmove with
  | runWorker hmove =>
    cases hmove with
    | @begin item =>
      simp only [stackWeight_cons, stackWeight_nil, Frame.drainPcs, Frame.helpers, add_zero]
      exact item.task.drainPcs_frame
    | _ => exact .inl (by simp)
  | enqueue hmove => exact .inl (by cases hmove <;> simp)
  | retire hmove =>
    cases hmove with
    | subtractOutstanding _ hwait | wait _ hwait => exact .inl (by cases hwait <;> simp)
    | _ => exact .inl (by simp)
  | finishAllThreads hmove =>
    cases hmove with
    | @begin _ item =>
      simp only [stackWeight_cons, stackWeight_nil, Frame.drainPcs, Frame.helpers, add_zero]
      exact item.task.drainPcs_frame
    | notifyAllJoined | assertIdle =>
      left
      unfold afterJoin
      split <;> simp
    | _ => exact .inl (by simp)
  | abandonAllThreads hmove => exact .inl (by cases hmove <;> simp)
  | _ => cases hpool

theorem FrameMove.drainPcs_before (hpool : f.isPoolFunction = true) (batch : ℕ) :
    f.drainPcs batch = 0 := by
  cases f <;> first | rfl | cases hpool

theorem FrameMove.batchStep_pool (hmove : FrameMove cfg U t s f s' after)
    (hpool : f.isPoolFunction = true) :
    BatchStep cfg.maxNumThreads (s.counters batch) (f.drainPcs batch)
      (s.pool.queuedHelpers batch + f.helpers batch) (s'.counters batch)
      (stackWeight (Frame.drainPcs batch) after)
      (s'.pool.queuedHelpers batch + stackWeight (Frame.helpers batch) after) := by
  have hpcs := hmove.drainPcs_after hpool batch
  have hbefore := FrameMove.drainPcs_before hpool batch
  have hle : s'.pool.queuedHelpers batch + stackWeight (Frame.helpers batch) after
      ≤ s.pool.queuedHelpers batch + f.helpers batch := by
    cases hmove with
    | runWorker hmove => exact hmove.helpers
    | enqueue hmove => exact hmove.helpers
    | retire hmove => exact hmove.helpers
    | finishAllThreads hmove => exact hmove.helpers
    | abandonAllThreads hmove => exact hmove.helpers
    | _ => cases hpool
  have hcounters : s'.counters batch = s.counters batch := by
    cases hmove with
    | runWorker | enqueue | retire | finishAllThreads | abandonAllThreads => rfl
    | _ => cases hpool
  rw [hcounters, hbefore]
  rcases hpcs with hnone | ⟨hfetch, hpos⟩
  · rw [hnone]
    exact .quiet hle
  · rw [hfetch]
    exact .enter rfl (Nat.add_pos_right _ hpos) hle

theorem ParallelForMove.batchStep {s s' : Shared cfg.maxNumThreads clients Code}
    {pc : ParallelForPc Code} {after : List (Frame cfg.maxNumThreads Code)}
    (hmove : ParallelForMove cfg t s pc s' after) (hfresh : s.batches s.nextBatch = none) :
    BatchStep cfg.maxNumThreads (s.counters batch)
      ((Frame.parallelFor pc : Frame cfg.maxNumThreads Code).drainPcs batch)
      (s.pool.queuedHelpers batch
        + (Frame.parallelFor pc : Frame cfg.maxNumThreads Code).helpers batch) (s'.counters batch)
      (stackWeight (Frame.drainPcs batch) after)
      (s'.pool.queuedHelpers batch + stackWeight (Frame.helpers batch) after) := by
  cases hmove with
  | @make count fn hzero hone =>
    rw [Shared.counters_makeBatch]
    by_cases h : batch = s.nextBatch
    · subst h
      have hmin : min (count - 1) cfg.maxNumThreads % 2 ^ 32 ≤ cfg.maxNumThreads :=
        (Nat.mod_le _ _).trans (Nat.min_le_right _ _)
      rw [if_pos rfl]
      refine .make (by simp [Shared.counters, hfresh]) rfl (Nat.pos_of_ne_zero hzero) ?_
      simp only [Shared.makeBatch_pool, stackWeight_cons, stackWeight_nil, Frame.helpers, if_true]
      omega
    · rw [if_neg h]
      exact .quiet (by simp [Ne.symm h])
  | @helper batch' i helperCount hi =>
    refine .quiet (Nat.add_le_add_left ?_ _)
    by_cases h : batch' = batch
    · simp only [stackWeight_cons, stackWeight_nil, Frame.helpers, Closure.helps, h, if_true]
      omega
    · simp [h]
  | @drain batch' i helperCount hi =>
    by_cases h : batch' = batch
    · have hafter : stackWeight (Frame.drainPcs batch)
          [(.drainIndices batch' .fetch : Frame cfg.maxNumThreads Code), .parallelFor (.lock batch')]
          = {.fetch} := by simp [h]
      rw [hafter]
      exact .enter rfl (Nat.add_pos_right _ (by simp [h])) (Nat.add_le_add_left (by simp [h]) _)
    · have hafter : stackWeight (Frame.drainPcs batch)
          [(.drainIndices batch' .fetch : Frame cfg.maxNumThreads Code), .parallelFor (.lock batch')]
          = 0 := by simp [h]
      rw [hafter]
      exact .quiet (by simp [h])
  | done hbatch hpc =>
    rcases hpc with rfl | ⟨rfl, -⟩ <;> exact .quiet (by simp)
  | block hbatch hpc =>
    rw [Shared.counters_setBatch_sync hbatch]
    rcases hpc with rfl | ⟨rfl, -⟩ <;> exact .quiet (by simp)
  | spurious hbatch =>
    rw [Shared.counters_setBatch_sync hbatch]
    exact .quiet (by simp)
  | _ => exact .quiet (by simp)

theorem ParallelForAsyncMove.batchStep {s s' : Shared cfg.maxNumThreads clients Code}
    {pc : ParallelForAsyncPc Code} {after : List (Frame cfg.maxNumThreads Code)}
    (hmove : ParallelForAsyncMove cfg s pc s' after) (hfresh : s.batches s.nextBatch = none) :
    BatchStep cfg.maxNumThreads (s.counters batch)
      ((Frame.parallelForAsync pc : Frame cfg.maxNumThreads Code).drainPcs batch)
      (s.pool.queuedHelpers batch
        + (Frame.parallelForAsync pc : Frame cfg.maxNumThreads Code).helpers batch)
      (s'.counters batch) (stackWeight (Frame.drainPcs batch) after)
      (s'.pool.queuedHelpers batch + stackWeight (Frame.helpers batch) after) := by
  cases hmove with
  | @make count fn onAllCompleted hcount =>
    rw [Shared.counters_makeBatch]
    by_cases h : batch = s.nextBatch
    · subst h
      have hmin : min count cfg.maxNumThreads % 2 ^ 32 ≤ cfg.maxNumThreads :=
        (Nat.mod_le _ _).trans (Nat.min_le_right _ _)
      rw [if_pos rfl]
      refine .make (by simp [Shared.counters, hfresh]) rfl (Nat.pos_of_ne_zero hcount) ?_
      simp only [Shared.makeBatch_pool, stackWeight_cons, stackWeight_nil, Frame.helpers, if_true]
      omega
    · rw [if_neg h]
      exact .quiet (by simp [Ne.symm h])
  | @helper batch' i helperCount hi =>
    refine .quiet (Nat.add_le_add_left ?_ _)
    by_cases h : batch' = batch
    · simp only [stackWeight_cons, stackWeight_nil, Frame.helpers, Closure.helps, h, if_true]
      omega
    · simp [h]
  | _ => exact .quiet (by simp)

theorem DrainIndicesMove.batchStep {s s' : Shared cfg.maxNumThreads clients Code} {batch' : ℕ}
    {pc : DrainPc} {after : List (Frame cfg.maxNumThreads Code)}
    (hmove : DrainIndicesMove s batch' pc s' after) :
    BatchStep cfg.maxNumThreads (s.counters batch)
      ((Frame.drainIndices batch' pc : Frame cfg.maxNumThreads Code).drainPcs batch)
      (s.pool.queuedHelpers batch
        + (Frame.drainIndices batch' pc : Frame cfg.maxNumThreads Code).helpers batch)
      (s'.counters batch) (stackWeight (Frame.drainPcs batch) after)
      (s'.pool.queuedHelpers batch + stackWeight (Frame.helpers batch) after) := by
  by_cases h : batch' = batch
  · subst h
    have hleads : ∀ {b : ParallelBatchState cfg.maxNumThreads clients Code} {m : Multiset DrainPc}
        {effect : DrainEffect}, s.batches batch' = some b → (b.counters.drainStep pc).2 = effect →
        effect.LeadsTo m →
        BatchStep cfg.maxNumThreads (s.counters batch') {pc} (s.pool.queuedHelpers batch' + 1)
          (some (b.counters.drainStep pc).1) m (s.pool.queuedHelpers batch' + m.card) := by
      intro b m effect hbatch heffect hleads
      refine .drain (by simp [Shared.counters, hbatch])
        (BatchCounters.drainStep_move (heffect ▸ hleads)) (Multiset.singleton_ne_zero _) ?_
      rw [Multiset.card_singleton]
      omega
    cases hmove with
    | exit hbatch heffect =>
      simpa [Shared.counters_setBatch] using hleads hbatch heffect .exit
    | goto hbatch heffect =>
      simpa [Shared.counters_setBatch] using hleads hbatch heffect (.goto _)
    | callFn hbatch heffect =>
      simpa [Shared.counters_setBatch] using hleads hbatch heffect (.callFn _)
    | callUser hbatch heffect =>
      simpa [Shared.counters_setBatch] using hleads hbatch heffect .callUser
    | signal hbatch heffect =>
      simpa [Shared.counters_setBatch] using hleads hbatch heffect .signal
  · cases hmove <;>
    · rw [Shared.counters_setBatch, if_neg (Ne.symm h)]
      simp only [Frame.drainPcs, stackWeight_cons, stackWeight_nil, if_neg h, add_zero]
      exact .quiet (by simp [h])

theorem FrameMove.batchStep (hmove : FrameMove cfg U t s f s' after)
    (hfresh : s.batches s.nextBatch = none) :
    BatchStep cfg.maxNumThreads (s.counters batch) (f.drainPcs batch)
      (s.pool.queuedHelpers batch + f.helpers batch) (s'.counters batch)
      (stackWeight (Frame.drainPcs batch) after)
      (s'.pool.queuedHelpers batch + stackWeight (Frame.helpers batch) after) := by
  cases hmove with
  | @body code i hallowed =>
    obtain ⟨hhelpers, hpcs⟩ := UserStep.helpers_frames cfg.maxNumThreads (U.next code i) batch
    rw [hhelpers, hpcs]
    exact .quiet le_rfl
  | resume => exact .quiet le_rfl
  | runWorker hmove => exact batchStep_pool (t := t) (.runWorker hmove) rfl
  | enqueue hmove => exact batchStep_pool (t := t) (.enqueue hmove) rfl
  | retire hmove => exact batchStep_pool (t := t) (.retire hmove) rfl
  | finishAllThreads hmove => exact batchStep_pool (t := t) (.finishAllThreads hmove) rfl
  | abandonAllThreads hmove => exact batchStep_pool (t := t) (.abandonAllThreads hmove) rfl
  | parallelFor hmove => exact hmove.batchStep hfresh
  | parallelForAsync hmove => exact hmove.batchStep hfresh
  | drainIndices hmove => exact hmove.batchStep

theorem unwind_batchStep (hunwind : unwind f = some after)
    (hmade : s.counters batch = none → f.helpers batch = 0) :
    BatchStep cfg.maxNumThreads (s.counters batch) (f.drainPcs batch)
      (s.pool.queuedHelpers batch + f.helpers batch) (s.counters batch)
      (stackWeight (Frame.drainPcs batch) after)
      (s.pool.queuedHelpers batch + stackWeight (Frame.helpers batch) after) := by
  unfold unwind at hunwind
  split at hunwind <;> cases hunwind
  case h_5 batch' =>
    -- A completion action that throws takes its drainer out of the batch.
    by_cases h : batch' = batch
    · subst h
      cases hcounters : s.counters batch' with
      | none => exact absurd (hmade hcounters) (by simp)
      | some b =>
        have hpcs : (Frame.drainIndices batch' .inCompletion : Frame cfg.maxNumThreads U.Code).drainPcs
            batch' = {.inCompletion} := by simp
        rw [hpcs]
        exact .drain rfl .completionThrew (Multiset.singleton_ne_zero _) (by simp)
    · have hpcs : (Frame.drainIndices batch' .inCompletion : Frame cfg.maxNumThreads U.Code).drainPcs
          batch = 0 := by simp [h]
      rw [hpcs]
      exact .quiet (by simp)
  all_goals simp only [stackWeight_cons, stackWeight_nil, add_zero]
  all_goals exact .quiet (by simp)

end Steps

/-! ### The invariant of each batch -/

/-- A batch that is not made has no helpers; one that is made has no more drainers than workers and
its caller, and stays consistent while `size_t` holds its indices and theirs. -/
structure BatchInvariant (maxNumThreads : ℕ) (c : Option BatchCounters) (inside : Multiset DrainPc)
    (helpers : ℕ) : Prop where
  notMade : c = none → helpers = 0
  made : ∀ b, c = some b → 0 < b.count ∧ b.nextIndex - b.count + helpers ≤ maxNumThreads + 1 ∧
    (b.count + (maxNumThreads + 1) < 2 ^ 64 → b.Consistent inside)

theorem BatchInvariant.step {n h h' k : ℕ} {c c' : Option BatchCounters} {m m' r : Multiset DrainPc}
    (hI : BatchInvariant n c (m + r) (h + k)) (hcard : (m + r).card ≤ h + k)
    (hstep : BatchStep n c m h c' m' h') : BatchInvariant n c' (m' + r) (h' + k) := by
  cases hstep with
  | quiet hle =>
    refine ⟨fun hc => ?_, fun b hb => ?_⟩
    · have hzero := hI.notMade hc
      omega
    · obtain ⟨hpos, hcredits, hconsistent⟩ := hI.made b hb
      exact ⟨hpos, by omega, hconsistent⟩
  | enter hm hpos hle =>
    refine ⟨fun hc => ?_, fun b hb => ?_⟩
    · have hzero := hI.notMade hc
      omega
    · obtain ⟨hcount, hcredits, hconsistent⟩ := hI.made b hb
      refine ⟨hcount, by omega, fun hroom => ?_⟩
      subst hm
      exact (hconsistent hroom).step .enter (by omega) (by omega)
  | @drain b b' _ _ hc hmove hne hle =>
    obtain ⟨hpos, hcredits, hconsistent⟩ := hI.made b hc
    have hpaid := hmove.credits hne
    have hcount : b'.count = b.count := by cases hmove <;> rfl
    refine ⟨fun hb => absurd hb (by simp), fun b'' hb => ?_⟩
    cases hb
    have hmpos := Multiset.card_pos.mpr hne
    rw [Multiset.card_add] at hcard
    refine ⟨hcount ▸ hpos, by omega, fun hroom => ?_⟩
    rw [hcount] at hroom
    exact (hconsistent hroom).step hmove (by omega) (by omega)
  | @make count _ hc hm hcount hle =>
    have hzero := hI.notMade hc
    refine ⟨fun hb => absurd hb (by simp), fun b hb => ?_⟩
    cases hb
    have hr : r = 0 := by
      rw [Multiset.card_add] at hcard
      exact Multiset.card_eq_zero.mp (by omega)
    refine ⟨hcount, ?_, fun _ => ?_⟩
    · simp only [BatchCounters.initial]
      omega
    · rw [hr, add_zero]
      exact .initial hcount

namespace PoolSystem

variable {s s' : PoolSystem cfg U clients} {batch : ℕ}

def insideBatch (s : PoolSystem cfg U clients) (batch : ℕ) : Multiset DrainPc :=
  weight (Frame.drainPcs batch) s.threads

/-- The runs of `drainIndices` of this batch, going on or still to come. -/
def helpersOf (s : PoolSystem cfg U clients) (batch : ℕ) : ℕ :=
  s.shared.pool.queuedHelpers batch + weight (Frame.helpers batch) s.threads

theorem card_insideBatch_le (s : PoolSystem cfg U clients) (batch : ℕ) :
    (s.insideBatch batch).card ≤ s.helpersOf batch := by
  have hcard := map_weight (Multiset.cardHom : Multiset DrainPc →+ ℕ) (Frame.drainPcs batch) s.threads
  exact ((le_of_eq hcard).trans (weight_le_weight (fun f => f.card_drainPcs_le batch) _)).trans
    (Nat.le_add_left _ _)

end PoolSystem

/-- The batches made so far are the ones below `nextBatch`. -/
def Shared.BatchesMade (s : Shared workers clients Code) : Prop :=
  ∀ batch, s.nextBatch ≤ batch → s.batches batch = none

namespace Shared

variable {s : Shared workers clients Code}

theorem BatchesMade.lt (h : s.BatchesMade) {batch : ℕ}
    {b : ParallelBatchState workers clients Code} (hbatch : s.batches batch = some b) :
    batch < s.nextBatch := by
  by_contra hge
  rw [h batch (Nat.le_of_not_lt hge)] at hbatch
  cases hbatch

theorem BatchesMade.setBatch (h : s.BatchesMade) {batch : ℕ}
    {b b' : ParallelBatchState workers clients Code} (hbatch : s.batches batch = some b) :
    (s.setBatch batch b').BatchesMade := by
  intro batch' hle
  have hlt := h.lt hbatch
  have hle' : s.nextBatch ≤ batch' := hle
  rw [setBatch_batches, Function.update_of_ne (by omega)]
  exact h batch' hle'

theorem BatchesMade.makeBatch (h : s.BatchesMade) (count : ℕ) (fn : ℕ → Code)
    (onAllCompleted : OnAllCompleted workers clients Code) :
    (s.makeBatch count fn onAllCompleted).BatchesMade := by
  intro batch hle
  have hle' : s.nextBatch + 1 ≤ batch := hle
  rw [makeBatch_batches, Function.update_of_ne (by omega)]
  exact h batch (by omega)

end Shared

theorem FrameMove.batchesMade {t : ThreadId cfg.maxNumThreads clients}
    {s s' : Shared cfg.maxNumThreads clients U.Code} {f : Frame cfg.maxNumThreads U.Code}
    {after : List (Frame cfg.maxNumThreads U.Code)} (hmove : FrameMove cfg U t s f s' after)
    (h : s.BatchesMade) : s'.BatchesMade := by
  cases hmove with
  | parallelFor hmove =>
    cases hmove with
    | make => exact h.makeBatch _ _ _
    | block hbatch | spurious hbatch => exact h.setBatch hbatch
    | _ => exact h
  | parallelForAsync hmove =>
    cases hmove with
    | make => exact h.makeBatch _ _ _
    | _ => exact h
  | drainIndices hmove =>
    cases hmove with
    | exit hbatch | goto hbatch | callFn hbatch | callUser hbatch | signal hbatch =>
      exact h.setBatch hbatch
  | _ => exact h

namespace PoolSystem

variable {s s' : PoolSystem cfg U clients}

theorem batchesMade (hreach : (poolSystem cfg U clients).Reachable s) : s.shared.BatchesMade := by
  refine TransitionSystem.Reachable.invariant
    (fun s : PoolSystem cfg U clients => s.shared.BatchesMade) ?_ (fun s s' _ hI hstep => ?_) hreach
  · rintro s ⟨main, rfl⟩ batch -
    rfl
  · cases step_move hstep with
    | mk t hstack hrule =>
      cases hrule with
      | frame hmove => exact hmove.batchesMade hI
      | unwind => exact hI

theorem batchInvariant_step (hmade : s.shared.BatchesMade) {batch : ℕ}
    (hI : BatchInvariant cfg.maxNumThreads (s.shared.counters batch) (s.insideBatch batch)
      (s.helpersOf batch)) (hstep : (poolSystem cfg U clients).Step s s') :
    BatchInvariant cfg.maxNumThreads (s'.shared.counters batch) (s'.insideBatch batch)
      (s'.helpersOf batch) := by
  have hcard := s.card_insideBatch_le batch
  cases step_move hstep with
  | @mk shared' before after rest t hstack hrule =>
    obtain ⟨r, hpcs, hpcs'⟩ := weight_split (Frame.drainPcs batch) hstack after
    obtain ⟨k, hhelpers, hhelpers'⟩ := weight_split (Frame.helpers batch) hstack after
    simp only [insideBatch, helpersOf, hpcs, hpcs', hhelpers, hhelpers', ← add_assoc] at hI hcard ⊢
    refine hI.step hcard ?_
    cases hrule with
    | frame hmove =>
      simp only [stackWeight_cons, stackWeight_nil, add_zero]
      exact hmove.batchStep (hmade _ le_rfl)
    | @unwind _ _ f _ hunwind =>
      simp only [stackWeight_cons, stackWeight_nil, add_zero, Frame.drainPcs_unwinding,
        Frame.helpers_unwinding, zero_add] at hI ⊢
      refine unwind_batchStep hunwind fun hnone => ?_
      have hzero := hI.notMade hnone
      omega

theorem batchInvariant (hreach : (poolSystem cfg U clients).Reachable s) (batch : ℕ) :
    BatchInvariant cfg.maxNumThreads (s.shared.counters batch) (s.insideBatch batch)
      (s.helpersOf batch) := by
  refine TransitionSystem.Reachable.invariant
    (fun s : PoolSystem cfg U clients => BatchInvariant cfg.maxNumThreads (s.shared.counters batch)
      (s.insideBatch batch) (s.helpersOf batch))
    ?_ (fun s s' hr hI hstep => batchInvariant_step (batchesMade hr) hI hstep) hreach
  rintro s ⟨main, rfl⟩
  refine ⟨fun _ => ?_, fun b hb => by cases hb⟩
  have hthreads : weight (Frame.helpers batch) (initialSystem cfg U clients main).threads = 0 := by
    refine weight_eq_zero.mpr fun t f hf => ?_
    cases t <;> simp only [initialSystem, List.mem_singleton] at hf <;> subst hf <;> rfl
  have hlanes : (initialSystem cfg U clients main).shared.pool.queuedHelpers batch = 0 := by
    simp [PoolState.queuedHelpers, PoolState.queuedTasks, initialSystem, PoolState.initial]
  rw [helpersOf, hthreads, hlanes]

end PoolSystem

end CppUtils
