import CppUtils.ThreadPool.NestedWaits
import CppUtils.ThreadPool.RetireBarrier

/-!
# When a thread can take a step

The places where a call waits for another thread. Anywhere else the innermost call of a thread can
go on, so a thread that cannot take a step stands at one of them.
-/

namespace CppUtils

open Threaded

variable {clients workers : ℕ} {U : UserCode} {Code : Type} {cfg : PoolConfig}

def Choice.endsWait {Input : Type} : Choice workers clients Input → Bool
  | .spurious => true
  | .timeout => true
  | _ => false

/-- A choice that no step has to wait for: no wait ends by itself and no push fails. -/
def Choice.isUsual {Input : Type} : Choice workers clients Input → Bool
  | .pushThrows => false
  | .spurious => false
  | .timeout => false
  | _ => true

theorem Choice.endsWait_of_isUsual {Input : Type} {c : Choice workers clients Input}
    (h : c.isUsual = true) : c.endsWait = false := by
  cases c with
  | spurious | timeout => cases h
  | _ => rfl

/-- The frame may be unable to go on: user code without a step it may take, a full lane, a wait. -/
def Frame.mayBlock (U : UserCode) (s : Shared workers clients U.Code) (t : ThreadId workers clients) :
    Frame workers U.Code → Prop
  | .body code => ∀ i, (U.next code i).allowed t = false
  | .unwinding => True
  | .runWorker _ .idleWait => t ∈ s.pool.idleCv
  | .enqueue (.push index _) => laneMaxSize ≤ (s.pool.queues index).items.length
  | .retire _ _ => True
  | .finishAllThreads _ (.join (worker :: _)) => worker ∉ s.pool.exited
  | .parallelFor (.wait batch) => t ∈ s.waiters batch
  | _ => False

namespace PoolState

variable {s : PoolState workers clients Code}

theorem exists_taggedTaskCanRun {tagState : Option ℕ}
    (hnode : ∀ a, tagState = some a → ∃ node, s.tagNodes a = some node) :
    ∃ b, s.taggedTaskCanRun tagState = some b := by
  cases tagState with
  | none => exact ⟨true, rfl⟩
  | some a =>
    obtain ⟨node, h⟩ := hnode a rfl
    exact ⟨!node.retired, by simp [taggedTaskCanRun, h]⟩

theorem exists_completeTaggedTask {tagState : Option ℕ}
    (hnode : ∀ a, tagState = some a → ∃ node, s.tagNodes a = some node) :
    ∃ s', s.completeTaggedTask tagState = some s' := by
  cases tagState with
  | none => exact ⟨s, rfl⟩
  | some a =>
    obtain ⟨node, h⟩ := hnode a rfl
    simp only [completeTaggedTask, h]
    split <;> exact ⟨_, rfl⟩

theorem exists_tryEmplace (hfree : ∃ a, s.tagNodes a = none)
    (hindexed : ∀ tag a, s.tagStates tag = some a → ∃ node, s.tagNodes a = some node) (tag : ℕ) :
    ∃ address tagState s' node, s.tryEmplace tag address = some (tagState, s') ∧
      s'.tagNodes tagState = some node := by
  obtain ⟨a, ha⟩ := hfree
  cases hentry : s.tagStates tag with
  | none => exact ⟨a, a, s.emplaceNode tag a, ⟨tag, 0, false⟩, by simp [tryEmplace, hentry, ha], by simp⟩
  | some tagState =>
    obtain ⟨node, hnode⟩ := hindexed tag tagState hentry
    exact ⟨a, tagState, s, node, by simp [tryEmplace, hentry], hnode⟩

end PoolState

namespace PoolSystem

variable {s : PoolSystem cfg U clients} {t : ThreadId cfg.maxNumThreads clients}
  {f : Frame cfg.maxNumThreads U.Code}

theorem exists_node (hreach : (poolSystem cfg U clients).Reachable s) (hf : f ∈ s.threads t)
    (item : TaggedTask U.Code) (stage : Stage)
    (hx : (item, stage) ∈ (f.poolWeight (custody _ _)).1) (hcounted : stage.counted = true) :
    ∀ a, item.tagState = some a → ∃ node, s.shared.pool.tagNodes a = some node := by
  intro a ha
  obtain ⟨node, hnode, -⟩ := Ledger.nodeAt_of_mem (ledger_reachable hreach) _
    (mem_held_of_frame hf hx) hcounted a ha
  exact ⟨node, hnode⟩

theorem exists_free (hreach : (poolSystem cfg U clients).Reachable s) :
    ∃ a, s.shared.pool.tagNodes a = none := by
  obtain ⟨a, ha⟩ := (Ledger.finite_nodes (ledger_reachable hreach)).exists_notMem
  exact ⟨a, not_not.mp ha⟩

theorem exists_node_of_entry (hreach : (poolSystem cfg U clients).Reachable s) :
    ∀ tag a, s.shared.pool.tagStates tag = some a → ∃ node, s.shared.pool.tagNodes a = some node := by
  intro tag a ha
  obtain ⟨node, hnode, -⟩ := (Ledger.indexed (ledger_reachable hreach) tag a).mp ha
  exact ⟨node, hnode⟩

variable {clients : ℕ} {s : PoolSystem cfg U clients} {t : ThreadId cfg.maxNumThreads clients}

theorem exists_enqueueStep (hreach : (poolSystem cfg U clients).Reachable s)
    {pc : EnqueuePc cfg.maxNumThreads U.Code} (hf : .enqueue pc ∈ s.threads t)
    (hpc : ¬ (Frame.enqueue pc).mayBlock U s.shared t) :
    ∃ c : Choice cfg.maxNumThreads clients U.Input, c.isUsual = true ∧
      ∃ r, enqueueStep cfg c s.shared.pool pc = some r := by
  cases pc with
  | start task tag =>
    refine ⟨.go, rfl, ?_⟩
    simp only [enqueueStep]
    split <;> exact ⟨_, rfl⟩
  | register index item =>
    obtain ⟨a, tagState, s', node, hemplace, hnode⟩ := PoolState.exists_tryEmplace
      (exists_free hreach) (exists_node_of_entry hreach) item.tag
    refine ⟨.address a, rfl, ?_⟩
    simp only [enqueueStep, hemplace, hnode]
    split <;> exact ⟨_, rfl⟩
  | increment index item => exact ⟨.go, rfl, _, rfl⟩
  | push index item =>
    refine ⟨.go, rfl, ?_⟩
    cases hpush : s.shared.pool.push index item with
    | none => exact absurd (PoolState.push_eq_none.mp hpush) hpc
    | some s' => exact ⟨_, by simp only [enqueueStep, hpush]; rfl⟩
  | undoIncrement item => exact ⟨.go, rfl, _, rfl⟩
  | completeTaggedTask item =>
    obtain ⟨s', hcomplete⟩ := PoolState.exists_completeTaggedTask
      (exists_node hreach hf item (.ended .discarded) (by simp [holding]) rfl)
    exact ⟨.go, rfl, _, by simp only [enqueueStep, hcomplete]; rfl⟩
  | rethrow item => exact ⟨.go, rfl, _, rfl⟩
  | gate =>
    refine ⟨.go, rfl, ?_⟩
    simp only [enqueueStep]
    split <;> exact ⟨_, rfl⟩
  | notify =>
    by_cases hnone : s.shared.pool.idleCv = ∅
    · exact ⟨.notify t, rfl, _, by simp [enqueueStep, hnone]; rfl⟩
    · obtain ⟨u, hu⟩ := Finset.nonempty_iff_ne_empty.mpr hnone
      exact ⟨.notify u, rfl, _, by simp [enqueueStep, hu]; rfl⟩

/-- `runWorker` goes on unless it is blocked in the idle wait. -/
theorem exists_runWorkerStep (hreach : (poolSystem cfg U clients).Reachable s)
    {own : Fin cfg.maxNumThreads} {pc : RunWorkerPc U.Code} (hf : .runWorker own pc ∈ s.threads t)
    (hpc : ¬ (Frame.runWorker own pc).mayBlock U s.shared t) :
    ∃ r, runWorkerStep cfg t (.go : Choice cfg.maxNumThreads clients U.Input) s.shared.pool own pc
      = some r := by
  cases pc with
  | loopHead =>
    simp only [runWorkerStep]
    split <;> exact ⟨_, rfl⟩
  | taggedTaskCanRun item =>
    obtain ⟨b, hb⟩ := PoolState.exists_taggedTaskCanRun
      (exists_node hreach hf item .taken (by simp [holding]) rfl)
    cases b <;> exact ⟨_, by simp only [runWorkerStep, hb]; rfl⟩
  | completeTaggedTask item fate =>
    obtain ⟨s', hcomplete⟩ := PoolState.exists_completeTaggedTask
      (exists_node hreach hf item (.ended fate) (by simp [holding]) rfl)
    exact ⟨_, by simp only [runWorkerStep, hcomplete]; rfl⟩
  | idleWait =>
    have hawake : t ∉ s.shared.pool.idleCv := hpc
    exact ⟨_, by simp only [runWorkerStep, if_neg hawake]; rfl⟩
  | _ => exact ⟨_, rfl⟩

/-- `finishAllThreads` goes on unless it joins a worker that is running. -/
theorem exists_finishStep (hreach : (poolSystem cfg U clients).Reachable s)
    {completePendingTasks : Bool} {pc : FinishPc cfg.maxNumThreads U.Code}
    (hf : .finishAllThreads completePendingTasks pc ∈ s.threads t)
    (hpc : ¬ (Frame.finishAllThreads completePendingTasks pc).mayBlock U s.shared t) :
    ∃ r, finishStep cfg s.shared.pool completePendingTasks pc = some r := by
  cases pc with
  | notifyAll =>
    simp only [finishStep]
    split <;> exact ⟨_, rfl⟩
  | join rest =>
    cases rest with
    | nil => exact ⟨_, rfl⟩
    | cons worker rest =>
      have hexited : worker ∈ s.shared.pool.exited := not_not.mp hpc
      exact ⟨_, by simp only [finishStep, if_pos hexited]; rfl⟩
  | drain drainedAny i item =>
    simp only [finishStep]
    split
    · split <;> exact ⟨_, rfl⟩
    · split <;> exact ⟨_, rfl⟩
  | taggedTaskCanRun i item =>
    obtain ⟨b, hb⟩ := PoolState.exists_taggedTaskCanRun
      (exists_node hreach hf item .taken (by simp [holding]) rfl)
    cases b <;> exact ⟨_, by simp only [finishStep, hb]; rfl⟩
  | completeTaggedTask i item fate =>
    obtain ⟨s', hcomplete⟩ := PoolState.exists_completeTaggedTask
      (exists_node hreach hf item (.ended fate) (by simp [holding]) rfl)
    exact ⟨_, by simp only [finishStep, hcomplete]; rfl⟩
  | _ => exact ⟨_, rfl⟩

theorem exists_abandonStep (hreach : (poolSystem cfg U clients).Reachable s)
    {pc : AbandonPc U.Code} (hf : .abandonAllThreads pc ∈ s.threads t) :
    ∃ r, abandonStep cfg s.shared.pool pc = some r := by
  cases pc with
  | sweep i item =>
    simp only [abandonStep]
    split
    · split <;> exact ⟨_, rfl⟩
    · exact ⟨_, rfl⟩
  | completeTaggedTask i item =>
    obtain ⟨s', hcomplete⟩ := PoolState.exists_completeTaggedTask
      (exists_node hreach hf item (.ended .abandoned) (by simp [holding]) rfl)
    exact ⟨_, by simp only [abandonStep, hcomplete]; rfl⟩
  | _ => exact ⟨_, rfl⟩

private theorem exists_allDoneWait {batch : ℕ} (hbatch : s.shared.HasBatch true batch) :
    ∃ r, allDoneWait t s.shared batch = some r := by
  obtain ⟨⟨counters, fn, onAllCompleted⟩, hb, hsignal, -⟩ := hbatch
  cases onAllCompleted with
  | user => cases hsignal
  | signal sync =>
    simp only [allDoneWait, hb]
    split <;> exact ⟨_, rfl⟩

theorem exists_parallelForStep (hreach : (poolSystem cfg U clients).Reachable s)
    {pc : ParallelForPc U.Code} (hf : .parallelFor pc ∈ s.threads t)
    (hpc : ¬ (Frame.parallelFor pc).mayBlock U s.shared t) :
    ∃ r, parallelForStep cfg t (.go : Choice cfg.maxNumThreads clients U.Input) s.shared pc = some r := by
  have hwired := wired hreach t _ hf
  cases pc with
  | start count fn =>
    simp only [parallelForStep]
    split
    · exact ⟨_, rfl⟩
    · split <;> exact ⟨_, rfl⟩
  | single => exact ⟨_, rfl⟩
  | helpers batch i helperCount =>
    simp only [parallelForStep]
    split <;> exact ⟨_, rfl⟩
  | lock batch => exact exists_allDoneWait hwired
  | wait batch =>
    obtain ⟨r, hr⟩ := exists_allDoneWait (t := t) hwired
    obtain ⟨⟨counters, fn, onAllCompleted⟩, hb, hsignal, -⟩ := hwired
    cases onAllCompleted with
    | user => cases hsignal
    | signal sync =>
      have hawake : t ∉ sync.allDone := by
        intro h
        refine hpc ?_
        change t ∈ s.shared.waiters batch
        rw [Shared.waiters_eq hb]
        exact h
      exact ⟨r, by simp only [parallelForStep, hb, if_neg hawake, hr]⟩

theorem exists_drainIndicesStep (hreach : (poolSystem cfg U clients).Reachable s)
    {batch : ℕ} {pc : DrainPc} (hf : .drainIndices batch pc ∈ s.threads t) :
    ∃ c : Choice cfg.maxNumThreads clients U.Input, c.isUsual = true ∧
      ∃ r, drainIndicesStep c s.shared batch pc = some r := by
  obtain ⟨b, hb⟩ := exists_batch hreach hf
  cases heffect : (b.counters.drainStep pc).2 with
  | exit | goto pc' | callFn index =>
    exact ⟨.go, rfl, _, by simp only [drainIndicesStep, hb, heffect]; rfl⟩
  | complete =>
    cases hcompleted : b.onAllCompleted with
    | user code => exact ⟨.go, rfl, _, by simp only [drainIndicesStep, hb, heffect, hcompleted]; rfl⟩
    | signal sync =>
      by_cases hnone : sync.allDone = ∅
      · exact ⟨.notify t, rfl, _,
          by simp only [drainIndicesStep, hb, heffect, hcompleted, hnone, or_true, if_true]; rfl⟩
      · obtain ⟨u, hu⟩ := Finset.nonempty_iff_ne_empty.mpr hnone
        exact ⟨.notify u, rfl, _,
          by simp only [drainIndicesStep, hb, heffect, hcompleted, hu, true_or, if_true]; rfl⟩

/-- A call that is not at a waiting place can go on. -/
theorem exists_usualStep (hreach : (poolSystem cfg U clients).Reachable s)
    {f : Frame cfg.maxNumThreads U.Code} {rest : List (Frame cfg.maxNumThreads U.Code)}
    (hstack : s.threads t = f :: rest) (hf : ¬ f.mayBlock U s.shared t) :
    ∃ c s', c.isUsual = true ∧ step cfg U t c s = some s' := by
  have hmem : f ∈ s.threads t := hstack ▸ List.mem_cons_self
  have hstep : ∀ c r, frameStep cfg U t c s.shared f = some r → ∃ s', step cfg U t c s = some s' :=
    fun c r hr => ⟨_, step_eq_of_frameStep hstack hr⟩
  cases f with
  | body code =>
    obtain ⟨i, hi⟩ := not_forall.mp hf
    have hallowed : (U.next code i).allowed t = true := by simpa using hi
    obtain ⟨s', h⟩ := hstep (.input i) _ (by simp only [frameStep, if_pos hallowed]; rfl)
    exact ⟨_, s', rfl, h⟩
  | calling resume =>
    obtain ⟨s', h⟩ := hstep .go _ rfl
    exact ⟨_, s', rfl, h⟩
  | unwinding => exact absurd trivial hf
  | runWorker own pc =>
    obtain ⟨r, hr⟩ := exists_runWorkerStep hreach hmem hf
    obtain ⟨s', h⟩ := hstep .go _ (by simp only [frameStep, hr]; rfl)
    exact ⟨_, s', rfl, h⟩
  | enqueue pc =>
    obtain ⟨c, hc, r, hr⟩ := exists_enqueueStep hreach hmem hf
    obtain ⟨s', h⟩ := hstep c _ (by simp only [frameStep, hr]; rfl)
    exact ⟨c, s', hc, h⟩
  | retire tag pc => exact absurd trivial hf
  | finishAllThreads completePendingTasks pc =>
    obtain ⟨r, hr⟩ := exists_finishStep hreach hmem hf
    obtain ⟨s', h⟩ := hstep .go _ (by simp only [frameStep, hr]; rfl)
    exact ⟨_, s', rfl, h⟩
  | abandonAllThreads pc =>
    obtain ⟨r, hr⟩ := exists_abandonStep hreach hmem
    obtain ⟨s', h⟩ := hstep .go _ (by simp only [frameStep, hr]; rfl)
    exact ⟨_, s', rfl, h⟩
  | parallelFor pc =>
    obtain ⟨r, hr⟩ := exists_parallelForStep hreach hmem hf
    obtain ⟨s', h⟩ := hstep .go r hr
    exact ⟨_, s', rfl, h⟩
  | parallelForAsync pc =>
    have hr : ∃ r, parallelForAsyncStep cfg s.shared pc = some r := by
      cases pc <;> simp only [parallelForAsyncStep] <;> (try split) <;> exact ⟨_, rfl⟩
    obtain ⟨r, hr⟩ := hr
    obtain ⟨s', h⟩ := hstep .go r hr
    exact ⟨_, s', rfl, h⟩
  | drainIndices batch pc =>
    obtain ⟨c, hc, r, hr⟩ := exists_drainIndicesStep hreach hmem
    obtain ⟨s', h⟩ := hstep c r hr
    exact ⟨c, s', hc, h⟩

theorem exists_step (hreach : (poolSystem cfg U clients).Reachable s) {f : Frame cfg.maxNumThreads U.Code}
    {rest : List (Frame cfg.maxNumThreads U.Code)} (hstack : s.threads t = f :: rest)
    (hf : ¬ f.mayBlock U s.shared t) :
    ∃ c s', c.endsWait = false ∧ step cfg U t c s = some s' := by
  obtain ⟨c, s', husual, hstep⟩ := exists_usualStep hreach hstack hf
  exact ⟨c, s', c.endsWait_of_isUsual husual, hstep⟩

theorem exists_step_of_unwinding (hreach : (poolSystem cfg U clients).Reachable s)
    {g : Frame cfg.maxNumThreads U.Code} {rest : List (Frame cfg.maxNumThreads U.Code)}
    (hstack : s.threads t = .unwinding :: g :: rest) :
    ∃ s', step cfg U t .go s = some s' := by
  have hbelow : s.threads t = [] ++ .unwinding :: g :: rest := hstack
  obtain ⟨k, hk⟩ := awaits_of_mem_rest hreach hbelow
  have hunwind : ∃ after, unwind g = some after := by
    unfold Frame.awaits at hk
    split at hk
    all_goals first
      | exact hk.elim
      | exact ⟨_, rfl⟩
  obtain ⟨after, hafter⟩ := hunwind
  simp only [step, hstack, hafter]
  exact ⟨_, rfl⟩

end PoolSystem

end CppUtils
