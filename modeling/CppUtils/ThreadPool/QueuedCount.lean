import CppUtils.ThreadPool.Weights
import CppUtils.ThreadPool.Script

/-!
# The accounting of `queuedCount`

Each code path moves a task and the counter in two steps: `enqueue` counts before it pushes, every
removal counts after it popped. What is owed in between is a sum over the calls in progress, and
each step of the pool keeps the counter equal to the tasks in the lanes plus what is owed.
-/

namespace CppUtils

open Threaded

variable {clients workers : ℕ} {U : UserCode} {Code : Type} {cfg : PoolConfig}

/-- The increments of `enqueue` whose push, or whose undo after a throwing push, is still to come. -/
@[simps] def pendingPush (workers : ℕ) (Code : Type) : PoolWeights workers Code ℕ where
  enqueue
    | .push _ _ => 1
    | .undoIncrement _ => 1
    | _ => 0

/-- The tasks taken out of a lane whose decrement is still to come. -/
@[simps] def pendingDecrement (workers : ℕ) (Code : Type) : PoolWeights workers Code ℕ where
  runWorker
    | _, .tryGetTask (.popped _) => 1
    | _, _ => 0
  retire
    | _, .sweep _ _ removedCount => removedCount
    | _, .subtractQueued _ removedCount => removedCount
    | _, _ => 0
  finishAllThreads
    | .decrement _ _ => 1
    | _ => 0
  abandonAllThreads
    | .decrement _ _ => 1
    | _ => 0

/-- Both together: what the counter holds beyond the tasks in the lanes. -/
@[simps] def owed (workers : ℕ) (Code : Type) : PoolWeights workers Code ℕ where
  enqueue pc := (pendingPush workers Code).enqueue pc
  runWorker own pc := (pendingDecrement workers Code).runWorker own pc
  retire tag pc := (pendingDecrement workers Code).retire tag pc
  finishAllThreads pc := (pendingDecrement workers Code).finishAllThreads pc
  abandonAllThreads pc := (pendingDecrement workers Code).abandonAllThreads pc

theorem PoolSystem.count_owed (s : PoolSystem cfg U clients) :
    s.count (owed _ _) = s.count (pendingPush _ _) + s.count (pendingDecrement _ _) := by
  rw [← weight_add]
  refine congrArg (weight · s.threads) (funext fun f => ?_)
  cases f <;> simp

namespace QueuedCount

attribute [local simp] Balance

/-- The counter less the tasks in the lanes. -/
def surplus (s : PoolState workers clients Code) : ℤ := s.queuedCount - s.laneTotal

theorem surplus_tryPop {s s' : PoolState workers clients Code} {index : Fin workers}
    {item : TaggedTask Code} (h : s.tryPop index = some (item, s')) :
    surplus s' = surplus s + 1 := by
  have htotal := PoolState.laneTotal_tryPop h
  obtain ⟨lane, -, rfl⟩ := PoolState.tryPop_eq_some h
  simp only [surplus, PoolState.setLane_queuedCount]
  omega

theorem surplus_push {s s' : PoolState workers clients Code} {index : Fin workers}
    {item : TaggedTask Code} (h : s.push index item = some s') : surplus s' = surplus s - 1 := by
  have htotal := PoolState.laneTotal_push h
  obtain ⟨lane, -, rfl⟩ := PoolState.push_eq_some h
  simp only [surplus, PoolState.setLane_queuedCount]
  omega

theorem surplus_removeIf (s : PoolState workers clients Code) (index : Fin workers)
    (tagState : ℕ) :
    surplus (s.removeIf index tagState) = surplus s + (s.matching index tagState).length := by
  have htotal := s.laneTotal_removeIf index tagState
  have hcount : (s.removeIf index tagState).queuedCount = s.queuedCount := rfl
  simp only [surplus, hcount]
  omega

@[simp] theorem surplus_addQueued (s : PoolState workers clients Code) (k : ℤ) :
    surplus (s.addQueued k) = surplus s + k := by
  simp only [surplus, PoolState.addQueued_queuedCount, PoolState.laneTotal,
    PoolState.addQueued_queues]
  omega

section Moves

variable {s s' : PoolState cfg.maxNumThreads clients Code}
  {after : List (Frame cfg.maxNumThreads Code)}

/-- The law of one step: what the calls owe moves with the surplus of the counter. -/
abbrev SurplusLaw (s : PoolState workers clients Code) (m : ℕ) (s' : PoolState workers clients Code)
    (m' : ℕ) : Prop :=
  Balance Eq (fun s => -surplus s) s m s' m'

theorem enqueue_law {pc : EnqueuePc cfg.maxNumThreads Code}
    (hmove : EnqueueMove cfg s pc s' after) :
    SurplusLaw s ((owed _ Code).enqueue pc) s' (stackWeight (Frame.poolWeight (owed _ Code)) after) := by
  cases hmove with
  | push hpush =>
    simp [surplus_push hpush]
    omega
  | drop hemplace | register hemplace =>
    obtain ⟨tagStates, tagNodes, rfl⟩ := PoolState.tryEmplace_setTags hemplace
    simp [surplus, PoolState.laneTotal]
  | complete hcomplete =>
    obtain ⟨tagNodes, waiters, rfl⟩ := PoolState.completeTaggedTask_setTags hcomplete
    simp [surplus, PoolState.laneTotal]
  | increment | undoIncrement =>
    simp
    try omega
  | _ => simp [surplus, PoolState.laneTotal]

theorem runWorker_law {t : ThreadId cfg.maxNumThreads clients} {own : Fin cfg.maxNumThreads}
    {pc : RunWorkerPc Code} (hmove : RunWorkerMove cfg t s own pc s' after) :
    SurplusLaw s ((owed _ Code).runWorker own pc) s'
      (stackWeight (Frame.poolWeight (owed _ Code)) after) := by
  cases hmove with
  | tryGetTask hget =>
    cases hget with
    | popOwn hpop | steal _ hpop => simp [surplus_tryPop hpop]
    | popped =>
      simp
      omega
    | _ => simp
  | complete hcomplete =>
    obtain ⟨tagNodes, waiters, rfl⟩ := PoolState.completeTaggedTask_setTags hcomplete
    simp [surplus, PoolState.laneTotal]
  | pass hpc | block hpc => rcases hpc with rfl | ⟨rfl, -⟩ <;> simp [surplus, PoolState.laneTotal]
  | _ => simp [surplus, PoolState.laneTotal]

theorem retire_law {t : ThreadId cfg.maxNumThreads clients} {tag : ℕ} {pc : RetirePc}
    (hmove : RetireMove cfg t s tag pc s' after) : SurplusLaw s ((owed cfg.maxNumThreads Code).retire tag pc) s'
      (stackWeight (Frame.poolWeight (owed _ Code)) after) := by
  have hwaiting : ∀ {s₁ s₂ : PoolState cfg.maxNumThreads clients Code} {tagState after},
      RetireWaitMove cfg t s₁ tag tagState s₂ after →
        surplus s₂ = surplus s₁ ∧ stackWeight (Frame.poolWeight (owed _ Code)) after = 0 := by
    intro s₁ s₂ tagState after hwait
    cases hwait with
    | finish =>
      obtain ⟨tagStates, tagNodes, herase⟩ := s₁.eraseTag_setTags tag tagState
      simp [herase, surplus, PoolState.laneTotal]
    | block => simp [surplus, PoolState.laneTotal]
  cases hmove with
  | sweep h =>
    simp [surplus_removeIf]
    omega
  | subtractQueued =>
    simp
    omega
  | subtractOutstanding hnode hwait =>
    obtain ⟨hsurplus, hafter⟩ := hwaiting hwait
    simp [hsurplus, hafter]
    simp [surplus, PoolState.laneTotal]
  | wait hawake hwait =>
    obtain ⟨hsurplus, hafter⟩ := hwaiting hwait
    simp [hsurplus, hafter]
  | _ => simp [surplus, PoolState.laneTotal]

theorem finish_law {completePendingTasks : Bool} {pc : FinishPc cfg.maxNumThreads Code}
    (hmove : FinishMove cfg s completePendingTasks pc s' after) :
    SurplusLaw s ((owed _ Code).finishAllThreads pc) s'
      (stackWeight (Frame.poolWeight (owed _ Code)) after) := by
  have hjoin := stackWeight_afterJoin (owed cfg.maxNumThreads Code) completePendingTasks rfl
  cases hmove with
  | pop h hpop =>
    have hpopped := surplus_tryPop hpop
    simp [surplus, PoolState.laneTotal] at hpopped ⊢
    omega
  | complete hcomplete =>
    obtain ⟨tagNodes, waiters, rfl⟩ := PoolState.completeTaggedTask_setTags hcomplete
    simp [surplus, PoolState.laneTotal]
  | notifyAllJoined | assertIdle => simp [surplus, PoolState.laneTotal, hjoin]
  | decrement =>
    simp
    omega
  | _ => simp [surplus, PoolState.laneTotal]

theorem abandon_law {pc : AbandonPc Code} (hmove : AbandonMove cfg s pc s' after) :
    SurplusLaw s ((owed cfg.maxNumThreads Code).abandonAllThreads pc) s'
      (stackWeight (Frame.poolWeight (owed _ Code)) after) := by
  cases hmove with
  | pop h hpop =>
    have hpopped := surplus_tryPop hpop
    simp [surplus, PoolState.laneTotal] at hpopped ⊢
    omega
  | complete hcomplete =>
    obtain ⟨tagNodes, waiters, rfl⟩ := PoolState.completeTaggedTask_setTags hcomplete
    simp [surplus, PoolState.laneTotal]
  | decrement =>
    simp
    omega
  | _ => simp [surplus, PoolState.laneTotal]

theorem law : StepLaw cfg clients Code (fun _ => True) (owed cfg.maxNumThreads Code) SurplusLaw where
  refl _ _ := rfl
  add_right _ _ _ _ r h := Balance.add_right (fun _ _ _ h => by rw [h]) r h
  start := ⟨fun _ _ => rfl, fun _ => rfl, rfl, rfl⟩
  enqueue _ := enqueue_law
  runWorker _ := runWorker_law
  retire _ := retire_law
  finishAllThreads _ := finish_law
  abandonAllThreads _ := abandon_law

end Moves

end QueuedCount

/-- In every reachable state the counter is the tasks in the lanes and what is owed. -/
theorem PoolSystem.queuedCount_eq {s : PoolSystem cfg U clients}
    (hreach : (poolSystem cfg U clients).Reachable s) :
    s.shared.pool.queuedCount = s.shared.pool.laneTotal + s.count (owed _ _) := by
  have hbalance : -QueuedCount.surplus s.shared.pool + (s.count (owed _ _) : ℤ) = 0 := by
    refine TransitionSystem.Reachable.invariant
      (fun s : PoolSystem cfg U clients =>
        -QueuedCount.surplus s.shared.pool + (s.count (owed _ _) : ℤ) = 0)
      (fun s hinit => ?_) (fun s s' _ hI hstep => ?_) hreach
    · obtain ⟨main, rfl⟩ := hinit
      have howed : (initialSystem cfg U clients main).count (owed _ _) = 0 :=
        PoolSystem.total_initial (owed _ _) (fun _ => rfl) main
      rw [howed]
      simp [QueuedCount.surplus, initialSystem, PoolState.initial, PoolState.laneTotal]
    · exact (QueuedCount.law.step hstep trivial).trans hI
  simp only [QueuedCount.surplus] at hbalance
  omega

/-- A call of the pool that takes tasks out of lanes or puts them in, other than a worker that only
looks or runs a task. -/
def Frame.isOperation : Frame workers Code → Bool
  | .enqueue _ => true
  | .retire _ _ => true
  | .finishAllThreads _ _ => true
  | .abandonAllThreads _ => true
  | .runWorker _ (.tryGetTask _) => true
  | _ => false

theorem Frame.owed_eq_zero {f : Frame workers Code} (hidle : f.isOperation = false) :
    f.poolWeight (owed workers Code) = 0 := by
  cases f with
  | runWorker own pc => cases pc <;> simp_all [isOperation]
  | _ => simp_all [isOperation]

/-- `queuedCount` is the number of tasks in all lanes, plus the calls of `enqueue` between their
increment and their push or undo, plus the tasks popped or removed whose decrement has not happened
yet. So it is never negative, never less than the number of queued tasks, and zero when the lanes
are empty and nothing is in progress. -/
theorem queuedCount_accounting {s : PoolSystem cfg U clients}
    (hreach : (poolSystem cfg U clients).Reachable s) :
    s.shared.pool.queuedCount
        = s.shared.pool.laneTotal + s.count (pendingPush _ _) + s.count (pendingDecrement _ _) ∧
      0 ≤ s.shared.pool.queuedCount ∧
      (s.shared.pool.laneTotal : ℤ) ≤ s.shared.pool.queuedCount ∧
      ((∀ i, (s.shared.pool.queues i).items = []) →
        (∀ t, ∀ f ∈ s.threads t, f.isOperation = false) → s.shared.pool.queuedCount = 0) := by
  have hcount := PoolSystem.queuedCount_eq hreach
  have howed := s.count_owed
  refine ⟨by omega, by omega, by omega, fun hlanes hidle => ?_⟩
  have hzero : s.count (owed _ _) = 0 :=
    weight_eq_zero.mpr fun t f hf => Frame.owed_eq_zero (hidle t f hf)
  have hempty : s.shared.pool.laneTotal = 0 := by simp [PoolState.laneTotal, hlanes]
  omega

/-- The owner enqueues a task and starts another `enqueue`; the worker has popped the first task. -/
def popBeforeDecrement : Option (PoolSystem oneWorker scriptCode 0) :=
  scriptRun oneWorker 0
    (fun _ => .call (.enqueue .ret 0) (.call (.enqueue .ret 5) .ret))
    [(.owner, .input ()), (.owner, .go), (.owner, .go), (.owner, .go), (.owner, .go),
      (.worker 0, .go), (.worker 0, .go), (.worker 0, .go), (.owner, .go), (.owner, .input ()),
      (.owner, .go), (.owner, .address 7), (.owner, .go)]

theorem queuedCount_accounting_popBeforeDecrement :
    ∃ s, popBeforeDecrement = some s ∧ s.shared.pool.queuedCount = 2 ∧
      (s.shared.pool.queuedCount
          = s.shared.pool.laneTotal + s.count (pendingPush _ _) + s.count (pendingDecrement _ _) ∧
        0 ≤ s.shared.pool.queuedCount ∧
        (s.shared.pool.laneTotal : ℤ) ≤ s.shared.pool.queuedCount ∧
        ((∀ i, (s.shared.pool.queues i).items = []) →
          (∀ t, ∀ f ∈ s.threads t, f.isOperation = false) → s.shared.pool.queuedCount = 0)) := by
  have hcount : popBeforeDecrement.map (fun s => s.shared.pool.queuedCount) = some 2 := by decide
  obtain ⟨s, hrun, hs⟩ := Option.map_eq_some_iff.mp hcount
  exact ⟨s, hrun, hs, queuedCount_accounting (scriptRun_reachable hrun)⟩

end CppUtils
