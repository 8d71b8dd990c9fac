import CppUtils.ThreadPool.QueuedCount
import CppUtils.ThreadPool.CallStacks

/-!
# The idle wait

A worker that finds no task counts itself in `idleCount`, evaluates the predicate and blocks. The
threads in `idleCv` are blocked with no wake-up pending. While there is one, every queued task is
covered: by a worker that is awake and holds no task, or by an `enqueue` that has pushed and has not
passed its gate, and will notify.
-/

namespace CppUtils

open Threaded

variable {clients workers : ℕ} {U : UserCode} {Code : Type} {cfg : PoolConfig}

@[simps] def idleCalls (workers : ℕ) (Code : Type) : PoolWeights workers Code ℕ where
  runWorker
    | _, .idlePredicate => 1
    | _, .idleWait => 1
    | _, .leaveIdle => 1
    | _, _ => 0

namespace IdleCount

attribute [local simp] Balance

section Moves

variable {s s' : PoolState cfg.maxNumThreads clients Code}
  {after : List (Frame cfg.maxNumThreads Code)}

/-- The law of one step: the idle workers move with the counter. -/
abbrev IdleLaw (s : PoolState workers clients Code) (m : ℕ) (s' : PoolState workers clients Code)
    (m' : ℕ) : Prop :=
  Balance Eq (fun s => -s.idleCount) s m s' m'

theorem runWorker_law {t : ThreadId cfg.maxNumThreads clients} {own : Fin cfg.maxNumThreads}
    {pc : RunWorkerPc Code} (hmove : RunWorkerMove cfg t s own pc s' after) :
    IdleLaw s ((idleCalls _ Code).runWorker own pc) s'
      (stackWeight (Frame.poolWeight (idleCalls _ Code)) after) := by
  cases hmove with
  | tryGetTask hget =>
    cases hget with
    | popOwn hpop | steal _ hpop => simp [(PoolState.sameControl_tryPop hpop).idleCount]
    | _ => simp
  | complete hcomplete => simp [(PoolState.sameControl_completeTaggedTask hcomplete).idleCount]
  | pass hpc | block hpc => rcases hpc with rfl | ⟨rfl, -⟩ <;> simp
  | enterIdle | leaveIdle =>
    simp only [IdleLaw, Balance, stackWeight_cons, stackWeight_nil, Frame.poolWeight_runWorker,
      idleCalls_runWorker, PoolState.addIdle_idleCount]
    omega
  | _ => simp

theorem law : StepLaw cfg clients Code (fun _ => True) (idleCalls cfg.maxNumThreads Code) IdleLaw where
  refl _ _ := rfl
  add_right _ _ _ _ r h := Balance.add_right (fun _ _ _ h => by rw [h]) r h
  start := ⟨fun _ _ => rfl, fun _ => rfl, rfl, rfl⟩
  enqueue _ hmove := by
    simp only [IdleLaw, Balance, hmove.sameControl.idleCount]
    cases hmove <;> simp
  runWorker _ := runWorker_law
  retire _ hmove := by
    simp only [IdleLaw, Balance, hmove.sameControl.idleCount]
    cases hmove with
    | subtractOutstanding _ hwait | wait _ hwait => cases hwait <;> simp
    | _ => simp
  finishAllThreads := fun {_ completePendingTasks _ _ _} _ hmove => by
    have hjoin := stackWeight_afterJoin (idleCalls cfg.maxNumThreads Code) completePendingTasks rfl
    cases hmove with
    | pop _ hpop => simp [(PoolState.sameControl_tryPop hpop).idleCount]
    | complete hcomplete => simp [(PoolState.sameControl_completeTaggedTask hcomplete).idleCount]
    | notifyAllJoined | assertIdle => simp [hjoin]
    | _ => simp
  abandonAllThreads _ hmove := by
    cases hmove with
    | pop _ hpop => simp [(PoolState.sameControl_tryPop hpop).idleCount]
    | complete hcomplete => simp [(PoolState.sameControl_completeTaggedTask hcomplete).idleCount]
    | _ => simp

end Moves

end IdleCount

theorem PoolSystem.idleCount_eq {s : PoolSystem cfg U clients}
    (hreach : (poolSystem cfg U clients).Reachable s) :
    s.shared.pool.idleCount = s.count (idleCalls _ _) := by
  have hbalance : -s.shared.pool.idleCount + (s.count (idleCalls _ _) : ℤ) = 0 := by
    refine TransitionSystem.Reachable.invariant
      (fun s : PoolSystem cfg U clients =>
        -s.shared.pool.idleCount + (s.count (idleCalls _ _) : ℤ) = 0)
      (fun s hinit => ?_) (fun s s' _ hI hstep => ?_) hreach
    · obtain ⟨main, rfl⟩ := hinit
      have hcalls : (initialSystem cfg U clients main).count (idleCalls _ _) = 0 :=
        PoolSystem.total_initial (idleCalls _ _) (fun _ => rfl) main
      rw [hcalls]
      rfl
    · exact (IdleCount.law.step hstep trivial).trans hI
  omega

/-! ### The blocked workers -/

theorem FrameMove.idleCv {t : ThreadId cfg.maxNumThreads clients}
    {s s' : Shared cfg.maxNumThreads clients U.Code} {f : Frame cfg.maxNumThreads U.Code}
    {after : List (Frame cfg.maxNumThreads U.Code)} (hmove : FrameMove cfg U t s f s' after) :
    (s'.pool.idleCv ⊆ s.pool.idleCv ∧ (∀ own, f = .runWorker own .idleWait → t ∉ s'.pool.idleCv)) ∨
      ∃ own, after = [.runWorker own .idleWait] ∧ s'.pool = s.pool.setIdleCv (insert t s.pool.idleCv) ∧
        s.pool.terminate = false ∧ s.pool.queuedCount = 0 := by
  have hsubset : ∀ {p p' : PoolState cfg.maxNumThreads clients U.Code}, p'.idleCv = p.idleCv →
      p'.idleCv ⊆ p.idleCv := fun h => h.le
  cases hmove with
  | runWorker hmove =>
    cases hmove with
    | pass hpc =>
      refine .inl ⟨subset_rfl, fun own hf => ?_⟩
      rcases hpc with rfl | ⟨rfl, hawake⟩
      · cases hf
      · exact hawake
    | block hpc hpred =>
      rw [not_or, not_not, Bool.not_eq_true] at hpred
      exact .inr ⟨_, rfl, rfl, hpred.1, hpred.2⟩
    | spurious | timeout =>
      exact .inl ⟨Finset.erase_subset _ _, fun _ _ => Finset.notMem_erase _ _⟩
    | tryGetTask hget =>
      refine .inl ⟨hsubset ?_, by simp⟩
      cases hget with
      | popOwn hpop | steal _ hpop =>
        obtain ⟨lane, -, rfl⟩ := PoolState.tryPop_eq_some hpop
        rfl
      | _ => rfl
    | complete hcomplete =>
      obtain ⟨tagNodes, waiters, rfl⟩ := PoolState.completeTaggedTask_setTags hcomplete
      exact .inl ⟨subset_rfl, by simp⟩
    | _ => exact .inl ⟨subset_rfl, by simp⟩
  | enqueue hmove =>
    refine .inl ⟨?_, by simp⟩
    cases hmove with
    | drop hemplace | register hemplace =>
      obtain ⟨tagStates, tagNodes, rfl⟩ := PoolState.tryEmplace_setTags hemplace
      exact subset_rfl
    | push hpush =>
      obtain ⟨lane, -, rfl⟩ := PoolState.push_eq_some hpush
      exact subset_rfl
    | complete hcomplete =>
      obtain ⟨tagNodes, waiters, rfl⟩ := PoolState.completeTaggedTask_setTags hcomplete
      exact subset_rfl
    | notify => exact Finset.erase_subset _ _
    | _ => exact subset_rfl
  | retire hmove =>
    refine .inl ⟨?_, by simp⟩
    cases hmove with
    | subtractOutstanding _ hwait | wait _ hwait =>
      cases hwait with
      | finish => exact (PoolState.eraseTag_idleCv _ _ _).le
      | block => exact subset_rfl
    | _ => exact subset_rfl
  | finishAllThreads hmove =>
    refine .inl ⟨?_, by simp⟩
    cases hmove with
    | notifyAllJoined | notifyAll => exact Finset.empty_subset _
    | pop _ hpop =>
      obtain ⟨lane, -, rfl⟩ := PoolState.tryPop_eq_some hpop
      exact subset_rfl
    | complete hcomplete =>
      obtain ⟨tagNodes, waiters, rfl⟩ := PoolState.completeTaggedTask_setTags hcomplete
      exact subset_rfl
    | _ => exact subset_rfl
  | abandonAllThreads hmove =>
    refine .inl ⟨?_, by simp⟩
    cases hmove with
    | notifyAll => exact Finset.empty_subset _
    | pop _ hpop =>
      obtain ⟨lane, -, rfl⟩ := PoolState.tryPop_eq_some hpop
      exact subset_rfl
    | complete hcomplete =>
      obtain ⟨tagNodes, waiters, rfl⟩ := PoolState.completeTaggedTask_setTags hcomplete
      exact subset_rfl
    | _ => exact subset_rfl
  | parallelFor hmove => exact .inl ⟨hsubset (by cases hmove <;> rfl), by simp⟩
  | parallelForAsync hmove => exact .inl ⟨hsubset (by cases hmove <;> rfl), by simp⟩
  | drainIndices hmove => exact .inl ⟨hsubset (by cases hmove <;> rfl), by simp⟩
  | _ => exact .inl ⟨subset_rfl, by simp⟩

namespace PoolSystem

variable {s : PoolSystem cfg U clients}

/-- A step blocks no worker, unless it reads `queuedCount == 0`. -/
theorem idleCv_step {s s' : PoolSystem cfg U clients}
    (hstep : (poolSystem cfg U clients).Step s s') :
    s'.shared.pool.idleCv ⊆ s.shared.pool.idleCv ∨
      s.shared.pool.queuedCount = 0 ∧ s.shared.pool.terminate = false ∧
        ∃ t, s'.shared.pool = s.shared.pool.setIdleCv (insert t s.shared.pool.idleCv) := by
  cases step_move hstep with
  | mk t hstack hrule =>
    cases hrule with
    | frame hmove =>
      rcases hmove.idleCv with ⟨hsubset, -⟩ | ⟨own, -, hblock, hterminate, hqueued⟩
      · exact .inl hsubset
      · exact .inr ⟨hqueued, hterminate, t, hblock⟩
    | unwind => exact .inl subset_rfl

theorem idleWait_of_mem_idleCv (hreach : (poolSystem cfg U clients).Reachable s) :
    ∀ t ∈ s.shared.pool.idleCv, ∃ own, .runWorker own .idleWait ∈ s.threads t := by
  refine TransitionSystem.Reachable.invariant
    (fun s : PoolSystem cfg U clients =>
      ∀ t ∈ s.shared.pool.idleCv, ∃ own, .runWorker own .idleWait ∈ s.threads t)
    ?_ (fun s s' hr hI hstep => ?_) hreach
  · rintro s ⟨main, rfl⟩ t ht
    exact absurd ht (Finset.notMem_empty t)
  · refine (step_move hstep).forall_threads (P := fun shared t frames =>
      t ∈ shared.pool.idleCv → ∃ own, .runWorker own .idleWait ∈ frames) ?_ ?_ hI
    · intro t before after rest hstack hrule hP ht
      generalize s'.shared = shared' at hrule ht
      cases hrule with
      | @frame _ _ f _ _ hmove =>
        rcases hmove.idleCv with ⟨hsubset, hawake⟩ | ⟨own, rfl, -⟩
        · obtain ⟨own, hmem⟩ := hP (hsubset ht)
          rcases List.mem_cons.mp hmem with hf | hmem
          · exact absurd ht (hawake own hf.symm)
          · exact ⟨own, List.mem_append_right _ hmem⟩
        · exact ⟨own, by simp⟩
      | @unwind _ _ f after hunwind =>
        obtain ⟨own, hmem⟩ := hP ht
        have hmem' : .runWorker own .idleWait = f ∨ .runWorker own .idleWait ∈ rest := by
          simpa using hmem
        rcases hmem' with rfl | hmem'
        · cases hunwind
        · exact ⟨own, List.mem_append_right _ hmem'⟩
    · intro u before after rest hstack hrule t htu hP ht
      generalize s'.shared = shared' at hrule ht
      cases hrule with
      | frame hmove =>
        rcases hmove.idleCv with ⟨hsubset, -⟩ | ⟨own, -, hblock, -⟩
        · exact hP (hsubset ht)
        · rw [hblock] at ht
          exact hP (Finset.mem_of_mem_insert_of_ne ht htu)
      | unwind => exact hP ht

end PoolSystem

def RunWorkerPc.holdsTask : RunWorkerPc Code → Bool
  | .tryGetTask (.popped _) => true
  | .taggedTaskCanRun _ => true
  | .begin _ => true
  | .running _ => true
  | .completeTaggedTask _ _ => true
  | .scopeEnd _ _ => true
  | _ => false

def Frame.isWorkerWithoutTask : Frame workers Code → Bool
  | .runWorker _ pc => !pc.holdsTask
  | _ => false

def PoolSystem.withoutTaskThreads (s : PoolSystem cfg U clients) :
    Finset (ThreadId cfg.maxNumThreads clients) :=
  {t | (s.threads t).any Frame.isWorkerWithoutTask}

def PoolSystem.awakeWithoutTask (s : PoolSystem cfg U clients) :
    Finset (ThreadId cfg.maxNumThreads clients) :=
  s.withoutTaskThreads \ s.shared.pool.idleCv

/-- The calls of `enqueue` that have pushed and not yet passed the gate on `idleCount`; the block that notifies
counts as before the gate. -/
@[simps] def pushedBeforeGate (workers : ℕ) (Code : Type) : PoolWeights workers Code ℕ where
  enqueue
    | .gate => 1
    | .notify => 1
    | _ => 0

@[simps] def withoutTask (workers : ℕ) (Code : Type) : PoolWeights workers Code ℕ where
  runWorker _ pc := if pc.holdsTask = false then 1 else 0

@[simps] def takers (workers : ℕ) (Code : Type) : PoolWeights workers Code ℕ where
  enqueue pc := (pushedBeforeGate workers Code).enqueue pc
  runWorker own pc := (withoutTask workers Code).runWorker own pc

private theorem stackWeight_withoutTask {frames : List (Frame workers Code)}
    (hchain : frames.IsChain Frame.standsOn) :
    stackWeight (Frame.poolWeight (withoutTask workers Code)) frames
      = if frames.any Frame.isWorkerWithoutTask then 1 else 0 := by
  induction frames with
  | nil => rfl
  | cons f frames ih =>
    cases frames with
    | nil => cases f <;> simp [Frame.isWorkerWithoutTask]
    | cons g frames =>
      rw [List.isChain_cons_cons] at hchain
      have hf : ∀ own pc, f ≠ .runWorker own pc := by
        rintro own pc rfl
        exact Frame.not_standsOn_of_worker rfl hchain.1
      rw [stackWeight_cons, ih hchain.2, List.any_cons]
      cases f <;> simp_all [Frame.isWorkerWithoutTask]

namespace PoolSystem

variable {s : PoolSystem cfg U clients}

theorem count_takers (s : PoolSystem cfg U clients) :
    s.count (takers _ _) = s.count (withoutTask _ _) + s.count (pushedBeforeGate _ _) := by
  rw [count, count, count, total, total, total, ← weight_add]
  refine congrArg (weight · s.threads) (funext fun f => ?_)
  cases f <;> simp

theorem count_withoutTask (hreach : (poolSystem cfg U clients).Reachable s) :
    s.count (withoutTask _ _) = s.withoutTaskThreads.card := by
  rw [withoutTaskThreads, Finset.card_filter]
  exact Finset.sum_congr rfl fun t _ => stackWeight_withoutTask (isChain hreach t)

theorem idleCv_subset (hreach : (poolSystem cfg U clients).Reachable s) :
    s.shared.pool.idleCv ⊆ s.withoutTaskThreads := by
  intro t ht
  obtain ⟨own, hmem⟩ := idleWait_of_mem_idleCv hreach t ht
  rw [withoutTaskThreads, Finset.mem_filter, List.any_eq_true]
  exact ⟨Finset.mem_univ t, _, hmem, rfl⟩

theorem idleCv_eq_empty (hreach : (poolSystem cfg U clients).Reachable s)
    (hidle : s.shared.pool.idleCount = 0) : s.shared.pool.idleCv = ∅ := by
  refine Finset.eq_empty_of_forall_notMem fun t ht => ?_
  obtain ⟨own, hmem⟩ := idleWait_of_mem_idleCv hreach t ht
  have hone : 1 ≤ s.count (idleCalls _ _) := le_weight (Frame.poolWeight (idleCalls _ _)) hmem
  have hcount := idleCount_eq hreach
  omega

end PoolSystem

/-! ### Queued tasks are covered -/

namespace Covered

/-- The law of one step, apart from the steps after which it says nothing: the tasks and the blocked
workers grow no more than what may take a task. -/
def CoverLaw (s : PoolState workers clients Code) (m : ℕ) (s' : PoolState workers clients Code)
    (m' : ℕ) : Prop :=
  s'.terminate = true ∨ s'.idleCv = ∅ ∨ s.queuedCount = 0 ∧ s'.laneTotal = s.laneTotal ∨
    s'.laneTotal + s'.idleCv.card + m ≤ s.laneTotal + s.idleCv.card + m'

section Moves

variable {s s' : PoolState cfg.maxNumThreads clients Code}
  {after : List (Frame cfg.maxNumThreads Code)}

theorem CoverLaw.same {m m' : ℕ} (htotal : s'.laneTotal = s.laneTotal)
    (hidle : s'.idleCv = s.idleCv) (hm : m ≤ m') : CoverLaw s m s' m' :=
  .inr (.inr (.inr (by rw [htotal, hidle]; omega)))

theorem CoverLaw.popped {m m' : ℕ} {index : Fin cfg.maxNumThreads} {item : TaggedTask Code}
    {s₁ : PoolState cfg.maxNumThreads clients Code} (hpop : s.tryPop index = some (item, s₁))
    (htotal : s'.laneTotal = s₁.laneTotal) (hidle : s'.idleCv = s₁.idleCv) (hm : m ≤ m' + 1) :
    CoverLaw s m s' m' := by
  have hpopped := PoolState.laneTotal_tryPop hpop
  obtain ⟨lane, -, rfl⟩ := PoolState.tryPop_eq_some hpop
  refine .inr (.inr (.inr ?_))
  rw [htotal, hidle, PoolState.setLane_idleCv]
  omega

theorem enqueue_law {pc : EnqueuePc cfg.maxNumThreads Code} (hmove : EnqueueMove cfg s pc s' after)
    (hgate : s.idleCount = 0 → s.idleCv = ∅) :
    CoverLaw s ((takers _ Code).enqueue pc) s'
      (stackWeight (Frame.poolWeight (takers _ Code)) after) := by
  cases hmove with
  | drop hemplace | register hemplace =>
    obtain ⟨tagStates, tagNodes, rfl⟩ := PoolState.tryEmplace_setTags hemplace
    exact .same rfl rfl (by simp)
  | push hpush =>
    have htotal := PoolState.laneTotal_push hpush
    obtain ⟨lane, -, rfl⟩ := PoolState.push_eq_some hpush
    refine .inr (.inr (.inr ?_))
    rw [htotal]
    simp
    omega
  | complete hcomplete =>
    obtain ⟨tagNodes, waiters, rfl⟩ := PoolState.completeTaggedTask_setTags hcomplete
    exact .same rfl rfl (by simp)
  | skipGate hidle => exact .inr (.inl (hgate (not_not.mp hidle)))
  | @notify t hwaiter =>
    rcases hwaiter with ht | hnone
    · refine .inr (.inr (.inr ?_))
      have hcard := Finset.card_erase_add_one ht
      have htotal : (s.setIdleCv (s.idleCv.erase t)).laneTotal = s.laneTotal := rfl
      rw [htotal, PoolState.setIdleCv_idleCv]
      simp
      omega
    · exact .inr (.inl (by simp [hnone]))
  | _ => exact .same rfl rfl (by simp)

theorem runWorker_law {t : ThreadId cfg.maxNumThreads clients} {own : Fin cfg.maxNumThreads}
    {pc : RunWorkerPc Code} (hmove : RunWorkerMove cfg t s own pc s' after) :
    CoverLaw s ((takers _ Code).runWorker own pc) s'
      (stackWeight (Frame.poolWeight (takers _ Code)) after) := by
  cases hmove with
  | exit hterminate => exact .inl hterminate
  | tryGetTask hget =>
    cases hget with
    | popOwn hpop | steal _ hpop => exact .popped hpop rfl rfl (by simp [RunWorkerPc.holdsTask])
    | _ => exact .same rfl rfl (by simp [RunWorkerPc.holdsTask])
  | complete hcomplete =>
    obtain ⟨tagNodes, waiters, rfl⟩ := PoolState.completeTaggedTask_setTags hcomplete
    exact .same rfl rfl (by simp [RunWorkerPc.holdsTask])
  | pass hpc => rcases hpc with rfl | ⟨rfl, -⟩ <;> exact .same rfl rfl (by simp [RunWorkerPc.holdsTask])
  | block hpc hpred =>
    rw [not_or, not_not] at hpred
    exact .inr (.inr (.inl ⟨hpred.2, rfl⟩))
  | spurious | timeout =>
    refine .inr (.inr (.inr ?_))
    have hcard := Finset.card_erase_le (s := s.idleCv) (a := t)
    have htotal : (s.setIdleCv (s.idleCv.erase t)).laneTotal = s.laneTotal := rfl
    rw [htotal, PoolState.setIdleCv_idleCv]
    simp [RunWorkerPc.holdsTask]
    omega
  | _ => exact .same rfl rfl (by simp [RunWorkerPc.holdsTask])

theorem retire_law {t : ThreadId cfg.maxNumThreads clients} {tag : ℕ} {pc : RetirePc}
    (hmove : RetireMove cfg t s tag pc s' after) :
    CoverLaw s ((takers cfg.maxNumThreads Code).retire tag pc) s'
      (stackWeight (Frame.poolWeight (takers _ Code)) after) := by
  cases hmove with
  | @sweep tagState i removedCount h =>
    have htotal := s.laneTotal_removeIf ⟨i, h⟩ tagState
    have hidle : (s.removeIf ⟨i, h⟩ tagState).idleCv = s.idleCv := rfl
    refine .inr (.inr (.inr ?_))
    rw [hidle]
    simp
    omega
  | subtractOutstanding _ hwait | wait _ hwait =>
    cases hwait with
    | finish =>
      unfold PoolState.eraseTag
      split <;> exact .same rfl rfl (by simp)
    | block => exact .same rfl rfl (by simp)
  | _ => exact .same rfl rfl (by simp)

theorem finish_law {completePendingTasks : Bool} {pc : FinishPc cfg.maxNumThreads Code}
    (hmove : FinishMove cfg s completePendingTasks pc s' after) :
    CoverLaw s ((takers _ Code).finishAllThreads pc) s'
      (stackWeight (Frame.poolWeight (takers _ Code)) after) := by
  cases hmove with
  | notifyAllJoined | notifyAll => exact .inr (.inl rfl)
  | pop h hpop => exact .popped hpop rfl rfl (by simp)
  | complete hcomplete =>
    obtain ⟨tagNodes, waiters, rfl⟩ := PoolState.completeTaggedTask_setTags hcomplete
    exact .same rfl rfl (by simp)
  | _ => exact .same rfl rfl (by simp)

theorem abandon_law {pc : AbandonPc Code} (hmove : AbandonMove cfg s pc s' after) :
    CoverLaw s ((takers cfg.maxNumThreads Code).abandonAllThreads pc) s'
      (stackWeight (Frame.poolWeight (takers _ Code)) after) := by
  cases hmove with
  | notifyAll => exact .inr (.inl rfl)
  | pop h hpop => exact .popped hpop rfl rfl (by simp)
  | complete hcomplete =>
    obtain ⟨tagNodes, waiters, rfl⟩ := PoolState.completeTaggedTask_setTags hcomplete
    exact .same rfl rfl (by simp)
  | _ => exact .same rfl rfl (by simp)

theorem law : StepLaw cfg clients Code (fun s => s.idleCount = 0 → s.idleCv = ∅)
    (takers cfg.maxNumThreads Code) CoverLaw where
  refl _ _ := .same rfl rfl le_rfl
  add_right _ _ _ _ r h := by
    rcases h with h | h | h | h
    · exact .inl h
    · exact .inr (.inl h)
    · exact .inr (.inr (.inl h))
    · exact .inr (.inr (.inr (by omega)))
  start := ⟨fun _ _ => rfl, fun _ => rfl, rfl, rfl⟩
  enqueue hgate hmove := enqueue_law hmove hgate
  runWorker _ := runWorker_law
  retire _ := retire_law
  finishAllThreads _ := finish_law
  abandonAllThreads _ := abandon_law

end Moves

end Covered

namespace PoolSystem

variable {s : PoolSystem cfg U clients}

/-- While a worker is blocked, every queued task and every blocked worker is covered. -/
theorem laneTotal_add_card_le (hreach : (poolSystem cfg U clients).Reachable s) :
    s.shared.pool.terminate = false → s.shared.pool.idleCv ≠ ∅ →
      s.shared.pool.laneTotal + s.shared.pool.idleCv.card ≤ s.count (takers _ _) := by
  refine TransitionSystem.Reachable.invariant
    (fun s : PoolSystem cfg U clients => s.shared.pool.terminate = false → s.shared.pool.idleCv ≠ ∅ →
      s.shared.pool.laneTotal + s.shared.pool.idleCv.card ≤ s.count (takers _ _))
    ?_ (fun s s' hr hI hstep hterminate hblocked => ?_) hreach
  · rintro s ⟨main, rfl⟩ - hblocked
    exact absurd rfl hblocked
  · have hnothing : s.shared.pool.queuedCount = 0 →
        s'.shared.pool.laneTotal = s.shared.pool.laneTotal →
          s'.shared.pool.laneTotal + s'.shared.pool.idleCv.card ≤ s'.count (takers _ _) := by
      -- A worker blocks: it read `queuedCount == 0`, so there is no task to cover.
      intro hqueued htotal
      have hcount := queuedCount_eq hr
      have hcard := Finset.card_le_card (idleCv_subset (hr.next hstep))
      have hwithout := count_withoutTask (hr.next hstep)
      have htakers := s'.count_takers
      omega
    rcases Covered.law.step hstep (idleCv_eq_empty hr) with h | h | ⟨hqueued, htotal⟩ | h
    · rw [hterminate] at h
      cases h
    · exact absurd h hblocked
    · exact hnothing hqueued htotal
    · have hbefore : s.shared.pool.terminate = false := by
        by_contra hset
        rw [terminate_step hstep (Bool.eq_true_of_not_eq_false hset)] at hterminate
        cases hterminate
      by_cases hempty : s.shared.pool.idleCv = ∅
      · rcases idleCv_step hstep with hsubset | ⟨hqueued, -, t, hpool⟩
        · exact absurd (Finset.subset_empty.mp (hempty ▸ hsubset)) hblocked
        · exact hnothing hqueued (by rw [hpool]; rfl)
      · have hle : s.shared.pool.laneTotal + s.shared.pool.idleCv.card ≤ s.total (takers _ _) :=
          hI hbefore hempty
        show s'.shared.pool.laneTotal + s'.shared.pool.idleCv.card ≤ s'.total (takers _ _)
        omega

end PoolSystem

end CppUtils
