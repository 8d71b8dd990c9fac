import CppUtils.ThreadPool.Custody
import CppUtils.ThreadPool.CallStacks
import CppUtils.ThreadPool.Script

/-!
# Where a task is, and how often it runs

A task is in an `enqueue` call, in a lane, with a worker or a shutdown call, or finished: in exactly
one place, by the ledger of the pool. Once `terminate` is set, a worker that may still begin a body
is on its last round of the loop.
-/

namespace CppUtils

open Threaded

variable {clients workers : ℕ} {U : UserCode} {Code : Type} {cfg : PoolConfig}

/-- The `enqueue` calls that hold the task with this serial number. -/
@[simps] def atEnqueue (workers : ℕ) (Code : Type) (id : ℕ) : PoolWeights workers Code ℕ where
  enqueue pc := ((custody workers Code).enqueue pc).1.countP fun x => x.1.id = id

/-- The workers and the shutdown calls that hold the task with this serial number. -/
@[simps] def atRunner (workers : ℕ) (Code : Type) (id : ℕ) : PoolWeights workers Code ℕ where
  runWorker own pc := ((custody workers Code).runWorker own pc).1.countP fun x => x.1.id = id
  finishAllThreads pc := ((custody workers Code).finishAllThreads pc).1.countP fun x => x.1.id = id
  abandonAllThreads pc :=
    ((custody workers Code).abandonAllThreads pc).1.countP fun x => x.1.id = id

namespace PoolState

variable (s : PoolState workers clients Code)

def inLanes (id : ℕ) : ℕ := ∑ i, (s.queues i).items.countP fun item => item.id = id

def timesFinished (id : ℕ) : ℕ := s.history.events.countP fun e => e.ends id

def timesBegun (id : ℕ) : ℕ := s.history.events.countP fun e => e.begins id

end PoolState

theorem Frame.countP_custody (f : Frame workers Code) (id : ℕ) :
    (f.poolWeight (custody workers Code)).1.countP (fun x => x.1.id = id)
      = f.poolWeight (atEnqueue workers Code id) + f.poolWeight (atRunner workers Code id) := by
  cases f with
  | retire tag pc => cases pc <;> simp
  | _ => simp

namespace PoolSystem

variable {s s' : PoolSystem cfg U clients}

theorem places_ledger (s : PoolSystem cfg U clients) (id : ℕ) :
    s.ledger.places id = s.count (atEnqueue _ _ id) + s.shared.pool.inLanes id
      + s.count (atRunner _ _ id) + s.shared.pool.timesFinished id := by
  have hheld := s.countP_held (fun x => x.1.id = id) fun f => f.countP_custody id
  rw [Ledger.places, hheld, PoolState.timesFinished, PoolState.inLanes, PoolSystem.count, PoolSystem.count]
  change _ + s.shared.pool.history.events.countP _ = _
  ac_rfl

end PoolSystem

/-! ### Bodies begun by one worker -/

namespace TaskEvent

def begunBy (worker : Fin workers) : TaskEvent workers → Bool
  | .begun _ (some worker') => worker' = worker
  | _ => false

section

variable (worker : Fin workers) (id tag : ℕ) (fate : Fate)

@[simp] theorem begunBy_registered : (registered id tag).begunBy worker = false := rfl

@[simp] theorem begunBy_retired : (retired tag).begunBy worker = false := rfl

@[simp] theorem begunBy_begun (worker' : Fin workers) :
    (begun id (some worker')).begunBy worker = decide (worker' = worker) := rfl

@[simp] theorem begunBy_begun_none : (begun id none).begunBy worker = false := rfl

@[simp] theorem begunBy_finished : (finished id fate).begunBy worker = false := rfl

end

end TaskEvent

def PoolState.bodiesBegun (s : PoolState workers clients Code) (worker : Fin workers) : ℕ :=
  s.history.events.countP fun e => e.begunBy worker

/-- Between the check of `terminate` and the body of the task that it may find. -/
def RunWorkerPc.mayBegin : RunWorkerPc Code → Bool
  | .tryGetTask _ => true
  | .taggedTaskCanRun _ => true
  | .begin _ => true
  | _ => false

/-- The loop of this worker, wherever it is. -/
@[simps] def loopsOf (workers : ℕ) (Code : Type) (worker : Fin workers) :
    PoolWeights workers Code ℕ where
  runWorker own _ := if own = worker then 1 else 0

/-- The loop of this worker where it may begin a body before it checks `terminate` again. -/
@[simps] def lastRounds (workers : ℕ) (Code : Type) (worker : Fin workers) :
    PoolWeights workers Code ℕ where
  runWorker own pc := if own = worker ∧ pc.mayBegin = true then 1 else 0

namespace LastRound

attribute [local simp] Balance PoolState.bodiesBegun RunWorkerPc.mayBegin

section Moves

variable {s s' : PoolState cfg.maxNumThreads clients Code} {worker : Fin cfg.maxNumThreads}
  {after : List (Frame cfg.maxNumThreads Code)}

theorem loops_law : StepLaw cfg clients Code (fun _ => True) (loopsOf cfg.maxNumThreads Code worker)
    (fun _ m _ m' => m' ≤ m) where
  refl _ _ := le_rfl
  add_right _ _ _ _ r h := Nat.add_le_add_right h r
  start := ⟨fun _ _ => rfl, fun _ => rfl, rfl, rfl⟩
  enqueue _ hmove := by cases hmove <;> simp
  runWorker _ hmove := by cases hmove <;> simp
  retire _ hmove := by
    cases hmove with
    | subtractOutstanding _ hwait | wait _ hwait => cases hwait <;> simp
    | _ => simp
  finishAllThreads := fun {_ completePendingTasks _ _ _} _ hmove => by
    have hjoin :=
      stackWeight_afterJoin (loopsOf cfg.maxNumThreads Code worker) completePendingTasks rfl
    cases hmove <;> simp [hjoin]
  abandonAllThreads _ hmove := by cases hmove <;> simp

/-- The law of one step after `terminate`: a body that begins ends a last round. -/
abbrev RoundLaw (worker : Fin workers) (s : PoolState workers clients Code) (m : ℕ)
    (s' : PoolState workers clients Code) (m' : ℕ) : Prop :=
  Balance (· ≤ ·) (fun s => s.bodiesBegun worker) s m s' m'

theorem enqueue_law {pc : EnqueuePc cfg.maxNumThreads Code}
    (hmove : EnqueueMove cfg s pc s' after) :
    RoundLaw worker s ((lastRounds _ Code worker).enqueue pc) s'
      (stackWeight (Frame.poolWeight (lastRounds _ Code worker)) after) := by
  cases hmove with
  | drop hemplace | register hemplace =>
    obtain ⟨tagStates, tagNodes, rfl⟩ := PoolState.tryEmplace_setTags hemplace
    simp
  | push hpush =>
    obtain ⟨lane, -, rfl⟩ := PoolState.push_eq_some hpush
    simp
  | complete hcomplete =>
    obtain ⟨tagNodes, waiters, rfl⟩ := PoolState.completeTaggedTask_setTags hcomplete
    simp
  | _ => simp

theorem runWorker_law {t : ThreadId cfg.maxNumThreads clients} {own : Fin cfg.maxNumThreads}
    {pc : RunWorkerPc Code} (hterminate : s.terminate = true)
    (hmove : RunWorkerMove cfg t s own pc s' after) :
    RoundLaw worker s ((lastRounds _ Code worker).runWorker own pc) s'
      (stackWeight (Frame.poolWeight (lastRounds _ Code worker)) after) := by
  cases hmove with
  | enter hrunning => exact absurd hterminate hrunning
  | tryGetTask hget =>
    cases hget with
    | popOwn hpop | steal _ hpop =>
      obtain ⟨lane, -, rfl⟩ := PoolState.tryPop_eq_some hpop
      simp
    | nothingQueued | nothingStolen => by_cases hown : own = worker <;> simp [hown]
    | _ => simp
  | skip => by_cases hown : own = worker <;> simp [hown]
  | begin => by_cases hown : own = worker <;> simp [hown, add_comm]
  | complete hcomplete =>
    obtain ⟨tagNodes, waiters, rfl⟩ := PoolState.completeTaggedTask_setTags hcomplete
    simp
  | pass hpc | block hpc => rcases hpc with rfl | ⟨rfl, -⟩ <;> simp
  | _ => simp

theorem retire_law {t : ThreadId cfg.maxNumThreads clients} {tag : ℕ} {pc : RetirePc}
    (hmove : RetireMove cfg t s tag pc s' after) :
    RoundLaw worker s ((lastRounds cfg.maxNumThreads Code worker).retire tag pc) s'
      (stackWeight (Frame.poolWeight (lastRounds _ Code worker)) after) := by
  cases hmove with
  | subtractOutstanding _ hwait | wait _ hwait =>
    cases hwait with
    | finish =>
      obtain ⟨tagStates, tagNodes, herase⟩ := PoolState.eraseTag_setTags tag _
      rw [herase]
      simp
    | block => simp
  | sweep h => simp [PoolState.removeIf, Function.comp_def]
  | _ => simp

theorem finish_law {completePendingTasks : Bool} {pc : FinishPc cfg.maxNumThreads Code}
    (hmove : FinishMove cfg s completePendingTasks pc s' after) :
    RoundLaw worker s ((lastRounds _ Code worker).finishAllThreads pc) s'
      (stackWeight (Frame.poolWeight (lastRounds _ Code worker)) after) := by
  have hjoin := stackWeight_afterJoin (lastRounds cfg.maxNumThreads Code worker)
    completePendingTasks rfl
  cases hmove with
  | @pop _ _ item _ _ h hpop =>
    obtain ⟨lane, -, rfl⟩ := PoolState.tryPop_eq_some hpop
    rcases item with _ | ⟨item, fate⟩ <;> simp
  | complete hcomplete =>
    obtain ⟨tagNodes, waiters, rfl⟩ := PoolState.completeTaggedTask_setTags hcomplete
    simp
  | @assertQueued item => rcases item with _ | ⟨item, fate⟩ <;> simp
  | _ => simp [hjoin]

theorem abandon_law {pc : AbandonPc Code} (hmove : AbandonMove cfg s pc s' after) :
    RoundLaw worker s ((lastRounds cfg.maxNumThreads Code worker).abandonAllThreads pc) s'
      (stackWeight (Frame.poolWeight (lastRounds _ Code worker)) after) := by
  cases hmove with
  | @pop _ item _ _ h hpop =>
    obtain ⟨lane, -, rfl⟩ := PoolState.tryPop_eq_some hpop
    cases item <;> simp
  | @laneEmpty _ item | @swept _ item => cases item <;> simp
  | complete hcomplete =>
    obtain ⟨tagNodes, waiters, rfl⟩ := PoolState.completeTaggedTask_setTags hcomplete
    simp
  | _ => simp

theorem law : StepLaw cfg clients Code (fun s => s.terminate = true)
    (lastRounds cfg.maxNumThreads Code worker) (RoundLaw worker) where
  refl _ _ := le_rfl
  add_right _ _ _ _ r h := Balance.add_right (fun _ _ x h => add_le_add_left h x) r h
  start := ⟨fun _ _ => rfl, fun _ => rfl, rfl, rfl⟩
  enqueue _ := enqueue_law
  runWorker := runWorker_law
  retire _ := retire_law
  finishAllThreads _ := finish_law
  abandonAllThreads _ := abandon_law

end Moves

end LastRound

namespace PoolSystem

variable {s s' : PoolSystem cfg U clients}

theorem loopsOf_le_one (hreach : (poolSystem cfg U clients).Reachable s)
    (worker : Fin cfg.maxNumThreads) : s.count (loopsOf _ _ worker) ≤ 1 := by
  refine TransitionSystem.Reachable.invariant
    (fun s : PoolSystem cfg U clients => s.count (loopsOf _ _ worker) ≤ 1) ?_
    (fun s s' _ hI hstep => (LastRound.loops_law.step hstep trivial).trans hI) hreach
  rintro s ⟨main, rfl⟩
  have hstack : ∀ t, stackWeight (Frame.poolWeight (loopsOf cfg.maxNumThreads U.Code worker))
      ((initialSystem cfg U clients main).threads t) = if t = .worker worker then 1 else 0 := by
    intro t
    cases t <;> simp [initialSystem]
  simp [PoolSystem.count, PoolSystem.total, weight, hstack]

theorem lastRounds_le_one (hreach : (poolSystem cfg U clients).Reachable s)
    (worker : Fin cfg.maxNumThreads) : s.count (lastRounds _ _ worker) ≤ 1 := by
  refine (weight_le_weight (fun f => ?_) s.threads).trans (loopsOf_le_one hreach worker)
  cases f with
  | runWorker own pc =>
    by_cases hown : own = worker
    · simp only [Frame.poolWeight_runWorker, lastRounds_runWorker, loopsOf_runWorker, hown]
      split <;> simp
    · simp [hown]
  | _ => simp

theorem bodiesBegun_le (hreach : (poolSystem cfg U clients).Reachable s)
    (hterminate : s.shared.pool.terminate = true) (hsteps : (poolSystem cfg U clients).Steps s s')
    (worker : Fin cfg.maxNumThreads) :
    s'.shared.pool.bodiesBegun worker ≤ s.shared.pool.bodiesBegun worker + 1 := by
  have hrun : s'.shared.pool.terminate = true ∧
      s'.shared.pool.bodiesBegun worker + s'.count (lastRounds _ _ worker)
        ≤ s.shared.pool.bodiesBegun worker + s.count (lastRounds _ _ worker) := by
    refine TransitionSystem.Reachable.stable (fun s₁ : PoolSystem cfg U clients =>
      s₁.shared.pool.terminate = true ∧
        s₁.shared.pool.bodiesBegun worker + s₁.count (lastRounds _ _ worker)
          ≤ s.shared.pool.bodiesBegun worker + s.count (lastRounds _ _ worker))
      (fun s₁ s₂ _ hI hstep => ⟨terminate_step hstep hI.1, ?_⟩) hreach hsteps ⟨hterminate, le_rfl⟩
    have hlaw : (s₂.shared.pool.bodiesBegun worker : ℤ) + s₂.count (lastRounds _ _ worker)
        ≤ s₁.shared.pool.bodiesBegun worker + s₁.count (lastRounds _ _ worker) :=
      LastRound.law.step hstep hI.1
    have hI := hI.2
    omega
  have hone := lastRounds_le_one hreach worker
  omega

end PoolSystem

/-- Every task that has been created is in exactly one place, and its body begins at most once. If
it has been destroyed its fate says whether its body ran, and a skipped task was registered before
its tag was retired. Once `terminate` is set, each worker begins at most one further body. -/
theorem tasks_inOnePlace {s : PoolSystem cfg U clients}
    (hreach : (poolSystem cfg U clients).Reachable s) :
    (∀ id < s.shared.pool.history.nextTaskId,
      s.count (atEnqueue _ _ id) + s.shared.pool.inLanes id + s.count (atRunner _ _ id)
          + s.shared.pool.timesFinished id = 1 ∧
        s.shared.pool.timesBegun id ≤ 1 ∧
        ∀ fate, .finished id fate ∈ s.shared.pool.history.events →
          s.shared.pool.timesBegun id = (if fate = .ran then 1 else 0) ∧
            (fate = .skipped →
              ∃ tag, Ledger.RetiredAfter s.shared.pool.history.events id tag)) ∧
      (s.shared.pool.terminate = true → ∀ s', (poolSystem cfg U clients).Steps s s' →
        ∀ worker, s'.shared.pool.bodiesBegun worker ≤ s.shared.pool.bodiesBegun worker + 1) := by
  have hledger := PoolSystem.ledger_reachable hreach
  refine ⟨fun id hid => ⟨?_, Ledger.begins_le_one hledger id, fun fate hfate => ⟨?_, ?_⟩⟩,
    fun hterminate s' hsteps => PoolSystem.bodiesBegun_le hreach hterminate hsteps⟩
  · rw [← PoolSystem.places_ledger, Ledger.places_eq hledger id]
    exact if_pos hid
  · exact Ledger.begins_of_finished hledger hfate
  · rintro rfl
    exact (Ledger.skippedRetired hledger).2 id hfate

/-- The worker pops a task before the tag is retired and skips it; then the owner stops the pool. -/
def skippedBeforeStop : Option (PoolSystem oneWorker scriptCode 0) :=
  scriptRun oneWorker 0
    (fun _ => .call (.enqueue .ret 5) (.call (.retire 5) (.call (.finishAllThreads false) .ret)))
    [(.owner, .input ()), (.owner, .go), (.owner, .address 7), (.owner, .go), (.owner, .go),
      (.owner, .go), (.worker 0, .go), (.worker 0, .go), (.worker 0, .go), (.worker 0, .go),
      (.owner, .go), (.owner, .input ()), (.owner, .go), (.worker 0, .go), (.worker 0, .go),
      (.worker 0, .go), (.owner, .go), (.owner, .go), (.owner, .go), (.owner, .go), (.owner, .go),
      (.owner, .input ()), (.owner, .go)]

theorem tasks_inOnePlace_skippedBeforeStop :
    ∃ s, skippedBeforeStop = some s ∧ s.shared.pool.timesFinished 0 = 1 ∧
      s.shared.pool.timesBegun 0 = 0 ∧
      (∃ tag, Ledger.RetiredAfter s.shared.pool.history.events 0 tag) ∧
      ∀ s', (poolSystem oneWorker scriptCode 0).Steps s s' → s'.shared.pool.bodiesBegun 0 ≤ 1 := by
  have hrun : skippedBeforeStop.map (fun s => (s.shared.pool.history.nextTaskId,
      s.shared.pool.timesFinished 0, s.shared.pool.bodiesBegun 0, s.shared.pool.terminate,
      decide (.finished 0 .skipped ∈ s.shared.pool.history.events)))
      = some (1, 1, 0, true, true) := by decide
  obtain ⟨s, hs, hvalues⟩ := Option.map_eq_some_iff.mp hrun
  simp only [Prod.mk.injEq, decide_eq_true_eq] at hvalues
  obtain ⟨hnext, hfinished, hbodies, hterminate, hskipped⟩ := hvalues
  obtain ⟨htasks, hbounded⟩ := tasks_inOnePlace (scriptRun_reachable hs)
  obtain ⟨-, -, hfate⟩ := htasks 0 (by rw [hnext]; decide)
  obtain ⟨hbegun, hretired⟩ := hfate .skipped hskipped
  refine ⟨s, hs, hfinished, hbegun, hretired rfl, fun s' hsteps => ?_⟩
  have hle := hbounded hterminate s' hsteps 0
  rwa [hbodies] at hle

end CppUtils
