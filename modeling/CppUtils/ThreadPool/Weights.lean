import CppUtils.ThreadPool.System

/-!
# Sums over the calls in progress

Most invariants of the pool relate its shared words to a sum over the calls in progress. Such a sum
is given by a weight for each point inside the functions that touch the pool; user code and the
functions of the batches weigh nothing. A balance that every step of those functions keeps is kept
by every step of the system.
-/

namespace CppUtils

open Threaded

variable {clients workers : ℕ} {U : UserCode} {Code M : Type} {cfg : PoolConfig}

/-- A weight for each point inside the functions that touch the pool. -/
structure PoolWeights (workers : ℕ) (Code M : Type) [Zero M] where
  enqueue : EnqueuePc workers Code → M := fun _ => 0
  runWorker : Fin workers → RunWorkerPc Code → M := fun _ _ => 0
  retire : ℕ → RetirePc → M := fun _ _ => 0
  finishAllThreads : FinishPc workers Code → M := fun _ => 0
  abandonAllThreads : AbandonPc Code → M := fun _ => 0

namespace Frame

variable [Zero M]

def poolWeight (w : PoolWeights workers Code M) : Frame workers Code → M
  | .runWorker own pc => w.runWorker own pc
  | .enqueue pc => w.enqueue pc
  | .retire tag pc => w.retire tag pc
  | .finishAllThreads _ pc => w.finishAllThreads pc
  | .abandonAllThreads pc => w.abandonAllThreads pc
  | _ => 0

variable (w : PoolWeights workers Code M)

@[simp] theorem poolWeight_body (code : Code) : (body code).poolWeight w = 0 := rfl

@[simp] theorem poolWeight_calling (resume : Outcome → Code) :
    (calling resume).poolWeight w = 0 := rfl

@[simp] theorem poolWeight_unwinding : unwinding.poolWeight w = 0 := rfl

@[simp] theorem poolWeight_runWorker (own : Fin workers) (pc : RunWorkerPc Code) :
    (runWorker own pc).poolWeight w = w.runWorker own pc := rfl

@[simp] theorem poolWeight_enqueue (pc : EnqueuePc workers Code) :
    (enqueue pc).poolWeight w = w.enqueue pc := rfl

@[simp] theorem poolWeight_retire (tag : ℕ) (pc : RetirePc) :
    (retire tag pc).poolWeight w = w.retire tag pc := rfl

@[simp] theorem poolWeight_finishAllThreads (completePendingTasks : Bool)
    (pc : FinishPc workers Code) :
    (finishAllThreads completePendingTasks pc).poolWeight w = w.finishAllThreads pc := rfl

@[simp] theorem poolWeight_abandonAllThreads (pc : AbandonPc Code) :
    (abandonAllThreads pc).poolWeight w = w.abandonAllThreads pc := rfl

@[simp] theorem poolWeight_parallelFor (pc : ParallelForPc Code) :
    (parallelFor pc).poolWeight w = 0 := rfl

@[simp] theorem poolWeight_parallelForAsync (pc : ParallelForAsyncPc Code) :
    (parallelForAsync pc).poolWeight w = 0 := rfl

@[simp] theorem poolWeight_drainIndices (batch : ℕ) (pc : DrainPc) :
    (drainIndices batch pc).poolWeight w = 0 := rfl

@[simp] theorem poolWeight_closure (task : Closure Code) :
    (task.frame : Frame workers Code).poolWeight w = 0 := by
  cases task <;> rfl

end Frame

section Monoid

variable [AddCommMonoid M]

/-- The sum of a weight over all calls in progress. -/
abbrev PoolSystem.total (s : PoolSystem cfg U clients)
    (w : PoolWeights cfg.maxNumThreads U.Code M) : M :=
  weight (Frame.poolWeight w) s.threads

abbrev PoolSystem.count (s : PoolSystem cfg U clients)
    (w : PoolWeights cfg.maxNumThreads U.Code ℕ) : ℕ :=
  s.total w

theorem PoolSystem.total_initial (w : PoolWeights cfg.maxNumThreads U.Code M)
    (hstarting : ∀ own, w.runWorker own .starting = 0)
    (main : ThreadId cfg.maxNumThreads clients → U.Code) :
    (initialSystem cfg U clients main).total w = 0 := by
  refine Finset.sum_eq_zero fun t _ => ?_
  cases t <;> simp [initialSystem, hstarting]

/-- A call that has only begun weighs nothing. -/
structure PoolWeights.StartsAtZero (w : PoolWeights workers Code M) : Prop where
  enqueue : ∀ task tag, w.enqueue (.start task tag) = 0
  retire : ∀ tag, w.retire tag .start = 0
  finishAllThreads : w.finishAllThreads .setTerminate = 0
  abandonAllThreads : w.abandonAllThreads .setTerminate = 0

theorem PoolWeights.StartsAtZero.stackWeight_frames {w : PoolWeights workers Code M}
    (hstart : w.StartsAtZero) (step : UserStep Code) :
    stackWeight (Frame.poolWeight w) step.frames = 0 := by
  rcases step with ⟨request, resume⟩ | _ | _
  · cases request <;>
      simp [UserStep.frames, UserCall.frame, hstart.enqueue, hstart.retire,
        hstart.finishAllThreads, hstart.abandonAllThreads]
  · simp [UserStep.frames]
  · simp [UserStep.frames]

theorem stackWeight_afterJoin (w : PoolWeights workers Code M) (completePendingTasks : Bool)
    (hdrain : w.finishAllThreads (.drain false 0 none) = 0) :
    stackWeight (Frame.poolWeight w) (afterJoin workers Code completePendingTasks) = 0 := by
  cases completePendingTasks <;> simp [afterJoin, hdrain]

/-- The functions of the batches leave the pool alone, and their frames weigh nothing. -/
theorem ParallelForMove.quiet {t : ThreadId cfg.maxNumThreads clients}
    {s s' : Shared cfg.maxNumThreads clients Code} {pc : ParallelForPc Code}
    {after : List (Frame cfg.maxNumThreads Code)} {w : PoolWeights cfg.maxNumThreads Code M}
    (hmove : ParallelForMove cfg t s pc s' after) (hstart : w.StartsAtZero) :
    s'.pool = s.pool ∧ stackWeight (Frame.poolWeight w) after = 0 := by
  cases hmove <;> simp [hstart.enqueue]

theorem ParallelForAsyncMove.quiet {s s' : Shared cfg.maxNumThreads clients Code}
    {pc : ParallelForAsyncPc Code} {after : List (Frame cfg.maxNumThreads Code)}
    {w : PoolWeights cfg.maxNumThreads Code M} (hmove : ParallelForAsyncMove cfg s pc s' after)
    (hstart : w.StartsAtZero) :
    s'.pool = s.pool ∧ stackWeight (Frame.poolWeight w) after = 0 := by
  cases hmove <;> simp [hstart.enqueue]

theorem DrainIndicesMove.quiet {s s' : Shared cfg.maxNumThreads clients Code} {batch : ℕ}
    {pc : DrainPc} {after : List (Frame cfg.maxNumThreads Code)}
    (hmove : DrainIndicesMove s batch pc s' after) (w : PoolWeights cfg.maxNumThreads Code M) :
    s'.pool = s.pool ∧ stackWeight (Frame.poolWeight w) after = 0 := by
  cases hmove <;> simp

theorem unwind_stackWeight {f : Frame workers Code} {after : List (Frame workers Code)}
    (hunwind : unwind f = some after) (w : PoolWeights workers Code M) :
    stackWeight (Frame.poolWeight w) after = f.poolWeight w := by
  unfold unwind at hunwind
  split at hunwind <;> cases hunwind <;> simp

/-! ### Laws of a step -/

/-- A law that relates the pool and the sum of a weight before a step to both after it. It may be
proved of the frames that the step replaces, since it is kept when a weight that does not take part
is added; the functions of the batches and user code keep it because it is reflexive. -/
structure StepLaw (cfg : PoolConfig) (clients : ℕ) (Code : Type)
    (P : PoolState cfg.maxNumThreads clients Code → Prop) (w : PoolWeights cfg.maxNumThreads Code M)
    (L : PoolState cfg.maxNumThreads clients Code → M →
      PoolState cfg.maxNumThreads clients Code → M → Prop) : Prop where
  refl : ∀ s m, L s m s m
  add_right : ∀ s m s' m' r, L s m s' m' → L s (m + r) s' (m' + r)
  start : w.StartsAtZero
  enqueue : ∀ {s pc s' after}, P s → EnqueueMove cfg s pc s' after →
    L s (w.enqueue pc) s' (stackWeight (Frame.poolWeight w) after)
  runWorker : ∀ {t s own pc s' after}, P s → RunWorkerMove cfg t s own pc s' after →
    L s (w.runWorker own pc) s' (stackWeight (Frame.poolWeight w) after)
  retire : ∀ {t s tag pc s' after}, P s → RetireMove cfg t s tag pc s' after →
    L s (w.retire tag pc) s' (stackWeight (Frame.poolWeight w) after)
  finishAllThreads : ∀ {s completePendingTasks pc s' after}, P s →
    FinishMove cfg s completePendingTasks pc s' after →
      L s (w.finishAllThreads pc) s' (stackWeight (Frame.poolWeight w) after)
  abandonAllThreads : ∀ {s pc s' after}, P s → AbandonMove cfg s pc s' after →
    L s (w.abandonAllThreads pc) s' (stackWeight (Frame.poolWeight w) after)

namespace StepLaw

variable {P : PoolState cfg.maxNumThreads clients U.Code → Prop}
  {w : PoolWeights cfg.maxNumThreads U.Code M}
  {L : PoolState cfg.maxNumThreads clients U.Code → M →
    PoolState cfg.maxNumThreads clients U.Code → M → Prop}

theorem frameMove (hlaw : StepLaw cfg clients U.Code P w L)
    {t : ThreadId cfg.maxNumThreads clients} {s s' : Shared cfg.maxNumThreads clients U.Code}
    {f : Frame cfg.maxNumThreads U.Code} {after : List (Frame cfg.maxNumThreads U.Code)}
    (hmove : FrameMove cfg U t s f s' after) (hP : P s.pool) :
    L s.pool (f.poolWeight w) s'.pool (stackWeight (Frame.poolWeight w) after) := by
  cases hmove with
  | body hallowed =>
    rw [hlaw.start.stackWeight_frames]
    exact hlaw.refl _ _
  | resume =>
    simp only [stackWeight_cons, stackWeight_nil, Frame.poolWeight_body, add_zero]
    exact hlaw.refl _ _
  | runWorker hmove => exact hlaw.runWorker hP hmove
  | enqueue hmove => exact hlaw.enqueue hP hmove
  | retire hmove => exact hlaw.retire hP hmove
  | finishAllThreads hmove => exact hlaw.finishAllThreads hP hmove
  | abandonAllThreads hmove => exact hlaw.abandonAllThreads hP hmove
  | parallelFor hmove =>
    obtain ⟨hpool, hafter⟩ := hmove.quiet hlaw.start
    rw [hpool, hafter]
    exact hlaw.refl _ _
  | parallelForAsync hmove =>
    obtain ⟨hpool, hafter⟩ := hmove.quiet hlaw.start
    rw [hpool, hafter]
    exact hlaw.refl _ _
  | drainIndices hmove =>
    obtain ⟨hpool, hafter⟩ := hmove.quiet w
    rw [hpool, hafter]
    exact hlaw.refl _ _

/-- A law of the functions of the pool is a law of the system. -/
theorem step (hlaw : StepLaw cfg clients U.Code P w L) {s s' : PoolSystem cfg U clients}
    (hstep : (poolSystem cfg U clients).Step s s') (hP : P s.shared.pool) :
    L s.shared.pool (s.total w) s'.shared.pool (s'.total w) := by
  cases step_move hstep with
  | @mk shared' before after rest t hstack hrule =>
    obtain ⟨r, hbefore, hafter⟩ := weight_split (Frame.poolWeight w) hstack after
    simp only [PoolSystem.total, hbefore, hafter]
    refine hlaw.add_right _ _ _ _ r ?_
    cases hrule with
    | frame hmove =>
      rw [stackWeight_cons, stackWeight_nil, add_zero]
      exact hlaw.frameMove hmove hP
    | unwind hunwind =>
      rw [unwind_stackWeight hunwind, stackWeight_cons, stackWeight_cons, stackWeight_nil,
        Frame.poolWeight_unwinding, zero_add, add_zero]
      exact hlaw.refl _ _

end StepLaw

end Monoid

/-- The law that a shared value and a count of calls stay in a relation. -/
def Balance (rel : ℤ → ℤ → Prop) (g : PoolState workers clients Code → ℤ)
    (s : PoolState workers clients Code) (m : ℕ) (s' : PoolState workers clients Code) (m' : ℕ) :
    Prop :=
  rel (g s' + m') (g s + m)

theorem Balance.add_right {rel : ℤ → ℤ → Prop} (hrel : ∀ a b x, rel a b → rel (a + x) (b + x))
    {g : PoolState workers clients Code → ℤ} {s : PoolState workers clients Code} {m : ℕ}
    {s' : PoolState workers clients Code} {m' : ℕ} (r : ℕ) (h : Balance rel g s m s' m') :
    Balance rel g s (m + r) s' (m' + r) := by
  have hr := hrel _ _ (r : ℤ) h
  simpa only [Balance, Nat.cast_add, add_assoc] using hr

end CppUtils
