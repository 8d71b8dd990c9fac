import CppUtils.ThreadPool.Enqueue
import CppUtils.ThreadPool.Worker
import CppUtils.ThreadPool.Retire
import CppUtils.ThreadPool.Shutdown
import CppUtils.ThreadPool.ParallelFor

/-!
# The pool and the threads that use it

Every thread has a stack of calls in progress, and one step of the system is one step of the
innermost call of one thread. The code of tasks and of the outside threads is arbitrary; only the
owner may shut the pool down.
-/

namespace CppUtils

variable {clients : ℕ} {U : UserCode} {cfg : PoolConfig}

abbrev PoolSystem (cfg : PoolConfig) (U : UserCode) (clients : ℕ) :=
  Threaded (ThreadId cfg.maxNumThreads clients) (Shared cfg.maxNumThreads clients U.Code)
    (Frame cfg.maxNumThreads U.Code)

def UserCall.frame {workers : ℕ} {Code : Type} : UserCall Code → Frame workers Code
  | .enqueue task tag => .enqueue (.start (.user task) tag)
  | .retire tag => .retire tag .start
  | .parallelFor count fn => .parallelFor (.start count fn)
  | .parallelForAsync count fn onAllCompleted =>
    .parallelForAsync (.start count fn onAllCompleted)
  | .finishAllThreads completePendingTasks =>
    .finishAllThreads completePendingTasks .setTerminate
  | .abandonAllThreads => .abandonAllThreads .setTerminate

/-- `finishAllThreads` and `abandonAllThreads` are for the owner. -/
def UserCall.allowed {workers clients : ℕ} {Code : Type} (t : ThreadId workers clients) :
    UserCall Code → Bool
  | .finishAllThreads _ => t = .owner
  | .abandonAllThreads => t = .owner
  | _ => true

/-- The frames that replace user code after its next step. -/
def UserStep.frames {workers : ℕ} {Code : Type} : UserStep Code → List (Frame workers Code)
  | .call request resume => [request.frame, .calling resume]
  | .ret => []
  | .throw => [.unwinding]

def UserStep.allowed {workers clients : ℕ} {Code : Type} (t : ThreadId workers clients) :
    UserStep Code → Bool
  | .call request _ => request.allowed t
  | _ => true

def frameStep (cfg : PoolConfig) (U : UserCode) (t : ThreadId cfg.maxNumThreads clients)
    (c : Choice cfg.maxNumThreads clients U.Input) (s : Shared cfg.maxNumThreads clients U.Code)
    (f : Frame cfg.maxNumThreads U.Code) :
    Option (Shared cfg.maxNumThreads clients U.Code × List (Frame cfg.maxNumThreads U.Code)) :=
  match f with
  | .body code =>
    match c with
    | .input i =>
      if (U.next code i).allowed t = true then some (s, (U.next code i).frames) else none
    | _ => none
  | .calling resume => some (s, [.body (resume .returned)])
  | .unwinding => none
  | .runWorker own pc => (runWorkerStep cfg t c s.pool own pc).map (Prod.map s.setPool id)
  | .enqueue pc => (enqueueStep cfg c s.pool pc).map (Prod.map s.setPool id)
  | .retire tag pc => (retireStep cfg t c s.pool tag pc).map (Prod.map s.setPool id)
  | .finishAllThreads completePendingTasks pc =>
    (finishStep cfg s.pool completePendingTasks pc).map (Prod.map s.setPool id)
  | .abandonAllThreads pc => (abandonStep cfg s.pool pc).map (Prod.map s.setPool id)
  | .parallelFor pc => parallelForStep cfg t c s pc
  | .parallelForAsync pc => parallelForAsyncStep cfg s pc
  | .drainIndices batch pc => drainIndicesStep c s batch pc

/-- What becomes of a frame when an exception reaches it: user code may handle it, the contained
calls go on, and every other function is left. -/
def unwind {workers : ℕ} {Code : Type} : Frame workers Code → Option (List (Frame workers Code))
  | .calling resume => some [.body (resume .threw)]
  | .runWorker own (.running item) => some [.runWorker own (.running item)]
  | .finishAllThreads completePendingTasks (.running i item) =>
    some [.finishAllThreads completePendingTasks (.running i item)]
  | .drainIndices batch (.inFn index) => some [.drainIndices batch (.inFn index)]
  | .drainIndices _ .inCompletion => some [.unwinding]
  | .parallelFor _ => some [.unwinding]
  | .parallelForAsync _ => some [.unwinding]
  | _ => none

def step (cfg : PoolConfig) (U : UserCode) (t : ThreadId cfg.maxNumThreads clients)
    (c : Choice cfg.maxNumThreads clients U.Input) (s : PoolSystem cfg U clients) :
    Option (PoolSystem cfg U clients) :=
  match s.threads t with
  | [] => none
  | .unwinding :: rest =>
    match rest with
    | [] => none
    | f :: rest =>
      match unwind f with
      | none => none
      | some after => some ⟨s.shared, Function.update s.threads t (after ++ rest)⟩
  | f :: rest =>
    match frameStep cfg U t c s.shared f with
    | none => none
    | some (shared, after) => some ⟨shared, Function.update s.threads t (after ++ rest)⟩

theorem step_eq_of_frameStep {t : ThreadId cfg.maxNumThreads clients}
    {c : Choice cfg.maxNumThreads clients U.Input} {s : PoolSystem cfg U clients}
    {f : Frame cfg.maxNumThreads U.Code} {rest : List (Frame cfg.maxNumThreads U.Code)}
    {r : Shared cfg.maxNumThreads clients U.Code × List (Frame cfg.maxNumThreads U.Code)}
    (hstack : s.threads t = f :: rest) (hr : frameStep cfg U t c s.shared f = some r) :
    step cfg U t c s = some ⟨r.1, Function.update s.threads t (r.2 ++ rest)⟩ := by
  unfold step
  split
  · rename_i h
    rw [hstack] at h
    cases h
  · rename_i h
    rw [hstack] at h
    cases h
    cases hr
  · rename_i h
    rw [hstack] at h
    cases h
    rw [hr]

/-- The pool after its construction: the workers about to run, the other threads in their code. -/
def initialSystem (cfg : PoolConfig) (U : UserCode) (clients : ℕ)
    (main : ThreadId cfg.maxNumThreads clients → U.Code) : PoolSystem cfg U clients where
  shared := ⟨.initial _ _ _, fun _ => none, 0⟩
  threads
    | .worker index => [.runWorker index .starting]
    | t => [.body (main t)]

/-- Every interleaving of the steps of all threads, from any code of the outside threads. -/
def poolSystem (cfg : PoolConfig) (U : UserCode) (clients : ℕ) :
    TransitionSystem (PoolSystem cfg U clients) where
  Init s := ∃ main, s = initialSystem cfg U clients main
  Step s s' := ∃ t c, step cfg U t c s = some s'

def exec (cfg : PoolConfig) (U : UserCode) (s : PoolSystem cfg U clients) :
    List (ThreadId cfg.maxNumThreads clients × Choice cfg.maxNumThreads clients U.Input) →
      Option (PoolSystem cfg U clients)
  | [] => some s
  | (t, c) :: moves =>
    match step cfg U t c s with
    | none => none
    | some s' => exec cfg U s' moves

theorem exec_steps {s s' : PoolSystem cfg U clients}
    {moves : List (ThreadId cfg.maxNumThreads clients × Choice cfg.maxNumThreads clients U.Input)}
    (h : exec cfg U s moves = some s') : (poolSystem cfg U clients).Steps s s' := by
  induction moves generalizing s with
  | nil =>
    cases h
    exact .refl
  | cons move moves ih =>
    obtain ⟨t, c⟩ := move
    simp only [exec] at h
    split at h
    · cases h
    · rename_i s₁ hstep
      exact .head ⟨t, c, hstep⟩ (ih h)

theorem exec_reachable {main : ThreadId cfg.maxNumThreads clients → U.Code}
    {s : PoolSystem cfg U clients}
    {moves : List (ThreadId cfg.maxNumThreads clients × Choice cfg.maxNumThreads clients U.Input)}
    (h : exec cfg U (initialSystem cfg U clients main) moves = some s) :
    (poolSystem cfg U clients).Reachable s :=
  TransitionSystem.Reachable.steps (.init ⟨main, rfl⟩ trivial) (exec_steps h)

/-- A run all of whose states pass a check. -/
def execUnder (cfg : PoolConfig) (U : UserCode) (check : PoolSystem cfg U clients → Bool)
    (s : PoolSystem cfg U clients) :
    List (ThreadId cfg.maxNumThreads clients × Choice cfg.maxNumThreads clients U.Input) →
      Option (PoolSystem cfg U clients)
  | [] => if check s = true then some s else none
  | (t, c) :: moves =>
    if check s = true then
      match step cfg U t c s with
      | none => none
      | some s' => execUnder cfg U check s' moves
    else none

theorem execUnder_check {check : PoolSystem cfg U clients → Bool} {s s' : PoolSystem cfg U clients}
    {moves : List (ThreadId cfg.maxNumThreads clients × Choice cfg.maxNumThreads clients U.Input)}
    (h : execUnder cfg U check s moves = some s') : check s = true := by
  cases moves with
  | nil | cons =>
    simp only [execUnder] at h
    split at h
    · assumption
    · cases h

theorem execUnder_reachable {Keeps : PoolSystem cfg U clients → Prop}
    {check : PoolSystem cfg U clients → Bool} (hcheck : ∀ s, check s = true → Keeps s)
    {s s' : PoolSystem cfg U clients}
    {moves : List (ThreadId cfg.maxNumThreads clients × Choice cfg.maxNumThreads clients U.Input)}
    (hreach : (poolSystem cfg U clients).ReachableUnder Keeps s)
    (h : execUnder cfg U check s moves = some s') :
    (poolSystem cfg U clients).ReachableUnder Keeps s' := by
  induction moves generalizing s with
  | nil =>
    simp only [execUnder] at h
    split at h
    · cases h
      exact hreach
    · cases h
  | cons move moves ih =>
    obtain ⟨t, c⟩ := move
    simp only [execUnder] at h
    split at h
    · split at h
      · cases h
      · rename_i s₁ hstep
        exact ih (hreach.step ⟨t, c, hstep⟩ (hcheck s₁ (execUnder_check h))) h
    · cases h

/-! ### What a step can do -/

inductive FrameMove (cfg : PoolConfig) (U : UserCode) (t : ThreadId cfg.maxNumThreads clients)
    (s : Shared cfg.maxNumThreads clients U.Code) :
    Frame cfg.maxNumThreads U.Code → Shared cfg.maxNumThreads clients U.Code →
      List (Frame cfg.maxNumThreads U.Code) → Prop
  | body {code i} (hallowed : (U.next code i).allowed t = true) :
      FrameMove cfg U t s (.body code) s (U.next code i).frames
  | resume {resume} : FrameMove cfg U t s (.calling resume) s [.body (resume .returned)]
  | runWorker {own pc pool after} (hmove : RunWorkerMove cfg t s.pool own pc pool after) :
      FrameMove cfg U t s (.runWorker own pc) (s.setPool pool) after
  | enqueue {pc pool after} (hmove : EnqueueMove cfg s.pool pc pool after) :
      FrameMove cfg U t s (.enqueue pc) (s.setPool pool) after
  | retire {tag pc pool after} (hmove : RetireMove cfg t s.pool tag pc pool after) :
      FrameMove cfg U t s (.retire tag pc) (s.setPool pool) after
  | finishAllThreads {completePendingTasks pc pool after}
      (hmove : FinishMove cfg s.pool completePendingTasks pc pool after) :
      FrameMove cfg U t s (.finishAllThreads completePendingTasks pc) (s.setPool pool) after
  | abandonAllThreads {pc pool after} (hmove : AbandonMove cfg s.pool pc pool after) :
      FrameMove cfg U t s (.abandonAllThreads pc) (s.setPool pool) after
  | parallelFor {pc s' after} (hmove : ParallelForMove cfg t s pc s' after) :
      FrameMove cfg U t s (.parallelFor pc) s' after
  | parallelForAsync {pc s' after} (hmove : ParallelForAsyncMove cfg s pc s' after) :
      FrameMove cfg U t s (.parallelForAsync pc) s' after
  | drainIndices {batch pc s' after} (hmove : DrainIndicesMove s batch pc s' after) :
      FrameMove cfg U t s (.drainIndices batch pc) s' after

/-- What a step replaces: the innermost frame, or an exception with the frame that it reaches. -/
inductive PoolRule (cfg : PoolConfig) (U : UserCode) :
    Threaded.Rule (ThreadId cfg.maxNumThreads clients) (Shared cfg.maxNumThreads clients U.Code)
      (Frame cfg.maxNumThreads U.Code)
  | frame {t s f s' after} (hmove : FrameMove cfg U t s f s' after) : PoolRule cfg U t s [f] s' after
  | unwind {t s f after} (hunwind : unwind f = some after) :
      PoolRule cfg U t s [.unwinding, f] s after

theorem frameStep_move {t : ThreadId cfg.maxNumThreads clients}
    {c : Choice cfg.maxNumThreads clients U.Input} {s s' : Shared cfg.maxNumThreads clients U.Code}
    {f : Frame cfg.maxNumThreads U.Code} {after : List (Frame cfg.maxNumThreads U.Code)}
    (h : frameStep cfg U t c s f = some (s', after)) : FrameMove cfg U t s f s' after := by
  cases f with
  | body code =>
    simp only [frameStep] at h
    split at h
    · split at h
      · cases h
        exact .body ‹_›
      · cases h
    · cases h
  | calling resume =>
    cases h
    exact .resume
  | unwinding => cases h
  | runWorker own pc =>
    obtain ⟨⟨pool, frames⟩, hstep, hr⟩ := Option.map_eq_some_iff.mp h
    cases hr
    exact .runWorker (runWorkerStep_move hstep)
  | enqueue pc =>
    obtain ⟨⟨pool, frames⟩, hstep, hr⟩ := Option.map_eq_some_iff.mp h
    cases hr
    exact .enqueue (enqueueStep_move hstep)
  | retire tag pc =>
    obtain ⟨⟨pool, frames⟩, hstep, hr⟩ := Option.map_eq_some_iff.mp h
    cases hr
    exact .retire (retireStep_move hstep)
  | finishAllThreads completePendingTasks pc =>
    obtain ⟨⟨pool, frames⟩, hstep, hr⟩ := Option.map_eq_some_iff.mp h
    cases hr
    exact .finishAllThreads (finishStep_move hstep)
  | abandonAllThreads pc =>
    obtain ⟨⟨pool, frames⟩, hstep, hr⟩ := Option.map_eq_some_iff.mp h
    cases hr
    exact .abandonAllThreads (abandonStep_move hstep)
  | parallelFor pc => exact .parallelFor (parallelForStep_move h)
  | parallelForAsync pc => exact .parallelForAsync (parallelForAsyncStep_move h)
  | drainIndices batch pc => exact .drainIndices (drainIndicesStep_move h)

/-- A step of a thread that has a call in progress is a move of its innermost frame. -/
theorem step_eq_some_of_frame {t : ThreadId cfg.maxNumThreads clients}
    {c : Choice cfg.maxNumThreads clients U.Input} {s s' : PoolSystem cfg U clients}
    {f : Frame cfg.maxNumThreads U.Code} {rest : List (Frame cfg.maxNumThreads U.Code)}
    (hstack : s.threads t = f :: rest) (hf : f ≠ .unwinding) (h : step cfg U t c s = some s') :
    ∃ shared after, FrameMove cfg U t s.shared f shared after ∧
      s' = ⟨shared, Function.update s.threads t (after ++ rest)⟩ := by
  unfold step at h
  split at h
  · cases h
  · rename_i hstack'
    rw [hstack] at hstack'
    cases hstack'
    exact absurd rfl hf
  · rename_i hstack'
    rw [hstack] at hstack'
    cases hstack'
    split at h
    · cases h
    · rename_i shared after hframe
      cases h
      exact ⟨shared, after, frameStep_move hframe, rfl⟩

/-- A step of a thread is a move of its innermost frames by the rule. -/
theorem step_rule {t : ThreadId cfg.maxNumThreads clients} {c : Choice cfg.maxNumThreads clients U.Input}
    {s s' : PoolSystem cfg U clients} (h : step cfg U t c s = some s') :
    ∃ before after rest, s.threads t = before ++ rest ∧
      PoolRule cfg U t s.shared before s'.shared after ∧
      s'.threads = Function.update s.threads t (after ++ rest) := by
  unfold step at h
  split at h
  · cases h
  · split at h
    · cases h
    · split at h
      · cases h
      · rename_i f rest hstack _ after hunwind
        cases h
        exact ⟨[.unwinding, f], after, rest, hstack, .unwind hunwind, rfl⟩
  · split at h
    · cases h
    · rename_i f rest _ hstack _ shared after hframe
      cases h
      exact ⟨[f], after, rest, hstack, .frame (frameStep_move hframe), rfl⟩

/-- Every step of the system is a move by its rule. -/
theorem step_move {s s' : PoolSystem cfg U clients} (hstep : (poolSystem cfg U clients).Step s s') :
    Threaded.Move (PoolRule cfg U) s s' := by
  obtain ⟨t, c, h⟩ := hstep
  obtain ⟨shared', threads'⟩ := s'
  obtain ⟨before, after, rest, hstack, hrule, hthreads⟩ := step_rule h
  rw [show threads' = Function.update s.threads t (after ++ rest) from hthreads]
  exact .mk t hstack hrule

end CppUtils
