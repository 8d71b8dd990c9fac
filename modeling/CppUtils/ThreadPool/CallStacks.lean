import CppUtils.ThreadPool.System

/-!
# The shape of the call stacks

Which call may be made by which. A frame below the innermost one waits for a frame of a certain
kind, and a step keeps the kind of the innermost frame, returns from it, or turns it into an
exception. So every stack is a chain of calls, a `runWorker` frame is the lowest frame of its own
worker's stack, and a worker has such a frame until it has exited.
-/

namespace CppUtils

open Threaded

variable {clients workers : ℕ} {U : UserCode} {Code : Type} {cfg : PoolConfig}

/-- The function a frame belongs to, as the frame below sees it. -/
inductive FrameKind (workers : ℕ)
  | code
  | exception
  | worker (own : Fin workers)
  | enqueue
  | retire
  | finishAllThreads
  | abandonAllThreads
  | parallelFor
  | parallelForAsync
  | drainIndices (batch : ℕ)
  deriving DecidableEq

def Frame.kind : Frame workers Code → FrameKind workers
  | .body _ => .code
  | .calling _ => .code
  | .unwinding => .exception
  | .runWorker own _ => .worker own
  | .enqueue _ => .enqueue
  | .retire _ _ => .retire
  | .finishAllThreads _ _ => .finishAllThreads
  | .abandonAllThreads _ => .abandonAllThreads
  | .parallelFor _ => .parallelFor
  | .parallelForAsync _ => .parallelForAsync
  | .drainIndices batch _ => .drainIndices batch

def Closure.kind (workers : ℕ) : Closure Code → FrameKind workers
  | .user _ => .code
  | .drainIndices batch => .drainIndices batch

def FrameKind.isCall : FrameKind workers → Bool
  | .enqueue => true
  | .retire => true
  | .finishAllThreads => true
  | .abandonAllThreads => true
  | .parallelFor => true
  | .parallelForAsync => true
  | _ => false

/-- A frame waits for a frame of this kind to return. -/
def Frame.awaits : Frame workers Code → FrameKind workers → Prop
  | .calling _, k => k.isCall = true
  | .runWorker _ (.running item), k => k = item.task.kind workers
  | .finishAllThreads _ (.running _ item), k => k = item.task.kind workers
  | .parallelFor .single, k => k = .code
  | .parallelFor (.helpers _ _ _), k => k = .enqueue
  | .parallelFor (.lock batch), k => k = .drainIndices batch
  | .parallelForAsync .empty, k => k = .enqueue
  | .parallelForAsync (.helpers _ _ _), k => k = .enqueue
  | .drainIndices _ (.inFn _), k => k = .code
  | .drainIndices _ .inCompletion, k => k = .code
  | _, _ => False

/-- One frame may stand directly on another: it is what that one waits for, or an exception. -/
def Frame.standsOn (f g : Frame workers Code) : Prop :=
  g.awaits f.kind ∨ f.kind = .exception ∧ ∃ k, g.awaits k

@[simp] theorem Closure.kind_frame (task : Closure Code) :
    (task.frame : Frame workers Code).kind = task.kind workers := by
  cases task <;> rfl

theorem Frame.not_awaits_worker (g : Frame workers Code) (own : Fin workers) :
    ¬ g.awaits (.worker own) := by
  intro h
  unfold awaits at h
  split at h <;> try cases h
  all_goals
    rename_i item
    cases htask : item.task <;> simp [htask, Closure.kind] at h

theorem Frame.not_standsOn_of_worker {f g : Frame workers Code} {own : Fin workers}
    (hkind : f.kind = .worker own) : ¬ f.standsOn g := by
  rintro (h | ⟨h, -⟩)
  · exact g.not_awaits_worker own (hkind ▸ h)
  · rw [hkind] at h
    cases h

theorem UserCall.isCall_frame (request : UserCall Code) :
    (request.frame : Frame workers Code).kind.isCall = true := by
  cases request <;> rfl

/-! ### One step -/

/-- What the frames put in the place of a frame look like: a chain, whose lowest frame is of the
same kind as the old one or an exception. -/
structure Frame.ReplacedBy (f : Frame workers Code) (after : List (Frame workers Code)) : Prop where
  chain : after.IsChain Frame.standsOn
  last : ∀ l ∈ after.getLast?, l.kind = f.kind ∨ l.kind = .exception ∧ ∀ own, f.kind ≠ .worker own

theorem Frame.ReplacedBy.nil (f : Frame workers Code) : f.ReplacedBy [] :=
  ⟨.nil, by simp⟩

theorem Frame.ReplacedBy.same {f f' : Frame workers Code} (hkind : f'.kind = f.kind) :
    f.ReplacedBy [f'] :=
  ⟨.singleton _, by simp [hkind]⟩

theorem Frame.ReplacedBy.exception {f : Frame workers Code} (hkind : ∀ own, f.kind ≠ .worker own) :
    f.ReplacedBy [.unwinding] :=
  ⟨.singleton _, by simpa [Frame.kind] using .inr hkind⟩

theorem Frame.ReplacedBy.call {f g f' : Frame workers Code} (hkind : f'.kind = f.kind)
    (hawaits : f'.awaits g.kind) : f.ReplacedBy [g, f'] :=
  ⟨List.isChain_pair.mpr (.inl hawaits), by simp [hkind]⟩

section Moves

variable {t : ThreadId cfg.maxNumThreads clients} {after : List (Frame cfg.maxNumThreads Code)}
  {s s' : PoolState cfg.maxNumThreads clients Code}

theorem EnqueueMove.replacedBy {pc : EnqueuePc cfg.maxNumThreads Code}
    (hmove : EnqueueMove cfg s pc s' after) : (Frame.enqueue pc).ReplacedBy after := by
  cases hmove with
  | drop | skipGate | notify => exact .nil _
  | rethrow => exact .exception fun _ => by simp [Frame.kind]
  | _ => exact .same rfl

theorem RunWorkerMove.replacedBy {own : Fin cfg.maxNumThreads} {pc : RunWorkerPc Code}
    (hmove : RunWorkerMove cfg t s own pc s' after) : (Frame.runWorker own pc).ReplacedBy after := by
  cases hmove with
  | exit => exact .nil _
  | begin => exact .call rfl (Closure.kind_frame _)
  | _ => exact .same rfl

theorem RetireMove.replacedBy {tag : ℕ} {pc : RetirePc} (hmove : RetireMove cfg t s tag pc s' after) :
    (Frame.retire tag pc : Frame cfg.maxNumThreads Code).ReplacedBy after := by
  cases hmove with
  | noEntry => exact .nil _
  | subtractOutstanding _ hwait | wait _ hwait =>
    cases hwait with
    | finish => exact .nil _
    | block => exact .same rfl
  | _ => exact .same rfl

theorem FinishMove.replacedBy {completePendingTasks : Bool} {pc : FinishPc cfg.maxNumThreads Code}
    (hmove : FinishMove cfg s completePendingTasks pc s' after) :
    (Frame.finishAllThreads completePendingTasks pc).ReplacedBy after := by
  have hjoin : (Frame.finishAllThreads completePendingTasks pc).ReplacedBy
      (afterJoin cfg.maxNumThreads Code completePendingTasks) := by
    unfold afterJoin
    split
    · exact .same rfl
    · exact .nil _
  cases hmove with
  | notifyAllJoined | assertIdle => exact hjoin
  | assertQueued => exact .nil _
  | begin => exact .call rfl (Closure.kind_frame _)
  | _ => exact .same rfl

theorem AbandonMove.replacedBy {pc : AbandonPc Code} (hmove : AbandonMove cfg s pc s' after) :
    (Frame.abandonAllThreads pc).ReplacedBy after := by
  cases hmove with
  | detach => exact .nil _
  | _ => exact .same rfl

variable {s s' : Shared cfg.maxNumThreads clients Code}

theorem ParallelForMove.replacedBy {pc : ParallelForPc Code}
    (hmove : ParallelForMove cfg t s pc s' after) : (Frame.parallelFor pc).ReplacedBy after := by
  cases hmove with
  | empty | singleDone | done => exact .nil _
  | single | helper | drain => exact .call rfl rfl
  | _ => exact .same rfl

theorem ParallelForAsyncMove.replacedBy {pc : ParallelForAsyncPc Code}
    (hmove : ParallelForAsyncMove cfg s pc s' after) :
    (Frame.parallelForAsync pc).ReplacedBy after := by
  cases hmove with
  | emptyDone | done => exact .nil _
  | empty | helper => exact .call rfl rfl
  | make => exact .same rfl

theorem DrainIndicesMove.replacedBy {batch : ℕ} {pc : DrainPc}
    (hmove : DrainIndicesMove s batch pc s' after) :
    (Frame.drainIndices batch pc).ReplacedBy after := by
  cases hmove with
  | exit => exact .nil _
  | callFn | callUser => exact .call rfl rfl
  | _ => exact .same rfl

end Moves

theorem FrameMove.replacedBy {t : ThreadId cfg.maxNumThreads clients}
    {s s' : Shared cfg.maxNumThreads clients U.Code} {f : Frame cfg.maxNumThreads U.Code}
    {after : List (Frame cfg.maxNumThreads U.Code)} (hmove : FrameMove cfg U t s f s' after) :
    f.ReplacedBy after := by
  cases hmove with
  | @body code i =>
    cases U.next code i with
    | call request resume => exact .call rfl (UserCall.isCall_frame request)
    | ret => exact .nil _
    | throw => exact .exception fun _ => by simp [Frame.kind]
  | resume => exact .same rfl
  | runWorker hmove => exact hmove.replacedBy
  | enqueue hmove => exact hmove.replacedBy
  | retire hmove => exact hmove.replacedBy
  | finishAllThreads hmove => exact hmove.replacedBy
  | abandonAllThreads hmove => exact hmove.replacedBy
  | parallelFor hmove => exact hmove.replacedBy
  | parallelForAsync hmove => exact hmove.replacedBy
  | drainIndices hmove => exact hmove.replacedBy

theorem unwind_replacedBy {f : Frame workers Code} {after : List (Frame workers Code)}
    (hunwind : unwind f = some after) : f.ReplacedBy after := by
  unfold unwind at hunwind
  split at hunwind <;> cases hunwind
  all_goals first
    | exact .same rfl
    | exact .exception fun _ => by simp [Frame.kind]

theorem Frame.ReplacedBy.isChain {f : Frame workers Code} {after rest : List (Frame workers Code)}
    (hreplaced : f.ReplacedBy after) (hchain : (f :: rest).IsChain Frame.standsOn) :
    (after ++ rest).IsChain Frame.standsOn := by
  refine isChain_replace hchain hreplaced.chain fun l hl g hstands => ?_
  rcases hreplaced.last l hl with hkind | ⟨hkind, -⟩
  · simpa only [standsOn, hkind] using hstands
  · refine .inr ⟨hkind, ?_⟩
    rcases hstands with h | ⟨-, h⟩
    · exact ⟨_, h⟩
    · exact h

/-- What the lowest frame of a stack may be. -/
def FrameKind.isBottom : FrameKind workers → Bool
  | .code => true
  | .exception => true
  | .worker _ => true
  | _ => false

theorem Frame.ReplacedBy.bottom {f : Frame workers Code} {after rest : List (Frame workers Code)}
    (hreplaced : f.ReplacedBy after)
    (hbottom : ∀ l ∈ (f :: rest).getLast?, l.kind.isBottom = true) :
    ∀ l ∈ (after ++ rest).getLast?, l.kind.isBottom = true := by
  cases rest with
  | nil =>
    intro l hl
    rw [List.append_nil] at hl
    have hf : f.kind.isBottom = true := hbottom f rfl
    rcases hreplaced.last l hl with hkind | ⟨hkind, -⟩
    · rw [hkind]
      exact hf
    · rw [hkind]
      rfl
  | cons g rest =>
    rw [List.getLast?_append_of_ne_nil _ (List.cons_ne_nil g rest)]
    rwa [List.getLast?_cons_cons] at hbottom

/-! ### Every run -/

namespace PoolSystem

variable {s : PoolSystem cfg U clients}

theorem isChain (hreach : (poolSystem cfg U clients).Reachable s)
    (t : ThreadId cfg.maxNumThreads clients) : (s.threads t).IsChain Frame.standsOn := by
  refine TransitionSystem.Reachable.invariant
    (fun s : PoolSystem cfg U clients => ∀ t, (s.threads t).IsChain Frame.standsOn)
    ?_ (fun s s' _ hI hstep => ?_) hreach t
  · rintro s ⟨main, rfl⟩ t
    cases t <;> exact .singleton _
  · refine (step_move hstep).forall_threads (P := fun _ _ frames => frames.IsChain Frame.standsOn)
      (fun t before after rest hstack hrule hchain => ?_) (fun _ _ _ _ _ _ t _ h => h) hI
    generalize s'.shared = shared' at hrule
    cases hrule with
    | frame hmove => exact hmove.replacedBy.isChain hchain
    | unwind hunwind =>
      exact (unwind_replacedBy hunwind).isChain (List.isChain_cons.mp hchain).2

theorem isBottom_of_getLast (hreach : (poolSystem cfg U clients).Reachable s)
    (t : ThreadId cfg.maxNumThreads clients) :
    ∀ l ∈ (s.threads t).getLast?, l.kind.isBottom = true := by
  refine TransitionSystem.Reachable.invariant (fun s : PoolSystem cfg U clients =>
    ∀ t, ∀ l ∈ (s.threads t).getLast?, l.kind.isBottom = true) ?_ (fun s s' _ hI hstep => ?_) hreach t
  · rintro s ⟨main, rfl⟩ t l hl
    cases t <;> (cases hl; rfl)
  · refine (step_move hstep).forall_threads
      (P := fun _ _ (frames : List (Frame cfg.maxNumThreads U.Code)) =>
        ∀ l ∈ frames.getLast?, l.kind.isBottom = true)
      (fun t before after rest hstack hrule hbottom => ?_) (fun _ _ _ _ _ _ t _ h => h) hI
    generalize s'.shared = shared' at hrule
    cases hrule with
    | frame hmove => exact hmove.replacedBy.bottom hbottom
    | unwind hunwind =>
      refine (unwind_replacedBy hunwind).bottom ?_
      rwa [List.cons_append, List.cons_append, List.getLast?_cons_cons] at hbottom

/-- Below the innermost frame of a thread every frame waits. -/
theorem awaits_of_mem_rest (hreach : (poolSystem cfg U clients).Reachable s)
    {t : ThreadId cfg.maxNumThreads clients} {above rest : List (Frame cfg.maxNumThreads U.Code)}
    {f g : Frame cfg.maxNumThreads U.Code} (hstack : s.threads t = above ++ f :: g :: rest) :
    ∃ k, g.awaits k := by
  have hchain := isChain hreach t
  rw [hstack] at hchain
  have hstands := List.isChain_cons_cons.mp (List.isChain_append.mp hchain).2.1
  rcases hstands.1 with h | ⟨-, h⟩
  · exact ⟨_, h⟩
  · exact h

theorem awaits_of_above (hreach : (poolSystem cfg U clients).Reachable s)
    {t : ThreadId cfg.maxNumThreads clients} {above rest : List (Frame cfg.maxNumThreads U.Code)}
    {g : Frame cfg.maxNumThreads U.Code} (hstack : s.threads t = above ++ g :: rest) (habove : above ≠ []) :
    ∃ k, g.awaits k := by
  obtain ⟨init, last, rfl⟩ := (List.eq_nil_or_concat' above).resolve_left habove
  rw [List.append_assoc] at hstack
  exact awaits_of_mem_rest hreach hstack

theorem awaits_of_mem_tail (hreach : (poolSystem cfg U clients).Reachable s)
    {t : ThreadId cfg.maxNumThreads clients} {rest : List (Frame cfg.maxNumThreads U.Code)}
    {f g : Frame cfg.maxNumThreads U.Code} (hstack : s.threads t = f :: rest) (hg : g ∈ rest) :
    ∃ k, g.awaits k := by
  obtain ⟨above, below, rfl⟩ := List.append_of_mem hg
  have hbelow : s.threads t = (f :: above) ++ g :: below := hstack
  exact awaits_of_above hreach hbelow (List.cons_ne_nil _ _)

theorem rest_eq_nil_of_worker (hreach : (poolSystem cfg U clients).Reachable s)
    {t : ThreadId cfg.maxNumThreads clients} {above rest : List (Frame cfg.maxNumThreads U.Code)}
    {own : Fin cfg.maxNumThreads} {pc : RunWorkerPc U.Code}
    (hstack : s.threads t = above ++ .runWorker own pc :: rest) : rest = [] := by
  cases rest with
  | nil => rfl
  | cons g rest =>
    have hchain := isChain hreach t
    rw [hstack] at hchain
    have hstands := List.isChain_cons_cons.mp (List.isChain_append.mp hchain).2.1
    exact absurd hstands.1 (Frame.not_standsOn_of_worker rfl)

end PoolSystem

namespace PoolSystem

variable {s s' : PoolSystem cfg U clients} {t : ThreadId cfg.maxNumThreads clients}
  {above rest : List (Frame cfg.maxNumThreads U.Code)} {g : Frame cfg.maxNumThreads U.Code}

/-- What a step of its thread does to a call in progress: a call above it moves, it is the innermost one
and moves, or an exception reaches it. -/
theorem step_above {c : Choice cfg.maxNumThreads clients U.Input} (h : step cfg U t c s = some s')
    (hg : g ≠ .unwinding) (hstack : s.threads t = above ++ g :: rest) :
    (above ≠ [] ∧ ∃ above', s'.threads t = above' ++ g :: rest) ∨
      (above = [] ∧ ∃ after, FrameMove cfg U t s.shared g s'.shared after ∧
        s'.threads t = after ++ rest) ∨
      (above = [.unwinding] ∧ s'.shared = s.shared ∧ ∃ after, unwind g = some after ∧
        s'.threads t = after ++ rest) := by
  obtain ⟨before, after, rest', hstack', hrule, hthreads⟩ := step_rule h
  rw [hthreads, Function.update_self]
  rw [hstack] at hstack'
  generalize s'.shared = shared' at hrule ⊢
  cases hrule with
  | frame hmove =>
    cases above with
    | nil =>
      obtain ⟨rfl, rfl⟩ := List.cons_eq_cons.mp hstack'
      exact .inr (.inl ⟨rfl, after, hmove, rfl⟩)
    | cons f above =>
      obtain ⟨rfl, rfl⟩ := List.cons_eq_cons.mp hstack'
      exact .inl ⟨List.cons_ne_nil _ _, after ++ above, (List.append_assoc _ _ _).symm⟩
  | unwind hunwind =>
    cases above with
    | nil => exact absurd (List.cons_eq_cons.mp hstack').1 hg
    | cons f above =>
      obtain ⟨rfl, htail⟩ := List.cons_eq_cons.mp hstack'
      cases above with
      | nil =>
        obtain ⟨rfl, rfl⟩ := List.cons_eq_cons.mp htail
        exact .inr (.inr ⟨rfl, rfl, after, hunwind, rfl⟩)
      | cons f above =>
        obtain ⟨rfl, rfl⟩ := List.cons_eq_cons.mp htail
        exact .inl ⟨List.cons_ne_nil _ _, after ++ above, (List.append_assoc _ _ _).symm⟩

/-- What any step does to a call in progress. -/
theorem step_call (hstep : (poolSystem cfg U clients).Step s s') (hg : g ≠ .unwinding)
    (hstack : s.threads t = above ++ g :: rest) :
    (∃ above', s'.threads t = above' ++ g :: rest) ∨
      (above = [] ∧ ∃ after, FrameMove cfg U t s.shared g s'.shared after ∧
        s'.threads t = after ++ rest) ∨
      (above = [.unwinding] ∧ s'.shared = s.shared ∧ ∃ after, unwind g = some after ∧
        s'.threads t = after ++ rest) := by
  obtain ⟨u, c, h⟩ := hstep
  by_cases ht : t = u
  · subst ht
    exact (step_above h hg hstack).imp_left And.right
  · obtain ⟨_, _, _, _, _, hthreads⟩ := step_rule h
    refine .inl ⟨above, ?_⟩
    rw [hthreads, Function.update_of_ne ht, hstack]

end PoolSystem

/-- Which thread may have a frame: `runWorker` its own worker, the shutdown functions the owner. -/
def Frame.belongsTo (t : ThreadId workers clients) : Frame workers Code → Prop
  | .runWorker own _ => t = .worker own
  | .finishAllThreads _ _ => t = .owner
  | .abandonAllThreads _ => t = .owner
  | _ => True

theorem FrameMove.belongsTo {t : ThreadId cfg.maxNumThreads clients}
    {s s' : Shared cfg.maxNumThreads clients U.Code} {f : Frame cfg.maxNumThreads U.Code}
    {after : List (Frame cfg.maxNumThreads U.Code)} (hmove : FrameMove cfg U t s f s' after)
    (hf : f.belongsTo t) : ∀ g ∈ after, g.belongsTo t := by
  have hclosure : ∀ task : Closure U.Code,
      (task.frame : Frame cfg.maxNumThreads U.Code).belongsTo t := fun task => by
    cases task <;> trivial
  cases hmove with
  | @body code i hallowed =>
    cases hnext : U.next code i with
    | call request resume =>
      rw [hnext] at hallowed
      cases request <;> simp_all [UserStep.frames, UserCall.frame, Frame.belongsTo,
        UserStep.allowed, UserCall.allowed]
    | ret => simp [UserStep.frames]
    | throw => simp [UserStep.frames, Frame.belongsTo]
  | resume => simp [Frame.belongsTo]
  | runWorker hmove => cases hmove <;> simp_all [Frame.belongsTo]
  | enqueue hmove => cases hmove <;> simp [Frame.belongsTo]
  | retire hmove =>
    cases hmove with
    | subtractOutstanding _ hwait | wait _ hwait => cases hwait <;> simp [Frame.belongsTo]
    | _ => simp [Frame.belongsTo]
  | @finishAllThreads completePendingTasks _ _ _ hmove =>
    have hjoin : ∀ g ∈ afterJoin cfg.maxNumThreads U.Code completePendingTasks, g.belongsTo t := by
      cases completePendingTasks <;> simp_all [afterJoin, Frame.belongsTo]
    cases hmove <;> first | exact hjoin | simp_all [Frame.belongsTo]
  | abandonAllThreads hmove => cases hmove <;> simp_all [Frame.belongsTo]
  | parallelFor hmove => cases hmove <;> simp [Frame.belongsTo]
  | parallelForAsync hmove => cases hmove <;> simp [Frame.belongsTo]
  | drainIndices hmove => cases hmove <;> simp [Frame.belongsTo]

namespace PoolSystem

variable {s : PoolSystem cfg U clients}

theorem belongsTo (hreach : (poolSystem cfg U clients).Reachable s) :
    ∀ t, ∀ f ∈ s.threads t, f.belongsTo t := by
  refine TransitionSystem.Reachable.invariant
    (fun s : PoolSystem cfg U clients => ∀ t, ∀ f ∈ s.threads t, f.belongsTo t)
    ?_ (fun s s' _ hI hstep => ?_) hreach
  · rintro s ⟨main, rfl⟩ t f hf
    cases t <;> simp only [initialSystem, List.mem_singleton] at hf <;> subst hf <;> trivial
  · refine (step_move hstep).forall_frames (P := fun _ t f => f.belongsTo t)
      (fun t before after hrule hmem hbefore => ?_) (fun _ _ _ h => h) hI
    generalize s'.shared = shared' at hrule
    cases hrule with
    | frame hmove => exact hmove.belongsTo (hbefore _ (List.mem_singleton_self _))
    | @unwind _ _ f after hunwind =>
      have hf : f.belongsTo t := hbefore f (by simp)
      unfold unwind at hunwind
      split at hunwind <;> cases hunwind <;> simp_all [Frame.belongsTo]

theorem not_worker_of_ne (hreach : (poolSystem cfg U clients).Reachable s)
    {t : ThreadId cfg.maxNumThreads clients} {own : Fin cfg.maxNumThreads} {pc : RunWorkerPc U.Code}
    (hmem : .runWorker own pc ∈ s.threads t) : t = .worker own :=
  belongsTo hreach t _ hmem

end PoolSystem

/-! ### The control words -/

theorem FrameMove.terminate {t : ThreadId cfg.maxNumThreads clients}
    {s s' : Shared cfg.maxNumThreads clients U.Code} {f : Frame cfg.maxNumThreads U.Code}
    {after : List (Frame cfg.maxNumThreads U.Code)} (hmove : FrameMove cfg U t s f s' after)
    (hterminate : s.pool.terminate = true) : s'.pool.terminate = true := by
  cases hmove with
  | runWorker hmove =>
    cases hmove with
    | tryGetTask hget =>
      cases hget with
      | popOwn hpop | steal _ hpop =>
        exact (PoolState.sameControl_tryPop hpop).terminate.trans hterminate
      | _ => exact hterminate
    | complete hcomplete =>
      exact (PoolState.sameControl_completeTaggedTask hcomplete).terminate.trans hterminate
    | _ => exact hterminate
  | enqueue hmove => exact hmove.sameControl.terminate.trans hterminate
  | retire hmove => exact hmove.sameControl.terminate.trans hterminate
  | finishAllThreads hmove =>
    cases hmove with
    | setTerminate => rfl
    | pop _ hpop => exact (PoolState.sameControl_tryPop hpop).terminate.trans hterminate
    | complete hcomplete =>
      exact (PoolState.sameControl_completeTaggedTask hcomplete).terminate.trans hterminate
    | _ => exact hterminate
  | abandonAllThreads hmove =>
    cases hmove with
    | setTerminate => rfl
    | pop _ hpop => exact (PoolState.sameControl_tryPop hpop).terminate.trans hterminate
    | complete hcomplete =>
      exact (PoolState.sameControl_completeTaggedTask hcomplete).terminate.trans hterminate
    | _ => exact hterminate
  | parallelFor hmove => cases hmove <;> exact hterminate
  | parallelForAsync hmove => cases hmove <;> exact hterminate
  | drainIndices hmove => cases hmove <;> exact hterminate
  | _ => exact hterminate

theorem PoolSystem.terminate_step {s s' : PoolSystem cfg U clients}
    (hstep : (poolSystem cfg U clients).Step s s') (hterminate : s.shared.pool.terminate = true) :
    s'.shared.pool.terminate = true := by
  cases step_move hstep with
  | mk t hstack hrule =>
    cases hrule with
    | frame hmove => exact hmove.terminate hterminate
    | unwind => exact hterminate

/-- Only the return of `runWorker` makes a worker exited. -/
theorem FrameMove.exited {t : ThreadId cfg.maxNumThreads clients}
    {s s' : Shared cfg.maxNumThreads clients U.Code} {f : Frame cfg.maxNumThreads U.Code}
    {after : List (Frame cfg.maxNumThreads U.Code)} (hmove : FrameMove cfg U t s f s' after) :
    s'.pool.exited = s.pool.exited ∧ (∀ own, f.kind = .worker own → after ≠ []) ∨
      ∃ own, f = .runWorker own .loopHead ∧ after = [] ∧
        s'.pool.exited = insert own s.pool.exited := by
  cases hmove with
  | runWorker hmove =>
    cases hmove with
    | exit => exact .inr ⟨_, rfl, rfl, rfl⟩
    | tryGetTask hget =>
      refine .inl ⟨?_, by simp⟩
      cases hget with
      | popOwn hpop | steal _ hpop => exact (PoolState.sameControl_tryPop hpop).exited
      | _ => rfl
    | complete hcomplete =>
      exact .inl ⟨(PoolState.sameControl_completeTaggedTask hcomplete).exited, by simp⟩
    | _ => exact .inl ⟨rfl, by simp⟩
  | enqueue hmove => exact .inl ⟨hmove.sameControl.exited, by simp [Frame.kind]⟩
  | retire hmove => exact .inl ⟨hmove.sameControl.exited, by simp [Frame.kind]⟩
  | finishAllThreads hmove =>
    refine .inl ⟨?_, by simp [Frame.kind]⟩
    cases hmove with
    | pop _ hpop => exact (PoolState.sameControl_tryPop hpop).exited
    | complete hcomplete => exact (PoolState.sameControl_completeTaggedTask hcomplete).exited
    | _ => rfl
  | abandonAllThreads hmove =>
    refine .inl ⟨?_, by simp [Frame.kind]⟩
    cases hmove with
    | pop _ hpop => exact (PoolState.sameControl_tryPop hpop).exited
    | complete hcomplete => exact (PoolState.sameControl_completeTaggedTask hcomplete).exited
    | _ => rfl
  | parallelFor hmove => exact .inl ⟨by cases hmove <;> rfl, by simp [Frame.kind]⟩
  | parallelForAsync hmove => exact .inl ⟨by cases hmove <;> rfl, by simp [Frame.kind]⟩
  | drainIndices hmove => exact .inl ⟨by cases hmove <;> rfl, by simp [Frame.kind]⟩
  | _ => exact .inl ⟨rfl, by simp [Frame.kind]⟩

/-- The stack of a worker: its `runWorker` frame at the bottom, or nothing once it has exited. -/
def WorkerStack (pool : PoolState workers clients Code) (t : ThreadId workers clients)
    (frames : List (Frame workers Code)) : Prop :=
  ∀ own, t = .worker own →
    own ∈ pool.exited ∧ frames = [] ∨
      own ∉ pool.exited ∧ ∃ above pc, frames = above ++ [.runWorker own pc]

namespace PoolSystem

variable {s : PoolSystem cfg U clients}

private theorem workerStack_step {s s' : PoolSystem cfg U clients}
    (hreach : (poolSystem cfg U clients).Reachable s) (hstep : (poolSystem cfg U clients).Step s s')
    (hI : ∀ t, WorkerStack s.shared.pool t (s.threads t)) :
    ∀ t, WorkerStack s'.shared.pool t (s'.threads t) := by
  refine (step_move hstep).forall_threads (P := fun shared t frames => WorkerStack shared.pool t frames)
    ?_ ?_ hI
  · intro t before after rest hstack hrule hP own htown
    generalize s'.shared = shared' at hrule ⊢
    obtain ⟨-, hnil⟩ | ⟨hexited, above, pc, habove⟩ := hP own htown
    · cases hrule <;> cases hnil
    cases hrule with
    | frame hmove =>
      cases above with
      | nil =>
        -- The `runWorker` frame itself moves: it is replaced by one of its kind, or it returns.
        obtain ⟨rfl, rfl⟩ := List.cons_eq_cons.mp habove
        obtain ⟨hsame, hne⟩ | ⟨own', hf, rfl, hinsert⟩ := hmove.exited
        · obtain ⟨init, l, rfl⟩ := (List.eq_nil_or_concat' after).resolve_left (hne own rfl)
          have hl := hmove.replacedBy.last l (by simp)
          rcases hl with hkind | ⟨-, hkind⟩
          · cases l <;> cases hkind
            exact .inr ⟨hsame ▸ hexited, init, _, List.append_nil _⟩
          · exact absurd rfl (hkind own)
        · cases hf
          exact .inl ⟨hinsert ▸ Finset.mem_insert_self _ _, rfl⟩
      | cons f above =>
        obtain ⟨rfl, rfl⟩ := List.cons_eq_cons.mp habove
        obtain ⟨hsame, -⟩ | ⟨own', rfl, -, -⟩ := hmove.exited
        · exact .inr ⟨hsame ▸ hexited, after ++ above, pc, by simp⟩
        · have hstack' : s.threads t = [] ++ .runWorker own' .loopHead ::
              (above ++ [.runWorker own pc]) := hstack
          have hrest := rest_eq_nil_of_worker hreach hstack'
          simp at hrest
    | @unwind _ _ f after hunwind =>
      refine .inr ⟨hexited, ?_⟩
      cases above with
      | nil => cases habove
      | cons g above =>
        have hrest := (List.cons_eq_cons.mp habove).2
        cases above with
        | nil =>
          obtain ⟨rfl, rfl⟩ := List.cons_eq_cons.mp hrest
          unfold unwind at hunwind
          split at hunwind <;> cases hunwind
          all_goals rename_i hf; cases hf
          exact ⟨[], _, rfl⟩
        | cons g above =>
          obtain ⟨rfl, rfl⟩ := List.cons_eq_cons.mp hrest
          exact ⟨after ++ above, pc, by simp⟩
  · intro u before after rest hstack hrule t htu hP own htown
    generalize s'.shared = shared' at hrule ⊢
    cases hrule with
    | frame hmove =>
      obtain ⟨hsame, -⟩ | ⟨own', rfl, -, hinsert⟩ := hmove.exited
      · rw [hsame]
        exact hP own htown
      · -- Another worker exits.
        have hne : own ≠ own' := by
          rintro rfl
          have hmem : .runWorker own .loopHead ∈ s.threads u := hstack ▸ List.mem_cons_self
          exact htu (htown.trans (not_worker_of_ne hreach hmem).symm)
        simpa [hinsert, hne] using hP own htown
    | unwind => exact hP own htown

theorem workerStack (hreach : (poolSystem cfg U clients).Reachable s)
    (t : ThreadId cfg.maxNumThreads clients) : WorkerStack s.shared.pool t (s.threads t) := by
  refine TransitionSystem.Reachable.invariant
    (fun s : PoolSystem cfg U clients => ∀ t, WorkerStack s.shared.pool t (s.threads t))
    ?_ (fun s s' hr hI hstep => workerStack_step hr hstep hI) hreach t
  rintro s ⟨main, rfl⟩ t own rfl
  exact .inr ⟨Finset.notMem_empty _, [], .starting, rfl⟩

end PoolSystem

end CppUtils
