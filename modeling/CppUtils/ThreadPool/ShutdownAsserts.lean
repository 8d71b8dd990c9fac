import CppUtils.ThreadPool.IdleWait

/-!
# The assertions of the shutdown

`finishAllThreads` asserts that no worker is idle after the join, and that nothing is queued after the
drain. `abandonAllThreads` detaches the workers and lets them go on, so that a later drain may find one
of them between its `try_pop` and its decrement of `queuedCount`.
-/

namespace CppUtils

open Threaded

variable {clients workers : ℕ} {U : UserCode} {Code : Type} {cfg : PoolConfig}

/-! ### Shutting down while nothing is submitted -/

def Frame.isShutdown : Frame workers Code → Bool
  | .finishAllThreads _ _ => true
  | .abandonAllThreads _ => true
  | _ => false

def Frame.isSubmission : Frame workers Code → Bool
  | .enqueue _ => true
  | .retire _ _ => true
  | _ => false

/-- The owner has made its first call of `finishAllThreads` or of `abandonAllThreads`. -/
def PoolSystem.ShutdownBegun (s : PoolSystem cfg U clients) : Prop :=
  s.shared.pool.terminate = true ∨ ∃ t, ∃ f ∈ s.threads t, f.isShutdown = true

/-- From then on no `enqueue` and no `retire` runs. -/
def PoolSystem.QuietShutdown (s : PoolSystem cfg U clients) : Prop :=
  s.ShutdownBegun → ∀ t, ∀ f ∈ s.threads t, f.isSubmission = false

instance (s : PoolSystem cfg U clients) : Decidable s.QuietShutdown :=
  inferInstanceAs (Decidable (_ ∨ _ → _))

/-! ### What a step leaves behind -/

section Moves

variable {t : ThreadId cfg.maxNumThreads clients} {s s' : PoolState cfg.maxNumThreads clients Code}
  {after : List (Frame cfg.maxNumThreads Code)} {i index : Fin cfg.maxNumThreads}

def EmptyStays (s s' : PoolState workers clients Code) : Prop :=
  ∀ i, (s.queues i).items = [] → (s'.queues i).items = []

theorem emptyStays_of_eq (h : s'.queues = s.queues) : EmptyStays s s' := by
  intro i hi
  rw [h, hi]

theorem emptyStays_tryPop {item : TaggedTask Code} (h : s.tryPop index = some (item, s')) :
    EmptyStays s s' := by
  obtain ⟨lane, hlane, rfl⟩ := PoolState.tryPop_eq_some h
  intro i hi
  have hne : i ≠ index := by
    rintro rfl
    rw [hi] at hlane
    cases hlane
  rw [PoolState.setLane_queues, Function.update_of_ne hne]
  exact hi

theorem emptyStays_completeTaggedTask {tagState : Option ℕ}
    (h : s.completeTaggedTask tagState = some s') : EmptyStays s s' := by
  obtain ⟨tagNodes, waiters, rfl⟩ := PoolState.completeTaggedTask_setTags h
  exact emptyStays_of_eq rfl

theorem RunWorkerMove.emptyStays {own : Fin cfg.maxNumThreads} {pc : RunWorkerPc Code}
    (hmove : RunWorkerMove cfg t s own pc s' after) : EmptyStays s s' := by
  cases hmove with
  | tryGetTask hget =>
    cases hget with
    | popOwn hpop | steal _ hpop => exact emptyStays_tryPop hpop
    | _ => exact emptyStays_of_eq rfl
  | complete hcomplete => exact emptyStays_completeTaggedTask hcomplete
  | _ => exact emptyStays_of_eq rfl

theorem FinishMove.emptyStays {completePendingTasks : Bool} {pc : FinishPc cfg.maxNumThreads Code}
    (hmove : FinishMove cfg s completePendingTasks pc s' after) : EmptyStays s s' := by
  cases hmove with
  | pop _ hpop =>
    intro i hi
    exact emptyStays_tryPop hpop i hi
  | complete hcomplete => exact emptyStays_completeTaggedTask hcomplete
  | _ => exact emptyStays_of_eq rfl

theorem AbandonMove.emptyStays {pc : AbandonPc Code} (hmove : AbandonMove cfg s pc s' after) :
    EmptyStays s s' := by
  cases hmove with
  | pop _ hpop =>
    intro i hi
    exact emptyStays_tryPop hpop i hi
  | complete hcomplete => exact emptyStays_completeTaggedTask hcomplete
  | _ => exact emptyStays_of_eq rfl

end Moves

section FrameMoves

variable {t : ThreadId cfg.maxNumThreads clients} {s s' : Shared cfg.maxNumThreads clients U.Code}
  {f : Frame cfg.maxNumThreads U.Code} {after : List (Frame cfg.maxNumThreads U.Code)}

theorem FrameMove.emptyStays (hmove : FrameMove cfg U t s f s' after) (hf : f.isSubmission = false) :
    EmptyStays s.pool s'.pool := by
  cases hmove with
  | runWorker hmove => exact hmove.emptyStays
  | enqueue hmove => cases hf
  | retire hmove => cases hf
  | finishAllThreads hmove => exact hmove.emptyStays
  | abandonAllThreads hmove => exact hmove.emptyStays
  | parallelFor hmove => cases hmove <;> exact emptyStays_of_eq rfl
  | parallelForAsync hmove => cases hmove <;> exact emptyStays_of_eq rfl
  | drainIndices hmove => cases hmove <;> exact emptyStays_of_eq rfl
  | _ => exact emptyStays_of_eq rfl

/-- A call of `finishAllThreads` is at its start, or where a move of its own has brought it. -/
theorem FrameMove.finish_cases (hmove : FrameMove cfg U t s f s' after) {completePendingTasks : Bool}
    {pc : FinishPc cfg.maxNumThreads U.Code} (hmem : .finishAllThreads completePendingTasks pc ∈ after) :
    pc = .setTerminate ∨ ∃ completePendingTasks' pc' pool, f = .finishAllThreads completePendingTasks' pc' ∧
      FinishMove cfg s.pool completePendingTasks' pc' pool after ∧ s' = s.setPool pool := by
  cases hmove with
  | @body code i hallowed =>
    left
    cases hnext : U.next code i with
    | call request resume =>
      rw [hnext] at hmem
      cases request <;> simp_all [UserStep.frames, UserCall.frame]
    | ret | throw =>
      rw [hnext] at hmem
      simp [UserStep.frames] at hmem
  | resume => simp at hmem
  | runWorker hmove =>
    cases hmove with
    | @begin item => cases hitem : item.task <;> simp [hitem, Closure.frame] at hmem
    | _ => simp at hmem
  | enqueue hmove => cases hmove <;> simp at hmem
  | retire hmove =>
    cases hmove with
    | subtractOutstanding _ hwait | wait _ hwait => cases hwait <;> simp at hmem
    | _ => simp at hmem
  | finishAllThreads hmove => exact .inr ⟨_, _, _, rfl, hmove, rfl⟩
  | abandonAllThreads hmove => cases hmove <;> simp at hmem
  | parallelFor hmove => cases hmove <;> simp at hmem
  | parallelForAsync hmove => cases hmove <;> simp at hmem
  | drainIndices hmove => cases hmove <;> simp at hmem

/-- The handles of the workers are only ever dropped all at once. -/
theorem FrameMove.workerThreads (hmove : FrameMove cfg U t s f s' after) :
    s'.pool.workerThreads = s.pool.workerThreads ∨ s'.pool.workerThreads = [] ∧
      (f = .abandonAllThreads .detach ∨
        ∃ completePendingTasks, f = .finishAllThreads completePendingTasks (.join [])) := by
  cases hmove with
  | runWorker hmove =>
    cases hmove with
    | tryGetTask hget =>
      cases hget with
      | popOwn hpop | steal _ hpop => exact .inl (PoolState.sameControl_tryPop hpop).workerThreads
      | _ => exact .inl rfl
    | complete hcomplete => exact .inl (PoolState.sameControl_completeTaggedTask hcomplete).workerThreads
    | _ => exact .inl rfl
  | enqueue hmove => exact .inl hmove.sameControl.workerThreads
  | retire hmove => exact .inl hmove.sameControl.workerThreads
  | finishAllThreads hmove =>
    cases hmove with
    | joinedAll => exact .inr ⟨rfl, .inr ⟨_, rfl⟩⟩
    | pop _ hpop => exact .inl (PoolState.sameControl_tryPop hpop).workerThreads
    | complete hcomplete => exact .inl (PoolState.sameControl_completeTaggedTask hcomplete).workerThreads
    | _ => exact .inl rfl
  | abandonAllThreads hmove =>
    cases hmove with
    | detach => exact .inr ⟨rfl, .inl rfl⟩
    | pop _ hpop => exact .inl (PoolState.sameControl_tryPop hpop).workerThreads
    | complete hcomplete => exact .inl (PoolState.sameControl_completeTaggedTask hcomplete).workerThreads
    | _ => exact .inl rfl
  | parallelFor hmove => cases hmove <;> exact .inl rfl
  | parallelForAsync hmove => cases hmove <;> exact .inl rfl
  | drainIndices hmove => cases hmove <;> exact .inl rfl
  | _ => exact .inl rfl

theorem FrameMove.exited_subset (hmove : FrameMove cfg U t s f s' after) :
    s.pool.exited ⊆ s'.pool.exited := by
  obtain ⟨hsame, _⟩ | ⟨own, _, _, hinsert⟩ := hmove.exited
  · rw [hsame]
  · rw [hinsert]
    exact Finset.subset_insert own _

end FrameMoves

/-! ### What `finishAllThreads` has seen -/

/-- The workers that it has joined have exited; the lanes that a pass found empty, with none before it
drained, are empty. -/
def FinishPc.HasSeen (s : PoolState workers clients Code) : FinishPc workers Code → Prop
  | .join rest => ∀ w, w ∉ rest → w ∈ s.exited
  | .assertIdle => ∀ w, w ∈ s.exited
  | .drain false i _ => ∀ j : Fin workers, j.val < i → (s.queues j).items = []
  | .assertQueued _ => ∀ j, (s.queues j).items = []
  | _ => True

def Frame.HasSeen (s : PoolState workers clients Code) : Frame workers Code → Prop
  | .finishAllThreads _ pc => pc.HasSeen s
  | _ => True

theorem FinishPc.HasSeen.mono {s s' : PoolState workers clients Code} {pc : FinishPc workers Code}
    (h : pc.HasSeen s) (hexited : s.exited ⊆ s'.exited) (hempty : EmptyStays s s') : pc.HasSeen s' := by
  cases pc with
  | join rest => exact fun w hw => hexited (h w hw)
  | assertIdle => exact fun w => hexited (h w)
  | drain drainedAny i item =>
    cases drainedAny with
    | true => trivial
    | false => exact fun j hj => hempty j (h j hj)
  | assertQueued item => exact fun j => hempty j (h j)
  | _ => trivial

theorem hasSeen_afterJoin (s : PoolState workers clients Code) (completePendingTasks : Bool) :
    ∀ g ∈ afterJoin workers Code completePendingTasks, g.HasSeen s := by
  cases completePendingTasks with
  | true =>
    intro g hg
    rw [List.mem_singleton.mp hg]
    exact fun j hj => absurd hj (Nat.not_lt_zero _)
  | false =>
    intro g hg
    cases hg

theorem FinishMove.hasSeen {s s' : PoolState cfg.maxNumThreads clients Code} {completePendingTasks : Bool}
    {pc : FinishPc cfg.maxNumThreads Code} {after : List (Frame cfg.maxNumThreads Code)}
    (hmove : FinishMove cfg s completePendingTasks pc s' after) (hpc : pc.HasSeen s)
    (hworkers : s.workerThreads = [] ∨ s.workerThreads = List.finRange cfg.maxNumThreads) :
    ∀ g ∈ after, g.HasSeen s' := by
  have hclosure : ∀ task : Closure Code, (task.frame : Frame cfg.maxNumThreads Code).HasSeen s' := by
    intro task
    cases task <;> trivial
  cases hmove with
  | notifyAllJoined => exact hasSeen_afterJoin _ completePendingTasks
  | notifyAll hne =>
    intro g hg
    rw [List.mem_singleton.mp hg]
    intro w hw
    rw [hworkers.resolve_left hne] at hw
    exact absurd (List.mem_finRange w) hw
  | joinedAll =>
    intro g hg
    rw [List.mem_singleton.mp hg]
    exact fun w => hpc w List.not_mem_nil
  | @join worker rest hexited =>
    intro g hg
    rw [List.mem_singleton.mp hg]
    intro w hw
    by_cases heq : w = worker
    · rw [heq]
      exact hexited
    · exact hpc w fun hmem => (List.mem_cons.mp hmem).elim heq hw
  | assertIdle => exact hasSeen_afterJoin _ completePendingTasks
  | @laneEmpty drainedAny i item h hpop =>
    intro g hg
    rw [List.mem_singleton.mp hg]
    cases drainedAny with
    | true => trivial
    | false =>
      intro j hj
      obtain hlt | heq := Nat.lt_succ_iff_lt_or_eq.mp hj
      · exact hpc j hlt
      · obtain rfl : j = ⟨i, h⟩ := Fin.ext heq
        exact PoolState.tryPop_eq_none.mp hpop
  | nextPass =>
    intro g hg
    rw [List.mem_singleton.mp hg]
    exact fun j hj => absurd hj (Nat.not_lt_zero _)
  | @drained drainedAny i item h hany =>
    intro g hg
    rw [List.mem_singleton.mp hg]
    obtain rfl : drainedAny = false := Bool.eq_false_iff.mpr hany
    exact fun j => hpc j (j.isLt.trans_le (Nat.not_lt.mp h))
  | begin =>
    intro g hg
    obtain rfl | hg := List.mem_cons.mp hg
    · exact hclosure _
    · rw [List.mem_singleton.mp hg]
      trivial
  | assertQueued =>
    intro g hg
    cases hg
  | _ =>
    intro g hg
    rw [List.mem_singleton.mp hg]
    trivial

theorem FrameMove.hasSeen {t : ThreadId cfg.maxNumThreads clients}
    {s s' : Shared cfg.maxNumThreads clients U.Code} {f : Frame cfg.maxNumThreads U.Code}
    {after : List (Frame cfg.maxNumThreads U.Code)} (hmove : FrameMove cfg U t s f s' after)
    (hf : f.HasSeen s.pool)
    (hworkers : s.pool.workerThreads = [] ∨ s.pool.workerThreads = List.finRange cfg.maxNumThreads) :
    ∀ g ∈ after, g.HasSeen s'.pool := by
  intro g hg
  cases g with
  | finishAllThreads completePendingTasks pc =>
    obtain rfl | ⟨_, _, _, rfl, hfinish, rfl⟩ := hmove.finish_cases hg
    · trivial
    · exact hfinish.hasSeen hf hworkers _ hg
  | _ => trivial

namespace PoolSystem

variable {s s' : PoolSystem cfg U clients}

theorem workerThreads_cases (hreach : (poolSystem cfg U clients).Reachable s) :
    s.shared.pool.workerThreads = [] ∨
      s.shared.pool.workerThreads = List.finRange cfg.maxNumThreads := by
  refine TransitionSystem.Reachable.invariant (fun s : PoolSystem cfg U clients =>
    s.shared.pool.workerThreads = [] ∨
      s.shared.pool.workerThreads = List.finRange cfg.maxNumThreads) ?_ (fun s s' _ hI hstep => ?_) hreach
  · rintro s ⟨main, rfl⟩
    exact .inr rfl
  · cases step_move hstep with
    | mk t hstack hrule =>
      cases hrule with
      | unwind => exact hI
      | frame hmove =>
        obtain hsame | ⟨hnil, _⟩ := hmove.workerThreads
        · rw [hsame]
          exact hI
        · exact .inl hnil

theorem emptyStays_step (hstep : (poolSystem cfg U clients).Step s s')
    (hquiet : ∀ t, ∀ f ∈ s.threads t, f.isSubmission = false) :
    EmptyStays s.shared.pool s'.shared.pool := by
  cases step_move hstep with
  | mk t hstack hrule =>
    cases hrule with
    | frame hmove => exact hmove.emptyStays (hquiet t _ (hstack ▸ List.mem_cons_self))
    | unwind => exact emptyStays_of_eq rfl

theorem exited_subset_step (hstep : (poolSystem cfg U clients).Step s s') :
    s.shared.pool.exited ⊆ s'.shared.pool.exited := by
  cases step_move hstep with
  | mk t hstack hrule =>
    cases hrule with
    | frame hmove => exact hmove.exited_subset
    | unwind => exact Finset.Subset.refl _

theorem hasSeen (hreach : (poolSystem cfg U clients).ReachableUnder QuietShutdown s) :
    ∀ t, ∀ f ∈ s.threads t, f.HasSeen s.shared.pool := by
  refine TransitionSystem.ReachableUnder.invariant
    (fun s : PoolSystem cfg U clients => ∀ t, ∀ f ∈ s.threads t, f.HasSeen s.shared.pool)
    ?_ (fun s s' hr hI hstep _ => ?_) hreach
  · rintro s ⟨main, rfl⟩ _ t f hf
    cases t <;> (rw [List.mem_singleton.mp hf]; trivial)
  · refine (step_move hstep).forall_frames (P := fun shared _ f => f.HasSeen shared.pool)
      (fun t before after hrule hmem hbefore => ?_) (fun t f hf hseen => ?_) hI
    · generalize s'.shared = shared' at hrule
      cases hrule with
      | frame hmove =>
        exact hmove.hasSeen (hbefore _ (List.mem_singleton_self _)) (workerThreads_cases hr.reachable)
      | @unwind _ _ f after hunwind =>
        unfold unwind at hunwind
        split at hunwind <;> cases hunwind <;> simp [Frame.HasSeen, FinishPc.HasSeen]
    · cases f with
      | finishAllThreads completePendingTasks pc =>
        have hquiet := hr.keeps (.inr ⟨t, _, hf, rfl⟩)
        exact FinishPc.HasSeen.mono hseen (exited_subset_step hstep) (emptyStays_step hstep hquiet)
      | _ => trivial

theorem idleCount_eq_zero (hreach : (poolSystem cfg U clients).Reachable s)
    (hexited : ∀ w, w ∈ s.shared.pool.exited) : s.shared.pool.idleCount = 0 := by
  rw [idleCount_eq hreach]
  refine congrArg Nat.cast (weight_eq_zero.mpr fun t f hf => ?_)
  cases f with
  | runWorker own pc =>
    have ht := not_worker_of_ne hreach hf
    obtain ⟨_, hnil⟩ | ⟨hstays, _⟩ := workerStack hreach t own ht
    · rw [hnil] at hf
      cases hf
    · exact absurd (hexited own) hstays
  | _ => rfl

/-- A worker stands between its `try_pop` and the decrement of `queuedCount`. -/
def WorkerHasPopped (s : PoolSystem cfg U clients) : Prop :=
  ∃ own item, .runWorker own (.tryGetTask (.popped item)) ∈ s.threads (.worker own)

/-- What the counter holds beyond the lanes is then owed by the workers that have popped. -/
theorem count_owed_eq_zero_iff (hreach : (poolSystem cfg U clients).Reachable s)
    (hquiet : ∀ t, ∀ f ∈ s.threads t, f.isSubmission = false) {completePendingTasks : Bool}
    {item : Option (TaggedTask U.Code × Fate)} {rest : List (Frame cfg.maxNumThreads U.Code)}
    (hstack : s.threads .owner = .finishAllThreads completePendingTasks (.assertQueued item) :: rest) :
    s.count (owed _ _) = 0 ↔ ¬ s.WorkerHasPopped := by
  rw [weight_eq_zero]
  constructor
  · rintro hzero ⟨own, item, hmem⟩
    cases hzero _ _ hmem
  · intro hpopped t f hf
    -- below the assertion the owner only waits
    have howner : t = .owner → f ≠ .finishAllThreads completePendingTasks (.assertQueued item) →
        ∃ k, f.awaits k := by
      rintro rfl hne
      rw [hstack] at hf
      exact awaits_of_mem_tail hreach hstack ((List.mem_cons.mp hf).resolve_left hne)
    cases f with
    | runWorker own pc =>
      obtain rfl := not_worker_of_ne hreach hf
      cases pc with
      | tryGetTask pc =>
        cases pc with
        | popped item' => exact absurd ⟨own, item', hf⟩ hpopped
        | _ => rfl
      | _ => rfl
    | enqueue pc => cases hquiet t _ hf
    | retire tag pc => cases hquiet t _ hf
    | finishAllThreads c pc =>
      cases pc with
      | decrement i item' =>
        obtain ⟨k, hk⟩ := howner (belongsTo hreach t _ hf) (by simp)
        cases hk
      | _ => rfl
    | abandonAllThreads pc =>
      cases pc with
      | decrement i item' =>
        obtain ⟨k, hk⟩ := howner (belongsTo hreach t _ hf) (by simp)
        cases hk
      | _ => rfl
    | _ => rfl

end PoolSystem

/-- In every run in which nothing is submitted once the shutdown has begun, no worker is idle when
`finishAllThreads` asserts it, and the queues are counted empty when it asserts that, exactly if no
worker has popped a task that it has not yet counted. -/
theorem shutdown_asserts_iff {s : PoolSystem cfg U clients}
    (hreach : (poolSystem cfg U clients).ReachableUnder PoolSystem.QuietShutdown s)
    {completePendingTasks : Bool} {rest : List (Frame cfg.maxNumThreads U.Code)} :
    (s.threads .owner = .finishAllThreads completePendingTasks .assertIdle :: rest →
        s.shared.pool.idleCount = 0) ∧
      ∀ item, s.threads .owner = .finishAllThreads completePendingTasks (.assertQueued item) :: rest →
        (s.shared.pool.queuedCount = 0 ↔ ¬ s.WorkerHasPopped) := by
  have hseen := PoolSystem.hasSeen hreach
  constructor
  · intro hstack
    have hmem : .finishAllThreads completePendingTasks .assertIdle ∈ s.threads .owner :=
      hstack ▸ List.mem_cons_self
    exact PoolSystem.idleCount_eq_zero hreach.reachable (hseen .owner _ hmem)
  · intro item hstack
    have hmem : .finishAllThreads completePendingTasks (.assertQueued item) ∈ s.threads .owner :=
      hstack ▸ List.mem_cons_self
    have hlanes : s.shared.pool.laneTotal = 0 := (PoolState.laneTotal_eq_zero _).mpr (hseen .owner _ hmem)
    rw [PoolSystem.queuedCount_eq hreach.reachable, hlanes,
      ← PoolSystem.count_owed_eq_zero_iff hreach.reachable (hreach.keeps (.inr ⟨_, _, hmem, rfl⟩)) hstack]
    omega

/-- The worker takes the only task before the owner abandons the pool; then the owner drains it. -/
def abandonThenFinish (moves : List (ThreadId 1 0 × Choice 1 0 Unit)) :
    Option (PoolSystem oneWorker scriptCode 0) :=
  scriptRunUnder oneWorker 0 (fun s => decide s.QuietShutdown)
    (fun _ => .call (.enqueue .ret 0) (.call .abandonAllThreads (.call (.finishAllThreads true) .ret)))
    ([(.owner, .input ()), (.owner, .go), (.owner, .go), (.owner, .go), (.owner, .go), (.owner, .go),
      (soleWorker, .go), (soleWorker, .go), (soleWorker, .go),
      (.owner, .input ()), (.owner, .go), (.owner, .go), (.owner, .go), (.owner, .go), (.owner, .go),
      (.owner, .go), (.owner, .input ())] ++ moves)

theorem abandonThenFinish_reachable {moves : List (ThreadId 1 0 × Choice 1 0 Unit)}
    {s : PoolSystem oneWorker scriptCode 0} (h : abandonThenFinish moves = some s) :
    (poolSystem oneWorker scriptCode 0).ReachableUnder PoolSystem.QuietShutdown s :=
  scriptRunUnder_reachable (fun _ => of_decide_eq_true) h

/-- The steps of the owner from its call of `finishAllThreads(true)` to the last assertion. -/
def drainSteps : List (ThreadId 1 0 × Choice 1 0 Unit) := List.replicate 4 (.owner, .go)

/-- The worker counts its task before the owner asserts. -/
theorem shutdown_asserts_iff_workerCounted : ∃ s, abandonThenFinish ((soleWorker, .go) :: drainSteps) = some s ∧
    s.threads .owner = [.finishAllThreads true (.assertQueued none), .calling fun _ => .ret] ∧
    s.shared.pool.queuedCount = 0 ∧ ¬ s.WorkerHasPopped := by
  have hcount : (abandonThenFinish ((soleWorker, .go) :: drainSteps)).map
      (fun s => s.shared.pool.queuedCount) = some 0 := by decide
  have hstack : (abandonThenFinish ((soleWorker, .go) :: drainSteps)).map (fun s => s.threads .owner) =
      some [.finishAllThreads true (.assertQueued none), .calling fun _ => .ret] := rfl
  obtain ⟨s, hs, hzero⟩ := Option.map_eq_some_iff.mp hcount
  rw [hs, Option.map_some, Option.some.injEq] at hstack
  exact ⟨s, hs, hstack, hzero,
    ((shutdown_asserts_iff (abandonThenFinish_reachable hs)).2 none hstack).mp hzero⟩

/-- Without that step the owner finds the popped task still counted. -/
theorem shutdown_assert_fails : ∃ s,
    (poolSystem oneWorker scriptCode 0).ReachableUnder PoolSystem.QuietShutdown s ∧
      s.threads .owner = [.finishAllThreads true (.assertQueued none), .calling fun _ => .ret] ∧
      s.shared.pool.queuedCount ≠ 0 := by
  have hcount : (abandonThenFinish drainSteps).map (fun s => s.shared.pool.queuedCount) = some 1 := by
    decide
  have hstack : (abandonThenFinish drainSteps).map (fun s => s.threads .owner) =
      some [.finishAllThreads true (.assertQueued none), .calling fun _ => .ret] := rfl
  obtain ⟨s, hs, hone⟩ := Option.map_eq_some_iff.mp hcount
  rw [hs, Option.map_some, Option.some.injEq] at hstack
  refine ⟨s, abandonThenFinish_reachable hs, hstack, ?_⟩
  rw [hone]
  exact one_ne_zero

end CppUtils
