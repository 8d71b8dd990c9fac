import CppUtils.ThreadPool.Script

/-!
# The end of a closure in the drain

`finishAllThreads(true)` keeps one `TaggedTask` over the whole drain. The closure that it ran lives until
a later `try_pop` assigns over it, with the mutex of that lane held, and the last one until the function
returns. The destructor of a closure is user code: what it captured may call `enqueue` on its way out.
The workers are joined and no other thread uses the pool, so there is one thread to follow.
-/

namespace CppUtils.DrainClosures

/-- The calls of `enqueue` that the body of a task makes, and those that its destructor makes, each with
its tag. -/
structure TaskCode where
  Code : Type
  body : Closure Code → List (Closure Code × ℕ)
  destructor : Closure Code → List (Closure Code × ℕ)

/-- Inside `finishAllThreads` after the join. `item` is its local `TaggedTask`; at `popFront` the thread is
inside `try_pop`, behind the assignment to it. -/
inductive DrainPc (workers : ℕ) (Code : Type)
  | drain (drainedAny : Bool) (index : ℕ) (item : Option (TaggedTask Code))
  | popFront (index : Fin workers)
  | decrement (index : Fin workers) (item : TaggedTask Code)
  | taggedTaskCanRun (index : Fin workers) (item : TaggedTask Code)
  | running (index : Fin workers) (item : TaggedTask Code)
  | completeTaggedTask (index : Fin workers) (item : TaggedTask Code)
  | assertQueued (item : Option (TaggedTask Code))
  | returning

/-- A call in progress: user code with the calls of `enqueue` that it has still to make, an `enqueue`
about to push, or the drain. -/
inductive DrainFrame (workers : ℕ) (Code : Type)
  | enqueues (calls : List (Closure Code × ℕ))
  | push (index : Fin workers) (item : TaggedTask Code)
  | finishAllThreads (pc : DrainPc workers Code)

/-- The pool, the lane whose mutex the thread holds, and its calls in progress. -/
structure DrainSystem (cfg : PoolConfig) (U : TaskCode) where
  pool : PoolState cfg.maxNumThreads 0 U.Code
  locked : Option (Fin cfg.maxNumThreads)
  stack : List (DrainFrame cfg.maxNumThreads U.Code)

variable {cfg : PoolConfig} {U : TaskCode}

/-- `enqueue` up to its push. A task whose tag is retired is dropped, and its destructor runs. -/
def enqueueStep (cfg : PoolConfig) (U : TaskCode) (s : PoolState cfg.maxNumThreads 0 U.Code)
    (task : Closure U.Code) (tag address : ℕ) :
    Option (PoolState cfg.maxNumThreads 0 U.Code × DrainFrame cfg.maxNumThreads U.Code) :=
  let index := cfg.lane s.laneSelector
  let item : TaggedTask U.Code := ⟨none, task, s.history.nextTaskId, tag⟩
  let s' := s.advanceSelector.setHistory s.history.newTask
  if tag = 0 then some (s'.addQueued 1, .push index item)
  else
    match s'.tryEmplace tag address with
    | none => none
    | some (tagState, s') =>
      match s'.tagNodes tagState with
      | none => none
      | some node =>
        if node.retired then some (s', .enqueues (U.destructor task))
        else some ((s'.setNode tagState (node.add 1)).addQueued 1,
          .push index { item with tagState := some tagState })

def destroy {workers : ℕ} (U : TaskCode) (item : Option (TaggedTask U.Code)) :
    List (DrainFrame workers U.Code) :=
  (item.map fun item => .enqueues (U.destructor item.task)).toList

/-- One step of the drain: the pool, the mutex held and the frames after it. -/
def finishStep (cfg : PoolConfig) (U : TaskCode) (s : PoolState cfg.maxNumThreads 0 U.Code) :
    DrainPc cfg.maxNumThreads U.Code → Option (PoolState cfg.maxNumThreads 0 U.Code ×
      Option (Fin cfg.maxNumThreads) × List (DrainFrame cfg.maxNumThreads U.Code))
  | .drain drainedAny i item =>
    if h : i < cfg.maxNumThreads then
      if (s.queues ⟨i, h⟩).items = [] then
        some (s, none, [.finishAllThreads (.drain drainedAny (i + 1) item)])
      -- the assignment destroys what `item` holds, and only then takes the front over
      else some (s, some ⟨i, h⟩, destroy U item ++ [.finishAllThreads (.popFront ⟨i, h⟩)])
    else if drainedAny = true then some (s, none, [.finishAllThreads (.drain false 0 item)])
    else some (s, none, [.finishAllThreads (.assertQueued item)])
  | .popFront i =>
    (s.tryPop i).map fun (item, s') => (s', none, [.finishAllThreads (.decrement i item)])
  | .decrement i item => some (s.addQueued (-1), none, [.finishAllThreads (.taggedTaskCanRun i item)])
  | .taggedTaskCanRun i item =>
    (s.taggedTaskCanRun item.tagState).map fun canRun =>
      if canRun = true then
        (s, none, [.enqueues (U.body item.task), .finishAllThreads (.running i item)])
      else (s, none, [.finishAllThreads (.completeTaggedTask i item)])
  | .running i item => some (s, none, [.finishAllThreads (.completeTaggedTask i item)])
  | .completeTaggedTask i item =>
    (s.completeTaggedTask item.tagState).map fun s' =>
      (s', none, [.finishAllThreads (.drain true i (some item))])
  | .assertQueued item => some (s, none, destroy U item ++ [.finishAllThreads .returning])
  | .returning => some (s, none, [])

/-- One step of the thread; none at a mutex that it holds itself, at a full lane, and when it returned. -/
def step (cfg : PoolConfig) (U : TaskCode) (address : ℕ) (s : DrainSystem cfg U) :
    Option (DrainSystem cfg U) :=
  match s.stack with
  | [] => none
  | .enqueues [] :: rest => some { s with stack := rest }
  | .enqueues ((task, tag) :: calls) :: rest =>
    (enqueueStep cfg U s.pool task tag address).map fun (pool, frame) =>
      { s with pool, stack := frame :: .enqueues calls :: rest }
  | .push index item :: rest =>
    if s.locked = some index then none
    else (s.pool.push index item).map fun pool => { s with pool, stack := rest }
  | .finishAllThreads pc :: rest =>
    (finishStep cfg U s.pool pc).map fun (pool, locked, frames) => ⟨pool, locked, frames ++ rest⟩

def drainSystem (cfg : PoolConfig) (U : TaskCode) : TransitionSystem (DrainSystem cfg U) where
  Init s := s.pool.NoneRetired ∧ s.locked = none ∧ s.stack = [.finishAllThreads (.drain false 0 none)]
  Step s s' := ∃ address, step cfg U address s = some s'

def DrainFrame.locks {workers : ℕ} {Code : Type} : DrainFrame workers Code → Option (Fin workers)
  | .push index _ => some index
  | .finishAllThreads (.drain _ i _) => if h : i < workers then some ⟨i, h⟩ else none
  | _ => none

def DrainSystem.RelocksLane (s : DrainSystem cfg U) : Prop :=
  ∃ index, s.stack.head?.bind DrainFrame.locks = some index ∧ s.locked = some index

/-! ### Destructors that stay clear of the lane -/

/-- The round robin gives none of so many calls of `enqueue` this lane. -/
def Spares (cfg : PoolConfig) (s : PoolState cfg.maxNumThreads 0 U.Code)
    (lock : Option (Fin cfg.maxNumThreads)) (calls : ℕ) : Prop :=
  ∀ k < calls, lock ≠ some (cfg.lane (s.laneSelector + k))

/-- If the next step assigns over a closure, then its destructor makes too few calls of `enqueue` to come
round to the lane in hand; if the next step leaves the function, the last closure enqueues nothing. -/
def Considerate (s : DrainSystem cfg U) : Prop :=
  (∀ drainedAny i item rest (h : i < cfg.maxNumThreads),
    s.stack = .finishAllThreads (.drain drainedAny i (some item)) :: rest →
      (s.pool.queues ⟨i, h⟩).items ≠ [] →
        Spares cfg s.pool (some ⟨i, h⟩) (U.destructor item.task).length) ∧
    ∀ item rest, s.stack = .finishAllThreads (.assertQueued (some item)) :: rest →
      U.destructor item.task = []

def considerateSystem (cfg : PoolConfig) (U : TaskCode) : TransitionSystem (DrainSystem cfg U) where
  Init := (drainSystem cfg U).Init
  Step s s' := (drainSystem cfg U).Step s s' ∧ Considerate s

section Pool

variable {s s' : PoolState cfg.maxNumThreads 0 U.Code} {frame : DrainFrame cfg.maxNumThreads U.Code}

theorem enqueueStep_eq_some (h : s.NoneRetired) {task : Closure U.Code} {tag address : ℕ}
    (hstep : enqueueStep cfg U s task tag address = some (s', frame)) :
    ∃ item, frame = .push (cfg.lane s.laneSelector) item ∧ s'.queues = s.queues ∧
      s'.laneSelector = (s.laneSelector + 1) % 2 ^ 32 ∧ s'.NoneRetired := by
  unfold enqueueStep at hstep
  dsimp only at hstep
  split at hstep
  · cases hstep
    exact ⟨_, rfl, rfl, rfl, h⟩
  · split at hstep
    · cases hstep
    · rename_i tagState s₁ hemplace
      have hnone : s₁.NoneRetired :=
        PoolState.NoneRetired.tryEmplace (s := s.advanceSelector.setHistory _) h hemplace
      obtain ⟨tagStates, tagNodes, rfl⟩ := PoolState.tryEmplace_setTags hemplace
      split at hstep
      · cases hstep
      · rename_i node hnode
        rw [hnone _ _ hnode, if_neg Bool.false_ne_true] at hstep
        cases hstep
        have hretired : (node.add 1).retired = false := hnone _ node hnode
        exact ⟨_, rfl, rfl, rfl, hnone.setNode _ hretired⟩

theorem spares_succ_iff {lock : Option (Fin cfg.maxNumThreads)} {calls : ℕ}
    (hselector : s'.laneSelector = (s.laneSelector + 1) % 2 ^ 32) :
    Spares cfg s lock (calls + 1) ↔ lock ≠ some (cfg.lane s.laneSelector) ∧ Spares cfg s' lock calls := by
  have hlane : ∀ k, cfg.lane (s'.laneSelector + k) = cfg.lane (s.laneSelector + (k + 1)) := by
    intro k
    apply Fin.ext
    rw [cfg.lane_val, cfg.lane_val, hselector]
    congr 1
    omega
  constructor
  · intro h
    refine ⟨h 0 (Nat.succ_pos calls), fun k hk => ?_⟩
    rw [hlane]
    exact h (k + 1) (Nat.succ_lt_succ hk)
  · rintro ⟨hfirst, hrest⟩ k hk
    cases k with
    | zero => exact hfirst
    | succ k =>
      rw [← hlane]
      exact hrest k (Nat.lt_of_succ_lt_succ hk)

theorem spares_none (calls : ℕ) : Spares cfg s none calls := fun _ _ h => (nomatch h)

end Pool

/-! ### Where the thread stands -/

def DrainPc.lock {workers : ℕ} {Code : Type} : DrainPc workers Code → Option (Fin workers)
  | .popFront i => some i
  | _ => none

/-- User code runs above this point of the drain: a destructor or a body. -/
def DrainPc.runsCode {workers : ℕ} {Code : Type} : DrainPc workers Code → Bool
  | .popFront _ => true
  | .running _ _ => true
  | _ => false

/-- The lanes that a pass found empty, with none before them drained, are empty. -/
def DrainPc.HasSeen {workers : ℕ} {Code : Type} (s : PoolState workers 0 Code) : DrainPc workers Code → Prop
  | .drain false i _ => ∀ j : Fin workers, j.val < i → (s.queues j).items = []
  | .assertQueued _ => ∀ j, (s.queues j).items = []
  | .returning => ∀ j, (s.queues j).items = []
  | _ => True

/-- The mutex held and the calls in progress, in the runs in which destructors stay clear of the lane. -/
inductive Placed (cfg : PoolConfig) (U : TaskCode) (s : PoolState cfg.maxNumThreads 0 U.Code) :
    Option (Fin cfg.maxNumThreads) → List (DrainFrame cfg.maxNumThreads U.Code) → Prop
  | between {pc lock} (hlock : pc.lock = lock) (hseen : pc.HasSeen s) :
      Placed cfg U s lock [.finishAllThreads pc]
  | enqueuing {pc lock calls} (hlock : pc.lock = lock) (hcode : pc.runsCode = true)
      (hspared : Spares cfg s lock calls.length) :
      Placed cfg U s lock [.enqueues calls, .finishAllThreads pc]
  | pushing {pc lock calls index item} (hlock : pc.lock = lock) (hcode : pc.runsCode = true)
      (hindex : lock ≠ some index) (hspared : Spares cfg s lock calls.length) :
      Placed cfg U s lock [.push index item, .enqueues calls, .finishAllThreads pc]
  | last (hempty : ∀ j, (s.queues j).items = []) :
      Placed cfg U s none [.enqueues [], .finishAllThreads .returning]
  | returned (hempty : ∀ j, (s.queues j).items = []) : Placed cfg U s none []

/-- The thread is about to lock the mutex that it holds, or to leave a task behind. -/
inductive Doomed (cfg : PoolConfig) (U : TaskCode) (s : PoolState cfg.maxNumThreads 0 U.Code) :
    Option (Fin cfg.maxNumThreads) → List (DrainFrame cfg.maxNumThreads U.Code) → Prop
  | enqueuing {i calls} (hheld : ¬ Spares cfg s (some i) calls.length) :
      Doomed cfg U s (some i) [.enqueues calls, .finishAllThreads (.popFront i)]
  | pushing {i calls index item} (hheld : index = i ∨ ¬ Spares cfg s (some i) calls.length) :
      Doomed cfg U s (some i) [.push index item, .enqueues calls, .finishAllThreads (.popFront i)]
  | last {calls} (hleft : calls ≠ [] ∨ ∃ j, (s.queues j).items ≠ []) :
      Doomed cfg U s none [.enqueues calls, .finishAllThreads .returning]
  | lastPushing {calls index item} :
      Doomed cfg U s none [.push index item, .enqueues calls, .finishAllThreads .returning]
  | returning (hleft : ∃ j, (s.queues j).items ≠ []) :
      Doomed cfg U s none [.finishAllThreads .returning]
  | returned (hleft : ∃ j, (s.queues j).items ≠ []) : Doomed cfg U s none []

section Steps

variable {s s' : DrainSystem cfg U} {address : ℕ}

theorem step_push {index : Fin cfg.maxNumThreads} {item : TaggedTask U.Code}
    {rest : List (DrainFrame cfg.maxNumThreads U.Code)} (hstack : s.stack = .push index item :: rest)
    (hstep : step cfg U address s = some s') : s.locked ≠ some index ∧ s'.locked = s.locked ∧
      s'.stack = rest ∧ s'.pool.laneSelector = s.pool.laneSelector ∧
      (s'.pool.queues index).items ≠ [] ∧ (s.pool.NoneRetired → s'.pool.NoneRetired) := by
  unfold step at hstep
  rw [hstack] at hstep
  dsimp only at hstep
  split at hstep
  · cases hstep
  · rename_i hfree
    obtain ⟨pool, hpush, rfl⟩ := Option.map_eq_some_iff.mp hstep
    obtain ⟨lane, hlane, rfl⟩ := PoolState.push_eq_some hpush
    refine ⟨hfree, rfl, rfl, rfl, ?_, fun h => h⟩
    rw [PoolState.setLane_queues, Function.update_self, hlane]
    exact List.append_ne_nil_of_right_ne_nil _ (List.cons_ne_nil _ _)

theorem step_enqueue {task : Closure U.Code} {tag : ℕ} {calls : List (Closure U.Code × ℕ)}
    {rest : List (DrainFrame cfg.maxNumThreads U.Code)} (hnone : s.pool.NoneRetired)
    (hstack : s.stack = .enqueues ((task, tag) :: calls) :: rest)
    (hstep : step cfg U address s = some s') : s'.locked = s.locked ∧
      (∃ item, s'.stack = .push (cfg.lane s.pool.laneSelector) item :: .enqueues calls :: rest) ∧
      s'.pool.queues = s.pool.queues ∧
      s'.pool.laneSelector = (s.pool.laneSelector + 1) % 2 ^ 32 ∧ s'.pool.NoneRetired := by
  unfold step at hstep
  rw [hstack] at hstep
  obtain ⟨⟨pool, frame⟩, henqueue, rfl⟩ := Option.map_eq_some_iff.mp hstep
  obtain ⟨item, rfl, hqueues, hselector, hnone'⟩ := enqueueStep_eq_some hnone henqueue
  exact ⟨rfl, ⟨item, rfl⟩, hqueues, hselector, hnone'⟩

theorem step_enqueued {rest : List (DrainFrame cfg.maxNumThreads U.Code)}
    (hstack : s.stack = .enqueues [] :: rest) (hstep : step cfg U address s = some s') :
    s' = { s with stack := rest } := by
  unfold step at hstep
  rw [hstack] at hstep
  exact (Option.some.inj hstep).symm

theorem step_finish {pc : DrainPc cfg.maxNumThreads U.Code}
    {rest : List (DrainFrame cfg.maxNumThreads U.Code)} (hstack : s.stack = .finishAllThreads pc :: rest)
    (hstep : step cfg U address s = some s') :
    ∃ frames, finishStep cfg U s.pool pc = some (s'.pool, s'.locked, frames) ∧ s'.stack = frames ++ rest := by
  unfold step at hstep
  rw [hstack] at hstep
  obtain ⟨⟨pool, locked, frames⟩, hfinish, rfl⟩ := Option.map_eq_some_iff.mp hstep
  exact ⟨frames, hfinish, rfl⟩

theorem Spares.congr {pool pool' : PoolState cfg.maxNumThreads 0 U.Code}
    (h : pool'.laneSelector = pool.laneSelector) (lock : Option (Fin cfg.maxNumThreads)) (calls : ℕ) :
    Spares cfg pool' lock calls ↔ Spares cfg pool lock calls := by
  unfold Spares
  rw [h]

theorem doomed_step (hnone : s.pool.NoneRetired) (h : Doomed cfg U s.pool s.locked s.stack)
    (hstep : step cfg U address s = some s') :
    s'.pool.NoneRetired ∧ Doomed cfg U s'.pool s'.locked s'.stack := by
  generalize hlocked : s.locked = locked at h
  generalize hstack : s.stack = stack at h
  cases h with
  | @enqueuing i calls hheld =>
    cases calls with
    | nil => exact absurd (fun k hk => absurd hk (Nat.not_lt_zero k)) hheld
    | cons call calls =>
      obtain ⟨hlocked', ⟨item, hstack'⟩, _, hselector, hnone'⟩ := step_enqueue hnone hstack hstep
      rw [hlocked', hlocked, hstack']
      refine ⟨hnone', .pushing ?_⟩
      rw [List.length_cons, spares_succ_iff hselector, not_and_or, not_not, Option.some.injEq] at hheld
      exact hheld.imp Eq.symm id
  | @pushing i calls index item hheld =>
    obtain ⟨hfree, hlocked', hstack', hselector, _, hnone'⟩ := step_push hstack hstep
    rw [hlocked] at hfree
    rw [hlocked', hlocked, hstack']
    refine ⟨hnone' hnone, .enqueuing ?_⟩
    rw [Spares.congr hselector]
    exact hheld.resolve_left fun heq => hfree (congrArg some heq.symm)
  | @last calls hleft =>
    cases calls with
    | nil =>
      obtain rfl := step_enqueued hstack hstep
      refine ⟨hnone, ?_⟩
      rw [hlocked]
      exact .returning (hleft.resolve_left fun h => h rfl)
    | cons call calls =>
      obtain ⟨hlocked', ⟨item, hstack'⟩, _, _, hnone'⟩ := step_enqueue hnone hstack hstep
      rw [hlocked', hlocked, hstack']
      exact ⟨hnone', .lastPushing⟩
  | @lastPushing calls index item =>
    obtain ⟨_, hlocked', hstack', _, hlane, hnone'⟩ := step_push hstack hstep
    rw [hlocked', hlocked, hstack']
    exact ⟨hnone' hnone, .last (.inr ⟨index, hlane⟩)⟩
  | returning hleft =>
    obtain ⟨frames, hfinish, hstack'⟩ := step_finish hstack hstep
    simp only [finishStep, Option.some.injEq, Prod.mk.injEq] at hfinish
    obtain ⟨hpool, hlocked', rfl⟩ := hfinish
    rw [hstack', ← hpool, ← hlocked']
    exact ⟨hnone, .returned hleft⟩
  | returned hleft =>
    unfold step at hstep
    rw [hstack] at hstep
    cases hstep

/-- A step of the drain itself, in the runs in which destructors stay clear of the lane. -/
theorem placed_finishStep {pool : PoolState cfg.maxNumThreads 0 U.Code} {pc : DrainPc cfg.maxNumThreads U.Code}
    {locked : Option (Fin cfg.maxNumThreads)} {frames : List (DrainFrame cfg.maxNumThreads U.Code)}
    (hseen : pc.HasSeen s.pool) (hstack : s.stack = [.finishAllThreads pc]) (hconsiderate : Considerate s)
    (hfinish : finishStep cfg U s.pool pc = some (pool, locked, frames)) : Placed cfg U pool locked frames := by
  cases pc with
  | drain drainedAny i item =>
    simp only [finishStep] at hfinish
    split at hfinish
    · rename_i hi
      split at hfinish
      · rename_i hempty
        cases hfinish
        refine .between rfl ?_
        cases drainedAny with
        | true => trivial
        | false =>
          intro j hj
          obtain hlt | heq := Nat.lt_succ_iff_lt_or_eq.mp hj
          · exact hseen j hlt
          · obtain rfl : j = ⟨i, hi⟩ := Fin.ext heq
            exact hempty
      · rename_i hnonempty
        cases hfinish
        cases item with
        | none => exact .between rfl trivial
        | some item => exact .enqueuing rfl rfl (hconsiderate.1 _ _ _ _ hi hstack hnonempty)
    · rename_i hi
      split at hfinish
      · cases hfinish
        exact .between rfl fun j hj => absurd hj (Nat.not_lt_zero _)
      · rename_i hany
        cases hfinish
        refine .between rfl ?_
        obtain rfl : drainedAny = false := Bool.eq_false_iff.mpr hany
        exact fun j => hseen j (j.isLt.trans_le (Nat.not_lt.mp hi))
  | popFront i =>
    obtain ⟨⟨item, pool⟩, _, heq⟩ := Option.map_eq_some_iff.mp hfinish
    cases heq
    exact .between rfl trivial
  | decrement i item =>
    cases hfinish
    exact .between rfl trivial
  | taggedTaskCanRun i item =>
    obtain ⟨canRun, _, heq⟩ := Option.map_eq_some_iff.mp hfinish
    cases canRun with
    | true =>
      cases heq
      exact .enqueuing rfl rfl (spares_none _)
    | false =>
      cases heq
      exact .between rfl trivial
  | running i item =>
    cases hfinish
    exact .between rfl trivial
  | completeTaggedTask i item =>
    obtain ⟨pool, _, heq⟩ := Option.map_eq_some_iff.mp hfinish
    cases heq
    exact .between rfl trivial
  | assertQueued item =>
    cases hfinish
    cases item with
    | none => exact .between rfl hseen
    | some item =>
      have hquiet := hconsiderate.2 _ _ hstack
      rw [destroy, Option.map_some, hquiet]
      exact .last hseen
  | returning =>
    cases hfinish
    exact .returned hseen

/-- Otherwise the drain is about to relock a lane, or to leave a task behind. -/
theorem doomed_finishStep {pool : PoolState cfg.maxNumThreads 0 U.Code} {pc : DrainPc cfg.maxNumThreads U.Code}
    {locked : Option (Fin cfg.maxNumThreads)} {frames : List (DrainFrame cfg.maxNumThreads U.Code)}
    (hstack : s.stack = [.finishAllThreads pc]) (hnot : ¬ Considerate s)
    (hfinish : finishStep cfg U s.pool pc = some (pool, locked, frames)) : Doomed cfg U pool locked frames := by
  obtain hnot | hnot := not_and_or.mp hnot
  · simp only [not_forall] at hnot
    obtain ⟨drainedAny, i, item, rest, hi, heq, hnonempty, hheld⟩ := hnot
    rw [hstack] at heq
    cases heq
    simp only [finishStep, dif_pos hi, if_neg hnonempty, Option.some.injEq, Prod.mk.injEq] at hfinish
    obtain ⟨rfl, rfl, rfl⟩ := hfinish
    exact .enqueuing hheld
  · simp only [not_forall] at hnot
    obtain ⟨item, rest, heq, henqueues⟩ := hnot
    rw [hstack] at heq
    cases heq
    cases hfinish
    exact .last (.inl henqueues)

theorem noneRetired_finishStep {pool : PoolState cfg.maxNumThreads 0 U.Code}
    {pc : DrainPc cfg.maxNumThreads U.Code} {locked : Option (Fin cfg.maxNumThreads)}
    {frames : List (DrainFrame cfg.maxNumThreads U.Code)} (hnone : s.pool.NoneRetired)
    (hfinish : finishStep cfg U s.pool pc = some (pool, locked, frames)) : pool.NoneRetired := by
  cases pc with
  | drain drainedAny i item =>
    simp only [finishStep] at hfinish
    split at hfinish
    · split at hfinish
      · cases hfinish
        exact hnone
      · cases hfinish
        exact hnone
    · split at hfinish
      · cases hfinish
        exact hnone
      · cases hfinish
        exact hnone
  | popFront i =>
    obtain ⟨⟨item, pool⟩, hpop, heq⟩ := Option.map_eq_some_iff.mp hfinish
    cases heq
    obtain ⟨lane, _, rfl⟩ := PoolState.tryPop_eq_some hpop
    exact hnone
  | taggedTaskCanRun i item =>
    obtain ⟨canRun, _, heq⟩ := Option.map_eq_some_iff.mp hfinish
    cases canRun with
    | true =>
      cases heq
      exact hnone
    | false =>
      cases heq
      exact hnone
  | completeTaggedTask i item =>
    obtain ⟨pool, hcomplete, heq⟩ := Option.map_eq_some_iff.mp hfinish
    cases heq
    exact hnone.completeTaggedTask hcomplete
  | decrement i item | running i item | assertQueued item | returning =>
    cases hfinish
    exact hnone

theorem placed_step (hnone : s.pool.NoneRetired) (h : Placed cfg U s.pool s.locked s.stack)
    (hconsiderate : Considerate s) (hstep : step cfg U address s = some s') :
    s'.pool.NoneRetired ∧ Placed cfg U s'.pool s'.locked s'.stack := by
  generalize hlocked : s.locked = locked at h
  generalize hstack : s.stack = stack at h
  cases h with
  | between hlock hseen =>
    obtain ⟨frames, hfinish, hstack'⟩ := step_finish hstack hstep
    rw [hstack', List.append_nil]
    exact ⟨noneRetired_finishStep hnone hfinish, placed_finishStep hseen hstack hconsiderate hfinish⟩
  | @enqueuing pc lock calls hlock hcode hspared =>
    cases calls with
    | nil =>
      obtain rfl := step_enqueued hstack hstep
      refine ⟨hnone, .between (hlock.trans hlocked.symm) ?_⟩
      cases pc with
      | popFront i | running i item => trivial
      | _ => cases hcode
    | cons call calls =>
      obtain ⟨hlocked', ⟨item, hstack'⟩, _, hselector, hnone'⟩ := step_enqueue hnone hstack hstep
      obtain ⟨hindex, hrest⟩ := (spares_succ_iff hselector).mp hspared
      rw [hlocked', hlocked, hstack']
      exact ⟨hnone', .pushing hlock hcode hindex hrest⟩
  | @pushing pc lock calls index item hlock hcode hindex hspared =>
    obtain ⟨_, hlocked', hstack', hselector, _, hnone'⟩ := step_push hstack hstep
    rw [hlocked', hlocked, hstack']
    exact ⟨hnone' hnone, .enqueuing hlock hcode ((Spares.congr hselector _ _).mpr hspared)⟩
  | last hempty =>
    obtain rfl := step_enqueued hstack hstep
    refine ⟨hnone, ?_⟩
    rw [hlocked]
    exact .between rfl hempty
  | returned hempty =>
    unfold step at hstep
    rw [hstack] at hstep
    cases hstep

end Steps

/-! ### Runs -/

section Runs

variable {s : DrainSystem cfg U}

theorem placed_init (hinit : (drainSystem cfg U).Init s) : Placed cfg U s.pool s.locked s.stack := by
  obtain ⟨_, hlocked, hstack⟩ := hinit
  rw [hlocked, hstack]
  exact .between rfl fun j hj => absurd hj (Nat.not_lt_zero _)

theorem placed (hreach : (considerateSystem cfg U).Reachable s) :
    s.pool.NoneRetired ∧ Placed cfg U s.pool s.locked s.stack := by
  refine TransitionSystem.Reachable.invariant
    (fun s : DrainSystem cfg U => s.pool.NoneRetired ∧ Placed cfg U s.pool s.locked s.stack)
    ?_ (fun s s' _ hI hstep => ?_) hreach
  · intro s hinit
    exact ⟨hinit.1, placed_init hinit⟩
  · obtain ⟨⟨address, hstep⟩, hconsiderate⟩ := hstep
    exact placed_step hI.1 hI.2 hconsiderate hstep

theorem Placed.not_relocksLane (h : Placed cfg U s.pool s.locked s.stack) : ¬ s.RelocksLane := by
  rintro ⟨index, hlocks, hheld⟩
  generalize hlocked : s.locked = locked at h
  generalize hstack : s.stack = stack at h
  rw [hstack] at hlocks
  rw [hlocked] at hheld
  cases h with
  | @between pc lock hlock hseen =>
    cases pc with
    | drain drainedAny i item => cases hlock.trans hheld
    | _ => cases hlocks
  | pushing hlock hcode hindex hspared =>
    cases hlocks
    exact hindex hheld
  | enqueuing | last | returned => cases hlocks

theorem Placed.lanes_empty (h : Placed cfg U s.pool s.locked s.stack) (hreturned : s.stack = []) :
    ∀ j, (s.pool.queues j).items = [] := by
  generalize s.locked = locked at h
  rw [hreturned] at h
  cases h with
  | returned hempty => exact hempty

theorem Placed.exists_pc (h : Placed cfg U s.pool s.locked s.stack) (hnot : ¬ Considerate s) :
    ∃ pc, s.stack = [.finishAllThreads pc] := by
  have hother : (∀ pc rest, s.stack ≠ .finishAllThreads pc :: rest) → Considerate s := by
    intro hne
    constructor
    · intro drainedAny i item rest hi heq
      exact absurd heq (hne _ _)
    · intro item rest heq
      exact absurd heq (hne _ _)
  generalize s.locked = locked at h
  generalize hstack : s.stack = stack at h hother
  cases h with
  | between => exact ⟨_, rfl⟩
  | enqueuing | pushing | last | returned =>
    refine absurd (hother ?_) hnot
    intro pc rest heq
    cases heq

/-- A drain either stays clear in every step or is doomed. -/
theorem considerate_or_doomed (hreach : (drainSystem cfg U).Reachable s) :
    (considerateSystem cfg U).Reachable s ∨ s.pool.NoneRetired ∧ Doomed cfg U s.pool s.locked s.stack := by
  refine TransitionSystem.Reachable.invariant
    (fun s : DrainSystem cfg U => (considerateSystem cfg U).Reachable s ∨
      s.pool.NoneRetired ∧ Doomed cfg U s.pool s.locked s.stack) ?_ (fun s s' _ hI hstep => ?_) hreach
  · intro s hinit
    exact .inl (.init hinit trivial)
  · obtain ⟨address, hstep⟩ := hstep
    obtain hconsiderate | ⟨hnone, hdoomed⟩ := hI
    · by_cases hnow : Considerate s
      · exact .inl (hconsiderate.next ⟨⟨address, hstep⟩, hnow⟩)
      · obtain ⟨hnone, hplaced⟩ := placed hconsiderate
        obtain ⟨pc, hstack⟩ := hplaced.exists_pc hnow
        obtain ⟨frames, hfinish, hstack'⟩ := step_finish hstack hstep
        rw [hstack', List.append_nil]
        exact .inr ⟨noneRetired_finishStep hnone hfinish, doomed_finishStep hstack hnow hfinish⟩
    · exact .inr (doomed_step hnone hdoomed hstep)

theorem Doomed.steps {s' : DrainSystem cfg U} (hsteps : (drainSystem cfg U).Steps s s')
    (hnone : s.pool.NoneRetired) (h : Doomed cfg U s.pool s.locked s.stack) :
    s'.pool.NoneRetired ∧ Doomed cfg U s'.pool s'.locked s'.stack := by
  induction hsteps with
  | refl => exact ⟨hnone, h⟩
  | tail _ hstep ih =>
    obtain ⟨address, hstep⟩ := hstep
    exact doomed_step ih.1 ih.2 hstep

theorem Doomed.lane_nonempty (h : Doomed cfg U s.pool s.locked s.stack) (hreturned : s.stack = []) :
    ∃ j, (s.pool.queues j).items ≠ [] := by
  generalize s.locked = locked at h
  rw [hreturned] at h
  cases h with
  | returned hleft => exact hleft

/-- As long as destructors stay clear of the lane in hand, no mutex is relocked and on return all lanes are
empty; after the first one that does not, the drain can only return with a task left behind. -/
theorem drain_isSafe_iff (hreach : (drainSystem cfg U).Reachable s) :
    ((considerateSystem cfg U).Reachable s →
      ¬ s.RelocksLane ∧ (s.stack = [] → ∀ j, (s.pool.queues j).items = [])) ∧
    (¬ (considerateSystem cfg U).Reachable s → ∀ s', (drainSystem cfg U).Steps s s' →
      s'.stack = [] → ∃ j, (s'.pool.queues j).items ≠ []) := by
  constructor
  · intro hconsiderate
    obtain ⟨_, hplaced⟩ := placed hconsiderate
    exact ⟨hplaced.not_relocksLane, hplaced.lanes_empty⟩
  · intro hnot s' hsteps hreturned
    obtain ⟨hnone, hdoomed⟩ := (considerate_or_doomed hreach).resolve_left hnot
    obtain ⟨_, hdoomed'⟩ := hdoomed.steps hsteps hnone
    exact hdoomed'.lane_nonempty hreturned

end Runs

/-! ### Runs of a countdown

Every destructor enqueues the task numbered one lower; the destructor of task 0 enqueues nothing. -/

def countdown : TaskCode where
  Code := ℕ
  body _ := []
  destructor
    | .user (n + 1) => [(.user n, 0)]
    | _ => []

def countdownBacklog (cfg : PoolConfig) (tasks : List (Fin cfg.maxNumThreads × ℕ)) :
    Option (PoolState cfg.maxNumThreads 0 ℕ) :=
  tasks.foldlM (fun s task => s.push task.1 ⟨none, .user task.2, 0, 0⟩) (.initial _ _ _)

def drainRun (cfg : PoolConfig) (tasks : List (Fin cfg.maxNumThreads × ℕ)) (n : ℕ) :
    Option (DrainSystem cfg countdown) :=
  (countdownBacklog cfg tasks).bind fun pool =>
    (List.replicate n 0).foldlM (fun s address => step cfg countdown address s)
      ⟨pool, none, [.finishAllThreads (.drain false 0 none)]⟩

theorem noneRetired_countdownBacklog {tasks : List (Fin cfg.maxNumThreads × ℕ)}
    {s : PoolState cfg.maxNumThreads 0 ℕ} (h : countdownBacklog cfg tasks = some s) :
    s.NoneRetired := by
  have hkept : ∀ tasks (s s' : PoolState cfg.maxNumThreads 0 ℕ),
      List.foldlM (fun s (task : Fin cfg.maxNumThreads × ℕ) => s.push task.1 ⟨none, .user task.2, 0, 0⟩)
        s tasks = some s' → s.NoneRetired → s'.NoneRetired := by
    intro tasks
    induction tasks with
    | nil =>
      intro s s' h hnone
      cases h
      exact hnone
    | cons task tasks ih =>
      intro s s' h hnone
      obtain ⟨pool, hpush, hrest⟩ := Option.bind_eq_some_iff.mp h
      obtain ⟨lane, _, rfl⟩ := PoolState.push_eq_some hpush
      exact ih _ _ hrest hnone
  exact hkept tasks _ s h fun address node hnode => by cases hnode

theorem drainRun_reachable {tasks : List (Fin cfg.maxNumThreads × ℕ)} {n : ℕ}
    {s : DrainSystem cfg countdown} (h : drainRun cfg tasks n = some s) :
    (drainSystem cfg countdown).Reachable s := by
  obtain ⟨pool, hpool, hrun⟩ := Option.bind_eq_some_iff.mp h
  refine TransitionSystem.Reachable.steps (.init ⟨noneRetired_countdownBacklog hpool, rfl, rfl⟩ trivial)
    (TransitionSystem.steps_of_foldlM (T := drainSystem cfg countdown) ?_ hrun)
  exact fun s address s' hstep => ⟨address, hstep⟩

/-- Task 1 is destroyed while lane 1 is locked, and the round robin is at lane 0. -/
theorem drain_isSafe_iff_threeWorkers : ∃ s, drainRun threeWorkers [(0, 1), (1, 0)] 40 = some s ∧
    s.stack = [] ∧ (considerateSystem threeWorkers countdown).Reachable s ∧
    ¬ s.RelocksLane ∧ ∀ j, (s.pool.queues j).items = [] := by
  have hrun : (drainRun threeWorkers [(0, 1), (1, 0)] 40).map
      (fun s => (s.stack.isEmpty, decide (∀ j, (s.pool.queues j).items.isEmpty = true)))
      = some (true, true) := by decide
  obtain ⟨s, hs, hvalues⟩ := Option.map_eq_some_iff.mp hrun
  obtain ⟨hstack, hlanes⟩ := Prod.mk.inj hvalues
  have hreturned : s.stack = [] := List.isEmpty_iff.mp hstack
  have hempty : ∀ j, (s.pool.queues j).items = [] := fun j => List.isEmpty_iff.mp (of_decide_eq_true hlanes j)
  obtain ⟨hsafe, hunsafe⟩ := drain_isSafe_iff (drainRun_reachable hs)
  have hconsiderate : (considerateSystem threeWorkers countdown).Reachable s := by
    by_contra hnot
    obtain ⟨j, hj⟩ := hunsafe hnot s .refl hreturned
    exact hj (hempty j)
  obtain ⟨hlocks, hlanes⟩ := hsafe hconsiderate
  exact ⟨s, hs, hreturned, hconsiderate, hlocks, hlanes hreturned⟩

/-- In a pool of one worker, the destructor of task 1 runs in the `try_pop` of the task behind it, with the
only lane locked; with nothing behind it, it runs after the last pass. -/
theorem drain_isSafe_oneWorker :
    ¬ (∀ U s, (drainSystem oneWorker U).Reachable s → ¬ s.RelocksLane) ∧
    ¬ (∀ U s, (drainSystem oneWorker U).Reachable s → s.stack = [] →
      ∀ j, (s.pool.queues j).items = []) := by
  constructor
  · intro h
    have hrun : (drainRun oneWorker [(0, 1), (0, 0)] 9).map
        (fun s => (s.stack.head?.bind DrainFrame.locks, s.locked)) = some (some 0, some 0) := by decide
    obtain ⟨s, hs, hvalues⟩ := Option.map_eq_some_iff.mp hrun
    obtain ⟨hlocks, hheld⟩ := Prod.mk.inj hvalues
    exact h countdown s (drainRun_reachable hs) ⟨0, hlocks, hheld⟩
  · intro h
    have hrun : (drainRun oneWorker [(0, 1)] 16).map
        (fun s => (s.stack.isEmpty, (s.pool.queues 0).items.isEmpty)) = some (true, false) := by decide
    obtain ⟨s, hs, hvalues⟩ := Option.map_eq_some_iff.mp hrun
    obtain ⟨hstack, hlane⟩ := Prod.mk.inj hvalues
    rw [h countdown s (drainRun_reachable hs) (List.isEmpty_iff.mp hstack) 0] at hlane
    cases hlane

end CppUtils.DrainClosures
