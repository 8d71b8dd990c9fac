import CppUtils.ThreadPool.TaskPlaces
import CppUtils.ThreadPool.Script

/-!
# `retire` as a barrier

When `retire(tag)` returns, every task registered under the tag is over: it is in no lane, its body
does not execute, and will not. But a task is over before its closure is destroyed, so `retire` may
return while a worker or a shutdown call still has to destroy one.
-/

namespace CppUtils

open Threaded

variable {clients workers : ℕ} {U : UserCode} {Code : Type} {cfg : PoolConfig}

/-- The body of this task executes in the frames above this one. -/
def Frame.executes (id : ℕ) : Frame workers Code → Prop
  | .runWorker _ (.running item) => item.id = id
  | .finishAllThreads _ (.running _ item) => item.id = id
  | _ => False

/-- The call decides whether this task runs. -/
def Frame.checks (item : TaggedTask Code) : Frame workers Code → Prop
  | .runWorker _ (.taggedTaskCanRun item') => item' = item
  | .finishAllThreads _ (.taggedTaskCanRun _ item') => item' = item
  | _ => False

/-- The call has completed this task and has not destroyed its closure yet. -/
def Frame.holdsCompleted (item : TaggedTask Code) : Frame workers Code → Prop
  | .runWorker _ (.scopeEnd item' _) => item' = item
  | .enqueue (.rethrow item') => item' = item
  | .finishAllThreads _ (.drain _ _ (some (item', _))) => item' = item
  | .finishAllThreads _ (.assertQueued (some (item', _))) => item' = item
  | .abandonAllThreads (.sweep _ (some item')) => item' = item
  | _ => False

theorem Frame.holdsCompleted_iff {f : Frame workers Code} {item : TaggedTask Code} :
    f.holdsCompleted item ↔ ∃ fate, (item, .released fate) ∈ (f.poolWeight (custody workers Code)).1 := by
  cases f with
  | runWorker own pc =>
    rcases pc with _ | _ | pc | _
    case tryGetTask => cases pc <;> simp [holdsCompleted, holding]
    all_goals simp [holdsCompleted, holding, eq_comm]
  | enqueue pc => cases pc <;> simp [holdsCompleted, holding, eq_comm]
  | retire tag pc => cases pc <;> simp [holdsCompleted]
  | finishAllThreads completePendingTasks pc =>
    rcases pc with _ | _ | _ | _ | ⟨_, _, _ | ⟨item', fate⟩⟩ | _ | _ | _ | _ | _ | (_ | ⟨item', fate⟩) <;>
      simp [holdsCompleted, holdingLocal, holding, eq_comm]
  | abandonAllThreads pc =>
    rcases pc with _ | _ | ⟨_, _ | item'⟩ | _ | _ | _ <;>
      simp [holdsCompleted, holdingLocal, holding, eq_comm]
  | _ => simp [holdsCompleted]

theorem PoolState.mem_queuedTasks {s : PoolState workers clients Code} {x : HeldTask Code} :
    x ∈ s.queuedTasks ↔ ∃ i, ∃ item ∈ (s.queues i).items, (item, .queued) = x := by
  simp [queuedTasks, Multiset.mem_sum]

namespace PoolSystem

variable {s s' : PoolSystem cfg U clients} {t : ThreadId cfg.maxNumThreads clients}
  {f : Frame cfg.maxNumThreads U.Code}

theorem mem_held_of_frame (hf : f ∈ s.threads t) {x : HeldTask U.Code}
    (hx : x ∈ (f.poolWeight (custody _ _)).1) : x ∈ s.ledger.held := by
  rw [ledger_held]
  exact Multiset.mem_add.mpr (.inl (mem_weight.mpr ⟨t, f, hf, hx⟩))

theorem mem_held_of_lane {i : Fin cfg.maxNumThreads} {item : TaggedTask U.Code}
    (hitem : item ∈ (s.shared.pool.queues i).items) : (item, .queued) ∈ s.ledger.held :=
  Multiset.mem_add.mpr (.inr (PoolState.mem_queuedTasks.mpr ⟨i, item, hitem, rfl⟩))

theorem held_cases {x : HeldTask U.Code} (hx : x ∈ s.ledger.held) :
    (∃ t, ∃ f ∈ s.threads t, x ∈ (f.poolWeight (custody _ _)).1) ∨ x.2 = .queued := by
  rw [ledger_held] at hx
  rcases Multiset.mem_add.mp hx with hx | hx
  · exact .inl (mem_weight.mp hx)
  · obtain ⟨i, item, -, rfl⟩ := PoolState.mem_queuedTasks.mp hx
    exact .inr rfl

theorem mem_retiring_of_frame (hf : f ∈ s.threads t) {r : Retiring}
    (hr : r ∈ (f.poolWeight (custody _ _)).2) : r ∈ s.ledger.retiring := by
  rw [ledger_retiring]
  exact mem_weight.mpr ⟨t, f, hf, hr⟩

theorem frame_of_mem_retiring {r : Retiring} (hr : r ∈ s.ledger.retiring) :
    ∃ t pc, .retire r.tag pc ∈ s.threads t := by
  rw [ledger_retiring] at hr
  obtain ⟨t, f, hf, hmem⟩ := mem_weight.mp hr
  have hpos : 0 < (f.poolWeight (custody _ _)).2.countP fun r' => r'.tag = r.tag :=
    Multiset.countP_pos_of_mem hmem rfl
  have hone := hpos.trans_le (f.custody_retiring_le r.tag)
  cases f with
  | retire tag pc =>
    obtain rfl : tag = r.tag := by
      by_contra hne
      simp [hne] at hone
    exact ⟨t, pc, hf⟩
  | _ => simp at hone

/-! ### Tasks that are over -/

theorem over_steps {id : ℕ} (hsteps : (poolSystem cfg U clients).Steps s s')
    (hover : s.ledger.Over id) :
    s'.ledger.Over id ∧ s'.shared.pool.timesBegun id = s.shared.pool.timesBegun id := by
  induction hsteps with
  | refl => exact ⟨hover, rfl⟩
  | tail _ hstep ih =>
    obtain ⟨hover', hbegun⟩ := (ledger_run hstep).over ih.1
    exact ⟨hover', hbegun.trans ih.2⟩

theorem inLanes_of_over {id : ℕ} (hover : s.ledger.Over id) : s.shared.pool.inLanes id = 0 := by
  have hcount : s.shared.pool.inLanes id = s.shared.pool.queuedTasks.countP fun x => x.1.id = id :=
    (PoolState.countP_queuedTasks _ fun x => x.1.id = id).symm
  rw [hcount, Multiset.countP_eq_zero]
  intro x hx hid
  obtain ⟨i, item, hitem, rfl⟩ := PoolState.mem_queuedTasks.mp hx
  exact absurd (hover.2 _ (mem_held_of_lane hitem) hid) (by simp)

theorem not_executes_of_over {id : ℕ} (hover : s.ledger.Over id) (hf : f ∈ s.threads t) :
    ¬ f.executes id := by
  intro hexecutes
  obtain ⟨item, hheld, hid⟩ : ∃ item : TaggedTask U.Code,
      (item, Stage.running) ∈ (f.poolWeight (custody _ _)).1 ∧ item.id = id := by
    revert hexecutes
    fun_cases Frame.executes id f
    · exact fun hid => ⟨_, Multiset.mem_singleton_self _, hid⟩
    · exact fun hid => ⟨_, Multiset.mem_singleton_self _, hid⟩
    · exact False.elim
  exact absurd (hover.2 _ (mem_held_of_frame hf hheld) hid) (by simp)

theorem over_of_retire_return (hreach : (poolSystem cfg U clients).ReachableUnder OneRetirePerTag s)
    {c : Choice cfg.maxNumThreads clients U.Input} {tag : ℕ} {pc : RetirePc}
    {rest : List (Frame cfg.maxNumThreads U.Code)} (hstack : s.threads t = .retire tag pc :: rest)
    (hstep : step cfg U t c s = some s') (hreturn : s'.threads t = rest) {id : ℕ}
    (hregistered : .registered id tag ∈ s.shared.pool.history.events) : s.ledger.Over id := by
  have hledger := ledger_reachableUnder hreach
  have hf : Frame.retire tag pc ∈ s.threads t := hstack ▸ List.mem_cons_self
  obtain ⟨shared, after, hmove, rfl⟩ := step_eq_some_of_frame hstack (by simp) hstep
  obtain rfl : after = [] := by simpa using hreturn
  cases hmove with
  | retire hmove =>
    cases hmove with
    | noEntry hentry => exact Ledger.over_of_noEntry hledger.reachable hentry hregistered
    | @subtractOutstanding tagState removedCount node _ _ hnode hwait =>
      cases hwait with
      | finish hnode' hzero =>
        have hmem : ⟨tag, tagState, removedCount⟩ ∈ s.ledger.retiring :=
          mem_retiring_of_frame hf (by simp)
        refine Ledger.over_of_retiring hledger hmem hnode ?_ hregistered
        simp only [PoolState.setNode_tagNodes, Function.update_self, Option.some.injEq] at hnode'
        subst hnode'
        simp only [TagNode.add_outstandingTaskCount] at hzero
        change node.outstandingTaskCount = (removedCount : ℤ)
        omega
    | @wait tagState _ _ _ hwait =>
      cases hwait with
      | finish hnode hzero =>
        have hmem : ⟨tag, tagState, 0⟩ ∈ s.ledger.retiring := mem_retiring_of_frame hf (by simp)
        exact Ledger.over_of_retiring hledger hmem hnode hzero hregistered

/-- What a `retire` call destroys was registered under its tag. -/
theorem registered_of_retire_step
    (hreach : (poolSystem cfg U clients).ReachableUnder OneRetirePerTag s)
    {c : Choice cfg.maxNumThreads clients U.Input} {tag : ℕ} {pc : RetirePc}
    {rest : List (Frame cfg.maxNumThreads U.Code)} (hstack : s.threads t = .retire tag pc :: rest)
    (hstep : step cfg U t c s = some s') {id : ℕ} {fate : Fate}
    (hafter : .finished id fate ∈ s'.shared.pool.history.events)
    (hbefore : .finished id fate ∉ s.shared.pool.history.events) :
    .registered id tag ∈ s.shared.pool.history.events := by
  have hf : Frame.retire tag pc ∈ s.threads t := hstack ▸ List.mem_cons_self
  obtain ⟨shared, after, hmove, rfl⟩ := step_eq_some_of_frame hstack (by simp) hstep
  cases hmove with
  | retire hmove =>
    cases hmove with
    | @sweep tagState i removedCount h =>
      simp only [Shared.setPool_pool, PoolState.removeIf, PoolState.setHistory_history,
        History.finishAll_events, List.mem_append, List.mem_map, hbefore, or_false] at hafter
      obtain ⟨item, hitem, hfinished⟩ := hafter
      cases hfinished
      obtain ⟨hlane, hpointer⟩ := List.mem_filter.mp hitem
      have hmem : ⟨tag, tagState, removedCount⟩ ∈ s.ledger.retiring :=
        mem_retiring_of_frame hf (by simp)
      exact Ledger.registered_of_pointer (ledger_reachableUnder hreach) hmem
        (mem_held_of_lane hlane) rfl (of_decide_eq_true hpointer)
    | subtractOutstanding _ hwait | wait _ hwait =>
      cases hwait with
      | finish =>
        rw [Shared.setPool_pool, PoolState.eraseTag_history] at hafter
        exact absurd hafter hbefore
      | block => exact absurd hafter hbefore
    | setRetired => simp [hbefore] at hafter
    | _ => exact absurd hafter hbefore

/-- A task is kept from running only while a `retire` call for its own tag is in progress, which
began after the task was registered. -/
theorem retired_of_skip (hreach : (poolSystem cfg U clients).Reachable s)
    {item : TaggedTask U.Code} (hf : f ∈ s.threads t) (hchecks : f.checks item)
    (hskip : s.shared.pool.taggedTaskCanRun item.tagState = some false) :
    Ledger.RetiredAfter s.shared.pool.history.events item.id item.tag ∧
      ∃ u pc, .retire item.tag pc ∈ s.threads u := by
  have hledger := ledger_reachable hreach
  have hheld : (item, .taken) ∈ s.ledger.held := by
    refine mem_held_of_frame hf ?_
    revert hchecks
    fun_cases Frame.checks item f
    · rintro rfl
      exact Multiset.mem_singleton_self _
    · rintro rfl
      exact Multiset.mem_singleton_self _
    · exact False.elim
  unfold PoolState.taggedTaskCanRun at hskip
  split at hskip
  · cases hskip
  · rename_i tagState hitem
    split at hskip
    · cases hskip
    · rename_i node hnode
      have hmarked : Ledger.MarkedAt s.ledger.tagNodes tagState item.tag :=
        ⟨node, hnode, (Ledger.nodeAt_of_mem hledger _ hheld rfl tagState hitem).tag_eq hnode,
          by simpa using hskip⟩
      obtain ⟨r, hr, htag, -⟩ := Ledger.retiring_of_markedAt hledger tagState item.tag hmarked
      exact ⟨Ledger.markedLater hledger _ hheld rfl tagState item.tag hitem hmarked,
        htag ▸ frame_of_mem_retiring hr⟩

theorem events_of_retire_return {c : Choice cfg.maxNumThreads clients U.Input} {tag : ℕ}
    {pc : RetirePc} {rest : List (Frame cfg.maxNumThreads U.Code)}
    (hstack : s.threads t = .retire tag pc :: rest) (hstep : step cfg U t c s = some s')
    (hreturn : s'.threads t = rest) :
    s'.shared.pool.history.events = s.shared.pool.history.events := by
  obtain ⟨shared, after, hmove, rfl⟩ := step_eq_some_of_frame hstack (by simp) hstep
  obtain rfl : after = [] := by simpa using hreturn
  cases hmove with
  | retire hmove =>
    cases hmove with
    | noEntry => rfl
    | subtractOutstanding _ hwait | wait _ hwait =>
      cases hwait with
      | finish => exact congrArg History.events (PoolState.eraseTag_history _ _ _)

/-- A registered task that is over has been destroyed, or a call holds it that has completed it. -/
theorem destroyed_or_holdsCompleted (hreach : (poolSystem cfg U clients).Reachable s) {id tag : ℕ}
    (hregistered : .registered id tag ∈ s.shared.pool.history.events) (hover : s.ledger.Over id) :
    (∃ fate, .finished id fate ∈ s.shared.pool.history.events) ∨
      ∃ u, ∃ f ∈ s.threads u, ∃ item : TaggedTask U.Code, item.tagState ≠ none ∧ item.tag = tag ∧
        f.holdsCompleted item := by
  have hledger := ledger_reachable hreach
  by_cases hheld : ∃ x ∈ s.ledger.held, x.1.id = id
  · obtain ⟨⟨item, stage⟩, hx, hid⟩ := hheld
    have hcounted := hover.2 _ hx hid
    rcases held_cases hx with ⟨u, f, hf, hmem⟩ | hqueued
    · cases stage with
      | released fate =>
        obtain ⟨hpointer, htag⟩ := (Ledger.registrationKept hledger id tag hregistered).2 _ hx hid
        exact .inr ⟨u, f, hf, item, hpointer, htag, Frame.holdsCompleted_iff.mpr ⟨fate, hmem⟩⟩
      | _ => simp at hcounted
    · rw [hqueued] at hcounted
      simp at hcounted
  · exact .inl (Ledger.finished_of_not_held hledger hover.1 fun x hx hid => hheld ⟨x, hx, hid⟩)

end PoolSystem

/-- When `retire(tag)` returns, no task registered under the tag is in a lane or executes, then or
later, and none begins any more. What a `retire` call removes was registered under its tag, and what
is skipped was registered under a tag that a `retire` in progress marked afterwards. -/
theorem retire_isBarrier {s s' : PoolSystem cfg U clients}
    (hreach : (poolSystem cfg U clients).ReachableUnder PoolSystem.OneRetirePerTag s)
    {t : ThreadId cfg.maxNumThreads clients} {c : Choice cfg.maxNumThreads clients U.Input}
    (hstep : step cfg U t c s = some s') :
    (∀ tag pc rest, s.threads t = .retire tag pc :: rest → s'.threads t = rest →
      ∀ id, .registered id tag ∈ s.shared.pool.history.events →
        ∀ s'', (poolSystem cfg U clients).Steps s' s'' →
          s''.shared.pool.inLanes id = 0 ∧ (∀ u, ∀ f ∈ s''.threads u, ¬ f.executes id) ∧
            s''.shared.pool.timesBegun id = s'.shared.pool.timesBegun id) ∧
      (∀ tag pc rest, s.threads t = .retire tag pc :: rest →
        ∀ id fate, .finished id fate ∈ s'.shared.pool.history.events →
          .finished id fate ∉ s.shared.pool.history.events →
            .registered id tag ∈ s.shared.pool.history.events) ∧
      ∀ item, ∀ f ∈ s.threads t, f.checks item →
        s.shared.pool.taggedTaskCanRun item.tagState = some false →
          Ledger.RetiredAfter s.shared.pool.history.events item.id item.tag ∧
            ∃ u pc, .retire item.tag pc ∈ s.threads u := by
  refine ⟨fun tag pc rest hstack hreturn id hregistered s'' hsteps => ?_,
    fun tag pc rest hstack id fate hafter hbefore =>
      PoolSystem.registered_of_retire_step hreach hstack hstep hafter hbefore,
    fun item f hf hchecks hskip =>
      PoolSystem.retired_of_skip hreach.reachable hf hchecks hskip⟩
  have hover := PoolSystem.over_of_retire_return hreach hstack hstep hreturn hregistered
  have hover' := (PoolSystem.over_steps (.single ⟨t, c, hstep⟩) hover).1
  obtain ⟨hover'', hbegun⟩ := PoolSystem.over_steps hsteps hover'
  exact ⟨PoolSystem.inLanes_of_over hover'',
    fun u f hf => PoolSystem.not_executes_of_over hover'' hf, hbegun⟩

@[simps] def anyRetire (workers : ℕ) (Code : Type) : PoolWeights workers Code ℕ where
  retire _ _ := 1

theorem PoolSystem.oneRetirePerTag_of_one {s : PoolSystem cfg U clients}
    (hone : decide (s.count (anyRetire _ _) ≤ 1) = true) : s.OneRetirePerTag := fun tag => by
  refine (weight_le_weight (fun f => ?_) s.threads).trans (of_decide_eq_true hone)
  cases f with
  | retire tag' pc =>
    rw [Frame.poolWeight_retire, Frame.poolWeight_retire, retireCalls_retire, anyRetire_retire]
    split <;> simp
  | _ => simp

/-- Runs with at most one `retire` in progress: a client enqueues a task and the owner retires its
tag. -/
def retireRun (moves : List (ThreadId 1 1 × Choice 1 1 Unit)) :
    Option (PoolSystem oneWorker scriptCode 1) :=
  scriptRunUnder oneWorker 1 (fun s => s.count (anyRetire _ _) ≤ 1)
    (fun
      | .owner => .call (.retire 5) .ret
      | _ => .call (.enqueue .ret 5) .ret)
    moves

theorem retireRun_reachable {moves : List (ThreadId 1 1 × Choice 1 1 Unit)}
    {s : PoolSystem oneWorker scriptCode 1} (h : retireRun moves = some s) :
    (poolSystem oneWorker scriptCode 1).ReachableUnder PoolSystem.OneRetirePerTag s :=
  scriptRunUnder_reachable (fun _ => PoolSystem.oneRetirePerTag_of_one) h

/-- The client registers its task; the owner sweeps the lane and blocks; then the client pushes the
task, and the worker takes it, skips it and completes it. -/
def pushedBehindSweep : List (ThreadId 1 1 × Choice 1 1 Unit) :=
  [(.client 0, .input ()), (.client 0, .go), (.client 0, .address 7), (.client 0, .go),
    (.owner, .input ()), (.owner, .go), (.owner, .go), (.owner, .go), (.owner, .go), (.owner, .go),
    (.client 0, .go), (.client 0, .go), (.worker 0, .go), (.worker 0, .go), (.worker 0, .go),
    (.worker 0, .go), (.worker 0, .go), (.worker 0, .go)]

theorem retire_isBarrier_pushedBehindSweep :
    ∃ s s', retireRun pushedBehindSweep = some s ∧ step oneWorker scriptCode .owner .go s = some s' ∧
      s'.threads .owner = [.calling fun _ => .ret] ∧
      ∀ s'', (poolSystem oneWorker scriptCode 1).Steps s' s'' →
        s''.shared.pool.inLanes 0 = 0 ∧ s''.shared.pool.timesBegun 0 = 0 := by
  have hrun : (retireRun pushedBehindSweep).bind (fun s => (step oneWorker scriptCode .owner .go s).map
      fun s' => (decide (.registered 0 5 ∈ s.shared.pool.history.events),
        s'.shared.pool.timesBegun 0)) = some (true, 0) := by decide
  have hstacks : (retireRun pushedBehindSweep).bind (fun s => (step oneWorker scriptCode .owner .go s).map
      fun s' => (s.threads .owner, s'.threads .owner))
      = some ([.retire 5 (.wait 7), .calling fun _ => .ret], [.calling fun _ => .ret]) := rfl
  obtain ⟨s, hs, hrest⟩ := Option.bind_eq_some_iff.mp hrun
  obtain ⟨s', hs', hvalues⟩ := Option.map_eq_some_iff.mp hrest
  rw [hs, Option.bind_some, hs', Option.map_some, Option.some.injEq] at hstacks
  simp only [Prod.mk.injEq, decide_eq_true_eq] at hvalues hstacks
  refine ⟨s, s', hs, hs', hstacks.2, fun s'' hsteps => ?_⟩
  obtain ⟨hlanes, -, hbegun⟩ :=
    (retire_isBarrier (retireRun_reachable hs) hs').1 5 _ _ hstacks.1 hstacks.2 0 hvalues.1 s'' hsteps
  exact ⟨hlanes, hbegun.trans hvalues.2⟩

/-! ### Closures -/

/-- When `retire(tag)` returns, every closure registered under the tag has been destroyed, exactly if
no call stands between the completion of a task of that tag and the destruction of its closure. -/
theorem retire_destroysClosures_iff {s s' : PoolSystem cfg U clients}
    (hreach : (poolSystem cfg U clients).ReachableUnder PoolSystem.OneRetirePerTag s)
    {t : ThreadId cfg.maxNumThreads clients} {c : Choice cfg.maxNumThreads clients U.Input}
    {tag : ℕ} {pc : RetirePc} {rest : List (Frame cfg.maxNumThreads U.Code)}
    (hstack : s.threads t = .retire tag pc :: rest) (hstep : step cfg U t c s = some s')
    (hreturn : s'.threads t = rest) :
    (∀ id, .registered id tag ∈ s.shared.pool.history.events →
        ∃ fate, .finished id fate ∈ s'.shared.pool.history.events)
      ↔ ∀ u, ∀ f ∈ s.threads u, ∀ item : TaggedTask U.Code, item.tagState ≠ none → item.tag = tag →
          ¬ f.holdsCompleted item := by
  have hledger := PoolSystem.ledger_reachable hreach.reachable
  rw [PoolSystem.events_of_retire_return hstack hstep hreturn]
  constructor
  · rintro hdestroyed u f hf item hpointer rfl hholds
    obtain ⟨fate, hheld⟩ := Frame.holdsCompleted_iff.mp hholds
    have hheld := PoolSystem.mem_held_of_frame hf hheld
    obtain ⟨fate', hfinished⟩ := hdestroyed item.id (Ledger.registered_of_mem hledger _ hheld hpointer)
    exact Ledger.not_held_of_finished hledger hfinished _ hheld rfl
  · intro hnone id hregistered
    have hover := PoolSystem.over_of_retire_return hreach hstack hstep hreturn hregistered
    rcases PoolSystem.destroyed_or_holdsCompleted hreach.reachable hregistered hover with
      hfinished | ⟨u, f, hf, item, hpointer, htag, hholds⟩
    · exact hfinished
    · exact absurd hholds (hnone u f hf item hpointer htag)

/-- In this run the worker still destroys the closure before `retire` returns. -/
theorem retire_destroysClosures_iff_destroyedBefore :
    ∃ s s', retireRun (pushedBehindSweep ++ [(.worker 0, .go)]) = some s ∧
      step oneWorker scriptCode .owner .go s = some s' ∧
      s'.threads .owner = [.calling fun _ => .ret] ∧
      ∀ u, ∀ f ∈ s.threads u, ∀ item : TaggedTask Script, item.tagState ≠ none → item.tag = 5 →
        ¬ f.holdsCompleted item := by
  have hrun : (retireRun (pushedBehindSweep ++ [(.worker 0, .go)])).bind (fun s =>
      (step oneWorker scriptCode .owner .go s).map fun s' =>
        (s.shared.pool.history.events, s'.shared.pool.history.events))
      = some ([.finished 0 .skipped, .retired 5, .registered 0 5],
          [.finished 0 .skipped, .retired 5, .registered 0 5]) := by decide
  have hstacks : (retireRun (pushedBehindSweep ++ [(.worker 0, .go)])).bind (fun s =>
      (step oneWorker scriptCode .owner .go s).map fun s' => (s.threads .owner, s'.threads .owner))
      = some ([.retire 5 (.wait 7), .calling fun _ => .ret], [.calling fun _ => .ret]) := rfl
  obtain ⟨s, hs, hrest⟩ := Option.bind_eq_some_iff.mp hrun
  obtain ⟨s', hs', hvalues⟩ := Option.map_eq_some_iff.mp hrest
  rw [hs, Option.bind_some, hs', Option.map_some, Option.some.injEq] at hstacks
  simp only [Prod.mk.injEq] at hvalues hstacks
  refine ⟨s, s', hs, hs', hstacks.2,
    (retire_destroysClosures_iff (retireRun_reachable hs) hstacks.1 hs' hstacks.2).mp ?_⟩
  rw [hvalues.1, hvalues.2]
  intro id hregistered
  obtain rfl : id = 0 := by simpa using hregistered
  exact ⟨.skipped, List.mem_cons_self⟩

/-- Without that step `retire` returns while the worker still holds the closure of the task. -/
theorem retire_returns_beforeClosure :
    ∃ s s' item, (poolSystem oneWorker scriptCode 1).ReachableUnder PoolSystem.OneRetirePerTag s ∧
      step oneWorker scriptCode .owner .go s = some s' ∧
      s.threads .owner = [.retire 5 (.wait 7), .calling fun _ => .ret] ∧
      s'.threads .owner = [.calling fun _ => .ret] ∧
      .registered 0 5 ∈ s.shared.pool.history.events ∧
      s'.threads (.worker 0) = [.runWorker 0 (.scopeEnd item .skipped)] ∧ item.id = 0 ∧
      ∀ fate, .finished 0 fate ∉ s'.shared.pool.history.events := by
  have hrun : (retireRun pushedBehindSweep).bind (fun s =>
      (step oneWorker scriptCode .owner .go s).map fun s' =>
        (s.shared.pool.history.events, s'.shared.pool.history.events))
      = some ([.retired 5, .registered 0 5], [.retired 5, .registered 0 5]) := by decide
  have hstacks : (retireRun pushedBehindSweep).bind (fun s =>
      (step oneWorker scriptCode .owner .go s).map fun s' =>
        (s.threads .owner, s'.threads .owner, s'.threads (.worker 0)))
      = some ([.retire 5 (.wait 7), .calling fun _ => .ret], [.calling fun _ => .ret],
          [.runWorker 0 (.scopeEnd ⟨some 7, .user .ret, 0, 5⟩ .skipped)]) := rfl
  obtain ⟨s, hs, hrest⟩ := Option.bind_eq_some_iff.mp hrun
  obtain ⟨s', hs', hvalues⟩ := Option.map_eq_some_iff.mp hrest
  rw [hs, Option.bind_some, hs', Option.map_some, Option.some.injEq] at hstacks
  simp only [Prod.mk.injEq] at hvalues hstacks
  refine ⟨s, s', _, retireRun_reachable hs, hs', hstacks.1, hstacks.2.1, ?_, hstacks.2.2, rfl, fun fate => ?_⟩
  · rw [hvalues.1]
    exact List.mem_cons_of_mem _ List.mem_cons_self
  · rw [hvalues.2]
    simp

end CppUtils
