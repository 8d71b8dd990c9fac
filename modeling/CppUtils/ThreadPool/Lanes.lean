import CppUtils.ThreadPool.Wakeups
import CppUtils.ThreadPool.RetireBarrier
import Mathlib.Data.Int.CardIntervalMod

/-!
# The lanes

What a step can do to one lane, said once: push at its end, pop its first task, or filter it. `enqueue`
takes the lane from a counter that wraps, so the serial number of a task fixes its lane and the lanes
get equal shares of all tasks, up to one task and one more for each time that the counter has wrapped.
-/

namespace CppUtils

open Threaded

variable {clients workers : ℕ} {U : UserCode} {Code : Type} {cfg : PoolConfig}

/-- What a step that replaces the frame `f` does to a lane. -/
inductive LaneChange (s s' : PoolState workers clients Code) (index : Fin workers)
    (f : Frame workers Code) (after : List (Frame workers Code)) : Prop
  | same (hsame : s'.queues index = s.queues index)
  | pushed {item : TaggedTask Code} (hf : f = .enqueue (.push index item))
      (hitems : (s'.queues index).items = (s.queues index).items ++ [item])
  | taken {own : Fin workers} {pc : TryGetTaskPc Code} {item : TaggedTask Code}
      (hf : f = .runWorker own (.tryGetTask pc)) (hafter : after = [.runWorker own (.tryGetTask (.popped item))])
      (hitems : (s.queues index).items = item :: (s'.queues index).items)
  | drained {item : TaggedTask Code} (hf : f.hasSetTerminate = true)
      (hitems : (s.queues index).items = item :: (s'.queues index).items)
  | removed {tag tagState i removedCount : ℕ} (hf : f = .retire tag (.sweep tagState i removedCount))
      (hitems : (s'.queues index).items =
        (s.queues index).items.filter fun item => !decide (item.tagState = some tagState))
      (hhistory : s'.history = s.history.finishAll (s.matching index tagState) .removedByRetire)

section Moves

variable {s s' : PoolState cfg.maxNumThreads clients Code} {index : Fin cfg.maxNumThreads}
  {after : List (Frame cfg.maxNumThreads Code)}

theorem LaneChange.of_queues {f : Frame cfg.maxNumThreads Code} (h : s'.queues = s.queues) :
    LaneChange s s' index f after :=
  .same (congrFun h index)

theorem completeTaggedTask_queues {tagState : Option ℕ} (h : s.completeTaggedTask tagState = some s') :
    s'.queues = s.queues := by
  obtain ⟨tagNodes, waiters, rfl⟩ := PoolState.completeTaggedTask_setTags h
  rfl

theorem tryPop_queues {popped : Fin cfg.maxNumThreads} {item : TaggedTask Code}
    (h : s.tryPop popped = some (item, s')) :
    s'.queues index = s.queues index ∨ (s.queues index).items = item :: (s'.queues index).items := by
  obtain ⟨lane, hlane, rfl⟩ := PoolState.tryPop_eq_some h
  by_cases heq : index = popped
  · subst heq
    exact .inr (by simpa using hlane)
  · exact .inl (Function.update_of_ne heq _ _)

theorem EnqueueMove.laneChange {pc : EnqueuePc cfg.maxNumThreads Code}
    (hmove : EnqueueMove cfg s pc s' after) : LaneChange s s' index (.enqueue pc) after := by
  cases hmove with
  | drop hemplace | register hemplace =>
    obtain ⟨tagStates, tagNodes, rfl⟩ := PoolState.tryEmplace_setTags hemplace
    exact .of_queues rfl
  | @push pushed item _ hpush =>
    obtain ⟨lane, hlane, rfl⟩ := PoolState.push_eq_some hpush
    by_cases heq : index = pushed
    · subst heq
      exact .pushed rfl (by simpa using hlane)
    · exact .same (Function.update_of_ne heq _ _)
  | complete hcomplete => exact .of_queues (completeTaggedTask_queues hcomplete)
  | _ => exact .of_queues rfl

theorem RunWorkerMove.laneChange {t : ThreadId cfg.maxNumThreads clients} {own : Fin cfg.maxNumThreads}
    {pc : RunWorkerPc Code} (hmove : RunWorkerMove cfg t s own pc s' after) :
    LaneChange s s' index (.runWorker own pc) after := by
  cases hmove with
  | tryGetTask hget =>
    cases hget with
    | popOwn hpop | steal _ hpop =>
      rcases tryPop_queues hpop with hsame | hitems
      · exact .same hsame
      · exact .taken rfl rfl hitems
    | _ => exact .of_queues rfl
  | complete hcomplete => exact .of_queues (completeTaggedTask_queues hcomplete)
  | _ => exact .of_queues rfl

theorem RetireMove.laneChange {t : ThreadId cfg.maxNumThreads clients} {tag : ℕ} {pc : RetirePc}
    (hmove : RetireMove cfg t s tag pc s' after) : LaneChange s s' index (.retire tag pc) after := by
  cases hmove with
  | @sweep tagState i _ hi =>
    by_cases heq : index = ⟨i, hi⟩
    · subst heq
      exact .removed rfl (by simp [PoolState.removeIf, BoundedQueue.items_eraseIf]) rfl
    · exact .same (by simp [PoolState.removeIf, heq])
  | @subtractOutstanding tagState _ _ _ _ _ hwait | @wait tagState _ _ _ hwait =>
    cases hwait with
    | finish =>
      obtain ⟨tagStates, tagNodes, herase⟩ := PoolState.eraseTag_setTags tag tagState
      rw [herase]
      exact .of_queues rfl
    | block => exact .of_queues rfl
  | _ => exact .of_queues rfl

theorem FinishMove.laneChange {completePendingTasks : Bool} {pc : FinishPc cfg.maxNumThreads Code}
    (hmove : FinishMove cfg s completePendingTasks pc s' after) :
    LaneChange s s' index (.finishAllThreads completePendingTasks pc) after := by
  cases hmove with
  | pop _ hpop =>
    rcases tryPop_queues hpop with hsame | hitems
    · exact .same hsame
    · exact .drained rfl hitems
  | complete hcomplete => exact .of_queues (completeTaggedTask_queues hcomplete)
  | _ => exact .of_queues rfl

theorem AbandonMove.laneChange {pc : AbandonPc Code} (hmove : AbandonMove cfg s pc s' after) :
    LaneChange s s' index (.abandonAllThreads pc) after := by
  cases hmove with
  | @pop _ item _ _ _ hpop =>
    rcases tryPop_queues hpop with hsame | hitems
    · exact .same (by cases item <;> exact hsame)
    · exact .drained rfl (by cases item <;> exact hitems)
  | complete hcomplete => exact .of_queues (completeTaggedTask_queues hcomplete)
  | _ => exact .of_queues rfl

end Moves

theorem FrameMove.laneChange {t : ThreadId cfg.maxNumThreads clients}
    {s s' : Shared cfg.maxNumThreads clients U.Code} {f : Frame cfg.maxNumThreads U.Code}
    {after : List (Frame cfg.maxNumThreads U.Code)} (hmove : FrameMove cfg U t s f s' after)
    (index : Fin cfg.maxNumThreads) : LaneChange s.pool s'.pool index f after := by
  cases hmove with
  | runWorker hmove => exact hmove.laneChange
  | enqueue hmove => exact hmove.laneChange
  | retire hmove => exact hmove.laneChange
  | finishAllThreads hmove => exact hmove.laneChange
  | abandonAllThreads hmove => exact hmove.laneChange
  | parallelFor hmove => exact .of_queues (by cases hmove <;> rfl)
  | parallelForAsync hmove => exact .of_queues (by cases hmove <;> rfl)
  | drainIndices hmove => exact .of_queues (by cases hmove <;> rfl)
  | _ => exact .of_queues rfl

/-! ### The lane of a task -/

/-- The lane selector has been read once for each task. -/
def PoolState.SelectorCounts (s : PoolState workers clients Code) : Prop :=
  s.laneSelector = s.history.nextTaskId % 2 ^ 32

/-- Before its push a task is on its way to the lane that its serial number gives. -/
def Frame.onItsLane (cfg : PoolConfig) : Frame cfg.maxNumThreads Code → Prop
  | .enqueue (.register index item) => cfg.lane item.id = index
  | .enqueue (.increment index item) => cfg.lane item.id = index
  | .enqueue (.push index item) => cfg.lane item.id = index
  | _ => True

theorem PoolConfig.lane_mod (cfg : PoolConfig) (x : ℕ) : cfg.lane (x % 2 ^ 32) = cfg.lane x :=
  Fin.ext (by rw [cfg.lane_val, cfg.lane_val, Nat.mod_mod])

section Selector

variable {s s' : PoolState cfg.maxNumThreads clients Code} {after : List (Frame cfg.maxNumThreads Code)}

theorem PoolState.SelectorCounts.congr (h : s.SelectorCounts) (hselector : s'.laneSelector = s.laneSelector)
    (hnext : s'.history.nextTaskId = s.history.nextTaskId) : s'.SelectorCounts := by
  rw [SelectorCounts, hselector, hnext]
  exact h

theorem selector_tryPop {index : Fin cfg.maxNumThreads} {item : TaggedTask Code}
    (hpop : s.tryPop index = some (item, s')) (h : s.SelectorCounts) : s'.SelectorCounts := by
  obtain ⟨lane, -, rfl⟩ := PoolState.tryPop_eq_some hpop
  exact h

theorem selector_completeTaggedTask {tagState : Option ℕ}
    (hcomplete : s.completeTaggedTask tagState = some s') (h : s.SelectorCounts) : s'.SelectorCounts := by
  obtain ⟨tagNodes, waiters, rfl⟩ := PoolState.completeTaggedTask_setTags hcomplete
  exact h

theorem nextTaskId_finishLocal (h : History workers) (item : Option (TaggedTask Code × Fate)) :
    (h.finishLocal item).nextTaskId = h.nextTaskId := by
  cases item <;> rfl

theorem EnqueueMove.selectorCounts {pc : EnqueuePc cfg.maxNumThreads Code}
    (hmove : EnqueueMove cfg s pc s' after) (h : s.SelectorCounts) : s'.SelectorCounts := by
  cases hmove with
  | startUntagged | startTagged =>
    change (s.laneSelector + 1) % 2 ^ 32 = (s.history.nextTaskId + 1) % 2 ^ 32
    rw [h, Nat.mod_add_mod]
  | drop hemplace | register hemplace =>
    obtain ⟨tagStates, tagNodes, rfl⟩ := PoolState.tryEmplace_setTags hemplace
    exact h
  | push hpush =>
    obtain ⟨lane, -, rfl⟩ := PoolState.push_eq_some hpush
    exact h
  | complete hcomplete => exact selector_completeTaggedTask hcomplete h
  | _ => exact h

theorem EnqueueMove.onItsLane {pc : EnqueuePc cfg.maxNumThreads Code}
    (hmove : EnqueueMove cfg s pc s' after) (hselector : s.SelectorCounts)
    (h : (Frame.enqueue pc).onItsLane cfg) : ∀ f ∈ after, f.onItsLane cfg := by
  have hstart : cfg.lane s.history.nextTaskId = cfg.lane s.laneSelector := by
    rw [hselector, cfg.lane_mod]
  cases hmove with
  | startUntagged => exact List.forall_mem_singleton.mpr hstart
  | startTagged => exact List.forall_mem_singleton.mpr hstart
  | register => exact List.forall_mem_singleton.mpr h
  | increment => exact List.forall_mem_singleton.mpr h
  | drop | skipGate | notify => exact fun f hf => absurd hf List.not_mem_nil
  | _ => exact List.forall_mem_singleton.mpr trivial

end Selector

theorem FrameMove.selectorCounts {t : ThreadId cfg.maxNumThreads clients}
    {s s' : Shared cfg.maxNumThreads clients U.Code} {f : Frame cfg.maxNumThreads U.Code}
    {after : List (Frame cfg.maxNumThreads U.Code)} (hmove : FrameMove cfg U t s f s' after)
    (h : s.pool.SelectorCounts) : s'.pool.SelectorCounts := by
  cases hmove with
  | enqueue hmove => exact hmove.selectorCounts h
  | runWorker hmove =>
    cases hmove with
    | tryGetTask hget =>
      cases hget with
      | popOwn hpop | steal _ hpop => exact selector_tryPop hpop h
      | _ => exact h
    | complete hcomplete => exact selector_completeTaggedTask hcomplete h
    | _ => exact h
  | retire hmove =>
    cases hmove with
    | subtractOutstanding _ hwait | wait _ hwait =>
      cases hwait with
      | finish =>
        obtain ⟨tagStates, tagNodes, herase⟩ := PoolState.eraseTag_setTags _ _
        exact herase ▸ h
      | block => exact h
    | _ => exact h
  | finishAllThreads hmove =>
    cases hmove with
    | pop _ hpop => exact (selector_tryPop hpop h).congr rfl (nextTaskId_finishLocal _ _)
    | complete hcomplete => exact selector_completeTaggedTask hcomplete h
    | assertQueued => exact h.congr rfl (nextTaskId_finishLocal _ _)
    | _ => exact h
  | abandonAllThreads hmove =>
    cases hmove with
    | pop _ hpop => exact (selector_tryPop hpop h).congr rfl (nextTaskId_finishLocal _ _)
    | laneEmpty | swept => exact h.congr rfl (nextTaskId_finishLocal _ _)
    | complete hcomplete => exact selector_completeTaggedTask hcomplete h
    | _ => exact h
  | parallelFor hmove => cases hmove <;> exact h
  | parallelForAsync hmove => cases hmove <;> exact h
  | drainIndices hmove => cases hmove <;> exact h
  | _ => exact h

theorem Closure.onItsLane_frame (task : Closure Code) :
    (task.frame : Frame cfg.maxNumThreads Code).onItsLane cfg := by
  cases task <;> trivial

theorem FrameMove.onItsLane {t : ThreadId cfg.maxNumThreads clients}
    {s s' : Shared cfg.maxNumThreads clients U.Code} {f : Frame cfg.maxNumThreads U.Code}
    {after : List (Frame cfg.maxNumThreads U.Code)} (hmove : FrameMove cfg U t s f s' after)
    (hselector : s.pool.SelectorCounts) (h : f.onItsLane cfg) : ∀ g ∈ after, g.onItsLane cfg := by
  cases hmove with
  | @body code i =>
    cases U.next code i with
    | call request resume => cases request <;> simp [UserStep.frames, UserCall.frame, Frame.onItsLane]
    | ret => simp [UserStep.frames]
    | throw => simp [UserStep.frames, Frame.onItsLane]
  | resume => simp [Frame.onItsLane]
  | runWorker hmove =>
    cases hmove with
    | begin => exact List.forall_mem_cons.mpr ⟨Closure.onItsLane_frame _, List.forall_mem_singleton.mpr trivial⟩
    | _ => simp [Frame.onItsLane]
  | enqueue hmove => exact hmove.onItsLane hselector h
  | retire hmove =>
    cases hmove with
    | subtractOutstanding _ hwait | wait _ hwait => cases hwait <;> simp [Frame.onItsLane]
    | _ => simp [Frame.onItsLane]
  | @finishAllThreads completePendingTasks _ _ _ hmove =>
    have hjoin : ∀ g ∈ afterJoin cfg.maxNumThreads U.Code completePendingTasks, g.onItsLane cfg := by
      cases completePendingTasks <;> simp [afterJoin, Frame.onItsLane]
    cases hmove with
    | notifyAllJoined | assertIdle => exact hjoin
    | begin => exact List.forall_mem_cons.mpr ⟨Closure.onItsLane_frame _, List.forall_mem_singleton.mpr trivial⟩
    | _ => simp [Frame.onItsLane]
  | abandonAllThreads hmove => cases hmove <;> simp [Frame.onItsLane]
  | parallelFor hmove => cases hmove <;> simp [Frame.onItsLane]
  | parallelForAsync hmove => cases hmove <;> simp [Frame.onItsLane]
  | drainIndices hmove => cases hmove <;> simp [Frame.onItsLane]

/-- Every task is in the lane that its serial number gives, or on its way to it. -/
structure PoolSystem.OnItsLane (s : PoolSystem cfg U clients) : Prop where
  selector : s.shared.pool.SelectorCounts
  frames : ∀ t, ∀ f ∈ s.threads t, f.onItsLane cfg
  queued : ∀ index, ∀ item ∈ (s.shared.pool.queues index).items, cfg.lane item.id = index

namespace PoolSystem

variable {s s' : PoolSystem cfg U clients}

theorem OnItsLane.step (h : s.OnItsLane) (hstep : (poolSystem cfg U clients).Step s s') :
    s'.OnItsLane where
  selector := by
    cases step_move hstep with
    | mk t hstack hrule =>
      cases hrule with
      | frame hmove => exact hmove.selectorCounts h.selector
      | unwind => exact h.selector
  frames := by
    refine (step_move hstep).forall_frames (P := fun _ _ f => f.onItsLane cfg)
      (fun t before after hrule _ hbefore => ?_) (fun _ _ _ h => h) h.frames
    generalize s'.shared = shared' at hrule
    cases hrule with
    | frame hmove => exact hmove.onItsLane h.selector (hbefore _ (List.mem_singleton_self _))
    | unwind hunwind =>
      unfold CppUtils.unwind at hunwind
      split at hunwind <;> cases hunwind <;> exact List.forall_mem_singleton.mpr trivial
  queued index item hitem := by
    have hqueued := h.queued index item
    cases step_move hstep with
    | mk t hstack hrule =>
      cases hrule with
      | @frame _ _ f _ _ hmove =>
        cases hmove.laneChange index with
        | same hsame => exact hqueued (hsame ▸ hitem)
        | pushed hf hitems =>
          rcases List.mem_append.mp (hitems ▸ hitem) with hitem | hitem
          · exact hqueued hitem
          · obtain rfl := List.mem_singleton.mp hitem
            have hlane := h.frames t f (hstack ▸ List.mem_cons_self)
            rwa [hf] at hlane
        | taken _ _ hitems | drained _ hitems =>
          exact hqueued (hitems ▸ List.mem_cons_of_mem _ hitem)
        | removed _ hitems => exact hqueued (List.mem_of_mem_filter (hitems ▸ hitem))
      | unwind => exact hqueued hitem

theorem onItsLane (hreach : (poolSystem cfg U clients).Reachable s) : s.OnItsLane := by
  refine TransitionSystem.Reachable.invariant OnItsLane ?_ (fun s s' _ hI hstep => hI.step hstep) hreach
  rintro s ⟨main, rfl⟩
  refine ⟨rfl, fun t f hf => ?_, fun index item hitem => absurd hitem List.not_mem_nil⟩
  cases t <;> rw [List.mem_singleton.mp hf] <;> trivial

theorem nodup_ids (hreach : (poolSystem cfg U clients).Reachable s) (index : Fin cfg.maxNumThreads) :
    ((s.shared.pool.queues index).items.map TaggedTask.id).Nodup := by
  refine List.nodup_iff_count_le_one.mpr fun id => ?_
  have hplaces := places_ledger s id
  have hone := Ledger.places_eq (ledger_reachable hreach) id
  have hlane : (s.shared.pool.queues index).items.countP (fun item => item.id = id)
      ≤ s.shared.pool.inLanes id :=
    Finset.single_le_sum (f := fun i => (s.shared.pool.queues i).items.countP fun item => item.id = id)
      (fun _ _ => Nat.zero_le _) (Finset.mem_univ index)
  have hcount : ((s.shared.pool.queues index).items.map TaggedTask.id).count id =
      (s.shared.pool.queues index).items.countP fun item => item.id = id := by
    rw [List.count_eq_countP, List.countP_map]
    exact List.countP_congr fun item _ => by simp
  split_ifs at hone <;> omega

end PoolSystem

/-! ### Shares -/

theorem count_of_periodic {p : ℕ → Prop} [DecidablePred p] {period : ℕ}
    (hperiod : ∀ k, p (period + k) ↔ p k) (wraps rest : ℕ) :
    Nat.count p (period * wraps + rest) = wraps * Nat.count p period + Nat.count p rest := by
  induction wraps with
  | zero => simp
  | succ wraps ih =>
    have hshift : Nat.count (fun k => p (period + k)) (period * wraps + rest)
        = Nat.count p (period * wraps + rest) := by
      simp only [hperiod]
    rw [Nat.mul_succ, Nat.add_comm (period * wraps), Nat.add_assoc, Nat.count_add, hshift, ih]
    ring

/-- Whole quotients of the parts of a sum lose at most one for each part. -/
theorem div_of_wraps {n : ℕ} (hn : 0 < n) (period wraps rest : ℕ) :
    wraps * (period / n) + rest / n ≤ (period * wraps + rest) / n ∧
      (period * wraps + rest) / n ≤ wraps * (period / n) + rest / n + wraps := by
  constructor
  · rw [Nat.le_div_iff_mul_le hn]
    calc (wraps * (period / n) + rest / n) * n
        = wraps * (period / n * n) + rest / n * n := by ring
      _ ≤ wraps * period + rest :=
          Nat.add_le_add (Nat.mul_le_mul_left _ (Nat.div_mul_le_self _ _)) (Nat.div_mul_le_self _ _)
      _ = period * wraps + rest := by ring
  · rw [← Nat.lt_succ_iff, Nat.div_lt_iff_lt_mul hn]
    calc period * wraps + rest < n * (period / n + 1) * wraps + n * (rest / n + 1) :=
          Nat.add_lt_add_of_le_of_lt (Nat.mul_le_mul_right _ (Nat.lt_mul_div_succ _ hn).le)
            (Nat.lt_mul_div_succ _ hn)
      _ = (wraps * (period / n) + rest / n + wraps + 1) * n := by ring

/-- How many of the first `total` tasks go to a lane. -/
def PoolConfig.laneShare (cfg : PoolConfig) (total : ℕ) (index : Fin cfg.maxNumThreads) : ℕ :=
  Nat.count (fun id => cfg.lane id = index) total

theorem PoolConfig.laneShare_of_le (cfg : PoolConfig) {total : ℕ} (hle : total ≤ 2 ^ 32)
    (index : Fin cfg.maxNumThreads) :
    total / cfg.maxNumThreads ≤ cfg.laneShare total index ∧
      cfg.laneShare total index ≤ total / cfg.maxNumThreads + 1 := by
  have hturns : cfg.laneShare total index = Nat.count (· ≡ index.val [MOD cfg.maxNumThreads]) total := by
    rw [laneShare, Nat.count_eq_card_filter_range, Nat.count_eq_card_filter_range]
    refine congrArg Finset.card (Finset.filter_congr fun id hid => ?_)
    have hlt : id < 2 ^ 32 := (Finset.mem_range.mp hid).trans_le hle
    rw [Fin.ext_iff, cfg.lane_val, Nat.mod_eq_of_lt hlt, Nat.ModEq, Nat.mod_eq_of_lt index.isLt]
  rw [hturns, Nat.count_modEq_card _ cfg.pos]
  constructor
  · exact Nat.le_add_right _ _
  · split <;> omega

/-- The share of a lane is the quotient, up to one task and one more for each wrap of the counter. -/
theorem PoolConfig.laneShare_bounds (cfg : PoolConfig) (total : ℕ) (index : Fin cfg.maxNumThreads) :
    total / cfg.maxNumThreads ≤ cfg.laneShare total index + total / 2 ^ 32 + 1 ∧
      cfg.laneShare total index ≤ total / cfg.maxNumThreads + total / 2 ^ 32 + 1 := by
  have hperiodic : ∀ k, cfg.lane (2 ^ 32 + k) = index ↔ cfg.lane k = index := fun k => by
    rw [← cfg.lane_mod, Nat.add_mod_left, cfg.lane_mod]
  have hsplit : cfg.laneShare (2 ^ 32 * (total / 2 ^ 32) + total % 2 ^ 32) index
      = total / 2 ^ 32 * cfg.laneShare (2 ^ 32) index + cfg.laneShare (total % 2 ^ 32) index :=
    count_of_periodic hperiodic _ _
  have hquotient := div_of_wraps cfg.pos (2 ^ 32) (total / 2 ^ 32) (total % 2 ^ 32)
  rw [Nat.div_add_mod] at hsplit hquotient
  obtain ⟨hperiod, hperiod'⟩ := cfg.laneShare_of_le le_rfl index
  obtain ⟨hrest, hrest'⟩ := cfg.laneShare_of_le (Nat.mod_lt total (Nat.two_pow_pos 32)).le index
  have hwraps := Nat.mul_le_mul_left (total / 2 ^ 32) hperiod
  have hwraps' := Nat.mul_le_mul_left (total / 2 ^ 32) hperiod'
  rw [Nat.mul_succ] at hwraps'
  constructor <;> omega

/-- Every queued task is in the lane that its serial number gives. So no lane holds more than its share
of the tasks, and the share is the number of tasks by the number of workers, up to one task and one more
for each wrap of the lane selector. -/
theorem lanes_areBalanced {s : PoolSystem cfg U clients} (hreach : (poolSystem cfg U clients).Reachable s)
    (index : Fin cfg.maxNumThreads) :
    (∀ item ∈ (s.shared.pool.queues index).items, cfg.lane item.id = index) ∧
      (s.shared.pool.queues index).items.length
        ≤ cfg.laneShare s.shared.pool.history.nextTaskId index ∧
      ∀ total, total / cfg.maxNumThreads ≤ cfg.laneShare total index + total / 2 ^ 32 + 1 ∧
        cfg.laneShare total index ≤ total / cfg.maxNumThreads + total / 2 ^ 32 + 1 := by
  have hqueued := (PoolSystem.onItsLane hreach).queued index
  refine ⟨hqueued, ?_, fun total => cfg.laneShare_bounds total index⟩
  rw [PoolConfig.laneShare, Nat.count_eq_card_filter_range, ← List.length_map TaggedTask.id,
    ← List.toFinset_card_of_nodup (PoolSystem.nodup_ids hreach index)]
  refine Finset.card_le_card fun id hid => ?_
  obtain ⟨item, hitem, rfl⟩ := List.mem_map.mp (List.mem_toFinset.mp hid)
  have hcreated := Ledger.lt_nextTaskId_of_mem (PoolSystem.ledger_reachable hreach) _
    (PoolSystem.mem_held_of_lane hitem)
  exact Finset.mem_filter.mpr ⟨Finset.mem_range.mpr hcreated, hqueued item hitem⟩

def twoPushed : Option (PoolSystem threeWorkers scriptCode 0) :=
  scriptRun threeWorkers 0 (fun _ => .call (.enqueue .ret 0) (.call (.enqueue .ret 0) .ret))
    [(.owner, .input ()), (.owner, .go), (.owner, .go), (.owner, .go), (.owner, .go), (.owner, .go),
      (.owner, .input ()), (.owner, .go), (.owner, .go), (.owner, .go)]

theorem lanes_areBalanced_twoPushed :
    ∃ s, twoPushed = some s ∧ (s.shared.pool.queues 1).items.length = 1 ∧
      (∀ item ∈ (s.shared.pool.queues 1).items, threeWorkers.lane item.id = 1) ∧
      1 ≤ threeWorkers.laneShare 2 1 := by
  have hrun : twoPushed.map (fun s => (s.shared.pool.history.nextTaskId,
      (s.shared.pool.queues 1).items.length)) = some (2, 1) := by decide
  obtain ⟨s, hs, hvalues⟩ := Option.map_eq_some_iff.mp hrun
  obtain ⟨hnext, hlength⟩ := Prod.mk.inj hvalues
  obtain ⟨hlane, hshare, -⟩ := lanes_areBalanced (scriptRun_reachable hs) 1
  rw [hnext, hlength] at hshare
  exact ⟨s, hs, hlength, hlane, hshare⟩

end CppUtils
