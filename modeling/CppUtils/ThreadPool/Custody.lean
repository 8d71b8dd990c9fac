import CppUtils.ThreadPool.LedgerRetire
import CppUtils.ThreadPool.Weights

/-!
# The pool refines the ledger

Where each task is held: in a lane, in the local `TaggedTask` of a call, or in the closure argument
of one. Taking the lanes and all calls together gives a ledger, and each step of the pool is a short
run of it.
-/

namespace CppUtils

open Threaded Relation

variable {clients workers : ℕ} {U : UserCode} {Code : Type} {cfg : PoolConfig}

/-- The tasks that calls hold, and the `retire` calls. -/
abbrev Holdings (Code : Type) := Multiset (HeldTask Code) × Multiset Retiring

def holding (item : TaggedTask Code) (stage : Stage) : Holdings Code := ({(item, stage)}, 0)

/-- A call whose local `TaggedTask` may hold a task that has run its course. -/
def holdingLocal : Option (TaggedTask Code × Fate) → Holdings Code
  | none => 0
  | some (item, fate) => holding item (.released fate)

/-- A `retire` call past its first block. -/
def holdingRetire (tag tagState removed : ℕ) : Holdings Code := (0, {⟨tag, tagState, removed⟩})

@[simp] theorem holding_snd (item : TaggedTask Code) (stage : Stage) :
    (holding item stage).2 = 0 := rfl

@[simp] theorem holdingLocal_snd (item : Option (TaggedTask Code × Fate)) :
    (holdingLocal item).2 = 0 := by
  cases item <;> rfl

@[simp] theorem holdingRetire_fst (tag tagState removed : ℕ) :
    (holdingRetire tag tagState removed : Holdings Code).1 = 0 := rfl

@[simp] theorem holdingRetire_snd (tag tagState removed : ℕ) :
    (holdingRetire tag tagState removed : Holdings Code).2 = {⟨tag, tagState, removed⟩} := rfl

/-- What each call holds. Before the registration the pointer of a task is null. -/
@[simps] def custody (workers : ℕ) (Code : Type) : PoolWeights workers Code (Holdings Code) where
  enqueue
    | .register _ item => holding { item with tagState := none } .entering
    | .increment _ item => holding item .entering
    | .push _ item => holding item .entering
    | .undoIncrement item => holding item (.ended .discarded)
    | .completeTaggedTask item => holding item (.ended .discarded)
    | .rethrow item => holding item (.released .discarded)
    | _ => 0
  runWorker
    | _, .tryGetTask (.popped item) => holding item .taken
    | _, .taggedTaskCanRun item => holding item .taken
    | _, .begin item => holding item .cleared
    | _, .running item => holding item .running
    | _, .completeTaggedTask item fate => holding item (.ended fate)
    | _, .scopeEnd item fate => holding item (.released fate)
    | _, _ => 0
  retire
    | tag, .sweep tagState _ removedCount => holdingRetire tag tagState removedCount
    | tag, .subtractQueued tagState removedCount => holdingRetire tag tagState removedCount
    | tag, .subtractOutstanding tagState removedCount => holdingRetire tag tagState removedCount
    | tag, .wait tagState => holdingRetire tag tagState 0
    | _, .start => 0
  finishAllThreads
    | .drain _ _ item => holdingLocal item
    | .decrement _ item => holding item .taken
    | .taggedTaskCanRun _ item => holding item .taken
    | .begin _ item => holding item .cleared
    | .running _ item => holding item .running
    | .completeTaggedTask _ item fate => holding item (.ended fate)
    | .assertQueued item => holdingLocal item
    | _ => 0
  abandonAllThreads
    | .sweep _ item => holdingLocal (item.map (·, .abandoned))
    | .decrement _ item => holding item .taken
    | .completeTaggedTask _ item => holding item (.ended .abandoned)
    | _ => 0

namespace PoolState

def queuedTasks (s : PoolState workers clients Code) : Multiset (HeldTask Code) :=
  ∑ i, ((s.queues i).items.map fun item => (item, Stage.queued) : Multiset (HeldTask Code))

variable {s s' : PoolState workers clients Code} {item : TaggedTask Code} {index : Fin workers}

theorem queuedTasks_setLane (s : PoolState workers clients Code) (index : Fin workers)
    (lane : Lane Code) :
    ∃ r, s.queuedTasks
        = ((s.queues index).items.map fun item => (item, Stage.queued) : Multiset (HeldTask Code)) + r ∧
      (s.setLane index lane).queuedTasks
        = (lane.items.map fun item => (item, Stage.queued) : Multiset (HeldTask Code)) + r := by
  obtain ⟨r, hbefore, hafter⟩ := sum_split
    (fun lane : Lane Code => (lane.items.map fun item => (item, Stage.queued) : Multiset (HeldTask Code)))
    s.queues index
  exact ⟨r, hbefore, hafter lane⟩

theorem queuedTasks_tryPop (h : s.tryPop index = some (item, s')) :
    s.queuedTasks = (item, .queued) ::ₘ s'.queuedTasks := by
  obtain ⟨lane, hlane, rfl⟩ := tryPop_eq_some h
  obtain ⟨r, hbefore, hafter⟩ := s.queuedTasks_setLane index lane
  rw [hbefore, hafter, hlane, List.map_cons, ← Multiset.cons_coe, Multiset.cons_add]

theorem queuedTasks_push (h : s.push index item = some s') :
    s'.queuedTasks = (item, .queued) ::ₘ s.queuedTasks := by
  obtain ⟨lane, hlane, rfl⟩ := push_eq_some h
  obtain ⟨r, hbefore, hafter⟩ := s.queuedTasks_setLane index lane
  rw [hbefore, hafter, hlane, List.map_append, ← Multiset.coe_add, add_right_comm, List.map_singleton,
    Multiset.coe_singleton, add_comm, Multiset.singleton_add]

theorem queuedTasks_removeIf (s : PoolState workers clients Code) (index : Fin workers)
    (tagState : ℕ) :
    s.queuedTasks = ((s.matching index tagState).map fun item => (item, Stage.queued) :
      Multiset (HeldTask Code)) + (s.removeIf index tagState).queuedTasks := by
  obtain ⟨r, hbefore, hafter⟩ := s.queuedTasks_setLane index
    ((s.queues index).eraseIf fun item => item.tagState = some tagState)
  have hremove : (s.removeIf index tagState).queuedTasks = (s.setLane index
    ((s.queues index).eraseIf fun item => item.tagState = some tagState)).queuedTasks := rfl
  rw [hremove, hbefore, hafter, ← add_assoc, Multiset.coe_add, ← List.map_append]
  congr 1
  exact Multiset.coe_eq_coe.mpr ((List.filter_append_perm _ _).symm.map _)

theorem countP_queuedTasks (s : PoolState workers clients Code) (p : HeldTask Code → Prop) [DecidablePred p] :
    s.queuedTasks.countP p = ∑ i, (s.queues i).items.countP fun item => p (item, .queued) := by
  have hsum := map_sum (Multiset.countPAddMonoidHom p)
    (fun i => ((s.queues i).items.map fun item => (item, Stage.queued) : Multiset (HeldTask Code)))
    Finset.univ
  refine hsum.trans (Finset.sum_congr rfl fun i _ => ?_)
  simp [Multiset.coe_countP, List.countP_map, Function.comp_def]

/-- The ledger of the lanes and of what some calls hold. -/
def ledger (s : PoolState workers clients Code) (m : Holdings Code) : Ledger workers Code :=
  ⟨m.1 + s.queuedTasks, m.2, s.tagStates, s.tagNodes, s.history⟩

end PoolState

noncomputable def PoolSystem.ledger (s : PoolSystem cfg U clients) :
    Ledger cfg.maxNumThreads U.Code :=
  s.shared.pool.ledger (s.total (custody _ _))

namespace Ledger

variable {l l' : Ledger workers Code}

/-- A step that begins no `retire`. -/
def QuietStep (l l' : Ledger workers Code) : Prop :=
  Step l l' ∧ l'.retiring.map Retiring.tag ≤ l.retiring.map Retiring.tag

/-- What a step of the pool is in the ledger: some steps that begin no `retire`, or one step. -/
def Run (l l' : Ledger workers Code) : Prop := ReflTransGen QuietStep l l' ∨ Step l l'

/-- The ledger with more tasks and calls that take no part. -/
def frame (l : Ledger workers Code) (m : Holdings Code) : Ledger workers Code :=
  { l with held := l.held + m.1, retiring := l.retiring + m.2 }

theorem Step.frame (hstep : Step l l') (m : Holdings Code) : Step (l.frame m) (l'.frame m) := by
  cases hstep
  all_goals simp only [Ledger.frame, Multiset.cons_add, add_assoc]
  case skip _ _ _ _ _ _ hitem hnode hretired => exact .skip _ _ _ _ _ _ _ _ hitem hnode hretired
  case completeUntagged hitem => exact .completeUntagged _ _ _ _ _ _ _ hitem
  all_goals constructor <;> assumption

theorem QuietStep.frame (hstep : QuietStep l l') (m : Holdings Code) :
    QuietStep (l.frame m) (l'.frame m) := by
  refine ⟨hstep.1.frame m, ?_⟩
  simpa only [Ledger.frame, Multiset.map_add] using add_le_add_left hstep.2 _

theorem Run.frame (hrun : Run l l') (m : Holdings Code) : Run (l.frame m) (l'.frame m) := by
  rcases hrun with hsteps | hstep
  · exact .inl (hsteps.lift (Ledger.frame · m) fun _ _ h => h.frame m)
  · exact .inr (hstep.frame m)

theorem Run.refl (l : Ledger workers Code) : Run l l := .inl .refl

end Ledger

namespace PoolState

/-! ### The operations of the pool in the ledger -/

open Ledger

variable {s s' : PoolState workers clients Code} {item : TaggedTask Code} {index : Fin workers}

theorem ledger_add (s : PoolState workers clients Code) (m r : Holdings Code) :
    s.ledger (m + r) = (s.ledger m).frame r := by
  simp only [ledger, Ledger.frame, Prod.fst_add, Prod.snd_add, add_right_comm]

@[simp] theorem ledger_zero (s : PoolState workers clients Code) :
    s.ledger 0 = ⟨s.queuedTasks, 0, s.tagStates, s.tagNodes, s.history⟩ := by
  simp [ledger]

@[simp] theorem ledger_holding (s : PoolState workers clients Code) (item : TaggedTask Code)
    (stage : Stage) :
    s.ledger (holding item stage)
      = ⟨(item, stage) ::ₘ s.queuedTasks, 0, s.tagStates, s.tagNodes, s.history⟩ := by
  simp [ledger, holding]

@[simp] theorem ledger_holdingRetire (s : PoolState workers clients Code)
    (tag tagState removed : ℕ) :
    s.ledger (holdingRetire tag tagState removed)
      = ⟨s.queuedTasks, ⟨tag, tagState, removed⟩ ::ₘ 0, s.tagStates, s.tagNodes, s.history⟩ := by
  simp [ledger, holdingRetire]

theorem advance_run {st st' : Stage} (hnext : st.Next st') :
    Run (s.ledger (holding item st)) (s.ledger (holding item st')) := by
  rw [ledger_holding, ledger_holding]
  exact .inr (.advance _ _ _ _ _ _ hnext)

theorem begin_run (worker : Option (Fin workers)) :
    Run (s.ledger (holding item .cleared))
      ((s.setHistory (s.history.beginBody item worker)).ledger (holding item .running)) := by
  rw [ledger_holding, ledger_holding]
  exact .inr (.begin _ _ _ _ _ _ _)

theorem push_run (h : s.push index item = some s') :
    Run (s.ledger (holding item .entering)) (s'.ledger 0) := by
  have hqueued := queuedTasks_push h
  obtain ⟨lane, -, rfl⟩ := push_eq_some h
  rw [ledger_holding, ledger_zero, hqueued]
  exact .inr (.advance _ _ _ _ _ _ .push)

theorem tryEmplace_steps {tag address tagState : ℕ} (m : Holdings Code)
    (h : s.tryEmplace tag address = some (tagState, s')) :
    ReflTransGen QuietStep (s.ledger m) (s'.ledger m) ∧ s'.tagStates tag = some tagState := by
  unfold tryEmplace at h
  split at h
  · rename_i hentry
    cases h
    exact ⟨.refl, hentry⟩
  · rename_i hnew
    split at h
    · cases h
    · rename_i hfree
      cases h
      exact ⟨.single ⟨.emplace _ _ _ _ _ _ _ hnew hfree, le_rfl⟩, Function.update_self ..⟩

theorem finishLocal_steps (item : Option (TaggedTask Code × Fate)) :
    ReflTransGen QuietStep (s.ledger (holdingLocal item))
      ((s.setHistory (s.history.finishLocal item)).ledger 0) := by
  rcases item with _ | ⟨item, fate⟩
  · exact .refl
  · rw [holdingLocal, ledger_holding, ledger_zero]
    exact .single ⟨.destroy _ _ _ _ _ _ _, le_rfl⟩

/-- A task is taken from a lane into a local `TaggedTask`, whose closure is destroyed first. -/
theorem pop_run (h : s.tryPop index = some (item, s')) (old : Option (TaggedTask Code × Fate)) :
    Run (s.ledger (holdingLocal old))
      ((s'.setHistory (s'.history.finishLocal old)).ledger (holding item .taken)) := by
  have hqueued := queuedTasks_tryPop h
  change (s.setHistory (s.history.finishLocal old)).queuedTasks = _ at hqueued
  obtain ⟨lane, -, rfl⟩ := tryPop_eq_some h
  refine .inl ((s.finishLocal_steps old).tail ⟨?_, le_rfl⟩)
  rw [ledger_zero, ledger_holding, hqueued]
  exact .advance _ _ _ _ _ _ .take

theorem completeTaggedTask_run {fate : Fate} (h : s.completeTaggedTask item.tagState = some s') :
    Run (s.ledger (holding item (.ended fate))) (s'.ledger (holding item (.released fate))) := by
  rw [ledger_holding, ledger_holding]
  unfold completeTaggedTask at h
  split at h
  · rename_i hitem
    cases h
    exact .inr (.completeUntagged _ _ _ _ _ _ _ hitem)
  · rename_i hitem
    split at h
    · cases h
    · rename_i hnode
      split at h <;> cases h <;> exact .inr (.complete _ _ _ _ _ _ _ _ _ hitem hnode)

theorem skip_run (h : s.taggedTaskCanRun item.tagState = some false) :
    Run (s.ledger (holding item .taken)) (s.ledger (holding item (.ended .skipped))) := by
  rw [ledger_holding, ledger_holding]
  unfold taggedTaskCanRun at h
  split at h
  · cases h
  · rename_i hitem
    split at h
    · cases h
    · rename_i node hnode
      have hretired : node.retired = true := by simpa using h
      exact .inr (.skip _ _ _ _ _ _ _ _ hitem hnode hretired)

end PoolState

/-! ### Every step of the pool is a run of the ledger -/

namespace Custody

open Ledger PoolState

/-- The law of one step: the ledgers before and after it are joined by a run. -/
abbrev LedgerLaw (s : PoolState workers clients Code) (m : Holdings Code)
    (s' : PoolState workers clients Code) (m' : Holdings Code) : Prop :=
  Run (s.ledger m) (s'.ledger m')

variable {s s' : PoolState cfg.maxNumThreads clients Code}
  {after : List (Frame cfg.maxNumThreads Code)}

theorem enqueue_law {pc : EnqueuePc cfg.maxNumThreads Code}
    (hmove : EnqueueMove cfg s pc s' after) :
    LedgerLaw s ((custody _ Code).enqueue pc) s'
      (stackWeight (Frame.poolWeight (custody _ Code)) after) := by
  cases hmove
  all_goals simp only [stackWeight_cons, stackWeight_nil, Frame.poolWeight_enqueue,
    Frame.poolWeight_unwinding, custody_enqueue, add_zero, LedgerLaw]
  case startUntagged =>
    rw [ledger_zero, ledger_holding]
    exact .inr (.create _ _ _ _ _ _ rfl rfl)
  case startTagged =>
    rw [ledger_zero, ledger_holding]
    exact .inr (.create _ _ _ _ _ _ rfl rfl)
  case drop hemplace hnode hretired =>
    obtain ⟨hsteps, hentry⟩ := tryEmplace_steps (holding _ .entering) hemplace
    refine .inl (hsteps.tail ⟨?_, le_rfl⟩)
    rw [ledger_holding, ledger_zero]
    exact .drop _ _ _ _ _ _ _ _ rfl hentry hnode hretired
  case register hemplace hnode hretired =>
    obtain ⟨hsteps, hentry⟩ := tryEmplace_steps (holding _ .entering) hemplace
    refine .inl (hsteps.tail ⟨?_, le_rfl⟩)
    rw [ledger_holding, ledger_holding]
    exact .register _ _ _ _ _ _ _ _ rfl hentry hnode (Bool.eq_false_iff.mpr hretired)
  case push hpush => exact push_run hpush
  case pushThrows => exact advance_run .pushThrew
  case complete hcomplete => exact completeTaggedTask_run hcomplete
  case rethrow item => exact .inl (s.finishLocal_steps (some (item, .discarded)))
  all_goals exact Run.refl _

theorem runWorker_law {t : ThreadId cfg.maxNumThreads clients} {own : Fin cfg.maxNumThreads}
    {pc : RunWorkerPc Code} (hmove : RunWorkerMove cfg t s own pc s' after) :
    LedgerLaw s ((custody _ Code).runWorker own pc) s'
      (stackWeight (Frame.poolWeight (custody _ Code)) after) := by
  cases hmove
  all_goals simp only [stackWeight_cons, stackWeight_nil, Frame.poolWeight_runWorker,
    Frame.poolWeight_closure, custody_runWorker, add_zero, zero_add, LedgerLaw]
  case tryGetTask hget =>
    cases hget with
    | popOwn hpop | steal _ hpop => exact pop_run hpop none
    | _ => exact Run.refl _
  case canRun => exact advance_run .clear
  case skip hrun => exact skip_run hrun
  case begin => exact begin_run _
  case ran => exact advance_run .ran
  case complete hcomplete => exact completeTaggedTask_run hcomplete
  case scopeEnd item fate => exact .inl (s.finishLocal_steps (some (item, fate)))
  case pass hpred hpc => rcases hpc with rfl | ⟨rfl, -⟩ <;> exact Run.refl _
  case block hpred hpc => rcases hpc with rfl | ⟨rfl, -⟩ <;> exact Run.refl _
  all_goals exact Run.refl _

theorem retireWait_steps {t : ThreadId cfg.maxNumThreads clients} {tag tagState : ℕ}
    (hmove : RetireWaitMove cfg t s tag tagState s' after) :
    ReflTransGen QuietStep (s.ledger (holdingRetire tag tagState 0))
      (s'.ledger (stackWeight (Frame.poolWeight (custody _ Code)) after)) := by
  cases hmove with
  | finish hnode hzero =>
    simp only [stackWeight_nil, ledger_zero, ledger_holdingRetire]
    unfold eraseTag
    split
    · rename_i hentry
      exact .single ⟨.retireEnd _ _ _ _ _ _ _ _ hnode hzero hentry, by simp⟩
    · rename_i hentry
      exact .single ⟨.retireEndStale _ _ _ _ _ _ _ _ hnode hzero hentry, by simp⟩
  | block =>
    simp only [stackWeight_cons, stackWeight_nil, Frame.poolWeight_retire, custody_retire, add_zero]
    exact .refl

theorem retire_law {t : ThreadId cfg.maxNumThreads clients} {tag : ℕ} {pc : RetirePc}
    (hmove : RetireMove cfg t s tag pc s' after) :
    LedgerLaw s ((custody cfg.maxNumThreads Code).retire tag pc) s'
      (stackWeight (Frame.poolWeight (custody _ Code)) after) := by
  cases hmove
  all_goals simp only [stackWeight_cons, stackWeight_nil, Frame.poolWeight_retire, custody_retire,
    add_zero, LedgerLaw]
  case setRetired hentry hnode =>
    rw [ledger_zero, ledger_holdingRetire]
    exact .inr (.retireStart _ _ _ _ _ _ _ _ hentry hnode)
  case sweep tagState i removedCount h =>
    rw [ledger_holdingRetire, ledger_holdingRetire, s.queuedTasks_removeIf ⟨i, h⟩ tagState]
    refine .inr (.sweep _ _ _ _ _ _ _ _ _ fun item hitem => ?_)
    exact of_decide_eq_true (List.mem_filter.mp hitem).2
  case subtractOutstanding tagState removedCount node hnode hwait =>
    refine .inl (.head ⟨?_, ?_⟩ (retireWait_steps hwait))
    · rw [ledger_holdingRetire, ledger_holdingRetire]
      exact .subtract _ _ _ _ _ _ _ _ _ hnode
    · simp [ledger, holdingRetire]
  case wait hawake hwait => exact .inl (retireWait_steps hwait)
  all_goals exact Run.refl _

theorem finish_law {completePendingTasks : Bool} {pc : FinishPc cfg.maxNumThreads Code}
    (hmove : FinishMove cfg s completePendingTasks pc s' after) :
    LedgerLaw s ((custody _ Code).finishAllThreads pc) s'
      (stackWeight (Frame.poolWeight (custody _ Code)) after) := by
  have hjoin := stackWeight_afterJoin (custody cfg.maxNumThreads Code) completePendingTasks rfl
  cases hmove
  all_goals simp only [stackWeight_cons, stackWeight_nil, Frame.poolWeight_finishAllThreads,
    Frame.poolWeight_closure, custody_finishAllThreads, add_zero, zero_add, hjoin, LedgerLaw]
  case pop item _ _ h hpop => exact pop_run hpop item
  case canRun => exact advance_run .clear
  case skip hrun => exact skip_run hrun
  case begin => exact begin_run _
  case ran => exact advance_run .ran
  case complete hcomplete => exact completeTaggedTask_run hcomplete
  case assertQueued item => exact .inl (s.finishLocal_steps item)
  all_goals exact Run.refl _

theorem abandon_law {pc : AbandonPc Code} (hmove : AbandonMove cfg s pc s' after) :
    LedgerLaw s ((custody cfg.maxNumThreads Code).abandonAllThreads pc) s'
      (stackWeight (Frame.poolWeight (custody _ Code)) after) := by
  cases hmove
  all_goals simp only [stackWeight_cons, stackWeight_nil, Frame.poolWeight_abandonAllThreads,
    custody_abandonAllThreads, add_zero, LedgerLaw]
  case pop h hpop => exact pop_run hpop _
  case laneEmpty | swept => exact .inl (s.finishLocal_steps _)
  case decrement => exact advance_run .abandon
  case complete hcomplete => exact completeTaggedTask_run hcomplete
  all_goals exact Run.refl _

theorem law :
    StepLaw cfg clients Code (fun _ => True) (custody cfg.maxNumThreads Code) LedgerLaw where
  refl _ _ := Run.refl _
  add_right _ _ _ _ r h := by simpa only [LedgerLaw, ledger_add] using h.frame r
  start := ⟨fun _ _ => rfl, fun _ => rfl, rfl, rfl⟩
  enqueue _ := enqueue_law
  runWorker _ := runWorker_law
  retire _ := retire_law
  finishAllThreads _ := finish_law
  abandonAllThreads _ := abandon_law

end Custody

namespace Ledger

variable {l l' : Ledger workers Code}

theorem Run.reachable (hrun : Run l l') (hreach : (system workers Code).Reachable l) :
    (system workers Code).Reachable l' := by
  rcases hrun with hsteps | hstep
  · exact hreach.steps (hsteps.lift id fun _ _ h => h.1)
  · exact hreach.next hstep

theorem Run.over (hrun : Run l l') {id : ℕ} (hover : l.Over id) :
    l'.Over id ∧ l'.begins id = l.begins id := by
  rcases hrun with hsteps | hstep
  · induction hsteps with
    | refl => exact ⟨hover, rfl⟩
    | tail _ hstep ih =>
      obtain ⟨hover', hbegins⟩ := hstep.1.over ih.1
      exact ⟨hover', hbegins.trans ih.2⟩
  · exact hstep.over hover

private theorem countP_tag (retiring : Multiset Retiring) (tag : ℕ) :
    retiring.countP (fun r => r.tag = tag) = (retiring.map Retiring.tag).count tag := by
  simp only [Multiset.count_map, Multiset.countP_eq_card_filter, eq_comm]

theorem QuietStep.oneRetirePerTag (hstep : QuietStep l l') (hone : l.OneRetirePerTag) :
    l'.OneRetirePerTag := fun tag => by
  have hle := Multiset.count_le_of_le tag hstep.2
  rw [← countP_tag, ← countP_tag] at hle
  exact hle.trans (hone tag)

theorem Run.reachableUnder (hrun : Run l l')
    (hreach : (system workers Code).ReachableUnder OneRetirePerTag l)
    (hone : l'.OneRetirePerTag) : (system workers Code).ReachableUnder OneRetirePerTag l' := by
  rcases hrun with hsteps | hstep
  · clear hone
    induction hsteps with
    | refl => exact hreach
    | tail _ hstep ih => exact ih.step hstep.1 (hstep.oneRetirePerTag ih.keeps)
  · exact hreach.step hstep hone

end Ledger

namespace PoolSystem

variable {s s' : PoolSystem cfg U clients}

theorem ledger_held (s : PoolSystem cfg U clients) :
    s.ledger.held
      = weight (fun f => (f.poolWeight (custody _ _)).1) s.threads + s.shared.pool.queuedTasks :=
  congrArg (· + s.shared.pool.queuedTasks)
    (map_weight (AddMonoidHom.fst _ _) (Frame.poolWeight (custody _ _)) s.threads)

theorem ledger_retiring (s : PoolSystem cfg U clients) :
    s.ledger.retiring = weight (fun f => (f.poolWeight (custody _ _)).2) s.threads :=
  map_weight (AddMonoidHom.snd _ _) (Frame.poolWeight (custody _ _)) s.threads

/-- The held tasks of one kind: what the calls hold of it, in two parts, and what is in the lanes. -/
theorem countP_held (s : PoolSystem cfg U clients) (p : HeldTask U.Code → Prop) [DecidablePred p]
    {w w' : Frame cfg.maxNumThreads U.Code → ℕ}
    (hframes : ∀ f, (f.poolWeight (custody cfg.maxNumThreads U.Code)).1.countP p = w f + w' f) :
    s.ledger.held.countP p = weight w s.threads + weight w' s.threads
      + ∑ i, (s.shared.pool.queues i).items.countP fun item => p (item, .queued) := by
  have hcalls : (weight (fun f : Frame cfg.maxNumThreads U.Code =>
      (f.poolWeight (custody _ _)).1) s.threads).countP p = weight w s.threads + weight w' s.threads := by
    refine (map_weight (Multiset.countPAddMonoidHom p) _ _).trans (Eq.trans ?_ (weight_add _ _ _))
    exact congrArg (weight · s.threads) (funext hframes)
  rw [ledger_held, Multiset.countP_add, hcalls, PoolState.countP_queuedTasks]

theorem ledger_initial (main : ThreadId cfg.maxNumThreads clients → U.Code) :
    (initialSystem cfg U clients main).ledger = .initial _ _ := by
  rw [ledger, total_initial _ (fun _ => rfl), PoolState.ledger_zero]
  simp [Ledger.initial, initialSystem, PoolState.initial, PoolState.queuedTasks]

/-- The pool refines the ledger. -/
theorem ledger_run (hstep : (poolSystem cfg U clients).Step s s') : s.ledger.Run s'.ledger :=
  Custody.law.step hstep trivial

theorem ledger_reachable (hreach : (poolSystem cfg U clients).Reachable s) :
    (Ledger.system _ _).Reachable s.ledger := by
  refine TransitionSystem.Reachable.invariant
    (fun s : PoolSystem cfg U clients => (Ledger.system _ _).Reachable s.ledger) ?_
    (fun s s' _ hI hstep => (ledger_run hstep).reachable hI) hreach
  rintro s ⟨main, rfl⟩
  exact .init (ledger_initial main) trivial

end PoolSystem

/-! ### One `retire` at a time for a tag -/

@[simps] def retireCalls (workers : ℕ) (Code : Type) (tag : ℕ) : PoolWeights workers Code ℕ where
  retire tag' _ := if tag' = tag then 1 else 0

theorem Frame.custody_retiring_le (f : Frame workers Code) (tag : ℕ) :
    (f.poolWeight (custody workers Code)).2.countP (fun r => r.tag = tag)
      ≤ f.poolWeight (retireCalls workers Code tag) := by
  cases f with
  | retire tag' pc =>
    cases pc <;> simp [Multiset.countP_eq_card_filter, Multiset.filter_singleton] <;> split <;> simp
  | runWorker own pc =>
    rcases pc with _ | _ | pc | _
    case tryGetTask => cases pc <;> simp
    all_goals simp
  | enqueue pc | finishAllThreads _ pc | abandonAllThreads pc => cases pc <;> simp
  | _ => simp

namespace PoolSystem

variable {s s' : PoolSystem cfg U clients}

def OneRetirePerTag (s : PoolSystem cfg U clients) : Prop :=
  ∀ tag, s.count (retireCalls _ _ tag) ≤ 1

theorem ledger_oneRetirePerTag (hone : s.OneRetirePerTag) : s.ledger.OneRetirePerTag := fun tag => by
  have hretiring := map_weight (Multiset.countPAddMonoidHom fun r : Retiring => r.tag = tag)
    (fun f => (f.poolWeight (custody cfg.maxNumThreads U.Code)).2) s.threads
  rw [← ledger_retiring] at hretiring
  exact ((le_of_eq hretiring).trans
    (weight_le_weight (fun f => f.custody_retiring_le tag) _)).trans (hone tag)

theorem ledger_reachableUnder
    (hreach : (poolSystem cfg U clients).ReachableUnder OneRetirePerTag s) :
    (Ledger.system _ _).ReachableUnder Ledger.OneRetirePerTag s.ledger := by
  refine TransitionSystem.ReachableUnder.invariant (fun s : PoolSystem cfg U clients =>
    (Ledger.system _ _).ReachableUnder Ledger.OneRetirePerTag s.ledger) ?_
    (fun s s' _ hI hstep hone => (ledger_run hstep).reachableUnder hI (ledger_oneRetirePerTag hone))
    hreach
  rintro s ⟨main, rfl⟩ hone
  exact .init (ledger_initial main) (ledger_oneRetirePerTag hone)

end PoolSystem

end CppUtils
