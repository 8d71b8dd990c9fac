import CppUtils.ThreadPool.RetireBarrier

/-!
# The accounting of the tag states

`outstandingTaskCount` is raised in `enqueue` and lowered in four other places, each apart from the
queue operation it accounts for. It counts the tasks that refer to the entry and those that a `retire`
has removed and not subtracted, so no entry goes while a task refers to it.
-/

namespace CppUtils

open Threaded

variable {clients workers : ℕ} {U : UserCode} {Code : Type} {cfg : PoolConfig}

/-- The task of an `enqueue` call, registered and not pushed. After a push that threw it stays
registered until `completeTaggedTask`. -/
def EnqueuePc.registered : EnqueuePc workers Code → Option (TaggedTask Code)
  | .increment _ item => some item
  | .push _ item => some item
  | .undoIncrement item => some item
  | .completeTaggedTask item => some item
  | _ => none

def RunWorkerPc.popped : RunWorkerPc Code → Option (TaggedTask Code)
  | .tryGetTask (.popped item) => some item
  | .taggedTaskCanRun item => some item
  | .begin item => some item
  | .running item => some item
  | .completeTaggedTask item _ => some item
  | _ => none

def FinishPc.popped : FinishPc workers Code → Option (TaggedTask Code)
  | .decrement _ item => some item
  | .taggedTaskCanRun _ item => some item
  | .begin _ item => some item
  | .running _ item => some item
  | .completeTaggedTask _ item _ => some item
  | _ => none

def AbandonPc.popped : AbandonPc Code → Option (TaggedTask Code)
  | .decrement _ item => some item
  | .completeTaggedTask _ item => some item
  | _ => none

/-- The registered or popped task of a call. -/
def Frame.task : Frame workers Code → Option (TaggedTask Code)
  | .enqueue pc => pc.registered
  | .runWorker _ pc => pc.popped
  | .finishAllThreads _ pc => pc.popped
  | .abandonAllThreads pc => pc.popped
  | _ => none

/-- One for a task that refers to this entry. -/
def refersTo (tagState : ℕ) : Option (TaggedTask Code) → ℕ
  | some item => if item.tagState = some tagState then 1 else 0
  | none => 0

@[simps] def registeredTasks (workers : ℕ) (Code : Type) (tagState : ℕ) :
    PoolWeights workers Code ℕ where
  enqueue pc := refersTo tagState pc.registered

@[simps] def poppedTasks (workers : ℕ) (Code : Type) (tagState : ℕ) : PoolWeights workers Code ℕ where
  runWorker _ pc := refersTo tagState pc.popped
  finishAllThreads pc := refersTo tagState pc.popped
  abandonAllThreads pc := refersTo tagState pc.popped

/-- The `removedCount` of the `retire` calls of an entry that have not subtracted it. -/
@[simps] def removedTasks (workers : ℕ) (Code : Type) (tagState : ℕ) : PoolWeights workers Code ℕ where
  retire
    | _, .sweep tagState' _ removedCount => if tagState' = tagState then removedCount else 0
    | _, .subtractQueued tagState' removedCount => if tagState' = tagState then removedCount else 0
    | _, .subtractOutstanding tagState' removedCount => if tagState' = tagState then removedCount else 0
    | _, _ => 0

namespace PoolState

def queuedUnder (s : PoolState workers clients Code) (tagState : ℕ) : ℕ :=
  ∑ i, (s.queues i).items.countP fun item => item.tagState = some tagState

end PoolState

def PoolSystem.tasksOf (s : PoolSystem cfg U clients) (tagState : ℕ) : ℕ :=
  s.count (registeredTasks _ _ tagState) + s.shared.pool.queuedUnder tagState
    + s.count (poppedTasks _ _ tagState)

/-! ### In the ledger -/

/-- A held task that is counted for this entry. -/
abbrev CountedFor (Code : Type) (tagState : ℕ) (x : HeldTask Code) : Prop :=
  x.2.counted = true ∧ x.1.tagState = some tagState

theorem countP_holding (tagState : ℕ) (item : TaggedTask Code) (stage : Stage) :
    (holding item stage).1.countP (CountedFor _ tagState)
      = if stage.counted = true then refersTo tagState (some item) else 0 := by
  rw [holding, Multiset.countP_eq_card_filter, Multiset.filter_singleton]
  by_cases hcounted : stage.counted = true
  · by_cases hitem : item.tagState = some tagState
    · simp [CountedFor, refersTo, hcounted, hitem]
    · simp [CountedFor, refersTo, hitem]
  · simp [CountedFor, hcounted]

theorem Frame.countP_counted (f : Frame workers Code) (tagState : ℕ) :
    (f.poolWeight (custody workers Code)).1.countP (CountedFor _ tagState)
      = f.poolWeight (registeredTasks workers Code tagState)
        + f.poolWeight (poppedTasks workers Code tagState) := by
  cases f with
  | enqueue pc =>
    cases pc <;> simp [countP_holding, EnqueuePc.registered, refersTo]
  | runWorker own pc =>
    rcases pc with _ | _ | pc | _
    case tryGetTask => cases pc <;> simp [countP_holding, RunWorkerPc.popped, refersTo]
    all_goals simp [countP_holding, RunWorkerPc.popped, refersTo]
  | retire tag pc => cases pc <;> simp
  | finishAllThreads completePendingTasks pc =>
    rcases pc with _ | _ | _ | _ | ⟨_, _, _ | ⟨item', fate⟩⟩ | _ | _ | _ | _ | _ | (_ | ⟨item', fate⟩) <;>
      simp [holdingLocal, countP_holding, FinishPc.popped, refersTo]
  | abandonAllThreads pc =>
    rcases pc with _ | _ | ⟨_, _ | item'⟩ | _ | _ | _ <;>
      simp [holdingLocal, countP_holding, AbandonPc.popped, refersTo]
  | _ => simp

/-- What a call has removed and not subtracted, if it is for this entry. -/
def removedFor (tagState : ℕ) (r : Retiring) : ℕ := if r.tagState = tagState then r.removed else 0

theorem Frame.sum_removed (f : Frame workers Code) (tagState : ℕ) :
    ((f.poolWeight (custody workers Code)).2.map (removedFor tagState)).sum
      = f.poolWeight (removedTasks workers Code tagState) := by
  cases f with
  | retire tag pc => cases pc <;> simp [removedFor]
  | runWorker own pc =>
    rcases pc with _ | _ | pc | _
    case tryGetTask => cases pc <;> simp
    all_goals simp
  | enqueue pc | finishAllThreads _ pc | abandonAllThreads pc => cases pc <;> simp
  | _ => simp

namespace PoolSystem

variable {s s' : PoolSystem cfg U clients}

theorem refs_ledger (s : PoolSystem cfg U clients) (tagState : ℕ) :
    s.ledger.refs tagState = s.tasksOf tagState := by
  have hheld := s.countP_held (CountedFor _ tagState) fun f => f.countP_counted tagState
  have hqueued : ∀ item : TaggedTask U.Code,
      CountedFor _ tagState (item, .queued) ↔ item.tagState = some tagState := by simp
  simp only [hqueued] at hheld
  exact hheld.trans (add_right_comm _ _ _)

theorem pendingRemoved_ledger (s : PoolSystem cfg U clients) (tagState : ℕ) :
    s.ledger.pendingRemoved tagState = s.count (removedTasks _ _ tagState) := by
  have hsum := map_weight
    ((Multiset.sumAddMonoidHom).comp (Multiset.mapAddMonoidHom (removedFor tagState)))
    (fun f => (f.poolWeight (custody cfg.maxNumThreads U.Code)).2) s.threads
  rw [Ledger.pendingRemoved, ledger_retiring]
  refine hsum.trans ?_
  exact congrArg (weight · s.threads) (funext fun f => f.sum_removed tagState)

end PoolSystem

/-! ### Entries that come and go -/

namespace PoolState

variable {s s' : PoolState workers clients Code}

def SameEntries (s s' : PoolState workers clients Code) : Prop :=
  ∀ a, s'.tagNodes a = none ↔ s.tagNodes a = none

theorem sameEntries_setNode {a : ℕ} {node : TagNode} (hnode : s.tagNodes a = some node)
    (node' : TagNode) : s.SameEntries (s.setNode a node') := by
  intro b
  by_cases hb : b = a
  · subst hb
    simp [hnode]
  · simp [hb]

theorem sameEntries_of_eq (h : s'.tagNodes = s.tagNodes) : s.SameEntries s' := by
  intro a
  rw [h]

theorem sameEntries_tryPop {index : Fin workers} {item : TaggedTask Code}
    (h : s.tryPop index = some (item, s')) : s.SameEntries s' := by
  obtain ⟨lane, -, rfl⟩ := tryPop_eq_some h
  exact sameEntries_of_eq rfl

theorem sameEntries_push {index : Fin workers} {item : TaggedTask Code}
    (h : s.push index item = some s') : s.SameEntries s' := by
  obtain ⟨lane, -, rfl⟩ := push_eq_some h
  exact sameEntries_of_eq rfl

theorem sameEntries_completeTaggedTask {tagState : Option ℕ}
    (h : s.completeTaggedTask tagState = some s') : s.SameEntries s' := by
  unfold completeTaggedTask at h
  split at h
  · cases h
    exact sameEntries_of_eq rfl
  · split at h
    · cases h
    · rename_i node hnode
      split at h
      · cases h
        exact sameEntries_setNode hnode _
      · cases h
        exact sameEntries_setNode hnode _

end PoolState

namespace TagAccounting

open PoolState

/-- The law of one step: only a `retire` call whose removed tasks are all that is outstanding erases a
node, and only the registration of a task under a tag without an entry makes one. -/
structure EntryLaw (s : PoolState workers clients Code) (m : Holdings Code)
    (s' : PoolState workers clients Code) (_m' : Holdings Code) : Prop where
  erased : ∀ a node, s.tagNodes a = some node → s'.tagNodes a = none →
    ∃ r ∈ m.2, r.tagState = a ∧ node.outstandingTaskCount = r.removed ∧
      s.tagStates r.tag = some a ∧ s'.tagStates r.tag = none
  created : ∀ a node, s.tagNodes a = none → s'.tagNodes a = some node →
    s.tagStates node.tag = none ∧ node.retired = false ∧ node.outstandingTaskCount = 1

section Moves

variable {s s' : PoolState cfg.maxNumThreads clients Code} {m m' : Holdings Code}
  {after : List (Frame cfg.maxNumThreads Code)}

theorem EntryLaw.of_same (h : s.SameEntries s') : EntryLaw s m s' m' where
  erased a node hsome hnone := by
    have hnone' := (h a).mp hnone
    rw [hsome] at hnone'
    cases hnone'
  created a node hnone hsome := by
    have hnone' := (h a).mpr hnone
    rw [hsome] at hnone'
    cases hnone'

theorem EntryLaw.of_eq (h : s'.tagNodes = s.tagNodes) : EntryLaw s m s' m' :=
  .of_same (sameEntries_of_eq h)

theorem EntryLaw.of_erase {tag tagState removed : ℕ} {node : TagNode}
    (hnode : s.tagNodes tagState = some node) (hcount : node.outstandingTaskCount = removed)
    (hentry : s.tagStates tag = some tagState) (hcleared : s'.tagStates tag = none)
    (hsame : ∀ a, a ≠ tagState → s'.tagNodes a = s.tagNodes a) :
    EntryLaw s (holdingRetire tag tagState removed) s' m' where
  erased a node' hsome hnone := by
    by_cases ha : a = tagState
    · subst ha
      cases hsome.symm.trans hnode
      exact ⟨_, Multiset.mem_singleton_self _, rfl, hcount, hentry, hcleared⟩
    · rw [hsame a ha, hsome] at hnone
      cases hnone
  created a node' hnone hsome := by
    by_cases ha : a = tagState
    · subst ha
      cases hnone.symm.trans hnode
    · rw [hsame a ha, hnone] at hsome
      cases hsome

theorem enqueue_law {pc : EnqueuePc cfg.maxNumThreads Code} (hmove : EnqueueMove cfg s pc s' after) :
    EntryLaw s ((custody _ Code).enqueue pc) s'
      (stackWeight (Frame.poolWeight (custody _ Code)) after) := by
  cases hmove with
  | @drop index item tagState a s₁ node hemplace hnode hretired =>
    unfold tryEmplace at hemplace
    split at hemplace
    · cases hemplace
      exact .of_eq rfl
    · split at hemplace
      · cases hemplace
      · cases hemplace
        simp only [emplaceNode_tagNodes, Function.update_self, Option.some.injEq] at hnode
        subst hnode
        cases hretired
  | @register index item tagState a s₁ node hemplace hnode hretired =>
    unfold tryEmplace at hemplace
    split at hemplace
    · cases hemplace
      exact .of_same (sameEntries_setNode hnode _)
    · rename_i hnew
      split at hemplace
      · cases hemplace
      · rename_i hfree
        cases hemplace
        simp only [emplaceNode_tagNodes, Function.update_self, Option.some.injEq] at hnode
        subst hnode
        constructor
        · intro b node hsome hnone
          by_cases hb : b = tagState
          · subst hb
            cases hfree.symm.trans hsome
          · simp [hb, hsome] at hnone
        · intro b node hnone hsome
          by_cases hb : b = tagState
          · subst hb
            simp only [setHistory_tagNodes, setNode_tagNodes, Function.update_self,
              Option.some.injEq] at hsome
            subst hsome
            exact ⟨hnew, rfl, rfl⟩
          · simp [hb, hnone] at hsome
  | push hpush => exact .of_same (sameEntries_push hpush)
  | complete hcomplete => exact .of_same (sameEntries_completeTaggedTask hcomplete)
  | _ => exact .of_eq rfl

theorem runWorker_law {t : ThreadId cfg.maxNumThreads clients} {own : Fin cfg.maxNumThreads}
    {pc : RunWorkerPc Code} (hmove : RunWorkerMove cfg t s own pc s' after) :
    EntryLaw s ((custody _ Code).runWorker own pc) s'
      (stackWeight (Frame.poolWeight (custody _ Code)) after) := by
  cases hmove with
  | tryGetTask hget =>
    cases hget with
    | popOwn hpop | steal _ hpop => exact .of_same (sameEntries_tryPop hpop)
    | _ => exact .of_eq rfl
  | complete hcomplete => exact .of_same (sameEntries_completeTaggedTask hcomplete)
  | _ => exact .of_eq rfl

theorem retireWait_law {t : ThreadId cfg.maxNumThreads clients} {tag tagState removed : ℕ}
    {node : TagNode} (hnode : s.tagNodes tagState = some node)
    (hwait : RetireWaitMove cfg t (s.setNode tagState (node.add (-removed))) tag tagState s' after) :
    EntryLaw s (holdingRetire tag tagState removed) s' m' := by
  cases hwait with
  | finish hnode' hzero =>
    simp only [setNode_tagNodes, Function.update_self, Option.some.injEq] at hnode'
    subst hnode'
    rw [TagNode.add_outstandingTaskCount] at hzero
    unfold eraseTag
    split
    · rename_i hentry
      refine .of_erase hnode (by omega) hentry (Function.update_self ..) ?_
      intro a ha
      simp [ha]
    · exact .of_same (sameEntries_setNode hnode _)
  | block => exact .of_same (sameEntries_setNode hnode _)

theorem retire_law {t : ThreadId cfg.maxNumThreads clients} {tag : ℕ} {pc : RetirePc}
    (hmove : RetireMove cfg t s tag pc s' after) :
    EntryLaw s ((custody cfg.maxNumThreads Code).retire tag pc) s'
      (stackWeight (Frame.poolWeight (custody _ Code)) after) := by
  cases hmove with
  | setRetired _ hnode => exact .of_same (sameEntries_setNode hnode _)
  | subtractOutstanding hnode hwait => exact retireWait_law hnode hwait
  | wait _ hwait =>
    cases hwait with
    | finish hnode hzero =>
      unfold eraseTag
      split
      · rename_i hentry
        refine .of_erase hnode (hzero.trans Nat.cast_zero.symm) hentry (Function.update_self ..) ?_
        intro a ha
        simp [ha]
      · exact .of_eq rfl
    | block => exact .of_eq rfl
  | _ => exact .of_eq rfl

theorem finish_law {completePendingTasks : Bool} {pc : FinishPc cfg.maxNumThreads Code}
    (hmove : FinishMove cfg s completePendingTasks pc s' after) :
    EntryLaw s ((custody _ Code).finishAllThreads pc) s'
      (stackWeight (Frame.poolWeight (custody _ Code)) after) := by
  cases hmove with
  | pop _ hpop => exact .of_same fun a => sameEntries_tryPop hpop a
  | complete hcomplete => exact .of_same (sameEntries_completeTaggedTask hcomplete)
  | _ => exact .of_eq rfl

theorem abandon_law {pc : AbandonPc Code} (hmove : AbandonMove cfg s pc s' after) :
    EntryLaw s ((custody cfg.maxNumThreads Code).abandonAllThreads pc) s'
      (stackWeight (Frame.poolWeight (custody _ Code)) after) := by
  cases hmove with
  | pop _ hpop => exact .of_same fun a => sameEntries_tryPop hpop a
  | complete hcomplete => exact .of_same (sameEntries_completeTaggedTask hcomplete)
  | _ => exact .of_eq rfl

theorem entry_law :
    StepLaw cfg clients Code (fun _ => True) (custody cfg.maxNumThreads Code) EntryLaw where
  refl _ _ := .of_eq rfl
  add_right _ _ _ _ r h := by
    refine ⟨?_, h.created⟩
    intro a node hsome hnone
    obtain ⟨r', hmem, hcount⟩ := h.erased a node hsome hnone
    exact ⟨r', Multiset.mem_add.mpr (.inl hmem), hcount⟩
  start := ⟨fun _ _ => rfl, fun _ => rfl, rfl, rfl⟩
  enqueue _ := enqueue_law
  runWorker _ := runWorker_law
  retire _ := retire_law
  finishAllThreads _ := finish_law
  abandonAllThreads _ := abandon_law

end Moves

end TagAccounting

/-! ### The accounting -/

theorem Frame.mem_custody_of_task {f : Frame workers Code} {item : TaggedTask Code}
    (h : f.task = some item) :
    ∃ stage, (item, stage) ∈ (f.poolWeight (custody workers Code)).1 ∧ stage.counted = true := by
  revert h
  fun_cases Frame.task f with
  | case1 pc =>
    fun_cases EnqueuePc.registered pc
    all_goals intro h
    all_goals cases h
    all_goals exact ⟨_, Multiset.mem_singleton_self _, rfl⟩
  | case2 own pc =>
    fun_cases RunWorkerPc.popped pc
    all_goals intro h
    all_goals cases h
    all_goals exact ⟨_, Multiset.mem_singleton_self _, rfl⟩
  | case3 completePendingTasks pc =>
    fun_cases FinishPc.popped pc
    all_goals intro h
    all_goals cases h
    all_goals exact ⟨_, Multiset.mem_singleton_self _, rfl⟩
  | case4 pc =>
    fun_cases AbandonPc.popped pc
    all_goals intro h
    all_goals cases h
    all_goals exact ⟨_, Multiset.mem_singleton_self _, rfl⟩
  | case5 =>
    intro h
    cases h

namespace PoolSystem

variable {s s' : PoolSystem cfg U clients}

def HasTask (s : PoolSystem cfg U clients) (item : TaggedTask U.Code) : Prop :=
  (∃ t, ∃ f ∈ s.threads t, f.task = some item) ∨ ∃ i, item ∈ (s.shared.pool.queues i).items

theorem held_of_hasTask {item : TaggedTask U.Code} (h : s.HasTask item) :
    ∃ stage, (item, stage) ∈ s.ledger.held ∧ stage.counted = true := by
  rcases h with ⟨t, f, hf, htask⟩ | ⟨i, hitem⟩
  · obtain ⟨stage, hmem, hcounted⟩ := Frame.mem_custody_of_task htask
    exact ⟨stage, mem_held_of_frame hf hmem, hcounted⟩
  · exact ⟨.queued, mem_held_of_lane hitem, rfl⟩

theorem outstanding_eq (hreach : (poolSystem cfg U clients).Reachable s) (a : ℕ) :
    s.ledger.outstanding a = s.tasksOf a + s.count (removedTasks _ _ a) := by
  rw [Ledger.outstanding_eq (ledger_reachable hreach), refs_ledger, pendingRemoved_ledger]

theorem tasksOf_eq_zero (hreach : (poolSystem cfg U clients).Reachable s) {a : ℕ}
    (hfree : s.shared.pool.tagNodes a = none) : s.tasksOf a = 0 := by
  have hcount := outstanding_eq hreach a
  have hzero := Ledger.outstanding_of_free (l := s.ledger) hfree
  omega

theorem entry_of_hasTask (hreach : (poolSystem cfg U clients).Reachable s)
    {item : TaggedTask U.Code} (hitem : s.HasTask item) {a : ℕ} (hpointer : item.tagState = some a) :
    s.shared.pool.tagStates item.tag = some a ∧
      ∃ node, s.shared.pool.tagNodes a = some node ∧ 0 < node.outstandingTaskCount := by
  have hledger := ledger_reachable hreach
  obtain ⟨stage, hheld, hcounted⟩ := held_of_hasTask hitem
  have hnodeAt := Ledger.nodeAt_of_mem hledger _ hheld hcounted a hpointer
  refine ⟨(Ledger.indexed hledger item.tag a).mpr hnodeAt, ?_⟩
  obtain ⟨node, hnode, -⟩ := hnodeAt
  have hrefs : 0 < s.ledger.refs a := Multiset.countP_pos_of_mem hheld ⟨hcounted, hpointer⟩
  have hcount := Ledger.outstanding_eq hledger a
  rw [Ledger.outstanding_of_node hnode] at hcount
  exact ⟨node, hnode, by omega⟩

theorem removed_le (hreach : (poolSystem cfg U clients).ReachableUnder OneRetirePerTag s)
    {r : Retiring} (hr : r ∈ s.ledger.retiring) :
    ∃ node, s.shared.pool.tagNodes r.tagState = some node ∧ (r.removed : ℤ) ≤ node.outstandingTaskCount := by
  have hledger := ledger_reachableUnder hreach
  obtain ⟨node, hnode, -⟩ := Ledger.markedAt_of_retiring hledger r hr
  have hcount := Ledger.outstanding_eq hledger.reachable r.tagState
  have hle : r.removed ≤ s.ledger.pendingRemoved r.tagState :=
    Multiset.single_le_sum (fun _ _ => Nat.zero_le _) _ (Multiset.mem_map.mpr ⟨r, hr, if_pos rfl⟩)
  rw [Ledger.outstanding_of_node hnode] at hcount
  exact ⟨node, hnode, by omega⟩

/-- A node is erased only when no task refers to it, before the step and after it. -/
theorem tasksOf_of_erased (hreach : (poolSystem cfg U clients).Reachable s)
    (hstep : (poolSystem cfg U clients).Step s s') {a : ℕ} {node : TagNode}
    (hnode : s.shared.pool.tagNodes a = some node) (herased : s'.shared.pool.tagNodes a = none) :
    s.tasksOf a = 0 ∧ s'.tasksOf a = 0 ∧ s'.shared.pool.tagStates node.tag = none := by
  have hledger := ledger_reachable hreach
  obtain ⟨r, hr, rfl, hremoved, hentry, hcleared⟩ :=
    (TagAccounting.entry_law.step hstep trivial).erased a node hnode herased
  have hle : r.removed ≤ s.ledger.pendingRemoved r.tagState :=
    Multiset.single_le_sum (fun _ _ => Nat.zero_le _) _ (Multiset.mem_map.mpr ⟨r, hr, if_pos rfl⟩)
  have hcount := Ledger.outstanding_eq hledger r.tagState
  rw [Ledger.outstanding_of_node hnode] at hcount
  have htag : node.tag = r.tag := ((Ledger.indexed hledger r.tag r.tagState).mp hentry).tag_eq hnode
  refine ⟨?_, tasksOf_eq_zero (hreach.next hstep) herased, ?_⟩
  · rw [← refs_ledger]
    omega
  · rw [htag]
    exact hcleared

end PoolSystem

/-- The tag states, with at most one `retire` in progress for each tag: a registered, queued or popped
task refers to the entry of its tag; the count of an entry is the number of its tasks and of those a
`retire` has removed and not subtracted, so that what is taken from it is never more than it; an entry
goes only when no task refers to it, and a new one is fresh. -/
theorem tagStates_areAccounted {s : PoolSystem cfg U clients}
    (hreach : (poolSystem cfg U clients).ReachableUnder PoolSystem.OneRetirePerTag s) :
    (∀ item, s.HasTask item → ∀ a, item.tagState = some a →
      s.shared.pool.tagStates item.tag = some a ∧
        ∃ node, s.shared.pool.tagNodes a = some node ∧ 0 < node.outstandingTaskCount) ∧
    (∀ a node, s.shared.pool.tagNodes a = some node →
      node.outstandingTaskCount = s.count (registeredTasks _ _ a) + s.shared.pool.queuedUnder a
        + s.count (poppedTasks _ _ a) + s.count (removedTasks _ _ a)) ∧
    (∀ t tag a (removedCount : ℕ), .retire tag (.subtractOutstanding a removedCount) ∈ s.threads t →
      ∃ node, s.shared.pool.tagNodes a = some node ∧ removedCount ≤ node.outstandingTaskCount) ∧
    ∀ s', (poolSystem cfg U clients).Step s s' →
      (∀ a node, s.shared.pool.tagNodes a = some node → s'.shared.pool.tagNodes a = none →
        s.tasksOf a = 0 ∧ s'.tasksOf a = 0 ∧ s'.shared.pool.tagStates node.tag = none) ∧
      ∀ a node, s.shared.pool.tagNodes a = none → s'.shared.pool.tagNodes a = some node →
        s.shared.pool.tagStates node.tag = none ∧ s.tasksOf a = 0 ∧ node.retired = false ∧
          node.outstandingTaskCount = 1 := by
  refine ⟨?_, ?_, ?_, ?_⟩
  · intro item hitem a hpointer
    exact PoolSystem.entry_of_hasTask hreach.reachable hitem hpointer
  · intro a node hnode
    have hcount := PoolSystem.outstanding_eq hreach.reachable a
    rw [Ledger.outstanding_of_node hnode, PoolSystem.tasksOf] at hcount
    rw [hcount]
    push_cast
    ring
  · intro t tag a removedCount hf
    have hr : (⟨tag, a, removedCount⟩ : Retiring) ∈ s.ledger.retiring :=
      PoolSystem.mem_retiring_of_frame hf (by simp)
    exact PoolSystem.removed_le hreach hr
  · intro s' hstep
    refine ⟨?_, ?_⟩
    · intro a node hnode herased
      exact PoolSystem.tasksOf_of_erased hreach.reachable hstep hnode herased
    · intro a node hfree hnode
      obtain ⟨hentry, hretired, hone⟩ :=
        (TagAccounting.entry_law.step hstep trivial).created a node hfree hnode
      exact ⟨hentry, PoolSystem.tasksOf_eq_zero hreach.reachable hfree, hretired, hone⟩

/-- The task that was pushed behind the sweep: it is all that the entry counts. -/
theorem tagStates_areAccounted_behindSweep :
    ∃ s node, retireRun (pushedBehindSweep.take 11) = some s ∧
      s.shared.pool.tagNodes 7 = some node ∧ node.retired = true ∧ s.shared.pool.queuedUnder 7 = 1 ∧
      node.outstandingTaskCount = s.count (registeredTasks _ _ 7) + s.shared.pool.queuedUnder 7
        + s.count (poppedTasks _ _ 7) + s.count (removedTasks _ _ 7) := by
  have hrun : (retireRun (pushedBehindSweep.take 11)).bind (fun s => (s.shared.pool.tagNodes 7).map
      fun node => (node.retired, s.shared.pool.queuedUnder 7)) = some (true, 1) := by decide
  obtain ⟨s, hs, hrest⟩ := Option.bind_eq_some_iff.mp hrun
  obtain ⟨node, hnode, hvalues⟩ := Option.map_eq_some_iff.mp hrest
  simp only [Prod.mk.injEq] at hvalues
  exact ⟨s, node, hs, hnode, hvalues.1, hvalues.2,
    (tagStates_areAccounted (retireRun_reachable hs)).2.1 7 node hnode⟩

end CppUtils
