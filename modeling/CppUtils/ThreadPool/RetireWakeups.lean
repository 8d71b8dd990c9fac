import CppUtils.ThreadPool.RetireBarrier

/-!
# The wait of `retire`

All calls of `retire` wait on one condition variable. A thread is blocked there only while a task of its
own tag is outstanding: the step that accounts the last one notifies them all.
-/

namespace CppUtils

open Threaded

variable {clients workers : ℕ} {U : UserCode} {Code : Type} {cfg : PoolConfig}

namespace PoolState

variable {s s' : PoolState workers clients Code}

/-- A task of the node at this address is outstanding. -/
def Outstanding (s : PoolState workers clients Code) (address : ℕ) : Prop :=
  ∃ node, s.tagNodes address = some node ∧ node.outstandingTaskCount ≠ 0

theorem Outstanding.setNode {a b : ℕ} {node : TagNode} (h : s.Outstanding a)
    (hnode : a = b → node.outstandingTaskCount ≠ 0) : (s.setNode b node).Outstanding a := by
  by_cases hab : a = b
  · subst hab
    exact ⟨node, by simp, hnode rfl⟩
  · obtain ⟨node', hnode', hcount⟩ := h
    exact ⟨node', by simp [hab, hnode'], hcount⟩

theorem Outstanding.tryEmplace {a tag address tagState : ℕ} (h : s.Outstanding a)
    (hemplace : s.tryEmplace tag address = some (tagState, s')) : s'.Outstanding a := by
  obtain ⟨node, hnode, hcount⟩ := h
  unfold PoolState.tryEmplace at hemplace
  split at hemplace
  · cases hemplace
    exact ⟨node, hnode, hcount⟩
  · split at hemplace
    · cases hemplace
    · rename_i hfree
      cases hemplace
      have hne : a ≠ address := by
        rintro rfl
        cases hnode.symm.trans hfree
      exact ⟨node, by simp [hne, hnode], hcount⟩

theorem Outstanding.completeTaggedTask {a : ℕ} {tagState : Option ℕ} (h : s.Outstanding a)
    (hcomplete : s.completeTaggedTask tagState = some s') : s'.tagStateChanged = ∅ ∨ s'.Outstanding a := by
  unfold PoolState.completeTaggedTask at hcomplete
  split at hcomplete
  · cases hcomplete
    exact .inr h
  · split at hcomplete
    · cases hcomplete
    · split at hcomplete
      · cases hcomplete
        exact .inl rfl
      · rename_i hcount
        cases hcomplete
        exact .inr (h.setNode fun _ => hcount)

theorem tagStateChanged_completeTaggedTask {tagState : Option ℕ}
    (hcomplete : s.completeTaggedTask tagState = some s') : s'.tagStateChanged ⊆ s.tagStateChanged := by
  unfold PoolState.completeTaggedTask at hcomplete
  split at hcomplete
  · cases hcomplete
    exact subset_rfl
  · split at hcomplete
    · cases hcomplete
    · split at hcomplete <;> cases hcomplete
      · exact Finset.empty_subset _
      · exact subset_rfl

theorem tagStateChanged_eraseTag (tag tagState : ℕ) :
    (s.eraseTag tag tagState).tagStateChanged = s.tagStateChanged := by
  unfold eraseTag
  split <;> rfl

theorem Outstanding.eraseTag {a tagState : ℕ} (h : s.Outstanding a) (hne : a ≠ tagState) (tag : ℕ) :
    (s.eraseTag tag tagState).Outstanding a := by
  unfold PoolState.eraseTag
  split
  · obtain ⟨node, hnode, hcount⟩ := h
    exact ⟨node, by simpa [hne] using hnode, hcount⟩
  · exact h

theorem Outstanding.of_eq {a : ℕ} (h : s.Outstanding a) (hnodes : s'.tagNodes = s.tagNodes) :
    s'.Outstanding a := by
  rwa [Outstanding, hnodes]

end PoolState

/-- The node that a `retire` call may erase or lower in its next step. -/
def Frame.endsAt : Frame workers Code → Option ℕ
  | .retire _ (.subtractOutstanding tagState _) => some tagState
  | .retire _ (.wait tagState) => some tagState
  | _ => none

section Moves

variable {s s' : Shared cfg.maxNumThreads clients U.Code} {t : ThreadId cfg.maxNumThreads clients}
  {f : Frame cfg.maxNumThreads U.Code} {after : List (Frame cfg.maxNumThreads U.Code)} {a : ℕ}

private theorem RetireMove.outstanding {pool pool' : PoolState cfg.maxNumThreads clients Code} {tag : ℕ}
    {pc : RetirePc} {after : List (Frame cfg.maxNumThreads Code)} (hmove : RetireMove cfg t pool tag pc pool' after)
    (h : pool.Outstanding a) (hother : (Frame.retire tag pc : Frame cfg.maxNumThreads Code).endsAt ≠ some a) :
    pool'.Outstanding a := by
  cases hmove with
  | noEntry | spurious | swept | subtractQueued | sweep => exact h.of_eq rfl
  | @setRetired tagState node hentry hnode =>
    refine PoolState.Outstanding.of_eq (s := pool.setNode tagState node.retire) (h.setNode ?_) rfl
    rintro rfl
    obtain ⟨node', hnode', hcount⟩ := h
    cases hnode.symm.trans hnode'
    exact hcount
  | @subtractOutstanding tagState removedCount node _ _ hnode hwait =>
    have hne : a ≠ tagState := fun h => hother (congrArg some h.symm)
    have hkept : (pool.setNode tagState (node.add (-removedCount))).Outstanding a :=
      h.setNode fun h => absurd h hne
    cases hwait with
    | block => exact hkept.of_eq rfl
    | finish => exact hkept.eraseTag hne tag
  | @wait tagState _ _ hawake hwait =>
    have hne : a ≠ tagState := fun h => hother (congrArg some h.symm)
    cases hwait with
    | block => exact h.of_eq rfl
    | finish => exact h.eraseTag hne tag

/-- A node with an outstanding task keeps one, or the threads that wait are notified. -/
theorem FrameMove.outstanding (hmove : FrameMove cfg U t s f s' after) (h : s.pool.Outstanding a)
    (hcounts : ∀ b node, s.pool.tagNodes b = some node → 0 ≤ node.outstandingTaskCount)
    (hother : f.endsAt ≠ some a) : s'.pool.tagStateChanged = ∅ ∨ s'.pool.Outstanding a := by
  cases hmove with
  | runWorker hmove =>
    cases hmove with
    | tryGetTask hget =>
      cases hget with
      | popOwn hpop | steal _ hpop =>
        obtain ⟨lane, -, rfl⟩ := PoolState.tryPop_eq_some hpop
        exact .inr (h.of_eq rfl)
      | _ => exact .inr (h.of_eq rfl)
    | complete hcomplete => exact h.completeTaggedTask hcomplete
    | _ => exact .inr (h.of_eq rfl)
  | enqueue hmove =>
    cases hmove with
    | drop hemplace => exact .inr ((h.tryEmplace hemplace).of_eq rfl)
    | @register index item tagState address pool node hemplace hnode =>
      refine .inr (PoolState.Outstanding.of_eq (s := pool.setNode tagState (node.add 1)) ?_ rfl)
      refine (h.tryEmplace hemplace).setNode fun _ => ?_
      have hnonneg : 0 ≤ node.outstandingTaskCount := by
        unfold PoolState.tryEmplace at hemplace
        split at hemplace
        · cases hemplace
          exact hcounts _ node hnode
        · split at hemplace
          · cases hemplace
          · cases hemplace
            simp only [PoolState.emplaceNode_tagNodes, Function.update_self, Option.some.injEq] at hnode
            rw [← hnode]
      simp only [TagNode.add_outstandingTaskCount]
      omega
    | push hpush =>
      obtain ⟨lane, -, rfl⟩ := PoolState.push_eq_some hpush
      exact .inr (h.of_eq rfl)
    | complete hcomplete => exact h.completeTaggedTask hcomplete
    | _ => exact .inr (h.of_eq rfl)
  | retire hmove => exact .inr (hmove.outstanding h hother)
  | finishAllThreads hmove =>
    cases hmove with
    | pop _ hpop =>
      obtain ⟨lane, -, rfl⟩ := PoolState.tryPop_eq_some hpop
      exact .inr (h.of_eq rfl)
    | complete hcomplete => exact h.completeTaggedTask hcomplete
    | _ => exact .inr (h.of_eq rfl)
  | abandonAllThreads hmove =>
    cases hmove with
    | pop _ hpop =>
      obtain ⟨lane, -, rfl⟩ := PoolState.tryPop_eq_some hpop
      exact .inr (h.of_eq rfl)
    | complete hcomplete => exact h.completeTaggedTask hcomplete
    | _ => exact .inr (h.of_eq rfl)
  | parallelFor hmove => cases hmove <;> exact .inr (h.of_eq rfl)
  | parallelForAsync hmove => cases hmove <;> exact .inr (h.of_eq rfl)
  | drainIndices hmove => cases hmove <;> exact .inr (h.of_eq rfl)
  | _ => exact .inr (h.of_eq rfl)

/-- A step blocks its thread in the wait of `retire` with a task outstanding, or blocks no thread there. -/
theorem FrameMove.tagWaiters (hmove : FrameMove cfg U t s f s' after) :
    (s'.pool.tagStateChanged ⊆ s.pool.tagStateChanged ∧
      ∀ tag a, f = .retire tag (.wait a) → t ∉ s'.pool.tagStateChanged) ∨
      ∃ tag a, after = [.retire tag (.wait a)] ∧
        s'.pool.tagStateChanged = insert t s.pool.tagStateChanged ∧ s'.pool.Outstanding a := by
  cases hmove with
  | runWorker hmove =>
    refine .inl ⟨?_, nofun⟩
    cases hmove with
    | tryGetTask hget =>
      cases hget with
      | popOwn hpop | steal _ hpop =>
        obtain ⟨lane, -, rfl⟩ := PoolState.tryPop_eq_some hpop
        exact subset_rfl
      | _ => exact subset_rfl
    | complete hcomplete => exact PoolState.tagStateChanged_completeTaggedTask hcomplete
    | _ => exact subset_rfl
  | enqueue hmove =>
    refine .inl ⟨?_, nofun⟩
    cases hmove with
    | drop hemplace | register hemplace =>
      obtain ⟨tagStates, tagNodes, rfl⟩ := PoolState.tryEmplace_setTags hemplace
      exact subset_rfl
    | push hpush =>
      obtain ⟨lane, -, rfl⟩ := PoolState.push_eq_some hpush
      exact subset_rfl
    | complete hcomplete => exact PoolState.tagStateChanged_completeTaggedTask hcomplete
    | _ => exact subset_rfl
  | @retire tag _ _ _ hmove =>
    cases hmove with
    | subtractOutstanding hnode hwait =>
      cases hwait with
      | @block node' hnode' hzero =>
        exact .inr ⟨_, _, rfl, rfl, node', hnode', hzero⟩
      | finish =>
        exact .inl ⟨(PoolState.tagStateChanged_eraseTag _ _).subset, nofun⟩
    | @wait tagState _ _ hawake hwait =>
      cases hwait with
      | @block node' hnode' hzero => exact .inr ⟨_, _, rfl, rfl, node', hnode', hzero⟩
      | finish =>
        have hwaiters := PoolState.tagStateChanged_eraseTag (s := s.pool) tag tagState
        exact .inl ⟨hwaiters.subset, fun _ _ _ hmem => hawake (hwaiters.subset hmem)⟩
    | spurious => exact .inl ⟨Finset.erase_subset _ _, fun _ _ _ => Finset.notMem_erase _ _⟩
    | _ => exact .inl ⟨subset_rfl, nofun⟩
  | finishAllThreads hmove =>
    refine .inl ⟨?_, nofun⟩
    cases hmove with
    | pop _ hpop =>
      obtain ⟨lane, -, rfl⟩ := PoolState.tryPop_eq_some hpop
      exact subset_rfl
    | complete hcomplete => exact PoolState.tagStateChanged_completeTaggedTask hcomplete
    | _ => exact subset_rfl
  | abandonAllThreads hmove =>
    refine .inl ⟨?_, nofun⟩
    cases hmove with
    | pop _ hpop =>
      obtain ⟨lane, -, rfl⟩ := PoolState.tryPop_eq_some hpop
      exact subset_rfl
    | complete hcomplete => exact PoolState.tagStateChanged_completeTaggedTask hcomplete
    | _ => exact subset_rfl
  | parallelFor hmove => cases hmove <;> exact .inl ⟨subset_rfl, nofun⟩
  | parallelForAsync hmove => cases hmove <;> exact .inl ⟨subset_rfl, nofun⟩
  | drainIndices hmove => cases hmove <;> exact .inl ⟨subset_rfl, nofun⟩
  | _ => exact .inl ⟨subset_rfl, nofun⟩

end Moves

namespace PoolSystem

variable {s s' : PoolSystem cfg U clients}

theorem outstandingTaskCount_nonneg (hreach : (poolSystem cfg U clients).Reachable s) {a : ℕ} {node : TagNode}
    (hnode : s.shared.pool.tagNodes a = some node) : 0 ≤ node.outstandingTaskCount := by
  have hcount := Ledger.outstanding_eq (ledger_reachable hreach) a
  rw [Ledger.outstanding_of_node (show s.ledger.tagNodes a = some node from hnode)] at hcount
  omega

theorem eq_of_retire (hone : s.OneRetirePerTag) {t u : ThreadId cfg.maxNumThreads clients} {tag : ℕ}
    {pc pc' : RetirePc} (ht : .retire tag pc ∈ s.threads t) (hu : .retire tag pc' ∈ s.threads u) : t = u := by
  by_contra hne
  have htwo := (add_le_weight (Frame.poolWeight (retireCalls _ _ tag)) hne ht hu).trans (hone tag)
  simp at htwo

/-- No other call erases or lowers the node of a `retire` that waits. -/
theorem not_endsAt (hreach : (poolSystem cfg U clients).ReachableUnder OneRetirePerTag s)
    {t u : ThreadId cfg.maxNumThreads clients} (hne : u ≠ t) {tag a : ℕ} (hu : .retire tag (.wait a) ∈ s.threads u)
    {f : Frame cfg.maxNumThreads U.Code} (hf : f ∈ s.threads t) : f.endsAt ≠ some a := by
  intro hends
  obtain ⟨tag', pc, rfl, hmem⟩ : ∃ tag' pc, f = .retire tag' pc ∧
      ∃ k, (⟨tag', a, k⟩ : Retiring) ∈ (f.poolWeight (custody cfg.maxNumThreads U.Code)).2 := by
    unfold Frame.endsAt at hends
    split at hends <;> cases hends
    · exact ⟨_, _, rfl, _, Multiset.mem_singleton_self _⟩
    · exact ⟨_, _, rfl, 0, Multiset.mem_singleton_self _⟩
  obtain ⟨k, hmem⟩ := hmem
  have hmarked := Ledger.markedAt_of_retiring (ledger_reachableUnder hreach) _ (mem_retiring_of_frame hf hmem)
  have hmarked' := Ledger.markedAt_of_retiring (ledger_reachableUnder hreach) ⟨tag, a, 0⟩
    (mem_retiring_of_frame hu (by simp))
  obtain ⟨node, hnode, htag, -⟩ := hmarked
  obtain ⟨node', hnode', htag', -⟩ := hmarked'
  obtain rfl : node = node' := Option.some.inj (hnode.symm.trans hnode')
  obtain rfl : tag' = tag := htag.symm.trans htag'
  exact hne (eq_of_retire hreach.keeps hu hf)

/-- Every thread that is blocked in the wait of `retire` waits for a task that is outstanding. -/
def RetireWaits (s : PoolSystem cfg U clients) : Prop :=
  ∀ u ∈ s.shared.pool.tagStateChanged, ∃ tag a rest,
    s.threads u = .retire tag (.wait a) :: rest ∧ s.shared.pool.Outstanding a

theorem retireWaits (hreach : (poolSystem cfg U clients).ReachableUnder OneRetirePerTag s) : s.RetireWaits := by
  refine TransitionSystem.ReachableUnder.invariant (fun s : PoolSystem cfg U clients => s.RetireWaits)
    ?_ (fun s s' hr hI hstep _ => ?_) hreach
  · rintro s ⟨main, rfl⟩ - u hu
    exact absurd hu (Finset.notMem_empty u)
  · obtain ⟨t, c, h⟩ := hstep
    obtain ⟨before, after, rest, hstack, hrule, hthreads⟩ := step_rule h
    intro u hu
    generalize s'.shared = shared' at hrule hu ⊢
    cases hrule with
    | unwind =>
      obtain ⟨tag, a, below, hwaits, houtstanding⟩ := hI u hu
      have hne : u ≠ t := by
        rintro rfl
        cases hwaits.symm.trans hstack
      exact ⟨tag, a, below, by rw [hthreads, Function.update_of_ne hne, hwaits], houtstanding⟩
    | @frame _ _ f _ _ hmove =>
      have hwaiters := hmove.tagWaiters
      by_cases hne : u = t
      · subst hne
        rcases hwaiters with ⟨hsubset, hown⟩ | ⟨tag, a, rfl, -, houtstanding⟩
        · obtain ⟨tag, a, below, hwaits, -⟩ := hI u (hsubset hu)
          obtain ⟨rfl, -⟩ := List.cons_eq_cons.mp (hwaits.symm.trans hstack)
          exact absurd hu (hown tag a rfl)
        · exact ⟨tag, a, rest, by rw [hthreads, Function.update_self]; rfl, houtstanding⟩
      · have hold : u ∈ s.shared.pool.tagStateChanged := by
          rcases hwaiters with ⟨hsubset, -⟩ | ⟨-, -, -, hinsert, -⟩
          · exact hsubset hu
          · exact Finset.mem_of_mem_insert_of_ne (hinsert ▸ hu) hne
        obtain ⟨tag, a, below, hwaits, houtstanding⟩ := hI u hold
        refine ⟨tag, a, below, by rw [hthreads, Function.update_of_ne hne, hwaits], ?_⟩
        have hother : f.endsAt ≠ some a :=
          not_endsAt hr hne (hwaits ▸ List.mem_cons_self) (hstack ▸ List.mem_cons_self)
        rcases hmove.outstanding houtstanding
          (fun b node => outstandingTaskCount_nonneg hr.reachable) hother with hnone | hkept
        · rw [hnone] at hu
          exact absurd hu (Finset.notMem_empty u)
        · exact hkept

end PoolSystem

end CppUtils
