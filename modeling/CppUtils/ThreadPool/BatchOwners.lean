import CppUtils.ThreadPool.BatchFrames

/-!
# Which call a batch belongs to

The size, the function and the kind of completion action of a batch are fixed when it is made. A
`parallelFor` call in progress holds a batch that signals it, one of `parallelForAsync` a batch with
the caller's own action, and `done` is set exactly when the action of a `parallelFor` batch has run.
-/

namespace CppUtils

open Threaded

variable {clients workers : ℕ} {U : UserCode} {Code : Type} {cfg : PoolConfig}

/-- The batch of a `parallelFor` call, whose completion action sets `done`. -/
def OnAllCompleted.isSignal : OnAllCompleted workers clients Code → Bool
  | .signal _ => true
  | .user _ => false

/-- A later state of the same batch: what `makeParallelBatchState` fixed is unchanged, and the calls
of `fn` that have begun stay on record. -/
structure ParallelBatchState.SameCall (b b' : ParallelBatchState workers clients Code) : Prop where
  count : b'.counters.count = b.counters.count
  fn : b'.fn = b.fn
  isSignal : b'.onAllCompleted.isSignal = b.onAllCompleted.isSignal
  begun : b.counters.fnBegun ⊆ b'.counters.fnBegun

theorem ParallelBatchState.SameCall.refl (b : ParallelBatchState workers clients Code) :
    b.SameCall b :=
  ⟨rfl, rfl, rfl, List.Subset.refl _⟩

@[simp] theorem BatchCounters.drainStep_count (b : BatchCounters) (pc : DrainPc) :
    (b.drainStep pc).1.count = b.count := by
  cases pc <;> simp only [drainStep] <;> split <;> rfl

theorem BatchCounters.fnBegun_drainStep (b : BatchCounters) (pc : DrainPc) :
    b.fnBegun ⊆ (b.drainStep pc).1.fnBegun := by
  fun_cases drainStep b pc
  case case2 => exact List.subset_cons_self _ _
  all_goals exact List.Subset.refl _

/-- Only the end of a batch runs its completion action. -/
theorem BatchCounters.drainStep_completions {b : BatchCounters} {pc : DrainPc}
    (heffect : (b.drainStep pc).2 ≠ .complete) : (b.drainStep pc).1.completions = b.completions := by
  revert heffect
  fun_cases drainStep b pc
  all_goals intro heffect
  all_goals first | rfl | exact absurd rfl heffect

theorem BatchCounters.drainStep_completions_pos {b : BatchCounters} {pc : DrainPc}
    (heffect : (b.drainStep pc).2 = .complete) : 0 < (b.drainStep pc).1.completions := by
  revert heffect
  fun_cases drainStep b pc
  all_goals intro heffect
  case case6 => exact Nat.succ_pos _
  all_goals cases heffect

namespace Shared

variable {s : Shared workers clients Code} {batch batch' : ℕ}
  {b b' b'' : ParallelBatchState workers clients Code}

theorem batches_setBatch (hbatch : s.batches batch = some b) (hold : s.batches batch' = some b')
    (hsame : b'.SameCall b'') :
    ∃ b₁, (s.setBatch batch' b'').batches batch = some b₁ ∧ b.SameCall b₁ := by
  by_cases h : batch = batch'
  · subst h
    rw [hold] at hbatch
    cases hbatch
    exact ⟨b'', by simp, hsame⟩
  · exact ⟨b, by simp [h, hbatch], .refl b⟩

end Shared

section Steps

variable {s s' : Shared cfg.maxNumThreads clients U.Code} {t : ThreadId cfg.maxNumThreads clients}
  {f : Frame cfg.maxNumThreads U.Code} {after : List (Frame cfg.maxNumThreads U.Code)} {batch : ℕ}
  {b : ParallelBatchState cfg.maxNumThreads clients U.Code}

/-- A batch stays, with the size, the function and the kind of action it was made with. -/
theorem FrameMove.sameCall (hmove : FrameMove cfg U t s f s' after) (hmade : s.BatchesMade)
    (hbatch : s.batches batch = some b) : ∃ b', s'.batches batch = some b' ∧ b.SameCall b' := by
  have hsame : ∃ b', s.batches batch = some b' ∧ b.SameCall b' := ⟨b, hbatch, .refl b⟩
  have hmake : ∀ count fn onAllCompleted, ∃ b',
      (s.makeBatch count fn onAllCompleted).batches batch = some b' ∧ b.SameCall b' := by
    intro count fn onAllCompleted
    have hne : batch ≠ s.nextBatch := (hmade.lt hbatch).ne
    exact ⟨b, by simp [hne, hbatch], .refl b⟩
  cases hmove with
  | parallelFor hmove =>
    cases hmove with
    | make => exact hmake _ _ _
    | block hold | spurious hold =>
      exact Shared.batches_setBatch hbatch hold ⟨rfl, rfl, rfl, List.Subset.refl _⟩
    | _ => exact hsame
  | parallelForAsync hmove =>
    cases hmove with
    | make => exact hmake _ _ _
    | _ => exact hsame
  | drainIndices hmove =>
    cases hmove with
    | exit hold | goto hold | callFn hold | callUser hold =>
      exact Shared.batches_setBatch hbatch hold
        ⟨by simp, rfl, rfl, BatchCounters.fnBegun_drainStep _ _⟩
    | signal hold _ hcompleted =>
      exact Shared.batches_setBatch hbatch hold
        ⟨by simp, rfl, by rw [hcompleted]; rfl, BatchCounters.fnBegun_drainStep _ _⟩
  | _ => exact hsame

end Steps

/-! ### The frames that hold a batch -/

/-- A batch that is made, of this kind; a batch of `parallelFor` has two indices at least. -/
def Shared.HasBatch (s : Shared workers clients Code) (isSignal : Bool) (batch : ℕ) : Prop :=
  ∃ b, s.batches batch = some b ∧ b.onAllCompleted.isSignal = isSignal ∧
    (isSignal = true → 2 ≤ b.counters.count)

/-- A frame that holds a batch holds one of the kind it works with. -/
def Frame.wired (s : Shared workers clients Code) : Frame workers Code → Prop
  | .parallelFor (.helpers batch _ _) => s.HasBatch true batch
  | .parallelFor (.lock batch) => s.HasBatch true batch
  | .parallelFor (.wait batch) => s.HasBatch true batch
  | .parallelForAsync (.helpers batch _ _) => s.HasBatch false batch
  | .drainIndices batch .inCompletion => s.HasBatch false batch
  | _ => True

theorem Closure.wired_frame (s : Shared workers clients Code) (task : Closure Code) :
    (task.frame : Frame workers Code).wired s := by
  cases task <;> trivial

theorem UserStep.wired_frames (s : Shared workers clients Code) (step : UserStep Code) :
    ∀ f ∈ (step.frames : List (Frame workers Code)), f.wired s := by
  intro f hf
  rcases step with ⟨request, resume⟩ | _ | _ <;>
    simp only [frames, List.mem_cons, List.not_mem_nil, or_false] at hf
  · rcases hf with rfl | rfl
    · cases request <;> trivial
    · trivial
  · subst hf
    trivial

section Steps

variable {s s' : Shared cfg.maxNumThreads clients U.Code} {t : ThreadId cfg.maxNumThreads clients}
  {f : Frame cfg.maxNumThreads U.Code} {after : List (Frame cfg.maxNumThreads U.Code)}

theorem FrameMove.hasBatch (hmove : FrameMove cfg U t s f s' after) (hmade : s.BatchesMade)
    {isSignal : Bool} {batch : ℕ} (hbatch : s.HasBatch isSignal batch) : s'.HasBatch isSignal batch := by
  obtain ⟨b, hb, hkind, htwo⟩ := hbatch
  obtain ⟨b', hb', hsame⟩ := hmove.sameCall hmade hb
  exact ⟨b', hb', hsame.isSignal.trans hkind, fun h => hsame.count ▸ htwo h⟩

theorem FrameMove.wired_other (hmove : FrameMove cfg U t s f s' after) (hmade : s.BatchesMade)
    {g : Frame cfg.maxNumThreads U.Code} (hg : g.wired s) : g.wired s' := by
  unfold Frame.wired at hg ⊢
  split at hg
  all_goals first | exact hmove.hasBatch hmade hg | trivial

theorem FrameMove.wired (hmove : FrameMove cfg U t s f s' after) (hmade : s.BatchesMade)
    (hf : f.wired s) : ∀ g ∈ after, g.wired s' := by
  cases hmove with
  | @body code i => exact (U.next code i).wired_frames s
  | resume => simp [Frame.wired]
  | runWorker hmove =>
    cases hmove with
    | begin =>
      simp only [List.mem_cons, List.not_mem_nil, or_false, forall_eq_or_imp, forall_eq]
      exact ⟨Closure.wired_frame _ _, trivial⟩
    | _ => simp [Frame.wired]
  | enqueue hmove => cases hmove <;> simp [Frame.wired]
  | retire hmove =>
    cases hmove with
    | subtractOutstanding _ hwait | wait _ hwait => cases hwait <;> simp [Frame.wired]
    | _ => simp [Frame.wired]
  | @finishAllThreads completePendingTasks _ _ _ hmove =>
    cases hmove with
    | begin =>
      simp only [List.mem_cons, List.not_mem_nil, or_false, forall_eq_or_imp, forall_eq]
      exact ⟨Closure.wired_frame _ _, trivial⟩
    | notifyAllJoined | assertIdle => cases completePendingTasks <;> simp [afterJoin, Frame.wired]
    | _ => simp [Frame.wired]
  | abandonAllThreads hmove => cases hmove <;> simp [Frame.wired]
  | parallelFor hmove =>
    have hstays := (FrameMove.parallelFor hmove).wired_other hmade hf
    cases hmove with
    | @make count fn hzero hone =>
      simp only [List.mem_singleton, forall_eq, Frame.wired]
      exact ⟨⟨.initial count, fn, .signal ⟨false, ∅⟩⟩, by simp, rfl, fun _ => by
        change 2 ≤ count
        omega⟩
    | helper | drain =>
      simp only [List.mem_cons, List.not_mem_nil, or_false, forall_eq_or_imp, forall_eq]
      exact ⟨trivial, hf⟩
    | block hbatch hpc =>
      simp only [List.mem_singleton, forall_eq]
      rcases hpc with rfl | ⟨rfl, -⟩ <;> exact hstays
    | spurious =>
      simp only [List.mem_singleton, forall_eq]
      exact hstays
    | _ => simp [Frame.wired]
  | parallelForAsync hmove =>
    cases hmove with
    | @make count fn onAllCompleted hcount =>
      simp only [List.mem_singleton, forall_eq, Frame.wired]
      exact ⟨⟨.initial count, fn, .user onAllCompleted⟩, by simp, rfl, fun h => by cases h⟩
    | helper =>
      simp only [List.mem_cons, List.not_mem_nil, or_false, forall_eq_or_imp, forall_eq]
      exact ⟨trivial, hf⟩
    | _ => simp [Frame.wired]
  | @drainIndices batch pc _ _ hmove =>
    cases hmove with
    | @goto b pc pc' hbatch heffect =>
      simp only [List.mem_singleton, forall_eq]
      have hne : pc' ≠ .inCompletion := by
        rintro rfl
        cases pc <;> simp only [BatchCounters.drainStep] at heffect <;>
          (try split at heffect) <;> cases heffect
      cases pc' <;> trivial
    | @callUser b pc code hbatch heffect hcompleted =>
      simp only [List.mem_cons, List.not_mem_nil, or_false, forall_eq_or_imp, forall_eq]
      refine ⟨trivial, { b with counters := (b.counters.drainStep pc).1 }, by simp, ?_, fun h => by cases h⟩
      change b.onAllCompleted.isSignal = false
      rw [hcompleted]
      rfl
    | _ => simp [Frame.wired]

theorem unwind_wired (hunwind : unwind f = some after) (hf : f.wired s) : ∀ g ∈ after, g.wired s := by
  unfold unwind at hunwind
  split at hunwind <;> cases hunwind <;> simp [Frame.wired]

end Steps

namespace PoolSystem

variable {s : PoolSystem cfg U clients}

theorem wired (hreach : (poolSystem cfg U clients).Reachable s) :
    ∀ t, ∀ f ∈ s.threads t, f.wired s.shared := by
  refine TransitionSystem.Reachable.invariant
    (fun s : PoolSystem cfg U clients => ∀ t, ∀ f ∈ s.threads t, f.wired s.shared)
    ?_ (fun s s' hr hI hstep => ?_) hreach
  · rintro s ⟨main, rfl⟩ t f hf
    cases t <;> simp only [initialSystem, List.mem_singleton] at hf <;> subst hf <;> trivial
  · have hmade := batchesMade hr
    cases step_move hstep with
    | @mk shared' before after rest u hstack hrule =>
      intro t f hf
      have hother : ∀ g : Frame cfg.maxNumThreads U.Code, g.wired s.shared → g.wired shared' := by
        intro g hg
        cases hrule with
        | frame hmove => exact hmove.wired_other hmade hg
        | unwind => exact hg
      have hbefore : ∀ g ∈ before, g.wired s.shared := fun g hg =>
        hI u g (hstack ▸ List.mem_append_left _ hg)
      change f ∈ Function.update s.threads u (after ++ rest) t at hf
      by_cases ht : t = u
      · subst ht
        rw [Function.update_self] at hf
        rcases List.mem_append.mp hf with hf | hf
        · cases hrule with
          | frame hmove => exact hmove.wired hmade (hbefore _ (List.mem_singleton_self _)) f hf
          | @unwind _ _ g _ hunwind => exact unwind_wired hunwind (hbefore g (by simp)) f hf
        · exact hother f (hI t f (hstack ▸ List.mem_append_right _ hf))
      · rw [Function.update_of_ne ht] at hf
        exact hother f (hI t f hf)

theorem sameCall_step {s' : PoolSystem cfg U clients} (hreach : (poolSystem cfg U clients).Reachable s)
    (hstep : (poolSystem cfg U clients).Step s s') {batch : ℕ}
    {b : ParallelBatchState cfg.maxNumThreads clients U.Code}
    (hbatch : s.shared.batches batch = some b) :
    ∃ b', s'.shared.batches batch = some b' ∧ b.SameCall b' := by
  cases step_move hstep with
  | mk t hstack hrule =>
    cases hrule with
    | frame hmove => exact hmove.sameCall (batchesMade hreach) hbatch
    | unwind => exact ⟨b, hbatch, .refl b⟩

end PoolSystem

/-! ### The wait block -/

/-- `done` of a `parallelFor` batch is set exactly when its completion action has run. -/
def Shared.DoneAgrees (s : Shared workers clients Code) : Prop :=
  ∀ batch counters fn sync, s.batches batch = some ⟨counters, fn, .signal sync⟩ →
    (sync.done = true ↔ 0 < counters.completions)

namespace Shared

variable {s : Shared workers clients Code}

theorem DoneAgrees.setBatch (h : s.DoneAgrees) {batch : ℕ}
    {b : ParallelBatchState workers clients Code}
    (hb : ∀ sync, b.onAllCompleted = .signal sync → (sync.done = true ↔ 0 < b.counters.completions)) :
    (s.setBatch batch b).DoneAgrees := by
  intro batch' counters fn sync hbatch
  obtain rfl | hold := setBatch_cases hbatch
  · exact hb sync rfl
  · exact h batch' counters fn sync hold

theorem DoneAgrees.makeBatch (h : s.DoneAgrees) (count : ℕ) (fn : ℕ → Code)
    {onAllCompleted : OnAllCompleted workers clients Code}
    (hdone : ∀ sync, onAllCompleted = .signal sync → sync.done = false) :
    (s.makeBatch count fn onAllCompleted).DoneAgrees := by
  intro batch' counters fn' sync hbatch
  obtain hnew | hold := makeBatch_cases hbatch
  · cases hnew
    simp [hdone sync rfl, BatchCounters.initial]
  · exact h batch' counters fn' sync hold

end Shared

theorem FrameMove.doneAgrees {t : ThreadId cfg.maxNumThreads clients}
    {s s' : Shared cfg.maxNumThreads clients U.Code} {f : Frame cfg.maxNumThreads U.Code}
    {after : List (Frame cfg.maxNumThreads U.Code)} (hmove : FrameMove cfg U t s f s' after)
    (h : s.DoneAgrees) : s'.DoneAgrees := by
  -- A step of a drainer that does not run the completion action.
  have hdrain : ∀ {batch : ℕ} {b : ParallelBatchState cfg.maxNumThreads clients U.Code} {pc : DrainPc},
      s.batches batch = some b → (b.counters.drainStep pc).2 ≠ .complete →
        (s.setBatch batch { b with counters := (b.counters.drainStep pc).1 }).DoneAgrees := by
    intro batch b pc hbatch hne
    refine h.setBatch fun sync hsync => ?_
    have hagrees := h batch b.counters b.fn sync (by rw [hbatch, ← hsync])
    rw [BatchCounters.drainStep_completions hne]
    exact hagrees
  cases hmove with
  | parallelFor hmove =>
    cases hmove with
    | make => exact h.makeBatch _ _ fun sync hsync => by cases hsync; rfl
    | block hbatch | spurious hbatch =>
      refine h.setBatch fun sync hsync => ?_
      cases hsync
      have hagrees := h _ _ _ _ hbatch
      exact hagrees
    | _ => exact h
  | parallelForAsync hmove =>
    cases hmove with
    | make => exact h.makeBatch _ _ fun sync hsync => by cases hsync
    | _ => exact h
  | drainIndices hmove =>
    cases hmove with
    | exit hbatch heffect | goto hbatch heffect | callFn hbatch heffect =>
      exact hdrain hbatch (by simp [heffect])
    | callUser hbatch _ hcompleted =>
      refine h.setBatch fun sync hsync => ?_
      rw [hcompleted] at hsync
      cases hsync
    | signal hbatch heffect =>
      refine h.setBatch fun sync' hsync => ?_
      cases hsync
      exact iff_of_true rfl (BatchCounters.drainStep_completions_pos heffect)
  | _ => exact h

theorem PoolSystem.doneAgrees {s : PoolSystem cfg U clients}
    (hreach : (poolSystem cfg U clients).Reachable s) : s.shared.DoneAgrees := by
  refine TransitionSystem.Reachable.invariant
    (fun s : PoolSystem cfg U clients => s.shared.DoneAgrees) ?_ (fun s s' _ hI hstep => ?_) hreach
  · rintro s ⟨main, rfl⟩ batch counters fn sync hbatch
    cases hbatch
  · cases step_move hstep with
    | mk t hstack hrule =>
      cases hrule with
      | frame hmove => exact hmove.doneAgrees hI
      | unwind => exact hI

end CppUtils
