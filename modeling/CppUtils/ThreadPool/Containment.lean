import CppUtils.ThreadPool.ParallelBatches
import CppUtils.ThreadPool.Progress

/-!
# Exceptions in `parallelFor`

The dispenser contains what `fn` throws, so no exception comes out of a drain of the caller's own
batch. The call for a single index is made outside the dispenser, and there it does.
-/

namespace CppUtils

open Threaded

variable {clients workers : ℕ} {U : UserCode} {Code : Type} {cfg : PoolConfig}

/-- An exception does not stand on a call that drains its batch. -/
def Frame.notOnDrain (f g : Frame workers Code) : Prop :=
  f = .unwinding → ∀ batch, g ≠ .parallelFor (.lock batch)

theorem UserCall.frame_ne_unwinding (request : UserCall Code) :
    (request.frame : Frame workers Code) ≠ .unwinding := by
  cases request <;> simp [UserCall.frame]

theorem Closure.frame_ne_unwinding (task : Closure Code) :
    (task.frame : Frame workers Code) ≠ .unwinding := by
  cases task <;> simp [Closure.frame]

/-- An exception starts in user code or in an `enqueue`. -/
theorem FrameMove.unwinding_after {t : ThreadId cfg.maxNumThreads clients}
    {s s' : Shared cfg.maxNumThreads clients U.Code} {f : Frame cfg.maxNumThreads U.Code}
    {after : List (Frame cfg.maxNumThreads U.Code)} (hmove : FrameMove cfg U t s f s' after)
    (hmem : .unwinding ∈ after) : after = [.unwinding] ∧ (f.kind = .code ∨ f.kind = .enqueue) := by
  cases hmove with
  | @body code i =>
    cases hnext : U.next code i with
    | call request resume =>
      rw [hnext] at hmem
      simp only [UserStep.frames, List.mem_cons, List.not_mem_nil, or_false, reduceCtorEq] at hmem
      exact absurd hmem.symm request.frame_ne_unwinding
    | ret =>
      rw [hnext] at hmem
      cases hmem
    | throw => exact ⟨rfl, .inl rfl⟩
  | resume => simp at hmem
  | runWorker hmove =>
    cases hmove with
    | @begin item =>
      simp only [List.mem_cons, List.not_mem_nil, or_false, reduceCtorEq] at hmem
      exact absurd hmem.symm item.task.frame_ne_unwinding
    | _ => simp at hmem
  | enqueue hmove =>
    cases hmove with
    | rethrow => exact ⟨rfl, .inr rfl⟩
    | _ => simp at hmem
  | retire hmove =>
    cases hmove with
    | subtractOutstanding _ hwait | wait _ hwait => cases hwait <;> simp at hmem
    | _ => simp at hmem
  | @finishAllThreads completePendingTasks _ _ _ hmove =>
    cases hmove with
    | @begin _ item =>
      simp only [List.mem_cons, List.not_mem_nil, or_false, reduceCtorEq] at hmem
      exact absurd hmem.symm item.task.frame_ne_unwinding
    | notifyAllJoined | assertIdle => cases completePendingTasks <;> simp [afterJoin] at hmem
    | _ => simp at hmem
  | abandonAllThreads hmove => cases hmove <;> simp at hmem
  | parallelFor hmove => cases hmove <;> simp at hmem
  | parallelForAsync hmove => cases hmove <;> simp at hmem
  | drainIndices hmove => cases hmove <;> simp at hmem

namespace PoolSystem

variable {s s' : PoolSystem cfg U clients}

/-- No exception reaches a `parallelFor` call from the drain of its own batch. -/
theorem notOnDrain (hreach : (poolSystem cfg U clients).Reachable s)
    (t : ThreadId cfg.maxNumThreads clients) : (s.threads t).IsChain Frame.notOnDrain := by
  refine TransitionSystem.Reachable.invariant
    (fun s : PoolSystem cfg U clients => ∀ t, (s.threads t).IsChain Frame.notOnDrain)
    ?_ (fun s s' hr hI hstep => ?_) hreach t
  · rintro s ⟨main, rfl⟩ t
    cases t <;> exact .singleton _
  · refine (step_move hstep).forall_threads
      (P := fun _ _ (frames : List (Frame cfg.maxNumThreads U.Code)) => frames.IsChain Frame.notOnDrain)
      (fun t before after rest hstack hrule hchain => ?_) (fun _ _ _ _ _ _ t _ h => h) hI
    generalize s'.shared = shared' at hrule
    have hstands := isChain hr t
    rw [hstack] at hstands
    cases hrule with
    | @frame _ _ f _ _ hmove =>
      by_cases hmem : .unwinding ∈ after
      · obtain ⟨rfl, hkind⟩ := hmove.unwinding_after hmem
        refine List.isChain_cons.mpr ⟨fun g hg _ batch hlock => ?_, (List.isChain_cons.mp hchain).2⟩
        -- The frame that threw stood on the call, so it would be a drainer.
        rw [hlock] at hg
        have hawaits := (List.isChain_cons.mp hstands).1 _ hg
        rcases hawaits with h | ⟨h, -⟩
        · rcases hkind with hkind | hkind <;> rw [hkind] at h <;> cases h
        · rcases hkind with hkind | hkind <;> rw [hkind] at h <;> cases h
      · have hvacuous : ∀ f ∈ after, ∀ g, f.notOnDrain g := fun f hf g h => absurd (h ▸ hf) hmem
        refine List.isChain_append.mpr ⟨?_, (List.isChain_cons.mp hchain).2, fun l hl g _ =>
          hvacuous l (List.mem_of_getLast? hl) g⟩
        exact (List.pairwise_of_forall_mem_list fun f hf g _ => hvacuous f hf g).isChain
    | @unwind _ _ f _ hunwind =>
      have hrest := (List.isChain_cons.mp (List.isChain_cons.mp hchain).2).2
      have hbelow := (List.isChain_cons.mp (List.isChain_cons.mp hstands).2).1
      -- What the exception passes to the frame below it.
      have hlast : ∀ l ∈ after.getLast?, ∀ g ∈ rest.head?, l.notOnDrain g := by
        intro l hl g hg hthrew batch hlock
        subst hthrew hlock
        have hkind : f.kind = .drainIndices batch := by
          rcases hbelow _ hg with h | ⟨h, -⟩
          · exact h
          · unfold unwind at hunwind
            split at hunwind <;> cases hunwind <;> cases h
        cases f <;> cases hkind
        rename_i pc
        have hdrainer := wired hr t (.drainIndices batch pc) (by simp [hstack])
        have hcall := wired hr t (.parallelFor (.lock batch))
          (hstack ▸ List.mem_append_right _ (List.mem_of_mem_head? hg))
        cases pc with
        | inCompletion =>
          obtain ⟨b, hb, hkind, -⟩ := hdrainer
          obtain ⟨b', hb', hkind', -⟩ := hcall
          rw [hb] at hb'
          cases hb'
          rw [hkind] at hkind'
          cases hkind'
        | inFn index =>
          cases hunwind
          cases hl
        | _ => cases hunwind
      refine List.isChain_append.mpr ⟨?_, hrest, hlast⟩
      unfold unwind at hunwind
      split at hunwind <;> cases hunwind <;> exact .singleton _

/-- An exception reaches a `parallelFor` call from a single index or from an `enqueue`. -/
theorem pc_of_unwinding (hreach : (poolSystem cfg U clients).Reachable s)
    {t : ThreadId cfg.maxNumThreads clients} {pc : ParallelForPc U.Code}
    {rest : List (Frame cfg.maxNumThreads U.Code)}
    (hstack : s.threads t = .unwinding :: .parallelFor pc :: rest) :
    pc = .single ∨ ∃ batch i helperCount, pc = .helpers batch i helperCount := by
  have hbelow : s.threads t = [] ++ .unwinding :: .parallelFor pc :: rest := hstack
  obtain ⟨k, hk⟩ := awaits_of_mem_rest hreach hbelow
  have hchain := notOnDrain hreach t
  rw [hstack] at hchain
  cases pc with
  | single => exact .inl rfl
  | helpers batch i helperCount => exact .inr ⟨batch, i, helperCount, rfl⟩
  | lock batch => exact absurd rfl ((List.isChain_cons_cons.mp hchain).1 rfl batch)
  | start | wait => exact hk.elim

end PoolSystem

namespace ParallelForCall

variable {count : ℕ} {fn : ℕ → U.Code} {t : ThreadId cfg.maxNumThreads clients}
  {s s' : PoolSystem cfg U clients} {above rest : List (Frame cfg.maxNumThreads U.Code)}
  {pc : ParallelForPc U.Code}

theorem count_of_single (hcall : ParallelForCall count fn t rest s above .single) : count = 1 :=
  hcall.serves

theorem threads_of_end (hcall : ParallelForCall count fn t rest s above pc)
    (hstep : (poolSystem cfg U clients).Step s s') :
    s'.threads t = .unwinding :: rest ∧ above = [.unwinding] ∨
      s'.threads t ≠ .unwinding :: rest ∧ (s'.threads t = rest → above = []) := by
  rcases PoolSystem.step_call hstep (by simp) hcall.stack with ⟨above', hstack⟩ |
    ⟨habove, after, hmove, hstack⟩ | ⟨habove, -, after, hunwind, hstack⟩
  · refine .inr ⟨fun h => ?_, fun h => ?_⟩
    · rw [hstack] at h
      exact absurd (append_cons_inj (h.trans (List.nil_append _).symm)).2 (by simp)
    · rw [h] at hstack
      have hlength := congrArg List.length hstack
      simp at hlength
      omega
  · refine .inr ⟨fun h => ?_, fun _ => habove⟩
    rw [hstack] at h
    have hafter : after = [.unwinding] := List.append_cancel_right h
    subst hafter
    obtain ⟨-, hkind⟩ := hmove.unwinding_after (List.mem_singleton_self _)
    rcases hkind with h | h <;> cases h
  · obtain rfl : [.unwinding] = after := Option.some.inj hunwind
    exact .inl ⟨hstack, habove⟩

end ParallelForCall

/-- A `parallelFor(count, fn)` call that ends returns to its caller, having called `fn` once on every
index, exactly if no exception left the call of `fn` for a single index or the `enqueue` of a helper.
Until then, whenever it is the innermost call of its thread, it can go on or waits for another thread
inside a call of `fn`. -/
theorem parallelFor_contains_iff {count : ℕ} {fn : ℕ → U.Code} {t : ThreadId cfg.maxNumThreads clients}
    {s : PoolSystem cfg U clients} {above rest : List (Frame cfg.maxNumThreads U.Code)}
    {pc : ParallelForPc U.Code} (hcall : ParallelForCall count fn t rest s above pc)
    (hroom : count + (cfg.maxNumThreads + 1) < 2 ^ 64) :
    (∀ s', (poolSystem cfg U clients).Step s s' →
      s'.threads t = rest ∨ s'.threads t = .unwinding :: rest →
      ((s'.threads t = rest ∧ (pc.begun s.shared).Perm (List.range count) ∧
          (pc.over s.shared).Perm (List.range count))
        ↔ ¬ (count = 1 ∧ s.threads t = .unwinding :: .parallelFor .single :: rest) ∧
          ¬ ∃ batch i helperCount,
            s.threads t = .unwinding :: .parallelFor (.helpers batch i helperCount) :: rest)) ∧
    (above = [] → (∃ c s', c.endsWait = false ∧ step cfg U t c s = some s') ∨
      ∃ batch u, u ≠ t ∧ ∃ drainPc, .drainIndices batch drainPc ∈ s.threads u ∧
        (drainPc.holdsIndex = true ∨ drainPc = .allCompleted)) := by
  have hstack := hcall.stack
  refine ⟨fun s' hstep hend => ⟨?_, ?_⟩, ?_⟩
  · rintro ⟨hreturn, -⟩
    rcases hcall.threads_of_end hstep with ⟨hthrew, -⟩ | ⟨-, hinnermost⟩
    · rw [hreturn] at hthrew
      have hlength := congrArg List.length hthrew
      simp at hlength
    · rw [hinnermost hreturn] at hstack
      constructor
      · rintro ⟨-, h⟩
        rw [hstack] at h
        cases h
      · rintro ⟨batch, i, helperCount, h⟩
        rw [hstack] at h
        cases h
  · rintro ⟨hsingle, hhelpers⟩
    rcases hend with hreturn | hthrew
    · exact ⟨hreturn, hcall.returned hroom hstep hreturn⟩
    · rcases hcall.threads_of_end hstep with ⟨-, rfl⟩ | ⟨hnot, -⟩
      · rcases PoolSystem.pc_of_unwinding hcall.reachable hstack with rfl | ⟨batch, i, helperCount, rfl⟩
        · exact absurd ⟨hcall.count_of_single, hstack⟩ hsingle
        · exact absurd ⟨batch, i, helperCount, hstack⟩ hhelpers
      · exact absurd hthrew hnot
  · rintro rfl
    by_cases hblock : (Frame.parallelFor pc).mayBlock U s.shared t
    · right
      cases pc with
      | wait batch =>
        obtain ⟨b, hb, hwaits⟩ := PoolSystem.waiter_waitsFor hcall.reachable hblock
        obtain ⟨-, b', hb', hcount, -⟩ := hcall.serves
        rw [hb] at hb'
        cases hb'
        obtain ⟨-, u, hu, drainPc, hinside⟩ := hwaits (by omega)
        exact ⟨batch, u, hu, drainPc, hinside⟩
      | _ => exact hblock.elim
    · exact .inl (PoolSystem.exists_step hcall.reachable hstack hblock)

/-- The batch of two indices whose calls all throw returns. -/
theorem parallelFor_contains_iff_secondCall :
    ∃ s s', secondCall = some s ∧ step oneWorker scriptCode .owner .go s = some s' ∧
      s'.threads .owner = [.calling fun _ => .call (.finishAllThreads false) .ret] ∧
      ((ParallelForPc.lock 1 : ParallelForPc Script).over s.shared).Perm (List.range 2) := by
  have hstacks : secondCall.bind (fun s => (step oneWorker scriptCode .owner .go s).map fun s' =>
      (s.threads .owner, s'.threads .owner))
      = some ([.parallelFor (.lock 1), .calling fun _ => .call (.finishAllThreads false) .ret],
        [.calling fun _ => .call (.finishAllThreads false) .ret]) := rfl
  obtain ⟨s, hs, hrest⟩ := Option.bind_eq_some_iff.mp hstacks
  obtain ⟨s', hs', hvalues⟩ := Option.map_eq_some_iff.mp hrest
  simp only [Prod.mk.injEq] at hvalues
  have hcall := secondCall_inCall hs hvalues.1
  have hcontains := ((parallelFor_contains_iff hcall (by decide)).1 s' ⟨.owner, .go, hs'⟩
    (.inl hvalues.2)).mpr ⟨by simp, by simp [hvalues.1]⟩
  exact ⟨s, s', hs, hs', hvalues.2, hcontains.2.2⟩

def singleStarted : Option (PoolSystem oneWorker scriptCode 0) :=
  scriptRun oneWorker 0 (fun _ => .call (.parallelFor 1 fun _ => .throw) .ret) [(.owner, .input ())]

/-- The call of `fn` throws; the run does not leave `parallelFor` before. -/
def singleThrown : Option (PoolSystem oneWorker scriptCode 0) :=
  singleStarted.bind fun s => execUnder oneWorker scriptCode
    (fun s => (s.threads .owner).reverse[1]?.any ParallelForCall.isFrame) s
    [(.owner, .go), (.owner, .input ())]

/-- The exception of a single index leaves `parallelFor`. -/
theorem parallelFor_throws_singleIndex :
    ∃ (s s' : PoolSystem oneWorker scriptCode 0) (above : List (Frame 1 Script))
        (pc : ParallelForPc Script), ParallelForCall (U := scriptCode) 1 (fun _ => Script.throw) .owner
        [.calling fun _ => Script.ret] s above pc ∧
      step oneWorker scriptCode .owner .go s = some s' ∧
      s'.threads .owner = [.unwinding, .calling fun _ => .ret] := by
  have hthrown : singleThrown.bind (fun s => (step oneWorker scriptCode .owner .go s).map fun s' =>
      s'.threads .owner) = some [.unwinding, .calling fun _ => .ret] := rfl
  have hstart : singleStarted.map (fun s => s.threads .owner)
      = some [.parallelFor (.start 1 fun _ => .throw), .calling fun _ => .ret] := rfl
  obtain ⟨s, hs, hrest⟩ := Option.bind_eq_some_iff.mp hthrown
  obtain ⟨s', hs', hthrew⟩ := Option.map_eq_some_iff.mp hrest
  obtain ⟨s₀, hs₀, hexec⟩ := Option.bind_eq_some_iff.mp hs
  rw [hs₀, Option.map_some, Option.some.injEq] at hstart
  obtain ⟨above, pc, hcall⟩ := (ParallelForCall.start (scriptRun_reachable hs₀) hstart).exec hexec
  exact ⟨s, s', above, pc, hcall, hs', hthrew⟩

end CppUtils
