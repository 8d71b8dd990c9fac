import CppUtils.ThreadPool.BatchOwners
import CppUtils.ThreadPool.CallStacks

/-!
# Nested calls of `parallelFor`

A caller that waits for its batch waits for calls of `fn` of that batch, which other threads have
begun. A thread inside such a call can wait in turn only for a batch made later, so among the batches
that are waited for the latest one has a thread that does not wait.
-/

namespace CppUtils

open Threaded

variable {clients workers : ℕ} {U : UserCode} {Code : Type} {cfg : PoolConfig}

/-! ### The indices of a batch, whatever the number of drainers -/

namespace BatchCounters

/-- The counters in terms of all fetches and all completions so far. A `size_t` that wraps hands out
indices again, but only after every index has been handed out. -/
structure Accounted (b : BatchCounters) (inside : Multiset DrainPc) : Prop where
  fetched : ∃ n, b.nextIndex = n % 2 ^ 64 ∧ ∀ index < b.count, index < n → index ∈ b.fnBegun
  completed : ∃ n, b.completedCount = n % 2 ^ 64 ∧
    n + inside.countP (fun pc => pc.holdsIndex = true) = b.fnBegun.length ∧
    (n < b.count ∨ 0 < b.completions ∨ .allCompleted ∈ inside)

theorem Accounted.initial {count : ℕ} (hcount : 0 < count) : Accounted (initial count) 0 where
  fetched := ⟨0, rfl, fun _ _ h => absurd h (Nat.not_lt_zero _)⟩
  completed := ⟨0, rfl, rfl, .inl hcount⟩

variable {b b' : BatchCounters} {before after rest inside : Multiset DrainPc}

theorem Accounted.step (hI : Accounted b (before + rest)) (hmove : DrainMove b before b' after)
    (hcount : b.count < 2 ^ 64) : Accounted b' (after + rest) := by
  obtain ⟨⟨fetches, hnext, hbegun⟩, ⟨done, hdone, hcompleted, hlast⟩⟩ := hI
  have hnext' : (b.nextIndex + 1) % 2 ^ 64 = (fetches + 1) % 2 ^ 64 := by rw [hnext, Nat.mod_add_mod]
  have hdone' : (b.completedCount + 1) % 2 ^ 64 = (done + 1) % 2 ^ 64 := by rw [hdone, Nat.mod_add_mod]
  cases hmove
  all_goals simp only [zero_add, Multiset.singleton_add, Multiset.countP_cons,
    Multiset.mem_cons] at hcompleted hlast ⊢
  case enter =>
    refine ⟨⟨fetches, hnext, hbegun⟩, done, hdone, by simpa using hcompleted, ?_⟩
    simpa using hlast
  case exhausted hindex =>
    refine ⟨⟨fetches + 1, hnext', fun index hlt hfetched => ?_⟩, done, hdone,
      by simpa using hcompleted, by simpa using hlast⟩
    rcases Nat.lt_succ_iff_lt_or_eq.mp hfetched with h | rfl
    · exact hbegun index hlt h
    · rw [hnext, Nat.mod_eq_of_lt (hlt.trans hcount)] at hindex
      exact absurd hlt (Nat.not_lt.mpr hindex)
  case dispense hindex =>
    refine ⟨⟨fetches + 1, hnext', fun index hlt hfetched => ?_⟩, done, hdone, ?_, by simpa using hlast⟩
    · rcases Nat.lt_succ_iff_lt_or_eq.mp hfetched with h | rfl
      · exact List.mem_cons_of_mem _ (hbegun index hlt h)
      · rw [hnext, Nat.mod_eq_of_lt (hlt.trans hcount)]
        exact List.mem_cons_self
    · rw [List.length_cons, ← hcompleted, Multiset.countP_cons]
      simp [add_assoc]
  case fnOver index =>
    refine ⟨⟨fetches, hnext, hbegun⟩, done, hdone, ?_, by simpa using hlast⟩
    simpa [Multiset.countP_cons] using hcompleted
  case completeLast index hall =>
    refine ⟨⟨fetches, hnext, hbegun⟩, done + 1, hdone', ?_, .inr (.inr (by simp))⟩
    simp only [DrainPc.holdsIndex_complete, if_true] at hcompleted
    rw [Multiset.countP_cons, DrainPc.holdsIndex_allCompleted, if_neg Bool.false_ne_true]
    change done + 1 + _ = b.fnBegun.length
    omega
  case complete index hall =>
    refine ⟨⟨fetches, hnext, hbegun⟩, done + 1, hdone', ?_, ?_⟩
    · simp only [DrainPc.holdsIndex_complete, if_true] at hcompleted
      rw [Multiset.countP_cons, DrainPc.holdsIndex_fetch, if_neg Bool.false_ne_true]
      change done + 1 + _ = b.fnBegun.length
      omega
    · rcases hlast with hlt | hlast
      · -- The completion that makes the count full would have been the last one.
        left
        refine Nat.lt_of_le_of_ne hlt fun heq => hall ?_
        rw [hdone', heq, Nat.mod_eq_of_lt hcount]
      · exact .inr (by simpa using hlast)
  case signal | callUser =>
    refine ⟨⟨fetches, hnext, hbegun⟩, done, hdone, ?_, .inr (.inl (Nat.succ_pos _))⟩
    simpa [Multiset.countP_cons] using hcompleted
  case completionOver =>
    refine ⟨⟨fetches, hnext, hbegun⟩, done, hdone, ?_, by simpa using hlast⟩
    simpa [Multiset.countP_cons] using hcompleted
  case completionThrew =>
    exact ⟨⟨fetches, hnext, hbegun⟩, done, hdone, by simpa using hcompleted, by simpa using hlast⟩

/-- A batch whose indices are all handed out and whose completion action has not run has a thread
between the call of `fn` and the end of the action. -/
theorem Accounted.exists_inside (hI : Accounted b inside)
    (hall : ∀ index < b.count, index ∈ b.fnBegun) (hnone : b.completions = 0) :
    ∃ pc ∈ inside, pc.holdsIndex = true ∨ pc = .allCompleted := by
  obtain ⟨done, -, hcompleted, hlt | hpos | hin⟩ := hI.completed
  · have hlength : b.count ≤ b.fnBegun.length := by
      have hsub : Finset.range b.count ⊆ b.fnBegun.toFinset := fun index hindex =>
        List.mem_toFinset.mpr (hall index (Finset.mem_range.mp hindex))
      have hcard := (Finset.card_le_card hsub).trans (List.toFinset_card_le _)
      rwa [Finset.card_range] at hcard
    obtain ⟨pc, hpc, hholds⟩ := Multiset.countP_pos.mp
      (show 0 < inside.countP (fun pc => pc.holdsIndex = true) by omega)
    exact ⟨pc, hpc, .inl hholds⟩
  · omega
  · exact ⟨_, hin, .inr rfl⟩

end BatchCounters

theorem BatchStep.accounted {n h h' : ℕ} {c c' : Option BatchCounters} {m m' r : Multiset DrainPc}
    (hI : ∀ b, c = some b → b.count < 2 ^ 64 → b.Accounted (m + r)) (hempty : c = none → m + r = 0)
    (hstep : BatchStep n c m h c' m' h') :
    ∀ b, c' = some b → b.count < 2 ^ 64 → b.Accounted (m' + r) := by
  intro b hb hsize
  cases hstep with
  | quiet => exact hI b hb hsize
  | enter hm =>
    have hold := hI b hb hsize
    rw [hm] at hold
    exact hold.step .enter hsize
  | @drain b₀ b' _ _ hc hmove =>
    cases hb
    have hcount : b.count = b₀.count := by cases hmove <;> rfl
    rw [hcount] at hsize
    exact (hI b₀ hc hsize).step hmove hsize
  | make hc hm hcount =>
    cases hb
    have hr := hempty hc
    rw [hm, zero_add] at hr
    rw [hr]
    exact .initial hcount

namespace PoolSystem

variable {s s' : PoolSystem cfg U clients} {batch : ℕ}

theorem insideBatch_of_notMade (hreach : (poolSystem cfg U clients).Reachable s)
    (hnone : s.shared.counters batch = none) : s.insideBatch batch = 0 := by
  have hzero := (batchInvariant hreach batch).notMade hnone
  have hcard := s.card_insideBatch_le batch
  exact Multiset.card_eq_zero.mp (by omega)

theorem accounted (hreach : (poolSystem cfg U clients).Reachable s) (batch : ℕ) :
    ∀ b, s.shared.counters batch = some b → b.count < 2 ^ 64 → b.Accounted (s.insideBatch batch) := by
  refine TransitionSystem.Reachable.invariant (fun s : PoolSystem cfg U clients =>
    ∀ b, s.shared.counters batch = some b → b.count < 2 ^ 64 → b.Accounted (s.insideBatch batch))
    ?_ (fun s s' hr hI hstep => ?_) hreach
  · rintro s ⟨main, rfl⟩ b hb
    cases hb
  · have hempty : s.shared.counters batch = none → s.insideBatch batch = 0 :=
      fun hnone => insideBatch_of_notMade hr hnone
    have hbound := (batchInvariant hr batch).notMade
    cases step_move hstep with
    | @mk shared' before after rest t hstack hrule =>
      obtain ⟨r, hpcs, hpcs'⟩ := weight_split (Frame.drainPcs batch) hstack after
      obtain ⟨k, hhelpers, -⟩ := weight_split (Frame.helpers batch) hstack after
      simp only [insideBatch, helpersOf, hpcs, hpcs', hhelpers] at hI hempty hbound ⊢
      cases hrule with
      | frame hmove =>
        simp only [stackWeight_cons, stackWeight_nil, add_zero] at hI hempty
        exact (hmove.batchStep (batchesMade hr _ le_rfl)).accounted hI hempty
      | unwind hunwind =>
        simp only [stackWeight_cons, stackWeight_nil, add_zero, Frame.drainPcs_unwinding,
          Frame.helpers_unwinding, zero_add] at hI hempty hbound
        refine (unwind_batchStep hunwind fun hnone => ?_).accounted hI hempty
        have hzero := hbound hnone
        omega

end PoolSystem

/-! ### A caller past its own drain -/

def Shared.Exhausted (s : Shared workers clients Code) (batch : ℕ) : Prop :=
  ∃ b, s.batches batch = some b ∧
    (b.counters.count < 2 ^ 64 → ∀ index < b.counters.count, index ∈ b.counters.fnBegun)

/-- The batch whose end a `parallelFor` call that stands here waits for. -/
def ParallelForPc.waitsFor : ParallelForPc Code → Option ℕ
  | .lock batch => some batch
  | .wait batch => some batch
  | _ => none

theorem FrameMove.waitsFor {t : ThreadId cfg.maxNumThreads clients}
    {s s' : Shared cfg.maxNumThreads clients U.Code} {f : Frame cfg.maxNumThreads U.Code}
    {tail : List (Frame cfg.maxNumThreads U.Code)} {pc : ParallelForPc U.Code} {batch : ℕ}
    (hmove : FrameMove cfg U t s f s' (.parallelFor pc :: tail)) (hpc : pc.waitsFor = some batch) :
    ∃ pc', f = .parallelFor pc' ∧ pc'.waitsFor = some batch := by
  generalize hafter : Frame.parallelFor pc :: tail = after at hmove
  cases hmove with
  | @body code i =>
    cases hnext : U.next code i with
    | call request resume =>
      rw [hnext] at hafter
      obtain ⟨hframe, -⟩ := List.cons_eq_cons.mp hafter
      cases request <;> cases hframe
      cases hpc
    | ret | throw =>
      rw [hnext] at hafter
      cases hafter
  | resume => cases hafter
  | runWorker hmove =>
    cases hmove with
    | @begin item =>
      obtain ⟨hframe, -⟩ := List.cons_eq_cons.mp hafter
      cases htask : item.task <;> rw [htask] at hframe <;> cases hframe
    | _ => cases hafter
  | enqueue hmove => cases hmove <;> cases hafter
  | retire hmove =>
    cases hmove with
    | subtractOutstanding _ hwait | wait _ hwait => cases hwait <;> cases hafter
    | _ => cases hafter
  | @finishAllThreads completePendingTasks _ _ _ hmove =>
    cases hmove with
    | @begin _ item =>
      obtain ⟨hframe, -⟩ := List.cons_eq_cons.mp hafter
      cases htask : item.task <;> rw [htask] at hframe <;> cases hframe
    | notifyAllJoined | assertIdle => cases completePendingTasks <;> cases hafter
    | _ => cases hafter
  | abandonAllThreads hmove => cases hmove <;> cases hafter
  | parallelFor hmove =>
    cases hmove with
    | block hbatch hwhere =>
      cases hafter
      cases hpc
      rcases hwhere with rfl | ⟨rfl, -⟩
      · exact ⟨_, rfl, rfl⟩
      · exact ⟨_, rfl, rfl⟩
    | spurious =>
      cases hafter
      cases hpc
      exact ⟨_, rfl, rfl⟩
    | make =>
      cases hafter
      cases hpc
    | _ => cases hafter
  | parallelForAsync hmove => cases hmove <;> cases hafter
  | drainIndices hmove => cases hmove <;> cases hafter

namespace PoolSystem

variable {s s' : PoolSystem cfg U clients} {batch : ℕ}

theorem exhausted_step (hreach : (poolSystem cfg U clients).Reachable s)
    (hstep : (poolSystem cfg U clients).Step s s') (h : s.shared.Exhausted batch) :
    s'.shared.Exhausted batch := by
  obtain ⟨b, hb, hall⟩ := h
  obtain ⟨b', hb', hsame⟩ := sameCall_step hreach hstep hb
  refine ⟨b', hb', fun hsize index hindex => hsame.begun ?_⟩
  rw [hsame.count] at hsize hindex
  exact hall hsize index hindex

theorem exhausted_of_exit (hreach : (poolSystem cfg U clients).Reachable s)
    {t : ThreadId cfg.maxNumThreads clients} {shared' : Shared cfg.maxNumThreads clients U.Code}
    {pc : DrainPc} (hmove : FrameMove cfg U t s.shared (.drainIndices batch pc) shared' []) :
    shared'.Exhausted batch := by
  cases hmove with
  | drainIndices hmove =>
    cases hmove with
    | @exit b _ hbatch heffect =>
      refine ⟨{ b with counters := (b.counters.drainStep pc).1 }, by simp, fun hsize index hindex => ?_⟩
      change _ < (b.counters.drainStep pc).1.count at hindex
      change (b.counters.drainStep pc).1.count < _ at hsize
      rw [BatchCounters.drainStep_count] at hsize hindex
      refine b.counters.fnBegun_drainStep pc ?_
      have hcounters : s.shared.counters batch = some b.counters := by
        rw [Shared.counters, hbatch, Option.map_some]
      obtain ⟨fetches, hnext, hbegun⟩ := (accounted hreach batch b.counters hcounters hsize).fetched
      have hexhausted : b.counters.count ≤ b.counters.nextIndex := by
        revert heffect
        fun_cases BatchCounters.drainStep b.counters pc
        all_goals intro heffect
        case case1 hindex => exact hindex
        all_goals cases heffect
      refine hbegun index hindex ?_
      have hle := Nat.mod_le fetches (2 ^ 64)
      omega

theorem exhausted_of_waitsFor (hreach : (poolSystem cfg U clients).Reachable s)
    {t : ThreadId cfg.maxNumThreads clients} {pc : ParallelForPc U.Code}
    {rest : List (Frame cfg.maxNumThreads U.Code)} (hstack : s.threads t = .parallelFor pc :: rest)
    (hpc : pc.waitsFor = some batch) : s.shared.Exhausted batch := by
  refine TransitionSystem.Reachable.invariant (fun s : PoolSystem cfg U clients =>
    ∀ t pc rest batch, s.threads t = .parallelFor pc :: rest → pc.waitsFor = some batch →
      s.shared.Exhausted batch) ?_ (fun s s' hr hI hstep => ?_) hreach t pc rest batch hstack hpc
  · rintro s ⟨main, rfl⟩ t pc rest batch hstack
    cases t <;> cases hstack
  · intro t pc rest batch hstack hpc
    have hkept : s.shared.Exhausted batch → s'.shared.Exhausted batch := exhausted_step hr hstep
    cases step_move hstep with
    | @mk shared' before after rest' u hstack₀ hrule =>
      change Function.update s.threads u (after ++ rest') t = _ at hstack
      by_cases ht : t = u
      · subst ht
        rw [Function.update_self] at hstack
        cases hrule with
        | @frame _ _ f _ _ hmove =>
          cases after with
          | nil =>
            -- The frame above the call has returned: it drained the batch.
            have hchain := isChain hr t
            rw [hstack₀, show rest' = .parallelFor pc :: rest from hstack] at hchain
            have hstands := (List.isChain_cons_cons.mp hchain).1
            cases pc with
            | lock batch' =>
              obtain rfl : batch' = batch := Option.some.inj hpc
              rcases hstands with hawaits | ⟨hkind, -⟩
              · cases f <;> cases hawaits
                exact exhausted_of_exit hr hmove
              · cases f <;> cases hkind
                cases hmove
            | wait batch' => rcases hstands with h | ⟨-, _, h⟩ <;> cases h
            | _ => cases hpc
          | cons g after =>
            obtain ⟨rfl, -⟩ := List.cons_eq_cons.mp hstack
            obtain ⟨pc', rfl, hpc'⟩ := hmove.waitsFor hpc
            exact hkept (hI t pc' rest' batch hstack₀ hpc')
        | unwind hunwind =>
          unfold unwind at hunwind
          split at hunwind <;> cases hunwind <;> cases hstack
      · rw [Function.update_of_ne ht] at hstack
        exact hkept (hI t pc rest batch hstack hpc)

end PoolSystem

/-! ### Who is blocked on a batch -/

def OnAllCompleted.waiters : OnAllCompleted workers clients Code → Finset (ThreadId workers clients)
  | .signal sync => sync.allDone
  | .user _ => ∅

def Shared.waiters (s : Shared workers clients Code) (batch : ℕ) : Finset (ThreadId workers clients) :=
  ((s.batches batch).map fun b => b.onAllCompleted.waiters).getD ∅

theorem Shared.waiters_setBatch (s : Shared workers clients Code) (batch' : ℕ)
    (b : ParallelBatchState workers clients Code) (batch : ℕ) :
    (s.setBatch batch' b).waiters batch
      = if batch = batch' then b.onAllCompleted.waiters else s.waiters batch := by
  by_cases h : batch = batch'
  · subst h
    simp [Shared.waiters]
  · simp [Shared.waiters, h]

theorem Shared.waiters_makeBatch (s : Shared workers clients Code) (count : ℕ) (fn : ℕ → Code)
    (onAllCompleted : OnAllCompleted workers clients Code) (batch : ℕ) :
    (s.makeBatch count fn onAllCompleted).waiters batch
      = if batch = s.nextBatch then onAllCompleted.waiters else s.waiters batch := by
  by_cases h : batch = s.nextBatch
  · subst h
    simp [Shared.waiters]
  · simp [Shared.waiters, h]

theorem Shared.waiters_eq {s : Shared workers clients Code} {batch : ℕ}
    {b : ParallelBatchState workers clients Code} (hbatch : s.batches batch = some b) :
    s.waiters batch = b.onAllCompleted.waiters := by
  rw [waiters, hbatch, Option.map_some, Option.getD_some]

section Waiters

variable {s s' : Shared cfg.maxNumThreads clients U.Code} {t x : ThreadId cfg.maxNumThreads clients}
  {f : Frame cfg.maxNumThreads U.Code} {after : List (Frame cfg.maxNumThreads U.Code)} {batch : ℕ}

/-- A thread becomes blocked in the wait of its own call only, and takes no other step there. -/
theorem FrameMove.waiters (hmove : FrameMove cfg U t s f s' after) (hx : x ∈ s'.waiters batch) :
    x = t ∧ after = [.parallelFor (.wait batch)] ∨
      x ∈ s.waiters batch ∧ (x = t → f ≠ .parallelFor (.wait batch)) := by
  -- A step of another function, or of a drainer, adds no waiter.
  have hdrain : ∀ {batch' : ℕ} {b b' : ParallelBatchState cfg.maxNumThreads clients U.Code},
      s.batches batch' = some b → x ∈ (s.setBatch batch' b').waiters batch →
        b'.onAllCompleted.waiters ⊆ b.onAllCompleted.waiters → x ∈ s.waiters batch := by
    intro batch' b b' hbatch hx hsubset
    rw [Shared.waiters_setBatch] at hx
    split at hx
    · rename_i h
      subst h
      rw [Shared.waiters_eq hbatch]
      exact hsubset hx
    · exact hx
  cases hmove with
  | parallelFor hmove =>
    cases hmove with
    | make =>
      rw [Shared.waiters_makeBatch] at hx
      split at hx
      · exact absurd hx (Finset.notMem_empty _)
      · exact .inr ⟨hx, fun _ h => by cases h⟩
    | @done batch' counters fn sync pc hbatch hwhere =>
      refine .inr ⟨hx, ?_⟩
      rintro rfl hf
      cases hf
      rcases hwhere with h | ⟨h, hnot⟩
      · cases h
      · cases h
        rw [Shared.waiters_eq hbatch] at hx
        exact hnot hx
    | @block batch' counters fn sync pc hbatch hwhere =>
      rw [Shared.waiters_setBatch] at hx
      split at hx
      · rename_i h
        subst h
        rcases Finset.mem_insert.mp hx with rfl | hx
        · exact .inl ⟨rfl, rfl⟩
        · by_cases hxt : x = t
          · exact .inl ⟨hxt, rfl⟩
          · exact .inr ⟨by rw [Shared.waiters_eq hbatch]; exact hx, fun h => absurd h hxt⟩
      · rename_i h
        refine .inr ⟨hx, fun _ hf => ?_⟩
        cases hf
        rcases hwhere with hpc | ⟨hpc, -⟩ <;> cases hpc
        exact h rfl
    | @spurious batch' counters fn sync hbatch hblocked =>
      rw [Shared.waiters_setBatch] at hx
      split at hx
      · rename_i h
        subst h
        obtain ⟨hne, hx⟩ := Finset.mem_erase.mp hx
        exact .inr ⟨by rw [Shared.waiters_eq hbatch]; exact hx, fun h => absurd h hne⟩
      · rename_i h
        refine .inr ⟨hx, fun _ hf => ?_⟩
        cases hf
        exact h rfl
    | _ => exact .inr ⟨hx, fun _ h => by cases h⟩
  | parallelForAsync hmove =>
    refine .inr ⟨?_, fun _ h => by cases h⟩
    cases hmove with
    | make =>
      rw [Shared.waiters_makeBatch] at hx
      split at hx
      · exact absurd hx (Finset.notMem_empty _)
      · exact hx
    | _ => exact hx
  | drainIndices hmove =>
    refine .inr ⟨?_, fun _ h => by cases h⟩
    cases hmove with
    | exit hbatch | goto hbatch | callFn hbatch | callUser hbatch =>
      exact hdrain hbatch hx fun _ h => h
    | signal hbatch _ hcompleted =>
      refine hdrain hbatch hx ?_
      rw [hcompleted]
      exact Finset.erase_subset _ _
  | _ => exact .inr ⟨hx, fun _ h => by cases h⟩

def Frame.calls (batch : ℕ) : Frame workers Code → ℕ
  | .parallelFor (.helpers batch' _ _) => if batch' = batch then 1 else 0
  | .parallelFor (.lock batch') => if batch' = batch then 1 else 0
  | .parallelFor (.wait batch') => if batch' = batch then 1 else 0
  | _ => 0

@[simp] theorem Closure.calls_frame (task : Closure Code) (batch : ℕ) :
    (task.frame : Frame workers Code).calls batch = 0 := by
  cases task <;> rfl

attribute [local simp] Frame.calls in
theorem FrameMove.calls (hmove : FrameMove cfg U t s f s' after) (hfresh : s.batches s.nextBatch = none)
    (batch : ℕ) :
    stackWeight (Frame.calls batch) after ≤ f.calls batch ∨
      s.batches batch = none ∧ stackWeight (Frame.calls batch) after ≤ 1 := by
  cases hmove with
  | @body code i =>
    left
    rcases U.next code i with ⟨request, resume⟩ | _ | _
    · cases request <;> simp [UserStep.frames, UserCall.frame]
    · simp [UserStep.frames]
    · simp [UserStep.frames]
  | resume => exact .inl (by simp)
  | runWorker hmove =>
    left
    cases hmove with
    | begin => exact le_of_eq (by rw [stackWeight_cons, Closure.calls_frame]; rfl)
    | _ => simp
  | enqueue hmove => exact .inl (by cases hmove <;> simp)
  | retire hmove =>
    left
    cases hmove with
    | subtractOutstanding _ hwait | wait _ hwait => cases hwait <;> simp
    | _ => simp
  | @finishAllThreads completePendingTasks _ _ _ hmove =>
    left
    cases hmove with
    | notifyAllJoined | assertIdle => cases completePendingTasks <;> simp [afterJoin]
    | begin => exact le_of_eq (by rw [stackWeight_cons, Closure.calls_frame]; rfl)
    | _ => simp
  | abandonAllThreads hmove => exact .inl (by cases hmove <;> simp)
  | parallelFor hmove =>
    cases hmove with
    | make =>
      by_cases h : batch = s.nextBatch
      · subst h
        exact .inr ⟨hfresh, by simp⟩
      · exact .inl (by simp [Ne.symm h])
    | block hbatch hwhere =>
      left
      rcases hwhere with rfl | ⟨rfl, -⟩ <;> simp
    | _ => exact .inl (by simp)
  | parallelForAsync hmove => exact .inl (by cases hmove <;> simp)
  | drainIndices hmove => exact .inl (by cases hmove <;> simp)

end Waiters

namespace PoolSystem

variable {s s' : PoolSystem cfg U clients} {batch : ℕ}

theorem calls_le_one (hreach : (poolSystem cfg U clients).Reachable s) (batch : ℕ) :
    weight (Frame.calls batch) s.threads ≤ 1 := by
  refine TransitionSystem.Reachable.invariant
    (fun s : PoolSystem cfg U clients => weight (Frame.calls batch) s.threads ≤ 1)
    ?_ (fun s s' hr hI hstep => ?_) hreach
  · rintro s ⟨main, rfl⟩
    have hzero : weight (Frame.calls batch) (initialSystem cfg U clients main).threads = 0 := by
      refine weight_eq_zero.mpr fun t f hf => ?_
      cases t <;> simp only [initialSystem, List.mem_singleton] at hf <;> subst hf <;> rfl
    exact hzero.le.trans (Nat.zero_le 1)
  · -- No call holds a batch that is not made.
    have hnone : s.shared.batches batch = none → weight (Frame.calls batch) s.threads = 0 := by
      intro hnone
      refine weight_eq_zero.mpr fun t f hf => ?_
      have hwired := wired hr t f hf
      unfold Frame.calls
      unfold Frame.wired at hwired
      split
      all_goals first
        | rfl
        | (split
           · rename_i h
             subst h
             obtain ⟨b, hb, -⟩ := hwired
             rw [hnone] at hb
             cases hb
           · rfl)
    cases step_move hstep with
    | @mk shared' before after rest t hstack hrule =>
      obtain ⟨r, hcalls, hcalls'⟩ := weight_split (Frame.calls batch) hstack after
      simp only [hcalls, hcalls'] at hI hnone ⊢
      cases hrule with
      | frame hmove =>
        simp only [stackWeight_cons, stackWeight_nil, add_zero] at hI hnone
        rcases hmove.calls (batchesMade hr _ le_rfl) batch with hle | ⟨hfresh, hle⟩
        · omega
        · have hzero := hnone hfresh
          omega
      | @unwind _ _ f _ hunwind =>
        have hle : stackWeight (Frame.calls batch) after = 0 := by
          unfold unwind at hunwind
          split at hunwind <;> cases hunwind <;> simp [Frame.calls]
        omega

theorem stack_of_waiter (hreach : (poolSystem cfg U clients).Reachable s) :
    ∀ batch, ∀ t ∈ s.shared.waiters batch, ∃ rest, s.threads t = .parallelFor (.wait batch) :: rest := by
  refine TransitionSystem.Reachable.invariant (fun s : PoolSystem cfg U clients =>
    ∀ batch, ∀ t ∈ s.shared.waiters batch, ∃ rest, s.threads t = .parallelFor (.wait batch) :: rest)
    ?_ (fun s s' hr hI hstep => ?_) hreach
  · rintro s ⟨main, rfl⟩ batch t ht
    exact absurd ht (Finset.notMem_empty _)
  · intro batch t ht
    cases step_move hstep with
    | @mk shared' before after rest u hstack hrule =>
      change t ∈ shared'.waiters batch at ht
      simp only
      cases hrule with
      | @frame _ _ f _ _ hmove =>
        rcases hmove.waiters ht with ⟨rfl, rfl⟩ | ⟨hold, hne⟩
        · exact ⟨rest, Function.update_self _ _ _⟩
        · obtain ⟨rest', hstack'⟩ := hI batch t hold
          have htu : t ≠ u := by
            rintro rfl
            rw [hstack] at hstack'
            exact hne rfl (List.cons_eq_cons.mp hstack').1
          exact ⟨rest', by rw [Function.update_of_ne htu, hstack']⟩
      | unwind =>
        obtain ⟨rest', hstack'⟩ := hI batch t ht
        have htu : t ≠ u := by
          rintro rfl
          rw [hstack] at hstack'
          cases (List.cons_eq_cons.mp hstack').1
        exact ⟨rest', by rw [Function.update_of_ne htu, hstack']⟩

theorem card_waiters_le (hreach : (poolSystem cfg U clients).Reachable s) (batch : ℕ) :
    (s.shared.waiters batch).card ≤ 1 := by
  have hone : ∀ t ∈ s.shared.waiters batch, 1 ≤ stackWeight (Frame.calls batch) (s.threads t) := by
    intro t ht
    obtain ⟨rest, hstack⟩ := stack_of_waiter hreach batch t ht
    rw [hstack, stackWeight_cons]
    simp [Frame.calls]
  calc (s.shared.waiters batch).card
      = ∑ t ∈ s.shared.waiters batch, 1 := Finset.card_eq_sum_ones _
    _ ≤ ∑ t ∈ s.shared.waiters batch, stackWeight (Frame.calls batch) (s.threads t) :=
        Finset.sum_le_sum hone
    _ ≤ weight (Frame.calls batch) s.threads := Finset.sum_le_sum_of_subset (Finset.subset_univ _)
    _ ≤ 1 := calls_le_one hreach batch

end PoolSystem

/-- Nobody is blocked on a batch whose `done` is set. -/
def Shared.DoneReleases (s : Shared workers clients Code) : Prop :=
  ∀ batch counters fn sync, s.batches batch = some ⟨counters, fn, .signal sync⟩ → sync.done = true →
    sync.allDone = ∅

namespace Shared

variable {s : Shared workers clients Code}

theorem DoneReleases.setBatch (h : s.DoneReleases) {batch : ℕ}
    {b : ParallelBatchState workers clients Code}
    (hb : ∀ sync, b.onAllCompleted = .signal sync → sync.done = true → sync.allDone = ∅) :
    (s.setBatch batch b).DoneReleases := by
  intro batch' counters fn sync hbatch
  obtain rfl | hold := setBatch_cases hbatch
  · exact hb sync rfl
  · exact h batch' counters fn sync hold

theorem DoneReleases.makeBatch (h : s.DoneReleases) (count : ℕ) (fn : ℕ → Code)
    {onAllCompleted : OnAllCompleted workers clients Code}
    (hdone : ∀ sync, onAllCompleted = .signal sync → sync.allDone = ∅) :
    (s.makeBatch count fn onAllCompleted).DoneReleases := by
  intro batch' counters fn' sync hbatch
  obtain hnew | hold := makeBatch_cases hbatch
  · cases hnew
    exact fun _ => hdone sync rfl
  · exact h batch' counters fn' sync hold

end Shared

theorem FrameMove.doneReleases {t : ThreadId cfg.maxNumThreads clients}
    {s s' : Shared cfg.maxNumThreads clients U.Code} {f : Frame cfg.maxNumThreads U.Code}
    {after : List (Frame cfg.maxNumThreads U.Code)} (hmove : FrameMove cfg U t s f s' after)
    (hone : ∀ batch, (s.waiters batch).card ≤ 1) (h : s.DoneReleases) : s'.DoneReleases := by
  cases hmove with
  | parallelFor hmove =>
    cases hmove with
    | make => exact h.makeBatch _ _ fun sync hsync => by cases hsync; rfl
    | block hbatch _ hdone =>
      refine h.setBatch fun sync hsync hset => ?_
      cases hsync
      exact absurd hset hdone
    | spurious hbatch hblocked =>
      refine h.setBatch fun sync hsync hset => ?_
      cases hsync
      have hnone := h _ _ _ _ hbatch hset
      rw [hnone] at hblocked
      exact absurd hblocked (Finset.notMem_empty _)
    | _ => exact h
  | parallelForAsync hmove =>
    cases hmove with
    | make => exact h.makeBatch _ _ fun sync hsync => by cases hsync
    | _ => exact h
  | @drainIndices batch _ _ _ hmove =>
    cases hmove with
    | @exit b _ hbatch | @goto b _ _ hbatch | @callFn b _ _ hbatch | @callUser b _ _ hbatch =>
      refine h.setBatch fun sync hsync hset => ?_
      exact h _ b.counters b.fn sync (by rw [hbatch, ← hsync]) hset
    | @signal b pc sync u hbatch _ hcompleted hwaiter =>
      refine h.setBatch fun sync' hsync hset => ?_
      cases hsync
      have hcard := hone batch
      rw [Shared.waiters_eq hbatch, hcompleted] at hcard
      change (sync.allDone.erase u) = ∅
      rcases hwaiter with hu | hempty
      · have herase := Finset.card_erase_of_mem hu
        change sync.allDone.card ≤ 1 at hcard
        exact Finset.card_eq_zero.mp (by omega)
      · rw [hempty]
        rfl
  | _ => exact h

theorem PoolSystem.doneReleases {s : PoolSystem cfg U clients}
    (hreach : (poolSystem cfg U clients).Reachable s) : s.shared.DoneReleases := by
  refine TransitionSystem.Reachable.invariant
    (fun s : PoolSystem cfg U clients => s.shared.DoneReleases) ?_ (fun s s' hr hI hstep => ?_) hreach
  · rintro s ⟨main, rfl⟩ batch counters fn sync hbatch
    cases hbatch
  · cases step_move hstep with
    | mk t hstack hrule =>
      cases hrule with
      | frame hmove => exact hmove.doneReleases (card_waiters_le hr) hI
      | unwind => exact hI

/-! ### The order of the batches on one stack -/

def Frame.callBatch : Frame workers Code → Option ℕ
  | .parallelFor (.helpers batch _ _) => some batch
  | .parallelFor (.lock batch) => some batch
  | .parallelFor (.wait batch) => some batch
  | _ => none

def Frame.batch : Frame workers Code → Option ℕ
  | .parallelFor (.helpers batch _ _) => some batch
  | .parallelFor (.lock batch) => some batch
  | .parallelFor (.wait batch) => some batch
  | .drainIndices batch _ => some batch
  | _ => none

/-- A call of `parallelFor` is made inside calls for earlier batches. -/
def Frame.laterThan (f g : Frame workers Code) : Prop :=
  ∀ batch batch', f.callBatch = some batch → g.batch = some batch' → batch' < batch

theorem Frame.laterThan_of_none {f : Frame workers Code} (h : f.callBatch = none)
    (g : Frame workers Code) : f.laterThan g := by
  intro batch batch' hbatch
  rw [h] at hbatch
  cases hbatch

@[simp] theorem Closure.callBatch_frame (task : Closure Code) :
    (task.frame : Frame workers Code).callBatch = none := by
  cases task <;> rfl

/-- A call of `parallelFor` is the lowest of the frames that a step puts on the stack, and its batch
is the one the old frame had or a new one. -/
theorem FrameMove.callBatch {t : ThreadId cfg.maxNumThreads clients}
    {s s' : Shared cfg.maxNumThreads clients U.Code} {f : Frame cfg.maxNumThreads U.Code}
    {after : List (Frame cfg.maxNumThreads U.Code)} (hmove : FrameMove cfg U t s f s' after) :
    (∀ g ∈ after, g.callBatch = none) ∨ ∃ g, (after = [g] ∨ ∃ callee, after = [callee, g] ∧
      callee.callBatch = none) ∧ (g.callBatch = f.callBatch ∨ g.callBatch = some s.nextBatch) := by
  cases hmove with
  | @body code i =>
    left
    rcases U.next code i with ⟨request, resume⟩ | _ | _
    · cases request <;> simp [UserStep.frames, UserCall.frame, Frame.callBatch]
    · simp [UserStep.frames]
    · simp [UserStep.frames, Frame.callBatch]
  | resume => exact .inl (by simp [Frame.callBatch])
  | runWorker hmove =>
    left
    cases hmove with
    | begin =>
      simp only [List.mem_cons, List.not_mem_nil, or_false, forall_eq_or_imp, forall_eq]
      exact ⟨Closure.callBatch_frame _, rfl⟩
    | _ => simp [Frame.callBatch]
  | enqueue hmove => exact .inl (by cases hmove <;> simp [Frame.callBatch])
  | retire hmove =>
    left
    cases hmove with
    | subtractOutstanding _ hwait | wait _ hwait => cases hwait <;> simp [Frame.callBatch]
    | _ => simp [Frame.callBatch]
  | @finishAllThreads completePendingTasks _ _ _ hmove =>
    left
    cases hmove with
    | notifyAllJoined | assertIdle => cases completePendingTasks <;> simp [afterJoin, Frame.callBatch]
    | begin =>
      simp only [List.mem_cons, List.not_mem_nil, or_false, forall_eq_or_imp, forall_eq]
      exact ⟨Closure.callBatch_frame _, rfl⟩
    | _ => simp [Frame.callBatch]
  | abandonAllThreads hmove => exact .inl (by cases hmove <;> simp [Frame.callBatch])
  | parallelFor hmove =>
    cases hmove with
    | empty | singleDone | done => exact .inl (by simp)
    | single => exact .inl (by simp [Frame.callBatch])
    | make => exact .inr ⟨_, .inl rfl, .inr rfl⟩
    | helper | drain => exact .inr ⟨_, .inr ⟨_, rfl, rfl⟩, .inl rfl⟩
    | block hbatch hwhere =>
      refine .inr ⟨_, .inl rfl, .inl ?_⟩
      rcases hwhere with rfl | ⟨rfl, -⟩ <;> rfl
    | spurious => exact .inr ⟨_, .inl rfl, .inl rfl⟩
  | parallelForAsync hmove => exact .inl (by cases hmove <;> simp [Frame.callBatch])
  | drainIndices hmove => exact .inl (by cases hmove <;> simp [Frame.callBatch])

namespace PoolSystem

variable {s s' : PoolSystem cfg U clients} {batch : ℕ}

/-- A drainer is one of the helpers that are counted, so its batch is made. -/
theorem exists_batch (hreach : (poolSystem cfg U clients).Reachable s)
    {t : ThreadId cfg.maxNumThreads clients} {pc : DrainPc}
    (hf : .drainIndices batch pc ∈ s.threads t) : ∃ b, s.shared.batches batch = some b := by
  cases hcounters : s.shared.counters batch with
  | none =>
    have hzero := (batchInvariant hreach batch).notMade hcounters
    have hone : (Frame.drainIndices batch pc : Frame cfg.maxNumThreads U.Code).helpers batch = 1 := by
      simp [Frame.helpers]
    have hle := le_weight (Frame.helpers batch) hf
    rw [helpersOf] at hzero
    omega
  | some counters =>
    obtain ⟨b, hb, -⟩ := Option.map_eq_some_iff.mp hcounters
    exact ⟨b, hb⟩

theorem lt_nextBatch (hreach : (poolSystem cfg U clients).Reachable s)
    {t : ThreadId cfg.maxNumThreads clients} {f : Frame cfg.maxNumThreads U.Code}
    (hf : f ∈ s.threads t) (hbatch : f.batch = some batch) : batch < s.shared.nextBatch := by
  have hmade := batchesMade hreach
  have hwired := wired hreach t f hf
  unfold Frame.batch at hbatch
  unfold Frame.wired at hwired
  split at hbatch <;> cases hbatch
  case h_4 =>
    obtain ⟨b, hb⟩ := exists_batch hreach hf
    exact hmade.lt hb
  all_goals
    obtain ⟨b, hb, -⟩ := hwired
    exact hmade.lt hb

/-- On every stack the calls of `parallelFor` are in the order of their batches. -/
theorem laterThan (hreach : (poolSystem cfg U clients).Reachable s)
    (t : ThreadId cfg.maxNumThreads clients) : (s.threads t).Pairwise Frame.laterThan := by
  refine TransitionSystem.Reachable.invariant
    (fun s : PoolSystem cfg U clients => ∀ t, (s.threads t).Pairwise Frame.laterThan)
    ?_ (fun s s' hr hI hstep => ?_) hreach t
  · rintro s ⟨main, rfl⟩ t
    cases t <;> exact List.pairwise_singleton _ _
  · refine (step_move hstep).forall_threads
      (P := fun _ _ (frames : List (Frame cfg.maxNumThreads U.Code)) => frames.Pairwise Frame.laterThan)
      (fun t before after rest hstack hrule hsorted => ?_) (fun _ _ _ _ _ _ t _ h => h) hI
    generalize s'.shared = shared' at hrule
    have hnone : (∀ g ∈ after, g.callBatch = none) → (after ++ rest).Pairwise Frame.laterThan := by
      intro hnone
      refine List.pairwise_append.mpr ⟨?_, (List.pairwise_append.mp hsorted).2.1, fun g hg x _ =>
        Frame.laterThan_of_none (hnone g hg) x⟩
      exact List.pairwise_of_forall_mem_list fun g hg x _ =>
        Frame.laterThan_of_none (hnone g hg) x
    cases hrule with
    | @frame _ _ f _ _ hmove =>
      rcases hmove.callBatch with hall | ⟨g, hafter, hg⟩
      · exact hnone hall
      · have hbelow : ∀ x ∈ rest, g.laterThan x := by
          intro x hx
          rcases hg with hsame | hnew
          · have hfx := (List.pairwise_cons.mp hsorted).1 x hx
            intro b b' hb hb'
            exact hfx b b' (hsame ▸ hb) hb'
          · intro b b' hb hb'
            rw [hnew] at hb
            cases hb
            exact lt_nextBatch hr (hstack ▸ List.mem_append_right _ hx) hb'
        have hrest := (List.pairwise_cons.mp hsorted).2
        rcases hafter with rfl | ⟨callee, rfl, hcallee⟩
        · exact List.pairwise_cons.mpr ⟨hbelow, hrest⟩
        · exact List.pairwise_cons.mpr ⟨fun x _ => Frame.laterThan_of_none hcallee x,
            List.pairwise_cons.mpr ⟨hbelow, hrest⟩⟩
    | unwind hunwind =>
      refine hnone ?_
      unfold unwind at hunwind
      split at hunwind <;> cases hunwind <;> simp [Frame.callBatch]

theorem signal_of_waiter {t : ThreadId cfg.maxNumThreads clients}
    (ht : t ∈ s.shared.waiters batch) :
    ∃ counters fn sync, s.shared.batches batch = some ⟨counters, fn, .signal sync⟩ ∧ t ∈ sync.allDone := by
  unfold Shared.waiters at ht
  cases hbatch : s.shared.batches batch with
  | none =>
    rw [hbatch] at ht
    exact absurd ht (Finset.notMem_empty _)
  | some b =>
    rw [hbatch] at ht
    obtain ⟨counters, fn, onAllCompleted⟩ := b
    cases onAllCompleted with
    | signal sync => exact ⟨counters, fn, sync, rfl, ht⟩
    | user code => exact absurd ht (Finset.notMem_empty _)

/-- A caller that is blocked waits for another thread that is between the call of `fn` and the end of
the completion action of its batch; no index is left. -/
theorem waiter_waitsFor (hreach : (poolSystem cfg U clients).Reachable s)
    {t : ThreadId cfg.maxNumThreads clients} (ht : t ∈ s.shared.waiters batch) :
    ∃ b, s.shared.batches batch = some b ∧ (b.counters.count < 2 ^ 64 →
      (∀ index < b.counters.count, index ∈ b.counters.fnBegun) ∧
      ∃ u, u ≠ t ∧ ∃ pc, .drainIndices batch pc ∈ s.threads u ∧
        (pc.holdsIndex = true ∨ pc = .allCompleted)) := by
  obtain ⟨counters, fn, sync, hbatch, hmem⟩ := signal_of_waiter ht
  obtain ⟨rest, hstack⟩ := stack_of_waiter hreach batch t ht
  refine ⟨_, hbatch, fun hsize => ?_⟩
  have hall : ∀ index < counters.count, index ∈ counters.fnBegun := by
    obtain ⟨b, hb, hall⟩ := exhausted_of_waitsFor hreach hstack rfl
    rw [hbatch] at hb
    cases hb
    exact hall hsize
  have hnone : counters.completions = 0 := by
    have hnot : ¬ sync.done = true := fun hdone => by
      rw [doneReleases hreach _ _ _ _ hbatch hdone] at hmem
      exact Finset.notMem_empty _ hmem
    have hagrees := doneAgrees hreach _ _ _ _ hbatch
    exact Nat.eq_zero_of_not_pos fun hpos => hnot (hagrees.mpr hpos)
  have hcounters : s.shared.counters batch = some counters := by
    rw [Shared.counters, hbatch, Option.map_some]
  obtain ⟨pc, hpc, hwhere⟩ := (accounted hreach batch _ hcounters hsize).exists_inside hall hnone
  obtain ⟨u, f, hf, hx⟩ := mem_weight.mp hpc
  have hframe : f = .drainIndices batch pc := by
    unfold Frame.drainPcs at hx
    split at hx
    · split at hx
      · rename_i h
        rw [Multiset.mem_singleton] at hx
        rw [h, hx]
      · exact absurd hx (Multiset.notMem_zero _)
    · exact absurd hx (Multiset.notMem_zero _)
  subst hframe
  refine ⟨hall, u, ?_, pc, hf, hwhere⟩
  rintro rfl
  -- The frames below the waiting call are of earlier batches.
  have hsorted := laterThan hreach u
  rw [hstack] at hf hsorted
  rcases List.mem_cons.mp hf with h | h
  · cases h
  · exact absurd ((List.pairwise_cons.mp hsorted).1 _ h batch batch rfl rfl) (lt_irrefl batch)

end PoolSystem

def Frame.inBatch : Frame workers Code → Bool
  | .parallelFor _ => true
  | .drainIndices _ _ => true
  | _ => false

namespace PoolSystem

variable {s : PoolSystem cfg U clients}

def InBatch (s : PoolSystem cfg U clients) (t : ThreadId cfg.maxNumThreads clients) : Prop :=
  ∃ f ∈ s.threads t, f.inBatch = true

def SizesFit (s : PoolSystem cfg U clients) : Prop :=
  ∀ batch b, s.shared.batches batch = some b → b.counters.count < 2 ^ 64

/-- Among the batches that are waited for, the latest has a drainer that is not blocked. -/
theorem exists_not_waiting (hreach : (poolSystem cfg U clients).Reachable s) (hsizes : s.SizesFit)
    {t : ThreadId cfg.maxNumThreads clients} (ht : s.InBatch t) :
    ∃ u, s.InBatch u ∧ ∀ batch, u ∉ s.shared.waiters batch := by
  by_contra hall
  push Not at hall
  have hmade := batchesMade hreach
  obtain ⟨batch₀, h₀⟩ := hall t ht
  -- By induction downwards from `nextBatch`: no batch is waited for.
  have hnone : ∀ k batch, s.shared.nextBatch ≤ batch + k → ∀ u, u ∉ s.shared.waiters batch := by
    intro k
    induction k with
    | zero =>
      intro batch hle u hu
      obtain ⟨counters, fn, sync, hbatch, -⟩ := signal_of_waiter hu
      have hlt := hmade.lt hbatch
      omega
    | succ k ih =>
      intro batch hle u hu
      obtain ⟨b, hbatch, hwaits⟩ := waiter_waitsFor hreach hu
      obtain ⟨-, v, -, pc, hpc, -⟩ := hwaits (hsizes batch b hbatch)
      obtain ⟨batch', hv⟩ := hall v ⟨_, hpc, rfl⟩
      obtain ⟨rest, hstack⟩ := stack_of_waiter hreach batch' v hv
      have hsorted := laterThan hreach v
      rw [hstack] at hpc hsorted
      have hlt : batch < batch' := by
        rcases List.mem_cons.mp hpc with h | h
        · cases h
        · exact (List.pairwise_cons.mp hsorted).1 _ h batch' batch rfl rfl
      exact ih batch' (by omega) v hv
  exact hnone s.shared.nextBatch batch₀ (Nat.le_add_left _ _) t h₀

end PoolSystem

end CppUtils
