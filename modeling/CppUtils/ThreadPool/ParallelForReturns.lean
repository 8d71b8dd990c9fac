import CppUtils.ThreadPool.BatchTurns
import CppUtils.ThreadPool.Containment
import CppUtils.ThreadPool.Starvation

/-!
# `parallelFor` returns

Once its helpers are in the lanes, a call of `parallelFor` waits for nothing but its own calls of `fn`:
it drains what the helpers do not take, and then waits for the calls that other threads have begun.
-/

namespace CppUtils

open Threaded

variable {clients : ℕ} {U : UserCode} {cfg : PoolConfig}

/-- Every call of the function of this batch that has begun returns or throws at last. -/
def PoolRun.CallsEnd {Fair : ThreadId cfg.maxNumThreads clients → Prop} (r : PoolRun cfg U clients Fair)
    (batch : ℕ) : Prop :=
  ∀ n u above index rest, (r.state n).threads u = above ++ .drainIndices batch (.inFn index) :: rest →
    Eventually (fun m => (r.state m).threads u = .drainIndices batch (.inFn index) :: rest) n

theorem Frame.eq_of_mem_drainPcs {workers : ℕ} {Code : Type} {f : Frame workers Code} {batch : ℕ} {pc : DrainPc}
    (h : pc ∈ f.drainPcs batch) : f = .drainIndices batch pc := by
  unfold Frame.drainPcs at h
  split at h
  · split at h
    · rename_i hbatch
      rw [Multiset.mem_singleton] at h
      rw [hbatch, h]
    · exact absurd h (Multiset.notMem_zero _)
  · exact absurd h (Multiset.notMem_zero _)

namespace PoolSystem

variable {s s' : PoolSystem cfg U clients} {batch count : ℕ} {t : ThreadId cfg.maxNumThreads clients}
  {above rest : List (Frame cfg.maxNumThreads U.Code)}

def HasCount (s : PoolSystem cfg U clients) (batch count : ℕ) : Prop :=
  ∃ b, s.shared.counters batch = some b ∧ b.count = count

/-- The completion action of the batch has run. -/
def Completed (s : PoolSystem cfg U clients) (batch : ℕ) : Prop :=
  ∃ b, s.shared.counters batch = some b ∧ 0 < b.completions

def workLeft (s : PoolSystem cfg U clients) (batch : ℕ) : ℕ ×ₗ ℕ :=
  ((s.shared.counters batch).map fun b => b.workLeft (s.insideBatch batch)).getD (toLex (0, 0))

theorem workLeft_eq {b : BatchCounters} (hb : s.shared.counters batch = some b) :
    s.workLeft batch = b.workLeft (s.insideBatch batch) := by
  rw [workLeft, hb, Option.map_some, Option.getD_some]

theorem workLeft_step (hreach : (poolSystem cfg U clients).Reachable s)
    (hstep : (poolSystem cfg U clients).Step s s') (hcount : s.HasCount batch count)
    (hroom : count + (cfg.maxNumThreads + 1) < 2 ^ 64) :
    s'.HasCount batch count ∧ s'.workLeft batch ≤ s.workLeft batch ∧ (s.Completed batch → s'.Completed batch) := by
  obtain ⟨b, hb, rfl⟩ := hcount
  obtain ⟨b', hb', hlater, hle⟩ := batch_progress hreach hstep hb hroom
  refine ⟨⟨b', hb', hlater.count⟩, by rwa [workLeft_eq hb, workLeft_eq hb'], ?_⟩
  rintro ⟨b₁, hb₁, hpos⟩
  rw [hb] at hb₁
  cases hb₁
  exact ⟨b', hb', hpos.trans_le hlater.completions⟩

theorem drainer_ready (hreach : (poolSystem cfg U clients).Reachable s) {pc : DrainPc}
    (hstack : s.threads t = .drainIndices batch pc :: rest) : ∃ s', ExpectedTurn cfg U clients t s s' := by
  obtain ⟨c, s', husual, hstep⟩ := exists_usualStep hreach hstack fun h => h
  exact ⟨s', c, Choice.isExpected_of_isUsual husual, hstep⟩

theorem inFn_of_above (hreach : (poolSystem cfg U clients).Reachable s) {pc : DrainPc}
    (hstack : s.threads t = above ++ .drainIndices batch pc :: rest) (hpc : pc ≠ .inCompletion)
    (habove : above ≠ []) : ∃ index, pc = .inFn index := by
  obtain ⟨k, hk⟩ := awaits_of_above hreach hstack habove
  cases pc with
  | inFn index => exact ⟨index, rfl⟩
  | inCompletion => exact absurd rfl hpc
  | _ => exact hk.elim

theorem drain_of_above (hreach : (poolSystem cfg U clients).Reachable s)
    (hstack : s.threads t = above ++ .parallelFor (.lock batch) :: rest) (habove : above ≠ []) :
    ∃ above' pc, above = above' ++ [.drainIndices batch pc] := by
  obtain ⟨init, last, rfl⟩ := (List.eq_nil_or_concat' above).resolve_left habove
  have hchain := isChain hreach t
  have hdrain := notOnDrain hreach t
  rw [hstack, List.append_assoc] at hchain hdrain
  have hstands := (List.isChain_append_cons_cons.mp hchain).2.1
  have hnot := (List.isChain_append_cons_cons.mp hdrain).2.1
  rcases hstands with hkind | ⟨hkind, -⟩
  · cases last with
    | drainIndices batch' pc =>
      cases hkind
      exact ⟨init, pc, rfl⟩
    | _ => cases hkind
  · cases last with
    | unwinding => exact absurd rfl (hnot rfl batch)
    | _ => cases hkind

theorem not_inCompletion (hreach : (poolSystem cfg U clients).Reachable s)
    (hstack : s.threads t = above ++ .drainIndices batch .inCompletion :: .parallelFor (.lock batch) :: rest) :
    False := by
  have hdrain := wired hreach t (.drainIndices batch .inCompletion) (by simp [hstack])
  have hcall := wired hreach t (.parallelFor (.lock batch)) (by simp [hstack])
  obtain ⟨b, hb, hasync, -⟩ := hdrain
  obtain ⟨b', hb', hsignal, -⟩ := hcall
  rw [hb] at hb'
  cases hb'
  rw [hasync] at hsignal
  cases hsignal

theorem ownDrain_step (hreach : (poolSystem cfg U clients).Reachable s)
    {c : Choice cfg.maxNumThreads clients U.Input} (h : step cfg U t c s = some s') {pc : DrainPc}
    (hstack : s.threads t = above ++ .drainIndices batch pc :: .parallelFor (.lock batch) :: rest) :
    s'.threads t = .parallelFor (.lock batch) :: rest ∨
      ∃ above' pc', s'.threads t = above' ++ .drainIndices batch pc' :: .parallelFor (.lock batch) :: rest := by
  rcases step_above (g := .drainIndices batch pc) h nofun hstack with ⟨-, above', habove⟩ | ⟨-, after, hmove, hafter⟩ |
    ⟨-, -, after, hunwind, hafter⟩
  · exact .inr ⟨above', pc, habove⟩
  · generalize s'.shared = shared' at hmove
    cases hmove with
    | drainIndices hmove =>
      cases hmove with
      | exit => exact .inl hafter
      | @goto _ _ pc' => exact .inr ⟨[], pc', hafter⟩
      | callFn => exact .inr ⟨[_], _, hafter⟩
      | callUser => exact .inr ⟨[_], _, hafter⟩
      | signal => exact .inr ⟨[], _, hafter⟩
  · cases pc with
    | inFn index =>
      cases hunwind
      exact .inr ⟨[], .inFn index, hafter⟩
    | inCompletion => exact (not_inCompletion hreach hstack).elim
    | _ => cases hunwind

/-- A turn of the caller in its own drain is the last one, or leaves less to do. -/
theorem ownDrain_turn (hreach : (poolSystem cfg U clients).Reachable s)
    {c : Choice cfg.maxNumThreads clients U.Input} (h : step cfg U t c s = some s') {pc : DrainPc}
    (hstack : s.threads t = .drainIndices batch pc :: .parallelFor (.lock batch) :: rest)
    (hcount : s.HasCount batch count) (hroom : count + (cfg.maxNumThreads + 1) < 2 ^ 64) :
    s'.threads t = .parallelFor (.lock batch) :: rest ∨ s'.workLeft batch < s.workLeft batch := by
  obtain ⟨b, hb, rfl⟩ := hcount
  by_cases hmore : 0 < pc.turnsLeft ∨ pc = .fetch ∧ b.nextIndex < b.count
  · obtain ⟨b', hb', hlt⟩ := batch_turn hreach h hstack hb hroom hmore
    exact .inr (by rwa [workLeft_eq hb, workLeft_eq hb'])
  -- No index is left to fetch.
  have hfetch : pc = .fetch ∧ b.count ≤ b.nextIndex := by
    cases pc with
    | fetch => exact ⟨rfl, not_lt.mp fun hlt => hmore (.inr ⟨rfl, hlt⟩)⟩
    | inCompletion =>
      have hbottom : s.threads t = [] ++ .drainIndices batch .inCompletion :: .parallelFor (.lock batch) :: rest :=
        hstack
      exact (not_inCompletion hreach hbottom).elim
    | _ => exact absurd (.inl (by simp [DrainPc.turnsLeft])) hmore
  obtain ⟨rfl, hle⟩ := hfetch
  have heffect : (b.drainStep .fetch).2 = .exit := by simp [BatchCounters.drainStep, hle]
  obtain ⟨shared', after, hmove, rfl⟩ := step_eq_some_of_frame hstack (by simp) h
  have hsame : ∀ b₁, s.shared.batches batch = some b₁ → b₁.counters = b := by
    intro b₁ hbatch
    rw [Shared.counters, hbatch] at hb
    exact Option.some.inj hb
  refine .inl ?_
  cases hmove with
  | drainIndices hmove =>
    cases hmove with
    | exit => simp
    | goto hbatch heffect' | callFn hbatch heffect' | callUser hbatch heffect' | signal hbatch heffect' =>
      rw [hsame _ hbatch, heffect] at heffect'
      cases heffect'

/-- The call is over but for its wait. -/
def Awaits (s : PoolSystem cfg U clients) (t : ThreadId cfg.maxNumThreads clients) (batch : ℕ)
    (rest : List (Frame cfg.maxNumThreads U.Code)) : Prop :=
  ∃ pc : ParallelForPc U.Code, pc.waitsFor = some batch ∧ s.threads t = .parallelFor pc :: rest

theorem Awaits.exists_sync (hreach : (poolSystem cfg U clients).Reachable s) (h : s.Awaits t batch rest) :
    ∃ counters fn sync, s.shared.batches batch = some ⟨counters, fn, .signal sync⟩ ∧
      (sync.done = true ↔ s.Completed batch) := by
  obtain ⟨pc, hpc, hstack⟩ := h
  have hsignal : s.shared.HasBatch true batch := by
    have hwired := wired hreach t (.parallelFor pc) (hstack ▸ List.mem_cons_self)
    cases pc with
    | lock | wait =>
      cases hpc
      exact hwired
    | _ => cases hpc
  obtain ⟨⟨counters, fn, onAllCompleted⟩, hb, hsignal, -⟩ := hsignal
  cases onAllCompleted with
  | user => cases hsignal
  | signal sync =>
    refine ⟨counters, fn, sync, hb, (doneAgrees hreach _ _ _ _ hb).trans ?_⟩
    have hcounters : s.shared.counters batch = some counters := by rw [Shared.counters, hb, Option.map_some]
    refine ⟨fun hpos => ⟨counters, hcounters, hpos⟩, ?_⟩
    rintro ⟨b, hb', hpos⟩
    rw [hcounters] at hb'
    cases hb'
    exact hpos

/-- A turn of the caller in its wait ends it if the batch is over, and leaves the caller there if not. -/
theorem Awaits.step (hreach : (poolSystem cfg U clients).Reachable s) (hawaits : s.Awaits t batch rest)
    {c : Choice cfg.maxNumThreads clients U.Input} (h : step cfg U t c s = some s') :
    (s.Completed batch → s'.threads t = rest) ∧ (¬ s.Completed batch → s'.Awaits t batch rest) := by
  obtain ⟨counters, fn, sync, hb, hdone⟩ := hawaits.exists_sync hreach
  obtain ⟨pc, hpc, hstack⟩ := hawaits
  obtain ⟨shared', after, hmove, rfl⟩ := step_eq_some_of_frame hstack nofun h
  have hsame : ∀ counters' fn' sync', s.shared.batches batch = some ⟨counters', fn', .signal sync'⟩ →
      sync' = sync := by
    intro counters' fn' sync' hb'
    rw [hb] at hb'
    cases hb'
    rfl
  cases hmove with
  | parallelFor hmove =>
    cases hmove with
    | @done batch' _ _ sync' _ hbatch hwhere hdone' =>
      obtain rfl : batch' = batch := by
        rcases hwhere with rfl | ⟨rfl, -⟩ <;> exact Option.some.inj hpc
      rw [hsame _ _ _ hbatch] at hdone'
      exact ⟨fun _ => by simp, fun hopen => absurd (hdone.mp hdone') hopen⟩
    | @block batch' _ _ sync' _ hbatch hwhere hdone' =>
      obtain rfl : batch' = batch := by
        rcases hwhere with rfl | ⟨rfl, -⟩ <;> exact Option.some.inj hpc
      rw [hsame _ _ _ hbatch] at hdone'
      exact ⟨fun hcompleted => absurd (hdone.mpr hcompleted) hdone',
        fun _ => ⟨.wait batch', rfl, by simp⟩⟩
    | @spurious batch' _ _ sync' hbatch hblocked =>
      obtain rfl : batch' = batch := Option.some.inj hpc
      refine ⟨fun hcompleted => ?_, fun _ => ⟨.wait batch', rfl, by simp⟩⟩
      -- The notification has woken the caller already.
      rw [hsame _ _ _ hbatch, doneReleases hreach _ _ _ _ hb (hdone.mpr hcompleted)] at hblocked
      exact absurd hblocked (Finset.notMem_empty t)
    | _ => cases hpc

theorem Awaits.ready (hreach : (poolSystem cfg U clients).Reachable s) (hawaits : s.Awaits t batch rest)
    (hcompleted : s.Completed batch) : ∃ s', ExpectedTurn cfg U clients t s s' := by
  obtain ⟨counters, fn, sync, hb, hdone⟩ := hawaits.exists_sync hreach
  obtain ⟨pc, hpc, hstack⟩ := hawaits
  have hfree : ¬ (Frame.parallelFor pc).mayBlock U s.shared t := by
    cases pc with
    | wait batch' =>
      obtain rfl : batch' = batch := Option.some.inj hpc
      intro hblocked
      obtain ⟨counters', fn', sync', hb', hmem⟩ := signal_of_waiter hblocked
      rw [hb] at hb'
      cases hb'
      rw [doneReleases hreach _ _ _ _ hb (hdone.mpr hcompleted)] at hmem
      exact Finset.notMem_empty t hmem
    | _ => exact fun h => h
  obtain ⟨c, s', husual, hstep⟩ := exists_usualStep hreach hstack hfree
  exact ⟨s', c, Choice.isExpected_of_isUsual husual, hstep⟩

theorem Awaits.exists_drainer (hreach : (poolSystem cfg U clients).Reachable s) (hawaits : s.Awaits t batch rest)
    (hcount : s.HasCount batch count) (hroom : count + (cfg.maxNumThreads + 1) < 2 ^ 64)
    (hcompleted : ¬ s.Completed batch) :
    ∃ u above pc below, s.threads u = above ++ .drainIndices batch pc :: below ∧ 0 < pc.turnsLeft := by
  obtain ⟨pc, hpc, hstack⟩ := hawaits
  obtain ⟨b, hb, rfl⟩ := hcount
  have hsize : b.count < 2 ^ 64 := by omega
  have hall : ∀ index < b.count, index ∈ b.fnBegun := by
    obtain ⟨b', hb', hall⟩ := exhausted_of_waitsFor hreach hstack hpc
    rw [Shared.counters, hb', Option.map_some] at hb
    cases hb
    exact hall hsize
  have hnone : b.completions = 0 := Nat.eq_zero_of_not_pos fun hpos => hcompleted ⟨b, hb, hpos⟩
  obtain ⟨pc', hinside, hwhere⟩ := (accounted hreach batch b hb hsize).exists_inside hall hnone
  obtain ⟨u, f, hf, hx⟩ := mem_weight.mp hinside
  obtain rfl := Frame.eq_of_mem_drainPcs hx
  obtain ⟨above, below, hu⟩ := List.append_of_mem hf
  refine ⟨u, above, pc', below, hu, ?_⟩
  rcases hwhere with hholds | rfl
  · cases pc' with
    | inFn | complete => simp [DrainPc.turnsLeft]
    | _ => cases hholds
  · simp [DrainPc.turnsLeft]

theorem Completed.runToEnd (hreach : (poolSystem cfg U clients).Reachable s) (hcompleted : s.Completed batch)
    (hcount : s.HasCount batch count) (hroom : count + (cfg.maxNumThreads + 1) < 2 ^ 64) :
    ∃ b, s.shared.counters batch = some b ∧ b.RunToEnd := by
  obtain ⟨b, hb, rfl⟩ := hcount
  obtain ⟨b', hb', hpos⟩ := hcompleted
  rw [hb] at hb'
  cases hb'
  have hconsistent := ((batchInvariant hreach batch).made b hb).2.2 hroom
  obtain ⟨hbegun, hover⟩ := hconsistent.returned_all (hconsistent.completedCount_eq hpos)
  exact ⟨b, hb, hbegun, hover, le_antisymm hconsistent.completions_le hpos⟩

end PoolSystem

namespace PoolRun

variable {Fair : ThreadId cfg.maxNumThreads clients → Prop} {r : PoolRun cfg U clients Fair}
  {batch count n : ℕ} {t u : ThreadId cfg.maxNumThreads clients}
  {above rest : List (Frame cfg.maxNumThreads U.Code)}

/-- A drainer that holds an index is back from the call of `fn` at last. -/
theorem CallsEnd.eventually_innermost (hcalls : r.CallsEnd batch)
    (hreach : (poolSystem cfg U clients).Reachable (r.state 0)) {pc : DrainPc}
    (hstack : (r.state n).threads u = above ++ .drainIndices batch pc :: rest) (hpc : pc ≠ .inCompletion) :
    Eventually (fun m => (r.state m).threads u = .drainIndices batch pc :: rest) n := by
  obtain rfl | habove := eq_or_ne above []
  · exact .now hstack
  · obtain ⟨index, rfl⟩ := PoolSystem.inFn_of_above (PoolRun.reachable hreach n) hstack hpc habove
    exact hcalls n u above index rest hstack

/-- The drain of the caller ends. -/
theorem CallsEnd.eventually_drained (hcalls : r.CallsEnd batch)
    (hreach : (poolSystem cfg U clients).Reachable (r.state 0)) (hfair : Fair t)
    (hroom : count + (cfg.maxNumThreads + 1) < 2 ^ 64) (hcount : (r.state n).HasCount batch count)
    (hstack : (r.state n).threads t = above ++ .parallelFor (.lock batch) :: rest) :
    Eventually (fun m => (r.state m).HasCount batch count ∧
      (r.state m).threads t = .parallelFor (.lock batch) :: rest) n := by
  obtain rfl | habove := eq_or_ne above []
  · exact .now ⟨hcount, hstack⟩
  obtain ⟨above', pc, rfl⟩ := PoolSystem.drain_of_above (PoolRun.reachable hreach n) hstack habove
  rw [List.append_assoc] at hstack
  refine r.eventually_of_rank (t := t) (fun m => (r.state m).workLeft batch)
    (A := fun m => (r.state m).HasCount batch count ∧ ∃ above pc, (r.state m).threads t =
      above ++ .drainIndices batch pc :: .parallelFor (.lock batch) :: rest)
    (fun m => ∃ pc, (r.state m).threads t = .drainIndices batch pc :: .parallelFor (.lock batch) :: rest)
    hfair ?_ ?_ ?_ ?_ ?_ n ⟨hcount, above', pc, hstack⟩
  · rintro m - ⟨pc, hpc⟩
    exact PoolSystem.drainer_ready (PoolRun.reachable hreach m) hpc
  · rintro m ⟨-, above, pc, hpc⟩
    have hsync : pc ≠ .inCompletion := by
      rintro rfl
      exact PoolSystem.not_inCompletion (PoolRun.reachable hreach m) hpc
    exact (hcalls.eventually_innermost hreach hpc hsync).mono fun _ _ h => .inr ⟨pc, h⟩
  · rintro m - ⟨pc, hpc⟩ hother
    obtain ⟨c, hstep⟩ := r.step m
    exact .inr ⟨pc, (PoolSystem.threads_of_ne hstep hother.symm).trans hpc⟩
  · rintro m ⟨hcount, above, pc, hpc⟩
    have hr := PoolRun.reachable hreach m
    obtain ⟨hcount', hle, -⟩ := PoolSystem.workLeft_step hr (r.system_step m) hcount hroom
    obtain ⟨c, hstep⟩ := r.step m
    by_cases hparty : r.party m = t
    · rw [hparty] at hstep
      rcases PoolSystem.ownDrain_step hr hstep hpc with hdone | ⟨above', pc', hpc'⟩
      · exact .inl ⟨hcount', hdone⟩
      · exact .inr ⟨⟨hcount', above', pc', hpc'⟩, hle⟩
    · exact .inr ⟨⟨hcount', above, pc, (PoolSystem.threads_of_ne hstep (Ne.symm hparty)).trans hpc⟩, hle⟩
  · rintro m ⟨hcount, -⟩ ⟨pc, hpc⟩ hparty
    have hr := PoolRun.reachable hreach m
    obtain ⟨hcount', -, -⟩ := PoolSystem.workLeft_step hr (r.system_step m) hcount hroom
    obtain ⟨c, hstep⟩ := r.step m
    rw [hparty] at hstep
    exact (PoolSystem.ownDrain_turn hr hstep hpc hcount hroom).imp_left fun hdone => ⟨hcount', hdone⟩

/-- The wait of the caller ends. -/
theorem CallsEnd.eventually_returned (hcalls : r.CallsEnd batch)
    (hreach : (poolSystem cfg U clients).Reachable (r.state 0)) (hfair : ∀ u, Fair u)
    (hroom : count + (cfg.maxNumThreads + 1) < 2 ^ 64) (hcount : (r.state n).HasCount batch count)
    (hawaits : (r.state n).Awaits t batch rest) :
    Eventually (fun m => (r.state m).threads t = rest ∧
      ∃ b, (r.state m).shared.counters batch = some b ∧ b.RunToEnd) n := by
  have hr : ∀ m, (poolSystem cfg U clients).Reachable (r.state m) := PoolRun.reachable hreach
  have hkept : ∀ m, (r.state m).Awaits t batch rest → r.party m ≠ t → (r.state (m + 1)).Awaits t batch rest := by
    rintro m ⟨pc, hpc, hstack⟩ hother
    obtain ⟨c, hstep⟩ := r.step m
    exact ⟨pc, hpc, (PoolSystem.threads_of_ne hstep hother.symm).trans hstack⟩
  refine r.eventually_of_helpers (fun m => (r.state m).workLeft batch)
    (A := fun m => (r.state m).HasCount batch count ∧ (r.state m).Awaits t batch rest)
    (fun m ⟨hcount, hawaits⟩ => ?_) (fun m ⟨hcount, hawaits⟩ => ?_) n ⟨hcount, hawaits⟩
  · obtain ⟨hcount', hle, hdone⟩ := PoolSystem.workLeft_step (hr m) (r.system_step m) hcount hroom
    by_cases hparty : r.party m = t
    · obtain ⟨c, hstep⟩ := r.step m
      rw [hparty] at hstep
      obtain ⟨hreturns, hwaits⟩ := hawaits.step (hr m) hstep
      by_cases hcompleted : (r.state m).Completed batch
      · exact .inl ⟨hreturns hcompleted, (hdone hcompleted).runToEnd (hr (m + 1)) hcount' hroom⟩
      · exact .inr ⟨⟨hcount', hwaits hcompleted⟩, hle⟩
    · exact .inr ⟨⟨hcount', hkept m hawaits hparty⟩, hle⟩
  · by_cases hcompleted : (r.state m).Completed batch
    · -- Only the caller's own turn is missing.
      refine ⟨t, fun k => (r.state k).Awaits t batch rest ∧ (r.state k).Completed batch, hfair t,
        ⟨fun k _ h => h.1.ready (hr k) h.2, fun k hA h hother => ?_, fun k hA h hparty => ?_⟩,
        .now (.inr ⟨hawaits, hcompleted⟩)⟩
      · obtain ⟨-, -, hdone⟩ := PoolSystem.workLeft_step (hr k) (r.system_step k) hA.1 hroom
        exact .inr ⟨hkept k h.1 hother, hdone h.2⟩
      · obtain ⟨hcount', -, hdone⟩ := PoolSystem.workLeft_step (hr k) (r.system_step k) hA.1 hroom
        obtain ⟨c, hstep⟩ := r.step k
        rw [hparty] at hstep
        exact .inl ⟨(h.1.step (hr k) hstep).1 h.2, (hdone h.2).runToEnd (hr (k + 1)) hcount' hroom⟩
    · -- A drainer that is not through with its index helps, once its call of `fn` is over.
      obtain ⟨u, above, pc, below, hstack, hturns⟩ := hawaits.exists_drainer (hr m) hcount hroom hcompleted
      have hpc : pc ≠ .inCompletion := by
        rintro rfl
        cases hturns
      refine ⟨u, fun k => ∃ pc below, (r.state k).threads u = .drainIndices batch pc :: below ∧ 0 < pc.turnsLeft,
        hfair u, ⟨?_, ?_, ?_⟩, (hcalls.eventually_innermost hreach hstack hpc).mono
          fun k _ hinner => .inr ⟨pc, below, hinner, hturns⟩⟩
      · rintro k - ⟨pc, below, hstack, -⟩
        exact PoolSystem.drainer_ready (hr k) hstack
      · rintro k - ⟨pc, below, hstack, hturns⟩ hother
        obtain ⟨c, hstep⟩ := r.step k
        exact .inr ⟨pc, below, (PoolSystem.threads_of_ne hstep hother.symm).trans hstack, hturns⟩
      · rintro k ⟨⟨b, hb, rfl⟩, -⟩ ⟨pc, below, hstack, hturns⟩ hparty
        obtain ⟨c, hstep⟩ := r.step k
        rw [hparty] at hstep
        obtain ⟨b', hb', hlt⟩ := PoolSystem.batch_turn (hr k) hstep hstack hb hroom (.inl hturns)
        exact .inr (by rwa [PoolSystem.workLeft_eq hb, PoolSystem.workLeft_eq hb'])

end PoolRun

/-- In every run that is fair to its threads and in which the calls of `fn` end, by a return or an exception,
a call of `parallelFor` that drains its batch returns at last, with one call of `fn` for every index. -/
theorem parallelFor_returns {Fair : ThreadId cfg.maxNumThreads clients → Prop}
    {r : PoolRun cfg U clients Fair} (hreach : (poolSystem cfg U clients).Reachable (r.state 0))
    (hfair : ∀ u, Fair u) {batch count : ℕ} (hcalls : r.CallsEnd batch)
    (hroom : count + (cfg.maxNumThreads + 1) < 2 ^ 64) {n : ℕ} {t : ThreadId cfg.maxNumThreads clients}
    {above rest : List (Frame cfg.maxNumThreads U.Code)} {pc : ParallelForPc U.Code}
    (hstack : (r.state n).threads t = above ++ .parallelFor pc :: rest) (hpc : pc.waitsFor = some batch)
    (hcount : (r.state n).HasCount batch count) :
    Eventually (fun m => (r.state m).threads t = rest ∧
      ∃ b, (r.state m).shared.counters batch = some b ∧ b.RunToEnd) n := by
  cases pc with
  | lock batch' =>
    obtain rfl : batch' = batch := Option.some.inj hpc
    refine (hcalls.eventually_drained hreach (hfair t) hroom hcount hstack).trans fun m _ ⟨hcount, hdrained⟩ => ?_
    exact hcalls.eventually_returned hreach hfair hroom hcount ⟨_, rfl, hdrained⟩
  | wait batch' =>
    have habove : above = [] := by
      by_contra hne
      obtain ⟨k, hk⟩ := PoolSystem.awaits_of_above (PoolRun.reachable hreach n) hstack hne
      exact hk
    subst habove
    exact hcalls.eventually_returned hreach hfair hroom hcount ⟨_, hpc, hstack⟩
  | _ => cases hpc

/-! ### A run -/

theorem PoolRun.callsEnd_of_outside {Fair : ThreadId cfg.maxNumThreads clients → Prop}
    {r : PoolRun cfg U clients Fair} {batch : ℕ}
    (houtside : ∀ n u, Eventually (fun m => ∀ pc, .drainIndices batch pc ∉ (r.state m).threads u) n) :
    r.CallsEnd batch := by
  intro n u above index rest hstack
  refine PoolRun.eventually_innermost (g := .drainIndices batch (.inFn index)) nofun rfl (fun n => ?_) hstack
  exact (houtside n u).mono fun m _ hgone above hstack => absurd (by simp [hstack]) (hgone (.inFn index))

/-- The owner calls `parallelFor(2, fn)` and the worker takes index 0; the owner runs index 1 and waits. -/
def parallelForWaits : Option (PoolSystem oneWorker scriptCode 0) :=
  scriptRun oneWorker 0 (fun _ => .call (.parallelFor 2 fun _ => .ret) .ret)
    ((.owner, .input ()) :: List.replicate 7 (.owner, .go) ++ List.replicate 7 (soleWorker, .go) ++
      (.owner, .go) :: (.owner, .input ()) :: List.replicate 4 (.owner, .go))

/-- The worker ends the batch, and the owner returns. -/
def endBatch : List (ThreadId 1 0 × Choice 1 0 Unit) :=
  (soleWorker, .input ()) :: (soleWorker, .go) :: (soleWorker, .go) :: (soleWorker, .notify .owner) ::
    List.replicate 5 (soleWorker, .go) ++ [(.owner, .go), (.owner, .go), (.owner, .input ())]

theorem parallelForWaits_ends : ∃ s s', parallelForWaits = some s ∧
    s.threads .owner = [.parallelFor (.wait 0), .calling fun _ => .ret] ∧ s.HasCount 0 2 ∧
    exec oneWorker scriptCode s endBatch = some s' ∧ s'.Idles (Fin.last 0) ∧ s'.threads .owner = [] :=
  ⟨_, _, rfl, rfl, ⟨_, rfl, rfl⟩, rfl, ⟨⟨_, rfl, rfl⟩, rfl, rfl, rfl⟩, rfl⟩

theorem parallelFor_returns_twoIndices :
    ∃ r : PoolRun oneWorker scriptCode 0 fun _ => True,
      (r.state 0).threads .owner = [.parallelFor (.wait 0), .calling fun _ => .ret] ∧
      Eventually (fun m => (r.state m).threads .owner = [.calling fun _ => .ret] ∧
        ∃ b, (r.state m).shared.counters 0 = some b ∧ b.RunToEnd) 0 := by
  obtain ⟨s, s', hs, hstack, hcount, hexec, hidles, howner⟩ := parallelForWaits_ends
  obtain ⟨idle, hidle, hforever⟩ := hidles.exists_forever (PoolSystem.threads_of_ne_soleWorker howner)
  obtain ⟨r, hr, hlater⟩ := PoolRun.exists_prepend idle (hidle ▸ hexec)
  have hcalls : r.CallsEnd 0 := PoolRun.callsEnd_of_outside fun n u => by
    refine ⟨n + endBatch.length, Nat.le_add_right _ _, fun pc => ?_⟩
    obtain ⟨hidles, hothers⟩ := hforever n
    rw [← hlater n] at hidles hothers
    obtain ⟨pc', hloop, -⟩ := hidles.stack
    by_cases hu : u = soleWorker
    · subst hu
      exact fun hmem => by cases List.mem_singleton.mp (hloop ▸ hmem)
    · exact fun hmem => List.not_mem_nil (hothers u hu ▸ hmem)
  rw [← hr] at hstack hcount
  have hbottom : (r.state 0).threads .owner = [] ++ _ := hstack
  exact ⟨r, hstack, parallelFor_returns (hr ▸ scriptRun_reachable hs) (fun _ => trivial) hcalls (by decide)
    hbottom rfl hcount⟩

end CppUtils
