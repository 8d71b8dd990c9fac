import CppUtils.ThreadPool.BatchOwners
import CppUtils.ThreadPool.CallStacks
import CppUtils.ThreadPool.RetireBarrier

/-!
# `parallelFor` and `parallelForAsync` run their batches to the end

A batch that no thread drains has not begun or is over. The only drainers of a `parallelForAsync`
batch are the threads that run tasks, so none is left once the workers have exited and no drain is
going on; and a `parallelFor` call that returns has seen `done`. An exception reaches a `parallelFor`
frame from the two places that do not contain it: the call of `fn` for a single index, and an
`enqueue` of a helper whose push threw.
-/

namespace CppUtils

open Threaded

variable {clients : ℕ} {U : UserCode} {cfg : PoolConfig}

/-- What holds of a batch at any time: no index is begun twice or out of range, and
`onAllCompleted` runs once at most, after the calls of `fn`. -/
structure BatchCounters.Sound (b : BatchCounters) : Prop where
  begun_once : b.fnBegun.Nodup
  begun_lt : ∀ index ∈ b.fnBegun, index < b.count
  completions_le : b.completions ≤ 1
  completion_last : 0 < b.completions → b.fnOver.Perm (List.range b.count)

theorem BatchCounters.Consistent.sound {b : BatchCounters} {inside : Multiset DrainPc}
    (hI : b.Consistent inside) : b.Sound where
  begun_once := hI.begun_once.1
  begun_lt := hI.begun_once.2
  completions_le := hI.completions_le
  completion_last hpos := (hI.returned_all (hI.completedCount_eq hpos)).2

/-! ### Drainers on their own -/

namespace Drainers

variable {count k : ℕ} {d d' : Drainers k}

theorem fnBegun_of_exhausted (hcount : 0 < count) (hroom : count + k < 2 ^ 64)
    (hreach : (drainersSystem count k).Reachable d) (hsteps : (drainersSystem count k).Steps d d')
    (hexhausted : count ≤ d.counters.nextIndex) : d'.counters.fnBegun = d.counters.fnBegun := by
  refine (hreach.stable (fun e => count ≤ e.counters.nextIndex ∧
    e.counters.fnBegun = d.counters.fnBegun) ?_ hsteps ⟨hexhausted, rfl⟩).2
  intro e e' hr ⟨hle, hbegun⟩ hstep
  have hI := invariant hcount hroom hr
  obtain ⟨hI', hmono⟩ := hI.step hroom hstep
  refine ⟨hle.trans hmono, ?_⟩
  have hdispensed : ∀ b : BatchCounters, b.count = count → count ≤ b.nextIndex →
      b.dispensed = count := by
    intro b hb hnext
    rw [BatchCounters.dispensed, hb, Nat.min_eq_right hnext]
  rw [hI'.consistent.begun, hdispensed _ hI'.count_eq (hle.trans hmono), ← hbegun,
    hI.consistent.begun, hdispensed _ hI.count_eq hle]

theorem inside_eq_zero (hnone : ∀ i pc, d.drainers i ≠ .inside pc) : d.inside = 0 := by
  refine Finset.sum_eq_zero fun i _ => ?_
  cases h : d.drainers i with
  | inside pc => exact absurd h (hnone i pc)
  | waiting | left => rfl

end Drainers

/-! ### The batches of a pool -/

namespace PoolSystem

variable {s s' : PoolSystem cfg U clients} {t : ThreadId cfg.maxNumThreads clients} {batch : ℕ}
  {b : ParallelBatchState cfg.maxNumThreads clients U.Code}

theorem consistent (hreach : (poolSystem cfg U clients).Reachable s)
    (hbatch : s.shared.batches batch = some b)
    (hroom : b.counters.count + (cfg.maxNumThreads + 1) < 2 ^ 64) :
    0 < b.counters.count ∧ b.counters.Consistent (s.insideBatch batch) := by
  have hcounters : s.shared.counters batch = some b.counters := by
    rw [Shared.counters, hbatch, Option.map_some]
  obtain ⟨hpos, -, hconsistent⟩ := (batchInvariant hreach batch).made _ hcounters
  exact ⟨hpos, hconsistent hroom⟩

/-- A drainer of a `parallelForAsync` batch runs a task: on a worker, or in a drain of the pool. -/
theorem insideBatch_eq_zero (hreach : (poolSystem cfg U clients).Reachable s)
    (hbatch : s.shared.batches batch = some b) (hasync : b.onAllCompleted.isSignal = false)
    (hexited : ∀ own, own ∈ s.shared.pool.exited)
    (hfinish : ∀ f ∈ s.threads .owner, f.kind ≠ .finishAllThreads) : s.insideBatch batch = 0 := by
  rw [Multiset.eq_zero_iff_forall_notMem]
  intro x hx
  obtain ⟨t, f, hf, hpc⟩ := mem_weight.mp hx
  have hkind : f.kind = .drainIndices batch := by
    unfold Frame.drainPcs at hpc
    split at hpc
    · split at hpc
      · rename_i batch' pc h
        rw [h]
        rfl
      · exact absurd hpc (Multiset.notMem_zero _)
    · exact absurd hpc (Multiset.notMem_zero _)
  -- The thread is not a worker, which has no frame left.
  have hworker : ∀ own, t ≠ .worker own := by
    rintro own rfl
    obtain ⟨-, hnil⟩ | ⟨hrunning, -⟩ := workerStack hreach _ own rfl
    · rw [hnil] at hf
      cases hf
    · exact hrunning (hexited own)
  obtain ⟨above, rest, hstack⟩ := List.append_of_mem hf
  cases rest with
  | nil =>
    have hbottom := isBottom_of_getLast hreach t f (by rw [hstack]; simp)
    rw [hkind] at hbottom
    cases hbottom
  | cons g rest =>
    have hchain := isChain hreach t
    rw [hstack] at hchain
    have hg : g ∈ s.threads t := by simp [hstack]
    have hawaits : g.awaits (.drainIndices batch) := by
      rcases (List.isChain_cons_cons.mp (List.isChain_append.mp hchain).2.1).1 with h | ⟨h, -⟩
      · exact hkind ▸ h
      · rw [hkind] at h
        cases h
    cases g with
    | runWorker own pc => exact hworker own (not_worker_of_ne hreach hg)
    | finishAllThreads completePendingTasks pc =>
      have howner : t = .owner := belongsTo hreach t _ hg
      subst howner
      exact hfinish _ hg rfl
    | parallelFor pc =>
      cases pc with
      | lock batch' =>
        -- A `parallelFor` caller drains its own batch only.
        obtain rfl : batch = batch' := by simpa [Frame.awaits] using hawaits
        obtain ⟨b', hb', hsignal, -⟩ := wired hreach t _ hg
        rw [hbatch] at hb'
        cases hb'
        rw [hasync] at hsignal
        cases hsignal
      | _ => simp [Frame.awaits] at hawaits
    | drainIndices batch' pc => cases pc <;> simp [Frame.awaits] at hawaits
    | parallelForAsync pc => cases pc <;> simp [Frame.awaits] at hawaits
    | calling resume => simp [Frame.awaits, FrameKind.isCall] at hawaits
    | _ => simp [Frame.awaits] at hawaits

theorem runToEnd_of_done (hreach : (poolSystem cfg U clients).Reachable s)
    {counters : BatchCounters} {fn : ℕ → U.Code} {sync : WaitSync cfg.maxNumThreads clients}
    (hbatch : s.shared.batches batch = some ⟨counters, fn, .signal sync⟩)
    (hroom : counters.count + (cfg.maxNumThreads + 1) < 2 ^ 64) (hdone : sync.done = true) :
    counters.RunToEnd := by
  obtain ⟨-, hconsistent⟩ := consistent hreach hbatch hroom
  have hpos := (doneAgrees hreach _ _ _ _ hbatch).mp hdone
  obtain ⟨hbegun, hover⟩ := hconsistent.returned_all (hconsistent.completedCount_eq hpos)
  exact ⟨hbegun, hover, le_antisymm hconsistent.completions_le hpos⟩

end PoolSystem

/-! ### A call of `parallelFor` -/

/-- A call `parallelFor(count, fn)` of a thread in some run, over the frames `rest` of its caller:
where it stands, and the frames above it. -/
inductive ParallelForCall (count : ℕ) (fn : ℕ → U.Code) (t : ThreadId cfg.maxNumThreads clients)
    (rest : List (Frame cfg.maxNumThreads U.Code)) : PoolSystem cfg U clients →
      List (Frame cfg.maxNumThreads U.Code) → ParallelForPc U.Code → Prop
  | start {s : PoolSystem cfg U clients} (hreach : (poolSystem cfg U clients).Reachable s)
      (hstack : s.threads t = .parallelFor (.start count fn) :: rest) :
      ParallelForCall count fn t rest s [] (.start count fn)
  | step {s s' : PoolSystem cfg U clients} {above above' : List (Frame cfg.maxNumThreads U.Code)}
      {pc pc' : ParallelForPc U.Code} (hcall : ParallelForCall count fn t rest s above pc)
      (hstep : (poolSystem cfg U clients).Step s s')
      (hstack : s'.threads t = above' ++ .parallelFor pc' :: rest) :
      ParallelForCall count fn t rest s' above' pc'

/-- What a `parallelFor(count, fn)` call that stands here works on. -/
def ParallelForPc.serves (s : Shared cfg.maxNumThreads clients U.Code) (count : ℕ)
    (fn : ℕ → U.Code) : ParallelForPc U.Code → Prop
  | .start count' fn' => count' = count ∧ fn' = fn
  | .single => count = 1
  | .helpers batch _ _ => 2 ≤ count ∧ ∃ b, s.batches batch = some b ∧ b.counters.count = count ∧ b.fn = fn
  | .lock batch => 2 ≤ count ∧ ∃ b, s.batches batch = some b ∧ b.counters.count = count ∧ b.fn = fn
  | .wait batch => 2 ≤ count ∧ ∃ b, s.batches batch = some b ∧ b.counters.count = count ∧ b.fn = fn

def ParallelForPc.begun (s : Shared cfg.maxNumThreads clients U.Code) : ParallelForPc U.Code → List ℕ
  | .start _ _ => []
  | .single => [0]
  | .helpers batch _ _ => ((s.counters batch).map BatchCounters.fnBegun).getD []
  | .lock batch => ((s.counters batch).map BatchCounters.fnBegun).getD []
  | .wait batch => ((s.counters batch).map BatchCounters.fnBegun).getD []

/-- The calls of `fn` that are over when a `parallelFor` call stands here with no frame above it. -/
def ParallelForPc.over (s : Shared cfg.maxNumThreads clients U.Code) : ParallelForPc U.Code → List ℕ
  | .start _ _ => []
  | .single => [0]
  | .helpers batch _ _ => ((s.counters batch).map BatchCounters.fnOver).getD []
  | .lock batch => ((s.counters batch).map BatchCounters.fnOver).getD []
  | .wait batch => ((s.counters batch).map BatchCounters.fnOver).getD []

namespace PoolSystem

variable {s s' : PoolSystem cfg U clients}

theorem serves_step (hreach : (poolSystem cfg U clients).Reachable s)
    (hstep : (poolSystem cfg U clients).Step s s') {count : ℕ} {fn : ℕ → U.Code}
    {pc : ParallelForPc U.Code} (hpc : pc.serves s.shared count fn) : pc.serves s'.shared count fn := by
  unfold ParallelForPc.serves at hpc ⊢
  split at hpc
  · exact hpc
  · exact hpc
  all_goals
    obtain ⟨htwo, b, hb, hcount, hfn⟩ := hpc
    obtain ⟨b', hb', hsame⟩ := sameCall_step hreach hstep hb
    exact ⟨htwo, b', hb', hsame.count.trans hcount, hsame.fn.trans hfn⟩

end PoolSystem

theorem ParallelForMove.serves {t : ThreadId cfg.maxNumThreads clients}
    {s s' : Shared cfg.maxNumThreads clients U.Code} {count : ℕ} {fn : ℕ → U.Code}
    {pc pc' : ParallelForPc U.Code} {above : List (Frame cfg.maxNumThreads U.Code)}
    (hmove : ParallelForMove cfg t s pc s' (above ++ [.parallelFor pc']))
    (hpc : pc.serves s count fn) (hkept : pc.serves s' count fn) : pc'.serves s' count fn := by
  generalize hafter : above ++ [.parallelFor pc'] = after at hmove
  have hlast : after.getLast? = some (.parallelFor pc') := by rw [← hafter]; simp
  cases hmove with
  | empty | singleDone | done => cases hlast
  | single hcount =>
    cases hlast
    exact hpc.1.symm.trans hcount
  | @make count' fn' hzero hone =>
    cases hlast
    obtain ⟨rfl, rfl⟩ := hpc
    exact ⟨by omega, ⟨.initial count', fn', .signal ⟨false, ∅⟩⟩, by simp, rfl, rfl⟩
  | helper | drain =>
    cases hlast
    exact hkept
  | block hbatch hwhere =>
    cases hlast
    rcases hwhere with rfl | ⟨rfl, -⟩ <;> exact hkept
  | spurious =>
    cases hlast
    exact hkept

namespace ParallelForCall

variable {count : ℕ} {fn : ℕ → U.Code} {t : ThreadId cfg.maxNumThreads clients}
  {s s' : PoolSystem cfg U clients} {above rest : List (Frame cfg.maxNumThreads U.Code)}
  {pc : ParallelForPc U.Code}

theorem reachable (hcall : ParallelForCall count fn t rest s above pc) :
    (poolSystem cfg U clients).Reachable s := by
  induction hcall with
  | start hreach => exact hreach
  | step _ hstep _ ih => exact ih.next hstep

theorem stack (hcall : ParallelForCall count fn t rest s above pc) :
    s.threads t = above ++ .parallelFor pc :: rest := by
  cases hcall with
  | start _ hstack => exact hstack
  | step _ _ hstack => exact hstack

theorem append_cons_inj {α : Type*} {xs ys zs : List α} {x y : α}
    (h : xs ++ x :: zs = ys ++ y :: zs) : xs = ys ∧ x = y := by
  rw [List.append_cons, List.append_cons ys] at h
  have hinit := List.append_cancel_right h
  exact ⟨List.append_inj_left' hinit rfl, by simpa using List.append_inj_right' hinit rfl⟩

theorem serves (hcall : ParallelForCall count fn t rest s above pc) : pc.serves s.shared count fn := by
  induction hcall with
  | start => exact ⟨rfl, rfl⟩
  | @step s s' above above' pc pc' hcall hstep hstack ih =>
    have hkept := PoolSystem.serves_step hcall.reachable hstep ih
    rcases PoolSystem.step_call hstep (by simp) hcall.stack with ⟨above'', hstack'⟩ |
      ⟨-, after, hmove, hstack'⟩ | ⟨-, -, after, hunwind, hstack'⟩
    · rw [hstack] at hstack'
      obtain ⟨-, hpc⟩ := append_cons_inj hstack'
      cases hpc
      exact hkept
    · rw [hstack, List.append_cons] at hstack'
      have hafter := List.append_cancel_right hstack'
      subst hafter
      cases hmove with
      | parallelFor hmove => exact hmove.serves ih hkept
    · obtain rfl : [.unwinding] = after := Option.some.inj hunwind
      rw [hstack, List.append_cons] at hstack'
      have hafter := List.append_cancel_right hstack'
      have hlast := congrArg List.getLast? hafter
      simp at hlast

/-- A step of the system goes on with the call, returns from it, or leaves it by an exception. -/
theorem step_cases (hcall : ParallelForCall count fn t rest s above pc)
    (hstep : (poolSystem cfg U clients).Step s s') :
    (∃ above' pc', ParallelForCall count fn t rest s' above' pc') ∨ s'.threads t = rest ∨
      above = [.unwinding] ∧ s'.threads t = .unwinding :: rest := by
  rcases PoolSystem.step_call hstep (by simp) hcall.stack with ⟨above', hstack⟩ |
    ⟨-, after, hmove, hstack⟩ | ⟨habove, -, after, hunwind, hstack⟩
  · exact .inl ⟨above', pc, hcall.step hstep hstack⟩
  · obtain rfl | ⟨above', l, rfl⟩ := List.eq_nil_or_concat' after
    · exact .inr (.inl hstack)
    · have hlast : ∃ pc', l = .parallelFor pc' := by
        generalize s'.shared = shared' at hmove
        cases hmove with
        | parallelFor hmove =>
          generalize hafter : above' ++ [l] = after at hmove
          have hget : after.getLast? = some l := by rw [← hafter]; simp
          cases hmove <;> cases hget <;> exact ⟨_, rfl⟩
      obtain ⟨pc', rfl⟩ := hlast
      rw [List.append_assoc] at hstack
      exact .inl ⟨above', pc', hcall.step hstep hstack⟩
  · obtain rfl : [.unwinding] = after := Option.some.inj hunwind
    exact .inr (.inr ⟨habove, hstack⟩)

/-- A call that returns has called `fn` once on every index, and all calls are over. -/
theorem returned (hcall : ParallelForCall count fn t rest s above pc)
    (hroom : count + (cfg.maxNumThreads + 1) < 2 ^ 64)
    (hstep : (poolSystem cfg U clients).Step s s') (hreturn : s'.threads t = rest) :
    (pc.begun s.shared).Perm (List.range count) ∧ (pc.over s.shared).Perm (List.range count) := by
  have hserves := hcall.serves
  rcases PoolSystem.step_call hstep (by simp) hcall.stack with ⟨above', hstack'⟩ |
    ⟨-, after, hmove, hstack'⟩ | ⟨-, -, after, hunwind, hstack'⟩
  · rw [hreturn] at hstack'
    have hlength := congrArg List.length hstack'
    simp at hlength
    omega
  · have hnil : after = [] := by
      rw [hreturn] at hstack'
      simpa using hstack'.symm
    subst hnil
    generalize s'.shared = shared' at hmove
    cases hmove with
    | parallelFor hmove =>
      cases hmove with
      | empty hcount =>
        obtain ⟨rfl, rfl⟩ := hserves
        subst hcount
        exact ⟨.refl _, .refl _⟩
      | singleDone =>
        obtain rfl : count = 1 := hserves
        exact ⟨.refl _, .refl _⟩
      | @done batch counters fn' sync _ hbatch hpc hdone =>
        have hcounters : s.shared.counters batch = some counters := by
          rw [Shared.counters, hbatch, Option.map_some]
        have hlen : counters.count = count := by
          rcases hpc with rfl | ⟨rfl, -⟩
          all_goals
            obtain ⟨-, b, hb, hcount, -⟩ := hserves
            rw [hbatch] at hb
            cases hb
            exact hcount
        subst hlen
        obtain ⟨hbegun, hover, -⟩ := PoolSystem.runToEnd_of_done hcall.reachable hbatch hroom hdone
        rcases hpc with rfl | ⟨rfl, -⟩ <;>
          simpa [ParallelForPc.begun, ParallelForPc.over, hcounters] using ⟨hbegun, hover⟩
  · obtain rfl : [.unwinding] = after := Option.some.inj hunwind
    rw [hreturn] at hstack'
    have hlength := congrArg List.length hstack'
    simp at hlength

def isFrame {workers : ℕ} {Code : Type} : Frame workers Code → Bool
  | .parallelFor _ => true
  | _ => false

theorem exec
    {moves : List (ThreadId cfg.maxNumThreads clients × Choice cfg.maxNumThreads clients U.Input)}
    (hcall : ParallelForCall count fn t rest s above pc)
    (h : execUnder cfg U (fun s => (s.threads t).reverse[rest.length]?.any isFrame) s moves = some s') :
    ∃ above' pc', ParallelForCall count fn t rest s' above' pc' := by
  induction moves generalizing s above pc with
  | nil =>
    simp only [execUnder] at h
    split at h
    · cases h
      exact ⟨above, pc, hcall⟩
    · cases h
  | cons move moves ih =>
    obtain ⟨u, c⟩ := move
    simp only [execUnder] at h
    split at h
    · split at h
      · cases h
      · rename_i s₁ hstep
        have hcheck := execUnder_check h
        rcases hcall.step_cases ⟨u, c, hstep⟩ with ⟨above₁, pc₁, hcall₁⟩ | hreturn | ⟨-, hthrew⟩
        · exact ih hcall₁ h
        · simp [hreturn] at hcheck
        · simp [hthrew, isFrame] at hcheck
    · cases h

end ParallelForCall

/-- Every index of a batch is run exactly once, all of them or none: for any drainers of one batch, for
the batches of a pool whose workers have exited, and for every `parallelFor` that returns. -/
theorem parallelBatch_allOrNothing :
    (∀ {count k : ℕ}, 0 < count → count + k < 2 ^ 64 → ∀ d, (drainersSystem count k).Reachable d →
      d.counters.count = count ∧ d.counters.Sound ∧
      (count ≤ d.counters.nextIndex → ∀ d', (drainersSystem count k).Steps d d' →
        d'.counters.fnBegun = d.counters.fnBegun) ∧
      ((∀ i pc, d.drainers i ≠ .inside pc) → d.counters.Untouched ∨ d.counters.RunToEnd)) ∧
    (∀ {cfg : PoolConfig} {U : UserCode} {clients : ℕ} {s : PoolSystem cfg U clients},
      (poolSystem cfg U clients).Reachable s → ∀ batch b, s.shared.batches batch = some b →
      b.counters.count + (cfg.maxNumThreads + 1) < 2 ^ 64 →
      b.counters.Sound ∧
      (b.onAllCompleted.isSignal = false → (∀ own, own ∈ s.shared.pool.exited) →
        (∀ f ∈ s.threads .owner, f.kind ≠ .finishAllThreads) →
        b.counters.Untouched ∨ b.counters.RunToEnd)) ∧
    (∀ {cfg : PoolConfig} {U : UserCode} {clients count : ℕ} {fn : ℕ → U.Code}
      {t : ThreadId cfg.maxNumThreads clients} {rest above : List (Frame cfg.maxNumThreads U.Code)}
      {s s' : PoolSystem cfg U clients} {pc : ParallelForPc U.Code},
      ParallelForCall count fn t rest s above pc → 2 ≤ count →
      count + (cfg.maxNumThreads + 1) < 2 ^ 64 → (poolSystem cfg U clients).Step s s' →
      s'.threads t = rest →
      (pc.begun s.shared).Perm (List.range count) ∧ (pc.over s.shared).Perm (List.range count)) := by
  refine ⟨?_, ?_, ?_⟩
  · intro count k hcount hroom d hreach
    have hI := Drainers.invariant hcount hroom hreach
    refine ⟨hI.count_eq, hI.consistent.sound, fun hexhausted d' hsteps =>
      Drainers.fnBegun_of_exhausted hcount hroom hreach hsteps hexhausted, fun hnone => ?_⟩
    have hconsistent := hI.consistent
    rw [Drainers.inside_eq_zero hnone] at hconsistent
    exact hconsistent.all_or_nothing (hI.count_eq ▸ hcount)
  · intro cfg U clients s hreach batch b hbatch hroom
    obtain ⟨hpos, hconsistent⟩ := PoolSystem.consistent hreach hbatch hroom
    refine ⟨hconsistent.sound, fun hasync hexited hfinish => ?_⟩
    rw [PoolSystem.insideBatch_eq_zero hreach hbatch hasync hexited hfinish] at hconsistent
    exact hconsistent.all_or_nothing hpos
  · intro cfg U clients count fn t rest above s s' pc hcall _ hroom hstep hreturn
    exact hcall.returned hroom hstep hreturn

/-- Two drainers that have taken an index each; the second returned first, the first completed the batch. -/
def drainedBoth : Drainers 2 :=
  ⟨⟨2, 4, 2, [1, 0], [0, 1], 1⟩, ![.left, .left]⟩

theorem drainedBoth_reachable : (drainersSystem 2 2).Reachable drainedBoth := by
  have hfirst : ∀ {b b' : BatchCounters} {d d' e : Drainer}, d.Move b b' d' →
      (drainersSystem 2 2).Reachable ⟨b, ![d, e]⟩ → (drainersSystem 2 2).Reachable ⟨b', ![d', e]⟩ := by
    intro b b' d d' e hmove hreach
    refine hreach.next ⟨0, d', hmove, funext fun i => ?_⟩
    fin_cases i <;> rfl
  have hsecond : ∀ {b b' : BatchCounters} {d e e' : Drainer}, e.Move b b' e' →
      (drainersSystem 2 2).Reachable ⟨b, ![d, e]⟩ → (drainersSystem 2 2).Reachable ⟨b', ![d, e']⟩ := by
    intro b b' d e e' hmove hreach
    refine hreach.next ⟨1, e', hmove, funext fun i => ?_⟩
    fin_cases i <;> rfl
  have hbegun : (drainersSystem 2 2).Reachable
      ⟨⟨2, 2, 0, [1, 0], [], 0⟩, ![.inside (.inFn 0), .inside (.inFn 1)]⟩ := by
    have hstart : (drainersSystem 2 2).Reachable ⟨.initial 2, ![.waiting, .waiting]⟩ :=
      .init (congrArg _ (funext fun i => by fin_cases i <;> rfl)) trivial
    have hzero : Drainer.Move ⟨2, 0, 0, [], [], 0⟩ (.inside .fetch) ⟨2, 1, 0, [0], [], 0⟩
        (.inside (.inFn 0)) := .drain (.callFn 0)
    have hone : Drainer.Move ⟨2, 1, 0, [0], [], 0⟩ (.inside .fetch) ⟨2, 2, 0, [1, 0], [], 0⟩
        (.inside (.inFn 1)) := .drain (.callFn 1)
    exact hsecond hone (hfirst hzero (hsecond .start (hfirst .start hstart)))
  have hover : (drainersSystem 2 2).Reachable
      ⟨⟨2, 2, 0, [1, 0], [0, 1], 0⟩, ![.inside (.complete 0), .inside (.complete 1)]⟩ := by
    have hone : Drainer.Move ⟨2, 2, 0, [1, 0], [], 0⟩ (.inside (.inFn 1)) ⟨2, 2, 0, [1, 0], [1], 0⟩
        (.inside (.complete 1)) := .drain (.goto _)
    have hzero : Drainer.Move ⟨2, 2, 0, [1, 0], [1], 0⟩ (.inside (.inFn 0)) ⟨2, 2, 0, [1, 0], [0, 1], 0⟩
        (.inside (.complete 0)) := .drain (.goto _)
    exact hfirst hzero (hsecond hone hbegun)
  have hone : Drainer.Move ⟨2, 2, 0, [1, 0], [0, 1], 0⟩ (.inside (.complete 1))
      ⟨2, 2, 1, [1, 0], [0, 1], 0⟩ (.inside .fetch) := .drain (.goto _)
  have hlast : Drainer.Move ⟨2, 2, 1, [1, 0], [0, 1], 0⟩ (.inside (.complete 0))
      ⟨2, 2, 2, [1, 0], [0, 1], 0⟩ (.inside .allCompleted) := .drain (.goto _)
  have hsignal : Drainer.Move ⟨2, 2, 2, [1, 0], [0, 1], 0⟩ (.inside .allCompleted)
      ⟨2, 2, 2, [1, 0], [0, 1], 1⟩ (.inside .fetch) := .drain .signal
  have hexit : Drainer.Move ⟨2, 2, 2, [1, 0], [0, 1], 1⟩ (.inside .fetch)
      ⟨2, 3, 2, [1, 0], [0, 1], 1⟩ .left := .exit .exit
  have hexit' : Drainer.Move ⟨2, 3, 2, [1, 0], [0, 1], 1⟩ (.inside .fetch)
      ⟨2, 4, 2, [1, 0], [0, 1], 1⟩ .left := .exit .exit
  exact hsecond hexit' (hfirst hexit (hfirst hsignal (hfirst hlast (hsecond hone hover))))

/-- The owner dispatches an asynchronous batch of two indices and a synchronous one, which it drains
alone; the worker takes the helper of the first batch and runs it to the end. -/
def batchRun (moves : List (ThreadId 1 0 × Choice 1 0 Unit)) : Option (PoolSystem oneWorker scriptCode 0) :=
  scriptRun oneWorker 0
    (fun _ => .call (.parallelForAsync 2 (fun _ => .throw) .ret)
      (.call (.parallelFor 2 fun _ => .throw) (.call (.finishAllThreads false) .ret))) moves

def batchesStarted : List (ThreadId 1 0 × Choice 1 0 Unit) :=
  [(.owner, .input ()), (.owner, .go), (.owner, .go), (.owner, .go), (.owner, .go), (.owner, .go),
    (.owner, .go), (.owner, .go), (.owner, .go), (.owner, .input ())]

def secondDrained : List (ThreadId 1 0 × Choice 1 0 Unit) :=
  [(.owner, .go), (.owner, .go), (.owner, .go), (.owner, .go), (.owner, .go), (.owner, .go),
    (.owner, .go), (.owner, .go), (.owner, .input ()), (.owner, .go), (.owner, .go), (.owner, .go),
    (.owner, .go), (.owner, .input ()), (.owner, .go), (.owner, .go), (.owner, .go),
    (.owner, .notify .owner), (.owner, .go)]

/-- The worker runs the first batch, and the owner shuts the pool down. -/
def firstDrained : List (ThreadId 1 0 × Choice 1 0 Unit) :=
  [(.owner, .go), (soleWorker, .go), (soleWorker, .go), (soleWorker, .go), (soleWorker, .go),
    (soleWorker, .go), (soleWorker, .go), (soleWorker, .go), (soleWorker, .input ()), (soleWorker, .go),
    (soleWorker, .go), (soleWorker, .go), (soleWorker, .go), (soleWorker, .input ()), (soleWorker, .go),
    (soleWorker, .go), (soleWorker, .go), (soleWorker, .go), (soleWorker, .input ()), (soleWorker, .go),
    (soleWorker, .go), (soleWorker, .go), (soleWorker, .go), (soleWorker, .go), (.owner, .go),
    (.owner, .input ()), (.owner, .go), (soleWorker, .go), (.owner, .go), (.owner, .go), (.owner, .go),
    (.owner, .go)]

/-- The second batch up to the last step of its call, which the run does not leave before. -/
def secondCall : Option (PoolSystem oneWorker scriptCode 0) :=
  (batchRun batchesStarted).bind fun s => execUnder oneWorker scriptCode
    (fun s => (s.threads .owner).reverse[1]?.any ParallelForCall.isFrame) s secondDrained

theorem secondCall_inCall {s : PoolSystem oneWorker scriptCode 0} (hs : secondCall = some s)
    (hstack : s.threads .owner
      = [.parallelFor (.lock 1), .calling fun _ => .call (.finishAllThreads false) .ret]) :
    ParallelForCall (U := scriptCode) 2 (fun _ => Script.throw) .owner
      [.calling fun _ => Script.call (.finishAllThreads false) .ret] s [] (.lock 1) := by
  have hstart : (batchRun batchesStarted).map (fun s => s.threads .owner)
      = some [.parallelFor (.start 2 fun _ => .throw),
        .calling fun _ => .call (.finishAllThreads false) .ret] := rfl
  obtain ⟨s₀, hs₀, hexec⟩ := Option.bind_eq_some_iff.mp hs
  rw [hs₀, Option.map_some, Option.some.injEq] at hstart
  obtain ⟨above, pc, hcall⟩ := (ParallelForCall.start (scriptRun_reachable hs₀) hstart).exec hexec
  obtain ⟨rfl, hpc⟩ := ParallelForCall.append_cons_inj
    (hcall.stack.symm.trans (hstack.trans (List.nil_append _).symm))
  cases hpc
  exact hcall

theorem parallelBatch_allOrNothing_throwingBatches :
    (drainedBoth.counters.Untouched ∨ drainedBoth.counters.RunToEnd) ∧
    (∃ s b, batchRun (batchesStarted ++ secondDrained ++ firstDrained) = some s ∧
      s.shared.batches 0 = some b ∧ b.counters.fnBegun = [1, 0] ∧
      (b.counters.Untouched ∨ b.counters.RunToEnd)) ∧
    ∃ s s', secondCall = some s ∧ step oneWorker scriptCode .owner .go s = some s' ∧
      s.threads .owner = [.parallelFor (.lock 1), .calling fun _ => .call (.finishAllThreads false) .ret] ∧
      s'.threads .owner = [.calling fun _ => .call (.finishAllThreads false) .ret] ∧
      ((ParallelForPc.lock 1 : ParallelForPc Script).begun s.shared).Perm (List.range 2) := by
  refine ⟨?_, ?_, ?_⟩
  · have hnone : ∀ i pc, drainedBoth.drainers i ≠ .inside pc := by
      intro i pc h
      fin_cases i <;> cases h
    exact (parallelBatch_allOrNothing.1 (by decide) (by decide) _ drainedBoth_reachable).2.2.2 hnone
  · have hrun : (batchRun (batchesStarted ++ secondDrained ++ firstDrained)).map (fun s =>
        (decide (0 ∈ s.shared.pool.exited), (s.shared.batches 0).map fun b =>
          (b.counters.count, b.counters.fnBegun, b.onAllCompleted.isSignal)))
        = some (true, some (2, [1, 0], false)) := by decide
    have hstacks : (batchRun (batchesStarted ++ secondDrained ++ firstDrained)).map
        (fun s => s.threads .owner) = some [.calling fun _ => .ret] := rfl
    obtain ⟨s, hs, hvalues⟩ := Option.map_eq_some_iff.mp hrun
    rw [hs, Option.map_some, Option.some.injEq] at hstacks
    simp only [Prod.mk.injEq, decide_eq_true_eq] at hvalues
    obtain ⟨hexited, hvalues⟩ := hvalues
    obtain ⟨b, hb, hbatch⟩ := Option.map_eq_some_iff.mp hvalues
    simp only [Prod.mk.injEq] at hbatch
    obtain ⟨hcount, hbegun, hasync⟩ := hbatch
    have hroom : b.counters.count + (oneWorker.maxNumThreads + 1) < 2 ^ 64 := by rw [hcount]; decide
    refine ⟨s, b, hs, hb, hbegun,
      (parallelBatch_allOrNothing.2.1 (scriptRun_reachable hs) 0 b hb hroom).2 hasync ?_ ?_⟩
    · have hzero : ∀ own : Fin 1, own = 0 := fun own => Fin.eq_zero own
      intro own
      rw [hzero own]
      exact hexited
    · simp [hstacks, Frame.kind]
  · have hstacks : secondCall.bind (fun s => (step oneWorker scriptCode .owner .go s).map fun s' =>
        (s.threads .owner, s'.threads .owner))
        = some ([.parallelFor (.lock 1), .calling fun _ => .call (.finishAllThreads false) .ret],
          [.calling fun _ => .call (.finishAllThreads false) .ret]) := rfl
    obtain ⟨s, hs, hrest⟩ := Option.bind_eq_some_iff.mp hstacks
    obtain ⟨s', hs', hvalues⟩ := Option.map_eq_some_iff.mp hrest
    simp only [Prod.mk.injEq] at hvalues
    exact ⟨s, s', hs, hs', hvalues.1, hvalues.2, (parallelBatch_allOrNothing.2.2
      (secondCall_inCall hs hvalues.1) (by decide) (by decide) ⟨.owner, .go, hs'⟩ hvalues.2).1⟩

end CppUtils
