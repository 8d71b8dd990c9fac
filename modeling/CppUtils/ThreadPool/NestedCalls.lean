import CppUtils.ThreadPool.Progress
import CppUtils.ThreadPool.Script

/-!
# Nested `parallelFor` calls do not deadlock

Whoever waits for a batch waits for a thread that is inside it, and the waits follow the order in
which the batches were made. So whenever a thread is inside some batch, one such thread can go on.
-/

namespace CppUtils

open Threaded

variable {clients workers : ℕ} {U : UserCode} {cfg : PoolConfig}

/-- What the innermost call of a thread may be when loop bodies do nothing blocking apart from
`parallelFor`: user code that can go on, or a call other than `retire` and the shutdown functions. -/
def Frame.onlyNests (U : UserCode) (t : ThreadId workers clients) : Frame workers U.Code → Prop
  | .body code => ∃ i, (U.next code i).allowed t = true
  | .retire _ _ => False
  | .finishAllThreads _ _ => False
  | .abandonAllThreads _ => False
  | _ => True

namespace PoolSystem

variable {s : PoolSystem cfg U clients}

/-- A thread inside a batch whose innermost call only nests goes on unless its batch blocks it. -/
theorem exists_step_of_inBatch (hreach : (poolSystem cfg U clients).Reachable s)
    {t : ThreadId cfg.maxNumThreads clients} (hin : s.InBatch t)
    (hlanes : ∀ i, (s.shared.pool.queues i).items.length < laneMaxSize)
    (hnests : ∀ f ∈ (s.threads t).head?, f.onlyNests U t) (hawake : ∀ batch, t ∉ s.shared.waiters batch) :
    ∃ c s', c.endsWait = false ∧ step cfg U t c s = some s' := by
  obtain ⟨f₀, hf₀, hbatch⟩ := hin
  cases hstack : s.threads t with
  | nil =>
    rw [hstack] at hf₀
    cases hf₀
  | cons f rest =>
    have hf : f.onlyNests U t := hnests f (by rw [hstack]; rfl)
    by_cases hunwinding : f = .unwinding
    · subst hunwinding
      cases rest with
      | nil =>
        rw [hstack, List.mem_singleton] at hf₀
        subst hf₀
        cases hbatch
      | cons g rest =>
        obtain ⟨s', hs'⟩ := exists_step_of_unwinding hreach hstack
        exact ⟨.go, s', rfl, hs'⟩
    · refine exists_step hreach hstack fun hblock => ?_
      unfold Frame.mayBlock at hblock
      unfold Frame.onlyNests at hf
      split at hblock
      case h_1 code =>
        obtain ⟨i, hi⟩ := hf
        rw [hblock i] at hi
        cases hi
      case h_2 => exact hunwinding rfl
      case h_3 own =>
        -- A worker in its loop is inside nothing.
        have hbelow : s.threads t = [] ++ .runWorker own .idleWait :: rest := hstack
        have hnil : rest = [] := rest_eq_nil_of_worker hreach hbelow
        rw [hstack, hnil, List.mem_singleton] at hf₀
        subst hf₀
        cases hbatch
      case h_4 index item => exact absurd (hlanes index) (Nat.not_lt.mpr hblock)
      case h_5 => exact hf
      case h_6 => exact hf
      case h_7 batch => exact hawake batch hblock
      case h_8 => exact hblock

end PoolSystem

/-- A caller that is blocked in `allDone.wait` waits for another thread inside a call of `fn` of the
same batch, or between such a call and the end of the completion action; so the threads inside some
batch are never all blocked, and while lanes have room one of them can go on. -/
theorem nestedParallelFor_noDeadlock {s : PoolSystem cfg U clients}
    (hreach : (poolSystem cfg U clients).Reachable s) (hsizes : s.SizesFit) :
    (∀ t batch, t ∈ s.shared.waiters batch → ∃ b, s.shared.batches batch = some b ∧
      (∀ index < b.counters.count, index ∈ b.counters.fnBegun) ∧
      ∃ u, u ≠ t ∧ ∃ pc, .drainIndices batch pc ∈ s.threads u ∧
        (pc.holdsIndex = true ∨ pc = .allCompleted)) ∧
    (∀ t, s.InBatch t → ∃ u, s.InBatch u ∧ ∀ batch, u ∉ s.shared.waiters batch) ∧
    ((∀ i, (s.shared.pool.queues i).items.length < laneMaxSize) →
      (∀ t, s.InBatch t → ∀ f ∈ (s.threads t).head?, f.onlyNests U t) →
      ∀ t, s.InBatch t → ∃ u c s', s.InBatch u ∧ c.endsWait = false ∧ step cfg U u c s = some s') := by
  refine ⟨fun t batch ht => ?_, fun t ht => PoolSystem.exists_not_waiting hreach hsizes ht,
    fun hlanes hnests t ht => ?_⟩
  · obtain ⟨b, hb, hwaits⟩ := PoolSystem.waiter_waitsFor hreach ht
    exact ⟨b, hb, hwaits (hsizes batch b hb)⟩
  · obtain ⟨u, hu, hawake⟩ := PoolSystem.exists_not_waiting hreach hsizes ht
    obtain ⟨c, s', hc, hstep⟩ :=
      PoolSystem.exists_step_of_inBatch hreach hu hlanes (hnests u hu) hawake
    exact ⟨u, c, s', hu, hc, hstep⟩

/-- The owner waits for the outer batch, of which the worker runs the second index; that call is in
a batch of its own, whose helper is still in the lane. -/
def nestedRun : Option (PoolSystem oneWorker scriptCode 0) :=
  scriptRun oneWorker 0
    (fun _ => .call (.parallelFor 2 fun i => if i = 0 then .ret
      else .call (.parallelFor 2 fun _ => .ret) .ret) .ret)
    [(.owner, .input ()), (.owner, .go), (.owner, .go), (.owner, .go), (.owner, .go), (.owner, .go),
      (.owner, .go), (.owner, .go), (.owner, .go), (.worker 0, .go), (.worker 0, .go), (.worker 0, .go),
      (.worker 0, .go), (.worker 0, .go), (.worker 0, .go), (.worker 0, .go), (.worker 0, .input ()),
      (.worker 0, .go), (.worker 0, .go), (.worker 0, .go), (.worker 0, .go), (.worker 0, .go),
      (.owner, .input ()), (.owner, .go), (.owner, .go), (.owner, .go), (.owner, .go)]

theorem nestedParallelFor_noDeadlock_ownerWaits :
    ∃ s, nestedRun = some s ∧ s.shared.pool.laneTotal = 1 ∧ ThreadId.owner ∈ s.shared.waiters 0 ∧
      (∃ u, u ≠ .owner ∧ ∃ pc, .drainIndices 0 pc ∈ s.threads u ∧
        (pc.holdsIndex = true ∨ pc = .allCompleted)) ∧
      ∃ u c s', s.InBatch u ∧ c.endsWait = false ∧ step oneWorker scriptCode u c s = some s' := by
  have hrun : nestedRun.map (fun s => (s.shared.pool.laneTotal,
      decide (ThreadId.owner ∈ s.shared.waiters 0), s.shared.nextBatch,
      (s.shared.batches 0).elim 0 (fun b => b.counters.count),
      (s.shared.batches 1).elim 0 (fun b => b.counters.count))) = some (1, true, 2, 2, 2) := by decide
  have hstacks : nestedRun.map (fun s => (s.threads .owner, (s.threads (.worker 0)).head?))
      = some ([.parallelFor (.wait 0), .calling fun _ => .ret], some (.enqueue .gate)) := rfl
  obtain ⟨s, hs, hvalues⟩ := Option.map_eq_some_iff.mp hrun
  rw [hs, Option.map_some, Option.some.injEq] at hstacks
  simp only [Prod.mk.injEq, decide_eq_true_eq] at hvalues hstacks
  obtain ⟨htotal, hwaits, hnext, hfirst, hsecond⟩ := hvalues
  have hreach := scriptRun_reachable hs
  have hsizes : s.SizesFit := by
    intro batch b hb
    have hlt := (PoolSystem.batchesMade hreach).lt hb
    rw [hnext] at hlt
    obtain rfl | rfl : batch = 0 ∨ batch = 1 := by omega
    · rw [hb, Option.elim_some] at hfirst
      rw [hfirst]
      decide
    · rw [hb, Option.elim_some] at hsecond
      rw [hsecond]
      decide
  have hlanes : ∀ i, (s.shared.pool.queues i).items.length < laneMaxSize := fun i =>
    (s.shared.pool.length_le_laneTotal i).trans_lt (htotal.trans_lt (by decide))
  have hnests : ∀ t, s.InBatch t → ∀ f ∈ (s.threads t).head?, f.onlyNests scriptCode t := by
    intro t _ f hf
    cases t with
    | owner =>
      rw [hstacks.1] at hf
      cases hf
      trivial
    | worker own =>
      have hzero : own = 0 := Fin.eq_zero own
      rw [hzero, hstacks.2] at hf
      cases hf
      trivial
    | client i => exact i.elim0
  have howner : s.InBatch .owner := ⟨.parallelFor (.wait 0), by simp [hstacks.1], rfl⟩
  obtain ⟨hwaiter, -, hprogress⟩ := nestedParallelFor_noDeadlock hreach hsizes
  obtain ⟨b, -, -, hinside⟩ := hwaiter _ _ hwaits
  exact ⟨s, hs, htotal, hwaits, hinside, hprogress hlanes hnests .owner howner⟩

end CppUtils
