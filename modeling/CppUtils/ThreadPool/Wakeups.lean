import CppUtils.ThreadPool.IdleWait

/-!
# No lost wake-up

What a worker that searches alone finds, what holds after a stop request, and the whole statement on
wake-ups: while a worker is blocked, the queued tasks are covered.
-/

namespace CppUtils

open Threaded

variable {clients : ℕ} {U : UserCode} {cfg : PoolConfig}

/-! ### A search without interference -/

section Solo

variable {own : Fin cfg.maxNumThreads} {s : PoolSystem cfg U clients}

def PoolSystem.TakesAlone (s : PoolSystem cfg U clients) (own : Fin cfg.maxNumThreads) : Prop :=
  ∃ k index item s', exec cfg U s (List.replicate k (.worker own, .go)) = some s' ∧
    s.shared.pool.tryPop index = some (item, s'.shared.pool) ∧
      s'.threads (.worker own) = [.runWorker own (.tryGetTask (.popped item))]

private theorem step_tryGetTask {pc : TryGetTaskPc U.Code} {pc' : RunWorkerPc U.Code}
    {pool : PoolState cfg.maxNumThreads clients U.Code}
    (hstack : s.threads (.worker own) = [.runWorker own (.tryGetTask pc)])
    (hnext : tryGetTaskStep cfg s.shared.pool own pc = (pool, pc')) :
    ∃ s₁, step cfg U (.worker own) .go s = some s₁ ∧ s₁.shared.pool = pool ∧
      s₁.threads (.worker own) = [.runWorker own pc'] := by
  refine ⟨⟨s.shared.setPool pool, Function.update s.threads (.worker own) [.runWorker own pc']⟩,
    ?_, rfl, Function.update_self _ _ _⟩
  simp [step, hstack, frameStep, runWorkerStep, hnext]

private theorem takesAlone_of_pop {pc : TryGetTaskPc U.Code} {index : Fin cfg.maxNumThreads}
    {item : TaggedTask U.Code} {pool : PoolState cfg.maxNumThreads clients U.Code}
    (hstack : s.threads (.worker own) = [.runWorker own (.tryGetTask pc)])
    (hpop : s.shared.pool.tryPop index = some (item, pool))
    (hnext : tryGetTaskStep cfg s.shared.pool own pc = (pool, .tryGetTask (.popped item))) :
    s.TakesAlone own := by
  obtain ⟨s₁, hstep, rfl, hstack₁⟩ := step_tryGetTask hstack hnext
  exact ⟨1, index, item, s₁, by simp [exec, hstep], hpop, hstack₁⟩

private theorem takesAlone_of_next {pc : TryGetTaskPc U.Code} (pc' : TryGetTaskPc U.Code)
    (hstack : s.threads (.worker own) = [.runWorker own (.tryGetTask pc)])
    (hnext : tryGetTaskStep cfg s.shared.pool own pc = (s.shared.pool, .tryGetTask pc'))
    (hrest : ∀ s₁ : PoolSystem cfg U clients, s₁.shared.pool = s.shared.pool →
      s₁.threads (.worker own) = [.runWorker own (.tryGetTask pc')] → s₁.TakesAlone own) :
    s.TakesAlone own := by
  obtain ⟨s₁, hstep, hpool, hstack₁⟩ := step_tryGetTask hstack hnext
  obtain ⟨k, index, item, s', hexec, hpop, hstack'⟩ := hrest s₁ hpool hstack₁
  exact ⟨k + 1, index, item, s', by simpa [List.replicate_succ, exec, hstep] using hexec,
    hpool ▸ hpop, hstack'⟩

private theorem takesAlone_of_steal (d : ℕ) : ∀ {s : PoolSystem cfg U clients} {offset : ℕ},
    s.threads (.worker own) = [.runWorker own (.tryGetTask (.steal offset))] →
      offset + d < cfg.maxNumThreads →
        (s.shared.pool.queues (cfg.lane (own.val + (offset + d)))).items ≠ [] →
          s.TakesAlone own := by
  induction d with
  | zero =>
    intro s offset hstack hoffset hlane
    rw [Nat.add_zero] at hoffset hlane
    cases hpop : s.shared.pool.tryPop (cfg.lane (own.val + offset)) with
    | none => exact absurd (PoolState.tryPop_eq_none.mp hpop) hlane
    | some r => exact takesAlone_of_pop hstack hpop (by simp [tryGetTaskStep, hoffset, hpop])
  | succ d ih =>
    intro s offset hstack hoffset hlane
    have hlt : offset < cfg.maxNumThreads := by omega
    cases hpop : s.shared.pool.tryPop (cfg.lane (own.val + offset)) with
    | some r => exact takesAlone_of_pop hstack hpop (by simp [tryGetTaskStep, hlt, hpop])
    | none =>
      refine takesAlone_of_next (.steal (offset + 1)) hstack
        (by simp [tryGetTaskStep, hlt, hpop]) fun s₁ hpool hstack₁ => ih hstack₁ (by omega) ?_
      rw [hpool, show offset + 1 + d = offset + (d + 1) by omega]
      exact hlane

private theorem lane_offset (hn : cfg.maxNumThreads ≤ 2 ^ 31) (i : Fin cfg.maxNumThreads)
    (hne : i ≠ own) : ∃ o, 1 + o < cfg.maxNumThreads ∧ cfg.lane (own.val + (1 + o)) = i := by
  have hival : i.val ≠ own.val := fun h => hne (Fin.ext h)
  by_cases hlt : own.val < i.val
  · have hsum : own.val + (1 + (i.val - own.val - 1)) = i.val := by omega
    refine ⟨i.val - own.val - 1, by omega, Fin.ext ?_⟩
    rw [PoolConfig.lane_val, hsum, Nat.mod_eq_of_lt (a := i.val) (b := 2 ^ 32) (by omega),
      Nat.mod_eq_of_lt i.isLt]
  · have hsum : own.val + (1 + (i.val + cfg.maxNumThreads - own.val - 1))
        = i.val + cfg.maxNumThreads := by omega
    refine ⟨i.val + cfg.maxNumThreads - own.val - 1, by omega, Fin.ext ?_⟩
    rw [PoolConfig.lane_val, hsum,
      Nat.mod_eq_of_lt (a := i.val + cfg.maxNumThreads) (b := 2 ^ 32) (by omega),
      Nat.add_mod_right, Nat.mod_eq_of_lt i.isLt]

/-- A `tryGetTask` that runs alone takes a task when there is one. -/
theorem PoolSystem.takesAlone (hn : cfg.maxNumThreads ≤ 2 ^ 31)
    (hreach : (poolSystem cfg U clients).Reachable s)
    (hstack : s.threads (.worker own) = [.runWorker own (.tryGetTask .own)])
    {i : Fin cfg.maxNumThreads} (hlane : (s.shared.pool.queues i).items ≠ []) :
    s.TakesAlone own := by
  cases hpop : s.shared.pool.tryPop own with
  | some r => exact takesAlone_of_pop hstack hpop (by simp [tryGetTaskStep, hpop])
  | none =>
    have hne : i ≠ own := by
      rintro rfl
      exact hlane (PoolState.tryPop_eq_none.mp hpop)
    obtain ⟨o, hlt, hi⟩ := lane_offset hn i hne
    have hqueued : s.shared.pool.queuedCount ≠ 0 := by
      have hcount := PoolSystem.queuedCount_eq hreach
      have hlength := List.length_pos_iff.mpr hlane
      have htotal := s.shared.pool.length_le_laneTotal i
      omega
    refine takesAlone_of_next .checkQueued hstack (by simp [tryGetTaskStep, hpop])
      fun s₁ hpool₁ hstack₁ => ?_
    refine takesAlone_of_next (.steal 1) hstack₁
      (by simp [tryGetTaskStep, hpool₁, hqueued]) fun s₂ hpool₂ hstack₂ => ?_
    refine takesAlone_of_steal o hstack₂ hlt ?_
    rwa [hpool₂, hpool₁, hi]

end Solo

/-! ### After a stop request -/

def Frame.hasSetTerminate {workers : ℕ} {Code : Type} : Frame workers Code → Bool
  | .finishAllThreads _ .setTerminate => false
  | .finishAllThreads _ _ => true
  | .abandonAllThreads .setTerminate => false
  | .abandonAllThreads _ => true
  | _ => false

/-- The last step of `requestWorkersStop` is the next one of a thread. -/
def PoolSystem.NotifiesAll (s : PoolSystem cfg U clients) (t : ThreadId cfg.maxNumThreads clients) :
    Prop :=
  ∃ f rest, s.threads t = f :: rest ∧
    (f = .abandonAllThreads .notifyAll ∨ ∃ completePendingTasks,
      f = .finishAllThreads completePendingTasks .notifyAll)

theorem FrameMove.hasSetTerminate {t : ThreadId cfg.maxNumThreads clients}
    {s s' : Shared cfg.maxNumThreads clients U.Code} {f : Frame cfg.maxNumThreads U.Code}
    {after : List (Frame cfg.maxNumThreads U.Code)} (hmove : FrameMove cfg U t s f s' after) :
    (∀ g ∈ after, g.hasSetTerminate = true → f.hasSetTerminate = true) ∨
      s'.pool.terminate = true := by
  have hclosure : ∀ task : Closure U.Code,
      (task.frame : Frame cfg.maxNumThreads U.Code).hasSetTerminate = false := fun task => by
    cases task <;> rfl
  cases hmove with
  | @body code i =>
    refine .inl ?_
    cases U.next code i with
    | call request resume => cases request <;> simp [UserStep.frames, UserCall.frame, Frame.hasSetTerminate]
    | ret => simp [UserStep.frames]
    | throw => simp [UserStep.frames, Frame.hasSetTerminate]
  | resume => exact .inl (by simp [Frame.hasSetTerminate])
  | runWorker hmove =>
    refine .inl ?_
    cases hmove with
    | begin =>
      intro g hg hset
      rcases List.mem_cons.mp hg with rfl | hg
      · rw [hclosure] at hset
        cases hset
      · rw [List.mem_singleton.mp hg] at hset
        cases hset
    | _ => simp [Frame.hasSetTerminate]
  | enqueue hmove => exact .inl (by cases hmove <;> simp [Frame.hasSetTerminate])
  | retire hmove =>
    refine .inl ?_
    cases hmove with
    | subtractOutstanding _ hwait | wait _ hwait =>
      cases hwait <;> simp [Frame.hasSetTerminate]
    | _ => simp [Frame.hasSetTerminate]
  | @finishAllThreads _ pc _ _ hmove =>
    cases pc with
    | setTerminate =>
      cases hmove
      exact .inr rfl
    | _ => exact .inl fun _ _ _ => rfl
  | @abandonAllThreads pc _ _ hmove =>
    cases pc with
    | setTerminate =>
      cases hmove
      exact .inr rfl
    | _ => exact .inl fun _ _ _ => rfl
  | parallelFor hmove => exact .inl (by cases hmove <;> simp [Frame.hasSetTerminate])
  | parallelForAsync hmove => exact .inl (by cases hmove <;> simp [Frame.hasSetTerminate])
  | drainIndices hmove => exact .inl (by cases hmove <;> simp [Frame.hasSetTerminate])

namespace PoolSystem

variable {s : PoolSystem cfg U clients}

theorem terminate_of_hasSetTerminate (hreach : (poolSystem cfg U clients).Reachable s) :
    ∀ t, ∀ f ∈ s.threads t, f.hasSetTerminate = true → s.shared.pool.terminate = true := by
  refine TransitionSystem.Reachable.invariant
    (fun s : PoolSystem cfg U clients =>
      ∀ t, ∀ f ∈ s.threads t, f.hasSetTerminate = true → s.shared.pool.terminate = true)
    ?_ (fun s s' _ hI hstep => ?_) hreach
  · rintro s ⟨main, rfl⟩ t f hf hset
    cases t <;> simp only [initialSystem, List.mem_singleton] at hf <;> subst hf <;> cases hset
  · refine (step_move hstep).forall_frames
      (P := fun shared _ f => f.hasSetTerminate = true → shared.pool.terminate = true)
      (fun t before after hrule hmem hbefore => ?_) ?_ hI
    · have hmono := terminate_step hstep
      generalize s'.shared = shared' at hrule hmono ⊢
      cases hrule with
      | @frame _ _ f _ _ hmove =>
        intro g hg hset
        rcases hmove.hasSetTerminate with hf | hterminate
        · exact hmono (hbefore f (List.mem_singleton_self f) (hf g hg hset))
        · exact hterminate
      | @unwind _ _ f after hunwind =>
        have hf := hbefore f (by simp)
        unfold unwind at hunwind
        split at hunwind <;> cases hunwind <;> simp_all [Frame.hasSetTerminate]
    · exact fun t f _ h hset => terminate_step hstep (h hset)

/-- Once every worker was notified of the stop, no worker blocks any more. -/
theorem idleCv_eq_empty_of_stop {s s' s'' : PoolSystem cfg U clients}
    (hreach : (poolSystem cfg U clients).Reachable s) {t : ThreadId cfg.maxNumThreads clients}
    {c : Choice cfg.maxNumThreads clients U.Input} (hnotifies : s.NotifiesAll t)
    (hstep : step cfg U t c s = some s') (hsteps : (poolSystem cfg U clients).Steps s' s'') :
    s''.shared.pool.idleCv = ∅ := by
  have hstep' : (poolSystem cfg U clients).Step s s' := ⟨t, c, hstep⟩
  obtain ⟨f, rest, hstack, hf⟩ := hnotifies
  have hset : f.hasSetTerminate = true := by rcases hf with rfl | ⟨_, rfl⟩ <;> rfl
  have hterminate := terminate_of_hasSetTerminate hreach t f (by simp [hstack]) hset
  have hafter : s'.shared.pool.terminate = true ∧ s'.shared.pool.idleCv = ∅ := by
    refine ⟨terminate_step hstep' hterminate, ?_⟩
    rcases hf with rfl | ⟨completePendingTasks, rfl⟩
    · simp only [step, hstack, frameStep, abandonStep, Option.map_some] at hstep
      cases hstep
      rfl
    · by_cases hworkers : s.shared.pool.workerThreads = [] <;>
        simp only [step, hstack, frameStep, finishStep, hworkers, if_true, if_false,
          Option.map_some] at hstep <;> cases hstep <;> rfl
  have hstable := TransitionSystem.Reachable.stable
    (fun s : PoolSystem cfg U clients => s.shared.pool.terminate = true ∧ s.shared.pool.idleCv = ∅)
    (fun s s' _ hI hstep => ⟨terminate_step hstep hI.1, ?_⟩) (hreach.next hstep') hsteps hafter
  · exact hstable.2
  · rcases idleCv_step hstep with hsubset | ⟨-, hunset, -⟩
    · exact Finset.subset_empty.mp (hI.2 ▸ hsubset)
    · rw [hI.1] at hunset
      cases hunset

end PoolSystem

/-! ### No lost wake-up -/

/-- While a worker is blocked in the idle wait, the queued tasks are no more than the awake workers
without a task and the calls of `enqueue` before their gate. A worker blocks only when every lane is
empty. A search that runs alone takes a task when there is one. After a stop request nothing blocks. -/
theorem noLostWakeup (hn : cfg.maxNumThreads ≤ 2 ^ 31) {s : PoolSystem cfg U clients}
    (hreach : (poolSystem cfg U clients).Reachable s) :
    (s.shared.pool.terminate = false → s.shared.pool.idleCv ≠ ∅ →
        s.shared.pool.laneTotal ≤ s.awakeWithoutTask.card + s.count (pushedBeforeGate _ _)) ∧
      (∀ s', (poolSystem cfg U clients).Step s s' →
        ∀ t ∈ s'.shared.pool.idleCv, t ∉ s.shared.pool.idleCv →
          ∀ i, (s.shared.pool.queues i).items = []) ∧
      (∀ own i, s.threads (.worker own) = [.runWorker own (.tryGetTask .own)] →
        (s.shared.pool.queues i).items ≠ [] → s.TakesAlone own) ∧
      ∀ t c s' s'', s.NotifiesAll t → step cfg U t c s = some s' →
        (poolSystem cfg U clients).Steps s' s'' → s''.shared.pool.idleCv = ∅ := by
  refine ⟨fun hterminate hblocked => ?_, fun s' hstep t ht hnew => ?_,
    fun own i hstack hlane => PoolSystem.takesAlone hn hreach hstack hlane,
    fun t c s' s'' hnotifies hstep hsteps =>
      PoolSystem.idleCv_eq_empty_of_stop hreach hnotifies hstep hsteps⟩
  · have hcovered := PoolSystem.laneTotal_add_card_le hreach hterminate hblocked
    have htakers := s.count_takers
    have hwithout := PoolSystem.count_withoutTask hreach
    have hawake := Finset.card_sdiff_add_card_eq_card (PoolSystem.idleCv_subset hreach)
    rw [PoolSystem.awakeWithoutTask]
    omega
  · rcases PoolSystem.idleCv_step hstep with hsubset | ⟨hqueued, -, -⟩
    · exact absurd (hsubset ht) hnew
    · have hcount := PoolSystem.queuedCount_eq hreach
      exact (PoolState.laneTotal_eq_zero _).mp (by omega)

/-- Workers 0 and 1 block; the owner enqueues a task and wakes worker 0; worker 2 begins a search. -/
def wokenBesideTask : Option (PoolSystem threeWorkers scriptCode 0) :=
  scriptRun threeWorkers 0 (fun _ => .call (.enqueue .ret 0) .ret)
    [(.worker 0, .go), (.worker 0, .go), (.worker 0, .go), (.worker 0, .go), (.worker 0, .go),
      (.worker 0, .go), (.worker 1, .go), (.worker 1, .go), (.worker 1, .go), (.worker 1, .go),
      (.worker 1, .go), (.worker 1, .go), (.owner, .input ()), (.owner, .go), (.owner, .go),
      (.owner, .go), (.owner, .go), (.owner, .notify (.worker 0)), (.worker 2, .go),
      (.worker 2, .go)]

theorem noLostWakeup_wokenBesideTask :
    ∃ s, wokenBesideTask = some s ∧ s.shared.pool.laneTotal = 1 ∧ s.awakeWithoutTask.card = 2 ∧
      s.shared.pool.laneTotal ≤ s.awakeWithoutTask.card + s.count (pushedBeforeGate _ _) ∧
      s.TakesAlone 2 := by
  have hrun : wokenBesideTask.map (fun s => (s.shared.pool.laneTotal, s.awakeWithoutTask.card,
      s.shared.pool.terminate, decide (s.shared.pool.idleCv = ∅),
      decide ((s.shared.pool.queues 0).items = []))) = some (1, 2, false, false, false) := by
    decide
  obtain ⟨s, hs, hvalues⟩ := Option.map_eq_some_iff.mp hrun
  have hstack : wokenBesideTask.map (fun s => s.threads (.worker 2))
      = some [.runWorker 2 (.tryGetTask .own)] := rfl
  rw [hs, Option.map_some, Option.some.injEq] at hstack
  simp only [Prod.mk.injEq, decide_eq_false_iff_not] at hvalues
  obtain ⟨htotal, hawake, hterminate, hblocked, hlane⟩ := hvalues
  have hall := noLostWakeup (by decide) (scriptRun_reachable hs)
  exact ⟨s, hs, htotal, hawake, hall.1 hterminate hblocked, hall.2.2.1 2 0 hstack hlane⟩

/-- Worker 2 goes on and takes the task; then worker 0 evaluates its predicate. -/
def takenByAnother : List (ThreadId 3 0 × Choice 3 0 Unit) :=
  [(.worker 2, .go), (.worker 2, .go), (.worker 2, .go), (.worker 2, .go), (.worker 0, .go)]

/-- An awake worker without a task need not complete another `tryGetTask` before it blocks: worker 0
is counted beside a queued task, and its next step, out of the idle wait, blocks it again. -/
theorem blocks_without_tryGetTask :
    ∃ s s', (poolSystem threeWorkers scriptCode 0).Reachable s ∧ s.shared.pool.terminate = false ∧
      ThreadId.worker 1 ∈ s.shared.pool.idleCv ∧ s.shared.pool.laneTotal = 1 ∧
      ThreadId.worker 0 ∈ s.awakeWithoutTask ∧
      s.threads (.worker 0) = [.runWorker 0 .idleWait] ∧
      exec threeWorkers scriptCode s takenByAnother = some s' ∧
      takenByAnother.filter (fun move => move.1 = .worker 0) = [(.worker 0, .go)] ∧
      s'.threads (.worker 0) = [.runWorker 0 .idleWait] ∧
      ThreadId.worker 0 ∈ s'.shared.pool.idleCv := by
  have hrun : wokenBesideTask.bind (fun s => (exec threeWorkers scriptCode s takenByAnother).map
      fun s' => (decide (ThreadId.worker 1 ∈ s.shared.pool.idleCv),
        decide (ThreadId.worker 0 ∈ s.awakeWithoutTask), s.shared.pool.laneTotal,
        s.shared.pool.terminate, decide (ThreadId.worker 0 ∈ s'.shared.pool.idleCv)))
      = some (true, true, 1, false, true) := by decide
  have hstacks : wokenBesideTask.bind (fun s => (exec threeWorkers scriptCode s takenByAnother).map
      fun s' => (s.threads (.worker 0), s'.threads (.worker 0)))
      = some ([.runWorker 0 .idleWait], [.runWorker 0 .idleWait]) := rfl
  obtain ⟨s, hs, hrest⟩ := Option.bind_eq_some_iff.mp hrun
  obtain ⟨s', hs', hvalues⟩ := Option.map_eq_some_iff.mp hrest
  rw [hs, Option.bind_some, hs', Option.map_some, Option.some.injEq] at hstacks
  simp only [Prod.mk.injEq, decide_eq_true_eq] at hvalues hstacks
  obtain ⟨hblocked, hawake, htotal, hterminate, hblocks⟩ := hvalues
  exact ⟨s, s', scriptRun_reachable hs, hterminate, hblocked, htotal, hawake, hstacks.1, hs',
    rfl, hstacks.2, hblocks⟩

end CppUtils
