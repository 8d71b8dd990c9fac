import CppUtils.ThreadPool.Joined
import CppUtils.ThreadPool.RetireWakeups
import CppUtils.ThreadPool.Starvation

/-!
# `retire` returns

A task under a tag is over at last, wherever it is: an `enqueue` call brings it to its lane or lets go
of it, a worker takes it from there, and a worker lets go of what it has taken. While a `retire` is in
progress no task is registered under its tag, so in the end none is outstanding, and the call is
awake.
-/

namespace CppUtils

variable {clients workers : ℕ} {U : UserCode} {Code : Type} {cfg : PoolConfig}

/-! ### Registrations -/

def PoolState.IsOpen (s : PoolState workers clients Code) (tag : ℕ) : Prop :=
  ∀ a node, s.tagStates tag = some a → s.tagNodes a = some node → node.retired = false

/-- A task is registered only under an open tag. -/
def PoolState.registers (s : PoolState workers clients Code) : TaskEvent workers → Prop
  | .registered _ tag => s.IsOpen tag
  | _ => True

theorem FrameMove.registers {t : ThreadId cfg.maxNumThreads clients}
    {s s' : Shared cfg.maxNumThreads clients U.Code} {f : Frame cfg.maxNumThreads U.Code}
    {after : List (Frame cfg.maxNumThreads U.Code)} (hmove : FrameMove cfg U t s f s' after) :
    s.pool.history.Adds s.pool.registers s'.pool.history := by
  cases hmove with
  | runWorker hmove =>
    cases hmove with
    | tryGetTask hget =>
      cases hget with
      | popOwn hpop | steal _ hpop =>
        obtain ⟨lane, -, rfl⟩ := PoolState.tryPop_eq_some hpop
        exact .of_eq rfl
      | _ => exact .of_eq rfl
    | begin | scopeEnd => exact .of_cons rfl trivial
    | complete hcomplete =>
      obtain ⟨tagNodes, waiters, rfl⟩ := PoolState.completeTaggedTask_setTags hcomplete
      exact .of_eq rfl
    | _ => exact .of_eq rfl
  | enqueue hmove =>
    cases hmove with
    | drop hemplace =>
      obtain ⟨tagStates, tagNodes, rfl⟩ := PoolState.tryEmplace_setTags hemplace
      exact .of_cons rfl trivial
    | @register index item tagState a pool node hemplace hnode hretired =>
      have hopen : s.pool.IsOpen item.tag := by
        intro b node' hentry hnode'
        simp only [PoolState.tryEmplace, hentry, Option.some.injEq, Prod.mk.injEq] at hemplace
        obtain ⟨rfl, rfl⟩ := hemplace
        cases hnode.symm.trans hnode'
        simpa using hretired
      obtain ⟨tagStates, tagNodes, rfl⟩ := PoolState.tryEmplace_setTags hemplace
      exact .of_cons rfl hopen
    | push hpush =>
      obtain ⟨lane, -, rfl⟩ := PoolState.push_eq_some hpush
      exact .of_eq rfl
    | complete hcomplete =>
      obtain ⟨tagNodes, waiters, rfl⟩ := PoolState.completeTaggedTask_setTags hcomplete
      exact .of_eq rfl
    | rethrow => exact .of_cons rfl trivial
    | _ => exact .of_eq rfl
  | @retire tag pc pool after hmove =>
    cases hmove with
    | setRetired => exact .of_cons rfl trivial
    | sweep h =>
      refine ⟨_, rfl, fun e he => ?_⟩
      obtain ⟨item, -, rfl⟩ := List.mem_map.mp he
      trivial
    | subtractOutstanding _ hwait | wait _ hwait =>
      cases hwait with
      | finish => exact .of_eq (congrArg History.events (PoolState.eraseTag_history _ _ _))
      | block => exact .of_eq rfl
    | _ => exact .of_eq rfl
  | finishAllThreads hmove =>
    cases hmove with
    | pop _ hpop =>
      obtain ⟨lane, -, rfl⟩ := PoolState.tryPop_eq_some hpop
      exact .finishLocal _ _ fun _ _ _ => trivial
    | begin => exact .of_cons rfl trivial
    | complete hcomplete =>
      obtain ⟨tagNodes, waiters, rfl⟩ := PoolState.completeTaggedTask_setTags hcomplete
      exact .of_eq rfl
    | assertQueued => exact .finishLocal _ _ fun _ _ _ => trivial
    | _ => exact .of_eq rfl
  | abandonAllThreads hmove =>
    cases hmove with
    | pop _ hpop =>
      obtain ⟨lane, -, rfl⟩ := PoolState.tryPop_eq_some hpop
      exact .finishLocal _ _ fun _ _ _ => trivial
    | laneEmpty | swept => exact .finishLocal _ _ fun _ _ _ => trivial
    | complete hcomplete =>
      obtain ⟨tagNodes, waiters, rfl⟩ := PoolState.completeTaggedTask_setTags hcomplete
      exact .of_eq rfl
    | _ => exact .of_eq rfl
  | parallelFor hmove => cases hmove <;> exact .of_eq rfl
  | parallelForAsync hmove => cases hmove <;> exact .of_eq rfl
  | drainIndices hmove => cases hmove <;> exact .of_eq rfl
  | _ => exact .of_eq rfl

theorem PoolSystem.registers_step {s s' : PoolSystem cfg U clients}
    (hstep : (poolSystem cfg U clients).Step s s') :
    s.shared.pool.history.Adds s.shared.pool.registers s'.shared.pool.history := by
  cases step_move hstep with
  | mk t hstack hrule =>
    cases hrule with
    | unwind => exact .of_eq rfl
    | frame hmove => exact hmove.registers

theorem PoolSystem.mem_events_step {s s' : PoolSystem cfg U clients}
    (hstep : (poolSystem cfg U clients).Step s s') {e : TaskEvent cfg.maxNumThreads}
    (he : e ∈ s.shared.pool.history.events) : e ∈ s'.shared.pool.history.events := by
  obtain ⟨later, hevents, -⟩ := registers_step hstep
  rw [hevents]
  exact List.mem_append_right later he

/-! ### From `enqueue` to the lane -/

/-- The call of `enqueue` has this task, with its pointer, and has not pushed it. -/
def EnqueuePc.handles (item : TaggedTask Code) : EnqueuePc workers Code → Prop
  | .increment _ item' => item' = item
  | .push _ item' => item' = item
  | .undoIncrement item' => item' = item
  | .completeTaggedTask item' => item' = item
  | .rethrow item' => item' = item
  | _ => False

def EnqueuePc.turnsToLetGo : EnqueuePc workers Code → ℕ
  | .increment _ _ => 5
  | .push _ _ => 4
  | .undoIncrement _ => 3
  | .completeTaggedTask _ => 2
  | .rethrow _ => 1
  | _ => 0

theorem EnqueueMove.handles {s s' : PoolState cfg.maxNumThreads clients Code}
    {pc : EnqueuePc cfg.maxNumThreads Code} {after : List (Frame cfg.maxNumThreads Code)}
    (hmove : EnqueueMove cfg s pc s' after) {item : TaggedTask Code} (h : pc.handles item) :
    (s'.hasEnded item (fun _ => True) ∨ ∃ index, item ∈ (s'.queues index).items) ∨
      ∃ pc', after = [.enqueue pc'] ∧ pc'.handles item ∧ pc'.turnsToLetGo < pc.turnsToLetGo := by
  cases hmove with
  | increment => exact .inr ⟨_, rfl, h, Nat.lt_succ_self _⟩
  | @push index _ _ hpush =>
    obtain rfl := h
    obtain ⟨lane, hlane, rfl⟩ := PoolState.push_eq_some hpush
    exact .inl (.inr ⟨index, by simp [hlane]⟩)
  | pushThrows => exact .inr ⟨_, rfl, h, Nat.lt_succ_self _⟩
  | undoIncrement => exact .inr ⟨_, rfl, h, Nat.lt_succ_self _⟩
  | complete => exact .inr ⟨_, rfl, h, Nat.lt_succ_self _⟩
  | rethrow =>
    obtain rfl := h
    exact .inl (.inl ⟨.discarded, trivial, List.mem_cons_self⟩)
  | _ => exact h.elim

/-- The lanes are not full. -/
def PoolRun.HasRoom {Fair : ThreadId cfg.maxNumThreads clients → Prop} (r : PoolRun cfg U clients Fair) : Prop :=
  ∀ n index, ((r.state n).shared.pool.queues index).items.length < laneMaxSize

namespace PoolSystem

variable {s s' : PoolSystem cfg U clients} {u : ThreadId cfg.maxNumThreads clients}

def enqueuePc (s : PoolSystem cfg U clients) (u : ThreadId cfg.maxNumThreads clients) :
    Option (EnqueuePc cfg.maxNumThreads U.Code) :=
  match s.threads u with
  | .enqueue pc :: _ => some pc
  | _ => none

def turnsToLetGo (s : PoolSystem cfg U clients) (u : ThreadId cfg.maxNumThreads clients) : ℕ :=
  ((s.enqueuePc u).map EnqueuePc.turnsToLetGo).getD 0

theorem turnsToLetGo_eq {pc : EnqueuePc cfg.maxNumThreads U.Code} {rest : List (Frame cfg.maxNumThreads U.Code)}
    (hstack : s.threads u = .enqueue pc :: rest) : s.turnsToLetGo u = pc.turnsToLetGo := by
  simp [turnsToLetGo, enqueuePc, hstack]

def Enqueues (s : PoolSystem cfg U clients) (u : ThreadId cfg.maxNumThreads clients) (item : TaggedTask U.Code)
    (rest : List (Frame cfg.maxNumThreads U.Code)) : Prop :=
  ∃ pc, s.threads u = .enqueue pc :: rest ∧ pc.handles item

/-- The task has come to an end, or is in a lane. -/
def LetGo (s : PoolSystem cfg U clients) (item : TaggedTask U.Code) : Prop :=
  s.shared.pool.hasEnded item (fun _ => True) ∨ ∃ index, item ∈ (s.shared.pool.queues index).items

theorem Enqueues.step {item : TaggedTask U.Code} {rest : List (Frame cfg.maxNumThreads U.Code)}
    (h : s.Enqueues u item rest) {t : ThreadId cfg.maxNumThreads clients}
    {c : Choice cfg.maxNumThreads clients U.Input} (hstep : step cfg U t c s = some s') :
    s'.LetGo item ∨ s'.Enqueues u item rest ∧ s'.turnsToLetGo u ≤ s.turnsToLetGo u ∧
      (t = u → s'.turnsToLetGo u < s.turnsToLetGo u) := by
  obtain ⟨pc, hstack, hpc⟩ := h
  obtain ⟨-, after, hmove, hafter⟩ | ⟨ht, hstack'⟩ := innermost_step (g := .enqueue pc) hstep nofun hstack
  · have henqueue : EnqueueMove cfg s.shared.pool pc s'.shared.pool after := by
      generalize s'.shared = shared' at hmove ⊢
      cases hmove with
      | enqueue hmove => exact hmove
    rcases henqueue.handles hpc with hdone | ⟨pc', rfl, hpc', hlt⟩
    · exact .inl hdone
    · refine .inr ⟨⟨pc', hafter, hpc'⟩, ?_⟩
      rw [turnsToLetGo_eq hstack, turnsToLetGo_eq hafter]
      exact ⟨hlt.le, fun _ => hlt⟩
  · refine .inr ⟨⟨pc, hstack', hpc⟩, ?_, fun heq => absurd heq ht⟩
    rw [turnsToLetGo_eq hstack, turnsToLetGo_eq hstack']

theorem enqueue_innermost (hreach : (poolSystem cfg U clients).Reachable s)
    {pc : EnqueuePc cfg.maxNumThreads U.Code} (hmem : .enqueue pc ∈ s.threads u) :
    ∃ rest, s.threads u = .enqueue pc :: rest := by
  obtain ⟨above, rest, hstack⟩ := List.append_of_mem hmem
  obtain rfl | habove := eq_or_ne above []
  · exact ⟨rest, hstack⟩
  · obtain ⟨k, hk⟩ := awaits_of_above hreach hstack habove
    exact hk.elim

end PoolSystem

namespace PoolRun.Serving

variable {Fair : ThreadId cfg.maxNumThreads clients → Prop} {r : PoolRun cfg U clients Fair} {n : ℕ}
  {item : TaggedTask U.Code}

theorem eventually_letGo (h : r.Serving) (hroom : r.HasRoom) {u : ThreadId cfg.maxNumThreads clients}
    (hfair : Fair u) {rest : List (Frame cfg.maxNumThreads U.Code)} (henqueues : (r.state n).Enqueues u item rest) :
    Eventually (fun m => (r.state m).LetGo item) n := by
  refine r.eventually_of_rank (t := u) (fun m => (r.state m).turnsToLetGo u)
    (A := fun m => (r.state m).Enqueues u item rest) (fun _ => True) hfair (fun m hA _ => ?_)
    (fun m _ => .now (.inr trivial)) (fun m _ _ _ => .inr trivial) (fun m hA => ?_)
    (fun m hA _ hparty => ?_) n henqueues
  · obtain ⟨pc, hstack, hpc⟩ := hA
    have hfree : ¬ (Frame.enqueue pc).mayBlock U (r.state m).shared u := by
      intro hblocked
      cases pc with
      | push index item => exact absurd (hroom m index) (not_lt.mpr hblocked)
      | _ => exact hblocked
    obtain ⟨c, s', husual, hstep⟩ := PoolSystem.exists_usualStep (h.reachable m) hstack hfree
    exact ⟨s', c, Choice.isExpected_of_isUsual husual, hstep⟩
  · obtain ⟨c, hstep⟩ := r.step m
    exact (hA.step hstep).imp_right fun h => ⟨h.1, h.2.1⟩
  · obtain ⟨c, hstep⟩ := r.step m
    exact (hA.step hstep).imp_right fun h => h.2.2 hparty

/-- A task in a lane comes to an end. -/
theorem eventually_hasEnded_of_lane (h : r.Serving) (hbodies : r.BodiesEnd)
    (hfair : ∀ own, Fair (.worker own)) {index : Fin cfg.maxNumThreads}
    (hitem : item ∈ ((r.state n).shared.pool.queues index).items) :
    Eventually (fun m => (r.state m).shared.pool.hasEnded item (fun _ => True)) n := by
  refine (h.eventually_taken hbodies (hfair index) hitem).trans fun m _ htaken => ?_
  rcases htaken with ⟨own, hstack⟩ | ⟨-, hremoved⟩
  · have hbottom : (r.state m).threads (.worker own) = [] ++ [_] := hstack
    exact h.eventually_hasEnded hbodies (hfair own) trivial (fun _ => trivial) hbottom rfl
  · exact .now ⟨.removedByRetire, trivial, hremoved⟩

end PoolRun.Serving

/-! ### Every registered task -/

/-- Who has a task with a pointer that is not over: a worker, an `enqueue` call, or a call that shuts the
pool down. -/
theorem Frame.holder {f : Frame workers Code} {item : TaggedTask Code} {stage : Stage}
    (hx : (item, stage) ∈ (f.poolWeight (custody workers Code)).1) (hcounted : stage.counted = true)
    (hpointer : item.tagState ≠ none) :
    (∃ own pc, f = .runWorker own pc ∧ pc.serves item fun _ => True) ∨
      (∃ pc, f = .enqueue pc ∧ pc.handles item) ∨ f.hasSetTerminate = true := by
  have hone : ∀ {item' : TaggedTask Code} {stage' : Stage}, (item, stage) ∈ (holding item' stage').1 →
      item' = item ∧ stage' = stage := by
    intro item' stage' hmem
    obtain ⟨rfl, rfl⟩ := Prod.ext_iff.mp (Multiset.mem_singleton.mp hmem)
    exact ⟨rfl, rfl⟩
  cases f with
  | runWorker own pc =>
    refine .inl ⟨own, pc, rfl, ?_⟩
    rcases pc with _ | _ | pc | _
    case tryGetTask =>
      cases pc with
      | popped item' => exact (hone hx).1
      | _ => exact absurd hx (Multiset.notMem_zero _)
    all_goals first
      | exact (hone hx).1
      | exact ⟨(hone hx).1, trivial⟩
      | exact absurd hx (Multiset.notMem_zero _)
  | enqueue pc =>
    refine .inr (.inl ⟨pc, rfl, ?_⟩)
    cases pc with
    | register index item' =>
      obtain ⟨rfl, -⟩ := hone hx
      exact absurd rfl hpointer
    | rethrow item' =>
      obtain ⟨-, rfl⟩ := hone hx
      cases hcounted
    | start | gate | notify => exact absurd hx (Multiset.notMem_zero _)
    | _ => exact (hone hx).1
  | retire tag pc => cases pc <;> exact absurd hx (Multiset.notMem_zero _)
  | finishAllThreads completePendingTasks pc =>
    refine .inr (.inr ?_)
    cases pc with
    | setTerminate => exact absurd hx (Multiset.notMem_zero _)
    | _ => rfl
  | abandonAllThreads pc =>
    refine .inr (.inr ?_)
    cases pc with
    | setTerminate => exact absurd hx (Multiset.notMem_zero _)
    | _ => rfl
  | _ => exact absurd hx (Multiset.notMem_zero _)

namespace PoolSystem

variable {s s' : PoolSystem cfg U clients}

theorem over_of_hasEnded (hreach : (poolSystem cfg U clients).Reachable s) {item : TaggedTask U.Code}
    {ends : Fate → Prop} {tag : ℕ} (hregistered : .registered item.id tag ∈ s.shared.pool.history.events)
    (hended : s.shared.pool.hasEnded item ends) : s.ledger.Over item.id := by
  obtain ⟨fate, -, hfinished⟩ := hended
  refine ⟨(Ledger.registrationKept (ledger_reachable hreach) _ _ hregistered).1, fun x hx hid => ?_⟩
  exact absurd hid (Ledger.not_held_of_finished (ledger_reachable hreach) hfinished x hx)

end PoolSystem

/-- A registered task is over at last. -/
theorem PoolRun.Serving.eventually_over {Fair : ThreadId cfg.maxNumThreads clients → Prop}
    {r : PoolRun cfg U clients Fair} (h : r.Serving) (hbodies : r.BodiesEnd) (hroom : r.HasRoom)
    (hfair : ∀ u, Fair u) {n id tag : ℕ}
    (hregistered : .registered id tag ∈ (r.state n).shared.pool.history.events) :
    Eventually (fun m => (r.state m).ledger.Over id) n := by
  have hkept : ∀ m, n ≤ m → .registered id tag ∈ (r.state m).shared.pool.history.events := by
    intro m hm
    induction m, hm using Nat.le_induction with
    | base => exact hregistered
    | succ m _ ih => exact PoolSystem.mem_events_step (r.system_step m) ih
  by_cases hover : (r.state n).ledger.Over id
  · exact .now hover
  have hledger := PoolSystem.ledger_reachable (h.reachable n)
  obtain ⟨hlt, hpointers⟩ := Ledger.registrationKept hledger id tag hregistered
  obtain ⟨⟨item, stage⟩, hx, rfl, hcounted⟩ : ∃ x ∈ (r.state n).ledger.held, x.1.id = id ∧ x.2.counted = true := by
    by_contra hnone
    exact hover ⟨hlt, fun x hx hid => Bool.eq_false_iff.mpr fun hcounted => hnone ⟨x, hx, hid, hcounted⟩⟩
  have hpointer := (hpointers _ hx rfl).1
  have hended : Eventually (fun m => (r.state m).shared.pool.hasEnded item fun _ => True) n := by
    rw [PoolSystem.ledger_held] at hx
    rcases Multiset.mem_add.mp hx with hx | hx
    · obtain ⟨t, f, hf, hmem⟩ := Threaded.mem_weight.mp hx
      rcases Frame.holder hmem hcounted hpointer with ⟨own, pc, rfl, hserves⟩ |
        ⟨pc, rfl, hhandles⟩ | hset
      · obtain rfl := PoolSystem.not_worker_of_ne (h.reachable n) hf
        obtain ⟨above, rest, hstack⟩ := List.append_of_mem hf
        obtain rfl := PoolSystem.rest_eq_nil_of_worker (h.reachable n) hstack
        exact h.eventually_hasEnded hbodies (hfair _) trivial (fun _ => trivial) hstack hserves
      · obtain ⟨rest, hstack⟩ := PoolSystem.enqueue_innermost (h.reachable n) hf
        refine (h.eventually_letGo hroom (hfair t) ⟨pc, hstack, hhandles⟩).trans fun m _ hletGo => ?_
        rcases hletGo with hended | ⟨index, hitem⟩
        · exact .now hended
        · exact h.eventually_hasEnded_of_lane hbodies (fun own => hfair _) hitem
      · have hterminate := PoolSystem.terminate_of_hasSetTerminate (h.reachable n) t f hf hset
        rw [h.terminate n] at hterminate
        cases hterminate
    · obtain ⟨index, item', hitem, heq⟩ := PoolState.mem_queuedTasks.mp hx
      cases heq
      exact h.eventually_hasEnded_of_lane hbodies (fun own => hfair _) hitem
  exact hended.mono fun m hm hended => PoolSystem.over_of_hasEnded (h.reachable m) (hkept m hm) hended

/-! ### The turns of `retire` -/

def RetirePc.turnsToWait (workers : ℕ) : RetirePc → ℕ
  | .start => workers + 4
  | .sweep _ i _ => workers - i + 3
  | .subtractQueued _ _ => 2
  | .subtractOutstanding _ _ => 1
  | .wait _ => 0

def RetirePc.waits : RetirePc → Prop
  | .wait _ => True
  | _ => False

theorem RetireMove.turnsToWait {t : ThreadId cfg.maxNumThreads clients}
    {s s' : PoolState cfg.maxNumThreads clients Code} {tag : ℕ} {pc : RetirePc}
    {after : List (Frame cfg.maxNumThreads Code)} (hmove : RetireMove cfg t s tag pc s' after) :
    after = [] ∨ ∃ pc', after = [.retire tag pc'] ∧
      (pc' = pc ∧ pc.waits ∨ pc'.turnsToWait cfg.maxNumThreads < pc.turnsToWait cfg.maxNumThreads) := by
  cases hmove with
  | noEntry => exact .inl rfl
  | setRetired => exact .inr ⟨_, rfl, .inr (by simp [RetirePc.turnsToWait])⟩
  | sweep => exact .inr ⟨_, rfl, .inr (by simp only [RetirePc.turnsToWait]; omega)⟩
  | swept => exact .inr ⟨_, rfl, .inr (by simp only [RetirePc.turnsToWait]; omega)⟩
  | subtractQueued => exact .inr ⟨_, rfl, .inr (Nat.lt_succ_self _)⟩
  | subtractOutstanding _ hwait =>
    cases hwait with
    | finish => exact .inl rfl
    | block => exact .inr ⟨_, rfl, .inr (Nat.lt_succ_self _)⟩
  | wait _ hwait =>
    cases hwait with
    | finish => exact .inl rfl
    | block => exact .inr ⟨_, rfl, .inl ⟨rfl, trivial⟩⟩
  | spurious => exact .inr ⟨_, rfl, .inl ⟨rfl, trivial⟩⟩

namespace PoolSystem

variable {s s' : PoolSystem cfg U clients} {t u : ThreadId cfg.maxNumThreads clients} {tag : ℕ} {pc : RetirePc}
  {rest : List (Frame cfg.maxNumThreads U.Code)}

def retirePc (s : PoolSystem cfg U clients) (u : ThreadId cfg.maxNumThreads clients) : Option RetirePc :=
  match s.threads u with
  | .retire _ pc :: _ => some pc
  | _ => none

def turnsToWait (s : PoolSystem cfg U clients) (u : ThreadId cfg.maxNumThreads clients) : ℕ :=
  ((s.retirePc u).map (RetirePc.turnsToWait cfg.maxNumThreads)).getD 0

theorem turnsToWait_eq (hstack : s.threads u = .retire tag pc :: rest) :
    s.turnsToWait u = pc.turnsToWait cfg.maxNumThreads := by
  simp [turnsToWait, retirePc, hstack]

theorem retire_step (hstack : s.threads u = .retire tag pc :: rest)
    {c : Choice cfg.maxNumThreads clients U.Input} (hstep : step cfg U t c s = some s') :
    s'.threads u = rest ∨ ∃ pc', s'.threads u = .retire tag pc' :: rest ∧
      (pc' = pc ∧ (t ≠ u ∨ pc.waits) ∨ s'.turnsToWait u < s.turnsToWait u) := by
  obtain ⟨-, after, hmove, hafter⟩ | ⟨ht, hstack'⟩ := innermost_step (g := .retire tag pc) hstep nofun hstack
  · have hretire : RetireMove cfg u s.shared.pool tag pc s'.shared.pool after := by
      generalize s'.shared = shared' at hmove ⊢
      cases hmove with
      | retire hmove => exact hmove
    rcases hretire.turnsToWait with rfl | ⟨pc', rfl, ⟨rfl, hwaits⟩ | hlt⟩
    · exact .inl hafter
    · exact .inr ⟨_, hafter, .inl ⟨rfl, .inr hwaits⟩⟩
    · exact .inr ⟨_, hafter, .inr (by rwa [turnsToWait_eq hstack, turnsToWait_eq hafter])⟩
  · exact .inr ⟨pc, hstack', .inl ⟨rfl, .inl ht⟩⟩

theorem retireWait_step {a : ℕ} (hstack : s.threads u = .retire tag (.wait a) :: rest)
    {c : Choice cfg.maxNumThreads clients U.Input} (hstep : step cfg U t c s = some s') :
    s'.threads u = rest ∨ s'.threads u = .retire tag (.wait a) :: rest := by
  refine (retire_step hstack hstep).imp_right fun ⟨pc', hstack', hturns⟩ => ?_
  rw [turnsToWait_eq hstack] at hturns
  obtain rfl := (hturns.resolve_right (Nat.not_lt_zero _)).1
  exact hstack'

theorem exists_retireWait {pool : PoolState cfg.maxNumThreads clients U.Code} {tagState : ℕ} {node : TagNode}
    (hnode : pool.tagNodes tagState = some node) (tag : ℕ) :
    ∃ x, retireWait t pool tag tagState = some x := by
  simp only [retireWait, hnode]
  split <;> exact ⟨_, rfl⟩

/-- `retire` goes on unless it is blocked in its wait. -/
theorem exists_retireTurn (hreach : (poolSystem cfg U clients).ReachableUnder OneRetirePerTag s)
    (hstack : s.threads u = .retire tag pc :: rest) (hpc : pc.waits → u ∉ s.shared.pool.tagStateChanged) :
    ∃ s', ExpectedTurn cfg U clients u s s' := by
  have hmarked : ∀ tagState k, (⟨tag, tagState, k⟩ : Retiring) ∈
      ((Frame.retire tag pc).poolWeight (custody cfg.maxNumThreads U.Code)).2 →
      ∃ node, s.shared.pool.tagNodes tagState = some node := by
    intro tagState k hmem
    obtain ⟨node, hnode, -⟩ := Ledger.markedAt_of_retiring (ledger_reachableUnder hreach) ⟨tag, tagState, k⟩
      (mem_retiring_of_frame (hstack ▸ List.mem_cons_self) hmem)
    exact ⟨node, hnode⟩
  obtain ⟨x, hx⟩ : ∃ x, retireStep cfg u (.go : Choice cfg.maxNumThreads clients U.Input) s.shared.pool tag pc =
      some x := by
    cases pc with
    | start =>
      cases hentry : s.shared.pool.tagStates tag with
      | none => exact ⟨_, by simp only [retireStep, hentry]; rfl⟩
      | some a =>
        obtain ⟨node, hnode⟩ := exists_node_of_entry hreach.reachable tag a hentry
        exact ⟨_, by simp only [retireStep, hentry, hnode]; rfl⟩
    | sweep tagState i removedCount =>
      simp only [retireStep]
      split <;> exact ⟨_, rfl⟩
    | subtractQueued => exact ⟨_, rfl⟩
    | subtractOutstanding tagState removedCount =>
      obtain ⟨node, hnode⟩ := hmarked tagState removedCount (Multiset.mem_singleton_self _)
      simp only [retireStep, hnode]
      exact exists_retireWait (Function.update_self _ _ _) tag
    | wait tagState =>
      obtain ⟨node, hnode⟩ := hmarked tagState 0 (Multiset.mem_singleton_self _)
      simp only [retireStep, if_neg (hpc trivial)]
      exact exists_retireWait hnode tag
  exact ⟨_, .go, rfl, step_eq_of_frameStep hstack (by simp only [frameStep, hx]; rfl)⟩

end PoolSystem

/-! ### The end of the wait -/

/-- The node of a `retire` that has subtracted what it removed counts no task when all registered tasks are
over. -/
theorem Ledger.outstandingTaskCount_eq_zero {l : Ledger workers Code}
    (hreach : (system workers Code).ReachableUnder OneRetirePerTag l) {tag a : ℕ}
    (hr : ⟨tag, a, 0⟩ ∈ l.retiring) (hover : ∀ id, .registered id tag ∈ l.history.events → l.Over id)
    {node : TagNode} (hnode : l.tagNodes a = some node) : node.outstandingTaskCount = 0 := by
  have hrefs : l.refs a = 0 := by
    refine Multiset.countP_eq_zero.mpr fun x hx ⟨hcounted, hitem⟩ => ?_
    have hregistered := registered_of_pointer hreach hr hx hcounted hitem
    rw [(hover _ hregistered).2 x hx rfl] at hcounted
    cases hcounted
  have hremoved : l.pendingRemoved a = 0 := by
    refine Multiset.sum_eq_zero fun k hk => ?_
    obtain ⟨r, hmem, rfl⟩ := Multiset.mem_map.mp hk
    split
    · rename_i hsame
      obtain ⟨others, hothers⟩ := Multiset.exists_cons_of_mem hr
      rcases Multiset.mem_cons.mp (hothers ▸ hmem) with rfl | hother
      · rfl
      · -- Another call at this node would be for the same tag.
        obtain ⟨node, hnode, htag, -⟩ := markedAt_of_retiring hreach _ hr
        obtain ⟨node', hnode', htag', -⟩ := markedAt_of_retiring hreach r hmem
        rw [hsame] at hnode'
        cases hnode.symm.trans hnode'
        have hone := hreach.keeps tag
        simp only [hothers, Multiset.countP_cons, if_true] at hone
        have hpos : 0 < others.countP fun r => r.tag = tag :=
          Multiset.countP_pos_of_mem hother (htag'.symm.trans htag)
        omega
    · rfl
  have houtstanding := outstanding_eq hreach.reachable a
  rw [outstanding_of_node hnode, hrefs, hremoved] at houtstanding
  simpa using houtstanding

namespace PoolSystem

variable {s s' : PoolSystem cfg U clients} {u : ThreadId cfg.maxNumThreads clients} {tag a : ℕ}
  {rest : List (Frame cfg.maxNumThreads U.Code)}

/-- Every task registered under the tag is over. -/
def AllOver (s : PoolSystem cfg U clients) (tag : ℕ) : Prop :=
  ∀ id, .registered id tag ∈ s.shared.pool.history.events → s.ledger.Over id

theorem not_isOpen (hreach : (poolSystem cfg U clients).ReachableUnder OneRetirePerTag s)
    (hstack : s.threads u = .retire tag (.wait a) :: rest) : ¬ s.shared.pool.IsOpen tag := by
  intro hopen
  have hledger := ledger_reachableUnder hreach
  have hmem : (⟨tag, a, 0⟩ : Retiring) ∈ s.ledger.retiring :=
    mem_retiring_of_frame (hstack ▸ List.mem_cons_self) (by simp)
  have hmarked := Ledger.markedAt_of_retiring hledger _ hmem
  obtain ⟨node, hnode, -, hretired⟩ := hmarked
  have hentry := (Ledger.indexed hledger.reachable tag a).mpr (Ledger.markedAt_of_retiring hledger _ hmem).nodeAt
  rw [hopen a node hentry hnode] at hretired
  cases hretired

theorem registered_of_step (hreach : (poolSystem cfg U clients).ReachableUnder OneRetirePerTag s)
    (hstack : s.threads u = .retire tag (.wait a) :: rest) (hstep : (poolSystem cfg U clients).Step s s')
    {id : ℕ} (hregistered : .registered id tag ∈ s'.shared.pool.history.events) :
    .registered id tag ∈ s.shared.pool.history.events :=
  ((registers_step hstep).mem hregistered).resolve_left (not_isOpen hreach hstack)

theorem AllOver.step (hreach : (poolSystem cfg U clients).ReachableUnder OneRetirePerTag s)
    (hstack : s.threads u = .retire tag (.wait a) :: rest) (h : s.AllOver tag)
    (hstep : (poolSystem cfg U clients).Step s s') : s'.AllOver tag := fun id hregistered =>
  (over_steps (.single hstep) (h id (registered_of_step hreach hstack hstep hregistered))).1

theorem outstandingTaskCount_eq_zero (hreach : (poolSystem cfg U clients).ReachableUnder OneRetirePerTag s)
    (hstack : s.threads u = .retire tag (.wait a) :: rest) (hover : s.AllOver tag) {node : TagNode}
    (hnode : s.shared.pool.tagNodes a = some node) : node.outstandingTaskCount = 0 :=
  Ledger.outstandingTaskCount_eq_zero (ledger_reachableUnder hreach)
    (mem_retiring_of_frame (hstack ▸ List.mem_cons_self) (by simp)) hover hnode

theorem awake_of_allOver (hreach : (poolSystem cfg U clients).ReachableUnder OneRetirePerTag s)
    (hstack : s.threads u = .retire tag (.wait a) :: rest) (hover : s.AllOver tag) :
    u ∉ s.shared.pool.tagStateChanged := by
  intro hblocked
  obtain ⟨tag', a', rest', hstack', node, hnode, hcount⟩ := retireWaits hreach u hblocked
  cases hstack'.symm.trans hstack
  exact hcount (outstandingTaskCount_eq_zero hreach hstack hover hnode)

theorem returns_of_allOver (hreach : (poolSystem cfg U clients).ReachableUnder OneRetirePerTag s)
    (hstack : s.threads u = .retire tag (.wait a) :: rest) (hover : s.AllOver tag)
    {c : Choice cfg.maxNumThreads clients U.Input} (hstep : step cfg U u c s = some s') :
    s'.threads u = rest := by
  obtain ⟨shared, after, hmove, rfl⟩ := step_eq_some_of_frame hstack (by simp) hstep
  cases hmove with
  | retire hmove =>
    cases hmove with
    | wait _ hwait =>
      cases hwait with
      | finish => simp
      | block hnode hzero => exact absurd (outstandingTaskCount_eq_zero hreach hstack hover hnode) hzero
    | spurious hblocked => exact absurd hblocked (awake_of_allOver hreach hstack hover)

end PoolSystem

/-! ### The run -/

/-- No two `retire` calls for one tag are in progress at a time. -/
structure PoolRun.RetiresApart {Fair : ThreadId cfg.maxNumThreads clients → Prop}
    (r : PoolRun cfg U clients Fair) : Prop where
  reachable_zero : (poolSystem cfg U clients).ReachableUnder PoolSystem.OneRetirePerTag (r.state 0)
  one (n : ℕ) : (r.state n).OneRetirePerTag

theorem PoolRun.RetiresApart.reachable {Fair : ThreadId cfg.maxNumThreads clients → Prop}
    {r : PoolRun cfg U clients Fair} (h : r.RetiresApart) (n : ℕ) :
    (poolSystem cfg U clients).ReachableUnder PoolSystem.OneRetirePerTag (r.state n) := by
  induction n with
  | zero => exact h.reachable_zero
  | succ n ih => exact ih.step (r.system_step n) (h.one (n + 1))

section Run

variable {Fair : ThreadId cfg.maxNumThreads clients → Prop} {r : PoolRun cfg U clients Fair} {n tag : ℕ}
  {u : ThreadId cfg.maxNumThreads clients} {rest : List (Frame cfg.maxNumThreads U.Code)}

theorem PoolRun.RetiresApart.eventually_waits (h : r.RetiresApart) (hfair : Fair u) {pc : RetirePc}
    (hstack : (r.state n).threads u = .retire tag pc :: rest) :
    Eventually (fun m => (r.state m).threads u = rest ∨
      ∃ a, (r.state m).threads u = .retire tag (.wait a) :: rest) n := by
  by_cases hwaits : pc.waits
  · cases pc with
    | wait a => exact .now (.inr ⟨a, hstack⟩)
    | _ => exact hwaits.elim
  have hmoved : ∀ m, (∃ pc, (r.state m).threads u = .retire tag pc :: rest ∧ ¬ pc.waits) →
      ((r.state (m + 1)).threads u = rest ∨ ∃ a, (r.state (m + 1)).threads u = .retire tag (.wait a) :: rest) ∨
        (∃ pc, (r.state (m + 1)).threads u = .retire tag pc :: rest ∧ ¬ pc.waits) ∧
          ((r.state (m + 1)).turnsToWait u < (r.state m).turnsToWait u ∨ r.party m ≠ u ∧
            (r.state (m + 1)).turnsToWait u = (r.state m).turnsToWait u) := by
    rintro m ⟨pc, hstack, hpc⟩
    obtain ⟨c, hstep⟩ := r.step m
    obtain hreturned | ⟨pc', hstack', hturns⟩ := PoolSystem.retire_step hstack hstep
    · exact .inl (.inl hreturned)
    by_cases hpc' : pc'.waits
    · cases pc' with
      | wait a => exact .inl (.inr ⟨a, hstack'⟩)
      | _ => exact hpc'.elim
    refine .inr ⟨⟨pc', hstack', hpc'⟩, ?_⟩
    obtain ⟨rfl, hsame⟩ | hlt := hturns
    · refine .inr ⟨hsame.resolve_right hpc, ?_⟩
      rw [PoolSystem.turnsToWait_eq hstack, PoolSystem.turnsToWait_eq hstack']
    · exact .inl hlt
  refine r.eventually_of_rank (t := u) (fun m => (r.state m).turnsToWait u)
    (A := fun m => ∃ pc, (r.state m).threads u = .retire tag pc :: rest ∧ ¬ pc.waits) (fun _ => True) hfair
    (fun m hA _ => ?_) (fun m _ => .now (.inr trivial)) (fun m _ _ _ => .inr trivial) (fun m hA => ?_)
    (fun m hA _ hparty => ?_) n ⟨pc, hstack, hwaits⟩
  · obtain ⟨pc, hstack, hpc⟩ := hA
    exact PoolSystem.exists_retireTurn (h.reachable m) hstack fun hwaits => absurd hwaits hpc
  · refine (hmoved m hA).imp_right fun ⟨hA', hturns⟩ => ⟨hA', ?_⟩
    rcases hturns with hlt | ⟨-, hsame⟩
    · exact hlt.le
    · exact hsame.le
  · exact (hmoved m hA).imp_right fun h => h.2.resolve_right fun hother => hother.1 hparty

/-- A `retire` that waits returns before the last task of its tag is over, or all of them are over at last. -/
theorem PoolRun.Serving.eventually_allOver (h : r.Serving) (hbodies : r.BodiesEnd) (hroom : r.HasRoom)
    (hapart : r.RetiresApart) (hfair : ∀ u, Fair u) {a : ℕ}
    (hstack : (r.state n).threads u = .retire tag (.wait a) :: rest) :
    Eventually (fun m => (r.state m).threads u = rest ∨ (r.state m).AllOver tag) n := by
  -- No task is registered under the tag until the call returns.
  let Waiting := fun m => (r.state m).threads u = .retire tag (.wait a) :: rest ∧
    ∀ id, .registered id tag ∈ (r.state m).shared.pool.history.events →
      .registered id tag ∈ (r.state n).shared.pool.history.events
  have hkept : ∀ m, Waiting m → (r.state (m + 1)).threads u = rest ∨ Waiting (m + 1) := by
    rintro m ⟨hstack, hregistered⟩
    obtain ⟨c, hstep⟩ := r.step m
    refine (PoolSystem.retireWait_step hstack hstep).imp_right fun hstack' => ⟨hstack', fun id hmem => ?_⟩
    exact hregistered id (PoolSystem.registered_of_step (hapart.reachable m) hstack ⟨_, c, hstep⟩ hmem)
  have hover : Eventually (fun m => ∀ id ∈ List.range (r.state n).shared.pool.history.nextTaskId,
      .registered id tag ∈ (r.state n).shared.pool.history.events → (r.state m).ledger.Over id) n := by
    refine Eventually.all (fun id m hover hmem => (PoolSystem.over_steps (.single (r.system_step m)) (hover hmem)).1)
      fun id _ => ?_
    by_cases hmem : .registered id tag ∈ (r.state n).shared.pool.history.events
    · exact (h.eventually_over hbodies hroom hfair hmem).mono fun m _ hover _ => hover
    · exact .now fun hmem' => absurd hmem' hmem
  obtain ⟨m, hm, hover⟩ := hover
  have hnow : Waiting n := ⟨hstack, fun _ hmem => hmem⟩
  rcases Eventually.or_kept (Q := fun m => (r.state m).threads u = rest) hkept hm hnow with
    hreturned | ⟨-, hregistered⟩
  · exact hreturned.mono fun k _ hk => .inl hk
  · refine ⟨m, hm, .inr fun id hmem => ?_⟩
    have hold := hregistered id hmem
    have hlt := (Ledger.registrationKept (PoolSystem.ledger_reachable (h.reachable n)) id tag hold).1
    exact hover id (List.mem_range.mpr hlt) hold

end Run

/-- In every run that is fair to all threads, with no shutdown, no full lane and bodies that end, and with one
`retire` at a time for a tag, `retire` returns at last. -/
theorem retire_returns {Fair : ThreadId cfg.maxNumThreads clients → Prop} {r : PoolRun cfg U clients Fair}
    (hserving : r.Serving) (hbodies : r.BodiesEnd) (hroom : r.HasRoom) (hapart : r.RetiresApart)
    (hfair : ∀ u, Fair u) {n tag : ℕ} {u : ThreadId cfg.maxNumThreads clients}
    {rest : List (Frame cfg.maxNumThreads U.Code)} {pc : RetirePc}
    (hstack : (r.state n).threads u = .retire tag pc :: rest) :
    Eventually (fun m => (r.state m).threads u = rest) n := by
  refine (hapart.eventually_waits (hfair u) hstack).trans fun m _ hwaits => ?_
  rcases hwaits with hreturned | ⟨a, hstack⟩
  · exact .now hreturned
  refine r.eventually_of_rank (t := u) (fun _ => 0)
    (A := fun m => (r.state m).threads u = .retire tag (.wait a) :: rest) (fun m => (r.state m).AllOver tag)
    (hfair u) (fun m hA hover => ?_) (fun m hA => ?_) (fun m hA hover _ => ?_) (fun m hA => ?_)
    (fun m hA hover hparty => ?_) m hstack
  · exact PoolSystem.exists_retireTurn (hapart.reachable m) hA fun _ =>
      PoolSystem.awake_of_allOver (hapart.reachable m) hA hover
  · exact hserving.eventually_allOver hbodies hroom hapart hfair hA
  · exact .inr (hover.step (hapart.reachable m) hA (r.system_step m))
  · obtain ⟨c, hstep⟩ := r.step m
    exact (PoolSystem.retireWait_step hA hstep).imp_right fun hstack' => ⟨hstack', le_rfl⟩
  · obtain ⟨c, hstep⟩ := r.step m
    exact .inl (PoolSystem.returns_of_allOver (hapart.reachable m) hA hover (hparty ▸ hstep))

/-! ### A run -/

/-- At most one `retire` is in progress and at most one task is queued. -/
def retireCheck (s : PoolSystem oneWorker scriptCode 0) : Bool :=
  decide (s.count (anyRetire _ _) ≤ 1) && decide ((s.shared.pool.queues (Fin.last 0)).items.length ≤ 1)

theorem oneRetirePerTag_of_retireCheck {s : PoolSystem oneWorker scriptCode 0} (h : retireCheck s = true) :
    s.OneRetirePerTag :=
  PoolSystem.oneRetirePerTag_of_one (Bool.and_eq_true_iff.mp h).1

/-- The worker is in a task when the owner retires its tag. -/
def retireBegins : Option (PoolSystem oneWorker scriptCode 0) :=
  scriptRunUnder oneWorker 0 retireCheck (fun _ => .call (.enqueue .ret 5) (.call (.retire 5) .ret))
    ([(.owner, .input ()), (.owner, .go), (.owner, .address 7)] ++ List.replicate 4 (.owner, .go) ++
      List.replicate 6 (soleWorker, .go) ++ [(.owner, .input ())])

/-- The owner waits for the worker, and then it returns. -/
def endRetire : List (ThreadId 1 0 × Choice 1 0 Unit) :=
  List.replicate 5 (.owner, .go) ++ (soleWorker, .input ()) :: List.replicate 3 (soleWorker, .go) ++
    [(.owner, .go), (.owner, .go), (.owner, .input ())]

theorem retireBegins_ends : ∃ s s', retireBegins = some s ∧
    s.threads .owner = [.retire 5 .start, .calling fun _ => .ret] ∧
    execUnder oneWorker scriptCode retireCheck s endRetire = some s' ∧ s'.Idles (Fin.last 0) ∧
    s'.threads .owner = [] :=
  ⟨_, _, rfl, rfl, rfl, ⟨⟨_, rfl, rfl⟩, rfl, rfl, rfl⟩, rfl⟩

theorem retire_returns_taskRunning :
    ∃ r : PoolRun oneWorker scriptCode 0 fun _ => True,
      (r.state 0).threads .owner = [.retire 5 .start, .calling fun _ => .ret] ∧
      Eventually (fun m => (r.state m).threads .owner = [.calling fun _ => .ret]) 0 := by
  obtain ⟨s, s', hs, hstack, hexec, hidles, howner⟩ := retireBegins_ends
  obtain ⟨idle, hidle, hforever⟩ := hidles.exists_forever (PoolSystem.threads_of_ne_soleWorker howner)
  have hquiet : ∀ n, retireCheck (idle.state n) = true := by
    intro n
    obtain ⟨hidles, hothers⟩ := hforever n
    obtain ⟨pc, hloop, -⟩ := hidles.stack
    have hnone : (idle.state n).count (anyRetire _ _) = 0 := by
      refine Threaded.weight_eq_zero.mpr fun t f hf => ?_
      by_cases ht : t = soleWorker
      · subst ht
        obtain rfl := List.mem_singleton.mp (hloop ▸ hf)
        rfl
      · exact absurd (hothers t ht ▸ hf) List.not_mem_nil
    have hempty : ((idle.state n).shared.pool.queues (Fin.last 0)).items.length ≤ 1 := by
      rw [hidles.lane]
      exact Nat.zero_le 1
    exact Bool.and_eq_true_iff.mpr ⟨decide_eq_true (hnone.le.trans zero_le_one), decide_eq_true hempty⟩
  obtain ⟨r, hr, hlater, hcheck⟩ := PoolRun.exists_prependUnder idle (hidle ▸ hexec) hquiet
  have hreach := scriptRunUnder_reachable (fun _ => oneRetirePerTag_of_retireCheck) hs
  have hapart : r.RetiresApart := ⟨hr ▸ hreach, fun n => oneRetirePerTag_of_retireCheck (hcheck n)⟩
  have hroom : r.HasRoom := fun n index => by
    obtain rfl : index = Fin.last 0 := Subsingleton.elim (α := Fin 1) _ _
    have hlength := of_decide_eq_true (Bool.and_eq_true_iff.mp (hcheck n)).2
    exact hlength.trans_lt (by decide)
  have hidles : ∀ n own, Eventually (fun m => (r.state m).Idles own) n := by
    intro n own
    obtain rfl : own = Fin.last 0 := Subsingleton.elim (α := Fin 1) _ _
    have hidle : (r.state (n + endRetire.length)).Idles (Fin.last 0) := hlater n ▸ (hforever n).1
    exact ⟨n + endRetire.length, Nat.le_add_right _ _, hidle⟩
  have hserving : r.Serving := PoolRun.serving_of_idles (hr ▸ hreach.reachable) fun n => hidles n (Fin.last 0)
  have hbodies : r.BodiesEnd := PoolRun.bodiesEnd_of_idles hidles
  rw [← hr] at hstack
  exact ⟨r, hstack, retire_returns hserving hbodies hroom hapart (fun _ => trivial) hstack⟩

end CppUtils
