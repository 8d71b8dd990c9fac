import CppUtils.ThreadPool.Frames

/-!
# `State::tryGetTask` and `State::runWorker`

`idleCv.wait_for` evaluates its predicate under `idleMutex` and blocks in the same critical
section. A thread whose wait ended evaluates it again, except after a timeout, where the wait is
over whatever the predicate says.
-/

namespace CppUtils

variable {clients : ℕ} {Code Input : Type} {cfg : PoolConfig}

def tryGetTaskStep (cfg : PoolConfig) (s : PoolState cfg.maxNumThreads clients Code)
    (own : Fin cfg.maxNumThreads) (pc : TryGetTaskPc Code) :
    PoolState cfg.maxNumThreads clients Code × RunWorkerPc Code :=
  match pc with
  | .own =>
    match s.tryPop own with
    | some (item, s') => (s', .tryGetTask (.popped item))
    | none => (s, .tryGetTask .checkQueued)
  | .checkQueued => if s.queuedCount = 0 then (s, .enterIdle) else (s, .tryGetTask (.steal 1))
  | .steal offset =>
    if offset < cfg.maxNumThreads then
      match s.tryPop (cfg.lane (own.val + offset)) with
      | some (item, s') => (s', .tryGetTask (.popped item))
      | none => (s, .tryGetTask (.steal (offset + 1)))
    else (s, .enterIdle)
  | .popped item => (s.addQueued (-1), .taggedTaskCanRun item)

/-- The predicate of the idle wait, evaluated under `idleMutex`. -/
def idlePredicateStep (t : ThreadId cfg.maxNumThreads clients)
    (s : PoolState cfg.maxNumThreads clients Code) :
    PoolState cfg.maxNumThreads clients Code × RunWorkerPc Code :=
  if s.terminate = true ∨ s.queuedCount ≠ 0 then (s, .leaveIdle)
  else (s.setIdleCv (insert t s.idleCv), .idleWait)

def runWorkerStep (cfg : PoolConfig) (t : ThreadId cfg.maxNumThreads clients)
    (c : Choice cfg.maxNumThreads clients Input) (s : PoolState cfg.maxNumThreads clients Code)
    (own : Fin cfg.maxNumThreads) (pc : RunWorkerPc Code) :
    Option (PoolState cfg.maxNumThreads clients Code × List (Frame cfg.maxNumThreads Code)) :=
  match pc with
  | .starting => some (s.countStarted, [.runWorker own .loopHead])
  | .loopHead =>
    if s.terminate = true then some (s.exit own, [])
    else some (s, [.runWorker own (.tryGetTask .own)])
  | .tryGetTask pc =>
    some ((tryGetTaskStep cfg s own pc).1, [.runWorker own (tryGetTaskStep cfg s own pc).2])
  | .taggedTaskCanRun item =>
    match s.taggedTaskCanRun item.tagState with
    | none => none
    | some true => some (s, [.runWorker own (.begin item)])
    | some false => some (s, [.runWorker own (.completeTaggedTask item .skipped)])
  | .begin item =>
    some (s.setHistory (s.history.beginBody item (some own)),
      [item.task.frame, .runWorker own (.running item)])
  | .running item => some (s, [.runWorker own (.completeTaggedTask item .ran)])
  | .completeTaggedTask item fate =>
    match s.completeTaggedTask item.tagState with
    | none => none
    | some s' => some (s', [.runWorker own (.scopeEnd item fate)])
  | .scopeEnd item fate =>
    some (s.setHistory (s.history.finish item fate), [.runWorker own .loopHead])
  | .enterIdle => some (s.addIdle 1, [.runWorker own .idlePredicate])
  | .idlePredicate => some ((idlePredicateStep t s).1, [.runWorker own (idlePredicateStep t s).2])
  | .idleWait =>
    match c with
    | .go =>
      if t ∈ s.idleCv then none
      else some ((idlePredicateStep t s).1, [.runWorker own (idlePredicateStep t s).2])
    | .spurious =>
      if t ∈ s.idleCv then some (s.setIdleCv (s.idleCv.erase t), [.runWorker own .idleWait])
      else none
    | .timeout => some (s.setIdleCv (s.idleCv.erase t), [.runWorker own .leaveIdle])
    | _ => none
  | .leaveIdle => some (s.addIdle (-1), [.runWorker own .loopHead])

inductive TryGetTaskMove (cfg : PoolConfig) (s : PoolState cfg.maxNumThreads clients Code)
    (own : Fin cfg.maxNumThreads) : TryGetTaskPc Code →
      PoolState cfg.maxNumThreads clients Code × RunWorkerPc Code → Prop
  | popOwn {item s'} (hpop : s.tryPop own = some (item, s')) :
      TryGetTaskMove cfg s own .own (s', .tryGetTask (.popped item))
  | ownEmpty (hpop : s.tryPop own = none) :
      TryGetTaskMove cfg s own .own (s, .tryGetTask .checkQueued)
  | nothingQueued (hqueued : s.queuedCount = 0) :
      TryGetTaskMove cfg s own .checkQueued (s, .enterIdle)
  | startStealing (hqueued : ¬ s.queuedCount = 0) :
      TryGetTaskMove cfg s own .checkQueued (s, .tryGetTask (.steal 1))
  | steal {offset item s'} (hoffset : offset < cfg.maxNumThreads)
      (hpop : s.tryPop (cfg.lane (own.val + offset)) = some (item, s')) :
      TryGetTaskMove cfg s own (.steal offset) (s', .tryGetTask (.popped item))
  | victimEmpty {offset} (hoffset : offset < cfg.maxNumThreads)
      (hpop : s.tryPop (cfg.lane (own.val + offset)) = none) :
      TryGetTaskMove cfg s own (.steal offset) (s, .tryGetTask (.steal (offset + 1)))
  | nothingStolen {offset} (hoffset : ¬ offset < cfg.maxNumThreads) :
      TryGetTaskMove cfg s own (.steal offset) (s, .enterIdle)
  | popped {item} :
      TryGetTaskMove cfg s own (.popped item) (s.addQueued (-1), .taggedTaskCanRun item)

theorem tryGetTaskStep_move (s : PoolState cfg.maxNumThreads clients Code)
    (own : Fin cfg.maxNumThreads) (pc : TryGetTaskPc Code) :
    TryGetTaskMove cfg s own pc (tryGetTaskStep cfg s own pc) := by
  fun_cases tryGetTaskStep cfg s own pc
  all_goals constructor <;> assumption

inductive RunWorkerMove (cfg : PoolConfig) (t : ThreadId cfg.maxNumThreads clients)
    (s : PoolState cfg.maxNumThreads clients Code) (own : Fin cfg.maxNumThreads) :
    RunWorkerPc Code → PoolState cfg.maxNumThreads clients Code →
      List (Frame cfg.maxNumThreads Code) → Prop
  | started : RunWorkerMove cfg t s own .starting s.countStarted [.runWorker own .loopHead]
  | exit (hterminate : s.terminate = true) : RunWorkerMove cfg t s own .loopHead (s.exit own) []
  | enter (hterminate : ¬ s.terminate = true) :
      RunWorkerMove cfg t s own .loopHead s [.runWorker own (.tryGetTask .own)]
  | tryGetTask {pc r} (hmove : TryGetTaskMove cfg s own pc r) :
      RunWorkerMove cfg t s own (.tryGetTask pc) r.1 [.runWorker own r.2]
  | canRun {item} (hrun : s.taggedTaskCanRun item.tagState = some true) :
      RunWorkerMove cfg t s own (.taggedTaskCanRun item) s [.runWorker own (.begin item)]
  | skip {item} (hrun : s.taggedTaskCanRun item.tagState = some false) :
      RunWorkerMove cfg t s own (.taggedTaskCanRun item) s
        [.runWorker own (.completeTaggedTask item .skipped)]
  | begin {item} :
      RunWorkerMove cfg t s own (.begin item) (s.setHistory (s.history.beginBody item (some own)))
        [item.task.frame, .runWorker own (.running item)]
  | ran {item} :
      RunWorkerMove cfg t s own (.running item) s [.runWorker own (.completeTaggedTask item .ran)]
  | complete {item fate s'} (hcomplete : s.completeTaggedTask item.tagState = some s') :
      RunWorkerMove cfg t s own (.completeTaggedTask item fate) s'
        [.runWorker own (.scopeEnd item fate)]
  | scopeEnd {item fate} :
      RunWorkerMove cfg t s own (.scopeEnd item fate) (s.setHistory (s.history.finish item fate))
        [.runWorker own .loopHead]
  | enterIdle :
      RunWorkerMove cfg t s own .enterIdle (s.addIdle 1) [.runWorker own .idlePredicate]
  | pass {pc} (hpc : pc = .idlePredicate ∨ pc = .idleWait ∧ t ∉ s.idleCv)
      (hpred : s.terminate = true ∨ s.queuedCount ≠ 0) :
      RunWorkerMove cfg t s own pc s [.runWorker own .leaveIdle]
  | block {pc} (hpc : pc = .idlePredicate ∨ pc = .idleWait ∧ t ∉ s.idleCv)
      (hpred : ¬ (s.terminate = true ∨ s.queuedCount ≠ 0)) :
      RunWorkerMove cfg t s own pc (s.setIdleCv (insert t s.idleCv)) [.runWorker own .idleWait]
  | spurious (hblocked : t ∈ s.idleCv) :
      RunWorkerMove cfg t s own .idleWait (s.setIdleCv (s.idleCv.erase t))
        [.runWorker own .idleWait]
  | timeout :
      RunWorkerMove cfg t s own .idleWait (s.setIdleCv (s.idleCv.erase t))
        [.runWorker own .leaveIdle]
  | leaveIdle :
      RunWorkerMove cfg t s own .leaveIdle (s.addIdle (-1)) [.runWorker own .loopHead]

private theorem idlePredicateStep_move {t : ThreadId cfg.maxNumThreads clients}
    {s : PoolState cfg.maxNumThreads clients Code} {own : Fin cfg.maxNumThreads}
    {pc : RunWorkerPc Code} (hpc : pc = .idlePredicate ∨ pc = .idleWait ∧ t ∉ s.idleCv) :
    RunWorkerMove cfg t s own pc (idlePredicateStep t s).1
      [.runWorker own (idlePredicateStep t s).2] := by
  unfold idlePredicateStep
  split
  · exact .pass hpc ‹_›
  · exact .block hpc ‹_›

theorem runWorkerStep_move {t : ThreadId cfg.maxNumThreads clients}
    {c : Choice cfg.maxNumThreads clients Input} {s s' : PoolState cfg.maxNumThreads clients Code}
    {own : Fin cfg.maxNumThreads} {pc : RunWorkerPc Code}
    {after : List (Frame cfg.maxNumThreads Code)}
    (h : runWorkerStep cfg t c s own pc = some (s', after)) :
    RunWorkerMove cfg t s own pc s' after := by
  revert h
  fun_cases runWorkerStep cfg t c s own pc
  all_goals intro h
  all_goals simp only [reduceCtorEq, Option.some.injEq, Prod.mk.injEq] at h
  all_goals obtain ⟨rfl, rfl⟩ := h
  all_goals first
    | exact .tryGetTask (tryGetTaskStep_move s own _)
    | exact idlePredicateStep_move (.inl rfl)
    | exact idlePredicateStep_move (.inr ⟨rfl, ‹_›⟩)
    | (constructor <;> assumption)

end CppUtils
