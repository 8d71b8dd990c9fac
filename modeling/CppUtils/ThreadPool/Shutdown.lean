import CppUtils.ThreadPool.Frames

/-!
# `finishAllThreads` and `abandonAllThreads`

Both begin with `requestWorkersStop`. `finishAllThreads` keeps one `TaggedTask` over the whole
drain, so a task that it ran lives until the next pop overwrites it; `abandonAllThreads` has one for
each lane.
-/

namespace CppUtils

variable {clients : ℕ} {Code Input : Type} {cfg : PoolConfig}

/-- `finishAllThreads` after the workers are gone: return, or drain. -/
def afterJoin (workers : ℕ) (Code : Type) (completePendingTasks : Bool) :
    List (Frame workers Code) :=
  if completePendingTasks = true then
    [.finishAllThreads completePendingTasks (.drain false 0 none)]
  else []

def finishStep (cfg : PoolConfig) (s : PoolState cfg.maxNumThreads clients Code)
    (completePendingTasks : Bool) (pc : FinishPc cfg.maxNumThreads Code) :
    Option (PoolState cfg.maxNumThreads clients Code × List (Frame cfg.maxNumThreads Code)) :=
  match pc with
  | .setTerminate => some (s.requestStop, [.finishAllThreads completePendingTasks .notifyAll])
  | .notifyAll =>
    if s.workerThreads = [] then
      some (s.setIdleCv ∅, afterJoin cfg.maxNumThreads Code completePendingTasks)
    else some (s.setIdleCv ∅, [.finishAllThreads completePendingTasks (.join s.workerThreads)])
  | .join [] => some (s.clearWorkerThreads, [.finishAllThreads completePendingTasks .assertIdle])
  | .join (worker :: rest) =>
    if worker ∈ s.exited then some (s, [.finishAllThreads completePendingTasks (.join rest)])
    else none
  | .assertIdle => some (s, afterJoin cfg.maxNumThreads Code completePendingTasks)
  | .drain drainedAny i item =>
    if h : i < cfg.maxNumThreads then
      match s.tryPop ⟨i, h⟩ with
      | some (item', s') =>
        some (s'.setHistory (s'.history.finishLocal item),
          [.finishAllThreads completePendingTasks (.decrement i item')])
      | none => some (s, [.finishAllThreads completePendingTasks (.drain drainedAny (i + 1) item)])
    else if drainedAny = true then
      some (s, [.finishAllThreads completePendingTasks (.drain false 0 item)])
    else some (s, [.finishAllThreads completePendingTasks (.assertQueued item)])
  | .decrement i item =>
    some (s.addQueued (-1), [.finishAllThreads completePendingTasks (.taggedTaskCanRun i item)])
  | .taggedTaskCanRun i item =>
    match s.taggedTaskCanRun item.tagState with
    | none => none
    | some true => some (s, [.finishAllThreads completePendingTasks (.begin i item)])
    | some false =>
      some (s, [.finishAllThreads completePendingTasks (.completeTaggedTask i item .skipped)])
  | .begin i item =>
    some (s.setHistory (s.history.beginBody item none),
      [item.task.frame, .finishAllThreads completePendingTasks (.running i item)])
  | .running i item =>
    some (s, [.finishAllThreads completePendingTasks (.completeTaggedTask i item .ran)])
  | .completeTaggedTask i item fate =>
    match s.completeTaggedTask item.tagState with
    | none => none
    | some s' =>
      some (s', [.finishAllThreads completePendingTasks (.drain true i (some (item, fate)))])
  | .assertQueued item => some (s.setHistory (s.history.finishLocal item), [])

inductive FinishMove (cfg : PoolConfig) (s : PoolState cfg.maxNumThreads clients Code)
    (completePendingTasks : Bool) : FinishPc cfg.maxNumThreads Code →
      PoolState cfg.maxNumThreads clients Code → List (Frame cfg.maxNumThreads Code) → Prop
  | setTerminate :
      FinishMove cfg s completePendingTasks .setTerminate s.requestStop
        [.finishAllThreads completePendingTasks .notifyAll]
  | notifyAllJoined (hworkers : s.workerThreads = []) :
      FinishMove cfg s completePendingTasks .notifyAll (s.setIdleCv ∅)
        (afterJoin cfg.maxNumThreads Code completePendingTasks)
  | notifyAll (hworkers : ¬ s.workerThreads = []) :
      FinishMove cfg s completePendingTasks .notifyAll (s.setIdleCv ∅)
        [.finishAllThreads completePendingTasks (.join s.workerThreads)]
  | joinedAll :
      FinishMove cfg s completePendingTasks (.join []) s.clearWorkerThreads
        [.finishAllThreads completePendingTasks .assertIdle]
  | join {worker rest} (hexited : worker ∈ s.exited) :
      FinishMove cfg s completePendingTasks (.join (worker :: rest)) s
        [.finishAllThreads completePendingTasks (.join rest)]
  | assertIdle :
      FinishMove cfg s completePendingTasks .assertIdle s
        (afterJoin cfg.maxNumThreads Code completePendingTasks)
  | pop {drainedAny i item item' s'} (h : i < cfg.maxNumThreads)
      (hpop : s.tryPop ⟨i, h⟩ = some (item', s')) :
      FinishMove cfg s completePendingTasks (.drain drainedAny i item)
        (s'.setHistory (s'.history.finishLocal item))
        [.finishAllThreads completePendingTasks (.decrement i item')]
  | laneEmpty {drainedAny i item} (h : i < cfg.maxNumThreads) (hpop : s.tryPop ⟨i, h⟩ = none) :
      FinishMove cfg s completePendingTasks (.drain drainedAny i item) s
        [.finishAllThreads completePendingTasks (.drain drainedAny (i + 1) item)]
  | nextPass {drainedAny i item} (h : ¬ i < cfg.maxNumThreads) (hany : drainedAny = true) :
      FinishMove cfg s completePendingTasks (.drain drainedAny i item) s
        [.finishAllThreads completePendingTasks (.drain false 0 item)]
  | drained {drainedAny i item} (h : ¬ i < cfg.maxNumThreads) (hany : ¬ drainedAny = true) :
      FinishMove cfg s completePendingTasks (.drain drainedAny i item) s
        [.finishAllThreads completePendingTasks (.assertQueued item)]
  | decrement {i item} :
      FinishMove cfg s completePendingTasks (.decrement i item) (s.addQueued (-1))
        [.finishAllThreads completePendingTasks (.taggedTaskCanRun i item)]
  | canRun {i item} (hrun : s.taggedTaskCanRun item.tagState = some true) :
      FinishMove cfg s completePendingTasks (.taggedTaskCanRun i item) s
        [.finishAllThreads completePendingTasks (.begin i item)]
  | skip {i item} (hrun : s.taggedTaskCanRun item.tagState = some false) :
      FinishMove cfg s completePendingTasks (.taggedTaskCanRun i item) s
        [.finishAllThreads completePendingTasks (.completeTaggedTask i item .skipped)]
  | begin {i item} :
      FinishMove cfg s completePendingTasks (.begin i item)
        (s.setHistory (s.history.beginBody item none))
        [item.task.frame, .finishAllThreads completePendingTasks (.running i item)]
  | ran {i item} :
      FinishMove cfg s completePendingTasks (.running i item) s
        [.finishAllThreads completePendingTasks (.completeTaggedTask i item .ran)]
  | complete {i item fate s'} (hcomplete : s.completeTaggedTask item.tagState = some s') :
      FinishMove cfg s completePendingTasks (.completeTaggedTask i item fate) s'
        [.finishAllThreads completePendingTasks (.drain true i (some (item, fate)))]
  | assertQueued {item} :
      FinishMove cfg s completePendingTasks (.assertQueued item)
        (s.setHistory (s.history.finishLocal item)) []

theorem finishStep_move {s s' : PoolState cfg.maxNumThreads clients Code}
    {completePendingTasks : Bool} {pc : FinishPc cfg.maxNumThreads Code}
    {after : List (Frame cfg.maxNumThreads Code)}
    (h : finishStep cfg s completePendingTasks pc = some (s', after)) :
    FinishMove cfg s completePendingTasks pc s' after := by
  revert h
  fun_cases finishStep cfg s completePendingTasks pc
  all_goals intro h
  all_goals simp only [reduceCtorEq, Option.some.injEq, Prod.mk.injEq] at h
  all_goals obtain ⟨rfl, rfl⟩ := h
  all_goals constructor <;> first | assumption | rfl

def abandonStep (cfg : PoolConfig) (s : PoolState cfg.maxNumThreads clients Code)
    (pc : AbandonPc Code) :
    Option (PoolState cfg.maxNumThreads clients Code × List (Frame cfg.maxNumThreads Code)) :=
  match pc with
  | .setTerminate => some (s.requestStop, [.abandonAllThreads .notifyAll])
  | .notifyAll => some (s.setIdleCv ∅, [.abandonAllThreads (.sweep 0 none)])
  | .sweep i item =>
    if h : i < cfg.maxNumThreads then
      match s.tryPop ⟨i, h⟩ with
      | some (item', s') =>
        some (s'.setHistory (s'.history.finishLocal (item.map (·, .abandoned))),
          [.abandonAllThreads (.decrement i item')])
      | none =>
        some (s.setHistory (s.history.finishLocal (item.map (·, .abandoned))),
          [.abandonAllThreads (.sweep (i + 1) none)])
    else
      some (s.setHistory (s.history.finishLocal (item.map (·, .abandoned))),
        [.abandonAllThreads .detach])
  | .decrement i item => some (s.addQueued (-1), [.abandonAllThreads (.completeTaggedTask i item)])
  | .completeTaggedTask i item =>
    match s.completeTaggedTask item.tagState with
    | none => none
    | some s' => some (s', [.abandonAllThreads (.sweep i (some item))])
  | .detach => some (s.clearWorkerThreads, [])

inductive AbandonMove (cfg : PoolConfig) (s : PoolState cfg.maxNumThreads clients Code) :
    AbandonPc Code → PoolState cfg.maxNumThreads clients Code →
      List (Frame cfg.maxNumThreads Code) → Prop
  | setTerminate :
      AbandonMove cfg s .setTerminate s.requestStop [.abandonAllThreads .notifyAll]
  | notifyAll : AbandonMove cfg s .notifyAll (s.setIdleCv ∅) [.abandonAllThreads (.sweep 0 none)]
  | pop {i item item' s'} (h : i < cfg.maxNumThreads)
      (hpop : s.tryPop ⟨i, h⟩ = some (item', s')) :
      AbandonMove cfg s (.sweep i item)
        (s'.setHistory (s'.history.finishLocal (item.map (·, .abandoned))))
        [.abandonAllThreads (.decrement i item')]
  | laneEmpty {i item} (h : i < cfg.maxNumThreads) (hpop : s.tryPop ⟨i, h⟩ = none) :
      AbandonMove cfg s (.sweep i item)
        (s.setHistory (s.history.finishLocal (item.map (·, .abandoned))))
        [.abandonAllThreads (.sweep (i + 1) none)]
  | swept {i item} (h : ¬ i < cfg.maxNumThreads) :
      AbandonMove cfg s (.sweep i item)
        (s.setHistory (s.history.finishLocal (item.map (·, .abandoned))))
        [.abandonAllThreads .detach]
  | decrement {i item} :
      AbandonMove cfg s (.decrement i item) (s.addQueued (-1))
        [.abandonAllThreads (.completeTaggedTask i item)]
  | complete {i item s'} (hcomplete : s.completeTaggedTask item.tagState = some s') :
      AbandonMove cfg s (.completeTaggedTask i item) s' [.abandonAllThreads (.sweep i (some item))]
  | detach : AbandonMove cfg s .detach s.clearWorkerThreads []

theorem abandonStep_move {s s' : PoolState cfg.maxNumThreads clients Code} {pc : AbandonPc Code}
    {after : List (Frame cfg.maxNumThreads Code)} (h : abandonStep cfg s pc = some (s', after)) :
    AbandonMove cfg s pc s' after := by
  revert h
  fun_cases abandonStep cfg s pc
  all_goals intro h
  all_goals simp only [reduceCtorEq, Option.some.injEq, Prod.mk.injEq] at h
  all_goals obtain ⟨rfl, rfl⟩ := h
  all_goals constructor <;> assumption

end CppUtils
