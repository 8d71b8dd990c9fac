import CppUtils.ThreadPool.Frames

/-!
# `CThreadPool::retire`
-/

namespace CppUtils

variable {clients : ℕ} {Code Input : Type} {cfg : PoolConfig}

/-- The predicate of the wait, evaluated under `tagStateMutex`: no task is outstanding and the
entry is erased, or the thread blocks. -/
def retireWait (t : ThreadId cfg.maxNumThreads clients)
    (s : PoolState cfg.maxNumThreads clients Code) (tag tagState : ℕ) :
    Option (PoolState cfg.maxNumThreads clients Code × List (Frame cfg.maxNumThreads Code)) :=
  match s.tagNodes tagState with
  | none => none
  | some node =>
    if node.outstandingTaskCount = 0 then some (s.eraseTag tag tagState, [])
    else some (s.setTagStateChanged (insert t s.tagStateChanged), [.retire tag (.wait tagState)])

def retireStep (cfg : PoolConfig) (t : ThreadId cfg.maxNumThreads clients)
    (c : Choice cfg.maxNumThreads clients Input) (s : PoolState cfg.maxNumThreads clients Code)
    (tag : ℕ) (pc : RetirePc) :
    Option (PoolState cfg.maxNumThreads clients Code × List (Frame cfg.maxNumThreads Code)) :=
  match pc with
  | .start =>
    match s.tagStates tag with
    | none => some (s, [])
    | some tagState =>
      match s.tagNodes tagState with
      | none => none
      | some node =>
        some ((s.setNode tagState node.retire).setHistory (s.history.retire tag),
          [.retire tag (.sweep tagState 0 0)])
  | .sweep tagState i removedCount =>
    if h : i < cfg.maxNumThreads then
      some (s.removeIf ⟨i, h⟩ tagState, [.retire tag
        (.sweep tagState (i + 1) (removedCount + (s.matching ⟨i, h⟩ tagState).length))])
    else some (s, [.retire tag (.subtractQueued tagState removedCount)])
  | .subtractQueued tagState removedCount =>
    some (s.addQueued (-removedCount), [.retire tag (.subtractOutstanding tagState removedCount)])
  | .subtractOutstanding tagState removedCount =>
    match s.tagNodes tagState with
    | none => none
    | some node => retireWait t (s.setNode tagState (node.add (-removedCount))) tag tagState
  | .wait tagState =>
    match c with
    | .go => if t ∈ s.tagStateChanged then none else retireWait t s tag tagState
    | .spurious =>
      if t ∈ s.tagStateChanged then
        some (s.setTagStateChanged (s.tagStateChanged.erase t), [.retire tag (.wait tagState)])
      else none
    | _ => none

inductive RetireWaitMove (cfg : PoolConfig) (t : ThreadId cfg.maxNumThreads clients)
    (s : PoolState cfg.maxNumThreads clients Code) (tag tagState : ℕ) :
    PoolState cfg.maxNumThreads clients Code → List (Frame cfg.maxNumThreads Code) → Prop
  | finish {node} (hnode : s.tagNodes tagState = some node)
      (hzero : node.outstandingTaskCount = 0) :
      RetireWaitMove cfg t s tag tagState (s.eraseTag tag tagState) []
  | block {node} (hnode : s.tagNodes tagState = some node)
      (hzero : ¬ node.outstandingTaskCount = 0) :
      RetireWaitMove cfg t s tag tagState (s.setTagStateChanged (insert t s.tagStateChanged))
        [.retire tag (.wait tagState)]

theorem retireWait_move {t : ThreadId cfg.maxNumThreads clients}
    {s s' : PoolState cfg.maxNumThreads clients Code} {tag tagState : ℕ}
    {after : List (Frame cfg.maxNumThreads Code)}
    (h : retireWait t s tag tagState = some (s', after)) :
    RetireWaitMove cfg t s tag tagState s' after := by
  revert h
  fun_cases retireWait t s tag tagState
  all_goals intro h
  all_goals simp only [reduceCtorEq, Option.some.injEq, Prod.mk.injEq] at h
  all_goals obtain ⟨rfl, rfl⟩ := h
  all_goals constructor <;> assumption

inductive RetireMove (cfg : PoolConfig) (t : ThreadId cfg.maxNumThreads clients)
    (s : PoolState cfg.maxNumThreads clients Code) (tag : ℕ) :
    RetirePc → PoolState cfg.maxNumThreads clients Code →
      List (Frame cfg.maxNumThreads Code) → Prop
  | noEntry (hentry : s.tagStates tag = none) : RetireMove cfg t s tag .start s []
  | setRetired {tagState node} (hentry : s.tagStates tag = some tagState)
      (hnode : s.tagNodes tagState = some node) :
      RetireMove cfg t s tag .start
        ((s.setNode tagState node.retire).setHistory (s.history.retire tag))
        [.retire tag (.sweep tagState 0 0)]
  | sweep {tagState i removedCount} (h : i < cfg.maxNumThreads) :
      RetireMove cfg t s tag (.sweep tagState i removedCount) (s.removeIf ⟨i, h⟩ tagState)
        [.retire tag
          (.sweep tagState (i + 1) (removedCount + (s.matching ⟨i, h⟩ tagState).length))]
  | swept {tagState i removedCount} (h : ¬ i < cfg.maxNumThreads) :
      RetireMove cfg t s tag (.sweep tagState i removedCount) s
        [.retire tag (.subtractQueued tagState removedCount)]
  | subtractQueued {tagState} {removedCount : ℕ} :
      RetireMove cfg t s tag (.subtractQueued tagState removedCount) (s.addQueued (-removedCount))
        [.retire tag (.subtractOutstanding tagState removedCount)]
  | subtractOutstanding {tagState} {removedCount : ℕ} {node s' after}
      (hnode : s.tagNodes tagState = some node)
      (hwait : RetireWaitMove cfg t (s.setNode tagState (node.add (-removedCount))) tag tagState
        s' after) :
      RetireMove cfg t s tag (.subtractOutstanding tagState removedCount) s' after
  | wait {tagState s' after} (hawake : t ∉ s.tagStateChanged)
      (hwait : RetireWaitMove cfg t s tag tagState s' after) :
      RetireMove cfg t s tag (.wait tagState) s' after
  | spurious {tagState} (hblocked : t ∈ s.tagStateChanged) :
      RetireMove cfg t s tag (.wait tagState) (s.setTagStateChanged (s.tagStateChanged.erase t))
        [.retire tag (.wait tagState)]

theorem retireStep_move {t : ThreadId cfg.maxNumThreads clients}
    {c : Choice cfg.maxNumThreads clients Input} {s s' : PoolState cfg.maxNumThreads clients Code}
    {tag : ℕ} {pc : RetirePc} {after : List (Frame cfg.maxNumThreads Code)}
    (h : retireStep cfg t c s tag pc = some (s', after)) : RetireMove cfg t s tag pc s' after := by
  revert h
  fun_cases retireStep cfg t c s tag pc
  all_goals intro h
  all_goals try simp only [reduceCtorEq, Option.some.injEq, Prod.mk.injEq] at h
  all_goals first
    | exact .subtractOutstanding ‹_› (retireWait_move h)
    | exact .wait ‹_› (retireWait_move h)
    | (obtain ⟨rfl, rfl⟩ := h
       first
         | exact .spurious ‹_›
         | (constructor <;> assumption))

/-- `retire` leaves the words of the workers' loop and of the shutdown alone. -/
theorem RetireMove.sameControl {t : ThreadId cfg.maxNumThreads clients}
    {s s' : PoolState cfg.maxNumThreads clients Code} {tag : ℕ} {pc : RetirePc}
    {after : List (Frame cfg.maxNumThreads Code)} (hmove : RetireMove cfg t s tag pc s' after) :
    s.SameControl s' := by
  cases hmove with
  | subtractOutstanding _ hwait | wait _ hwait =>
    cases hwait with
    | finish =>
      unfold PoolState.eraseTag
      split <;> exact ⟨rfl, rfl, rfl, rfl, rfl⟩
    | block => exact ⟨rfl, rfl, rfl, rfl, rfl⟩
  | _ => exact ⟨rfl, rfl, rfl, rfl, rfl⟩

end CppUtils
