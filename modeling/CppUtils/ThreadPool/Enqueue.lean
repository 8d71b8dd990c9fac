import CppUtils.ThreadPool.Frames

/-!
# `CThreadPool::enqueue`
-/

namespace CppUtils

variable {clients : ℕ} {Code Input : Type} {cfg : PoolConfig}

def enqueueStep (cfg : PoolConfig) (c : Choice cfg.maxNumThreads clients Input)
    (s : PoolState cfg.maxNumThreads clients Code) (pc : EnqueuePc cfg.maxNumThreads Code) :
    Option (PoolState cfg.maxNumThreads clients Code × List (Frame cfg.maxNumThreads Code)) :=
  match pc with
  | .start task tag =>
    let index := cfg.lane s.laneSelector
    let item : TaggedTask Code := ⟨none, task, s.history.nextTaskId, tag⟩
    let s' := s.advanceSelector.setHistory s.history.newTask
    if tag = 0 then some (s', [.enqueue (.increment index item)])
    else some (s', [.enqueue (.register index item)])
  | .register index item =>
    match c with
    | .address a =>
      match s.tryEmplace item.tag a with
      | none => none
      | some (tagState, s') =>
        match s'.tagNodes tagState with
        | none => none
        | some node =>
          -- A retired tag: return 0, destroying the task.
          if node.retired then some (s'.setHistory (s'.history.finish item .dropped), [])
          else some ((s'.setNode tagState (node.add 1)).setHistory (s'.history.register item),
            [.enqueue (.increment index { item with tagState := some tagState })])
    | _ => none
  | .increment index item => some (s.addQueued 1, [.enqueue (.push index item)])
  | .push index item =>
    match c with
    | .go =>
      match s.push index item with
      | none => none
      | some s' => some (s', [.enqueue .gate])
    | .pushThrows => some (s, [.enqueue (.undoIncrement item)])
    | _ => none
  | .undoIncrement item => some (s.addQueued (-1), [.enqueue (.completeTaggedTask item)])
  | .completeTaggedTask item =>
    match s.completeTaggedTask item.tagState with
    | none => none
    | some s' => some (s', [.enqueue (.rethrow item)])
  | .rethrow item => some (s.setHistory (s.history.finish item .discarded), [.unwinding])
  | .gate => if s.idleCount ≠ 0 then some (s, [.enqueue .notify]) else some (s, [])
  | .notify =>
    match c with
    | .notify t =>
      -- One currently blocked waiter, if there is one.
      if t ∈ s.idleCv ∨ s.idleCv = ∅ then some (s.setIdleCv (s.idleCv.erase t), []) else none
    | _ => none

inductive EnqueueMove (cfg : PoolConfig) (s : PoolState cfg.maxNumThreads clients Code) :
    EnqueuePc cfg.maxNumThreads Code → PoolState cfg.maxNumThreads clients Code →
      List (Frame cfg.maxNumThreads Code) → Prop
  | startUntagged {task} :
      EnqueueMove cfg s (.start task 0) (s.advanceSelector.setHistory s.history.newTask)
        [.enqueue (.increment (cfg.lane s.laneSelector) ⟨none, task, s.history.nextTaskId, 0⟩)]
  | startTagged {task tag} (htag : tag ≠ 0) :
      EnqueueMove cfg s (.start task tag) (s.advanceSelector.setHistory s.history.newTask)
        [.enqueue (.register (cfg.lane s.laneSelector) ⟨none, task, s.history.nextTaskId, tag⟩)]
  | drop {index item tagState a s' node} (hemplace : s.tryEmplace item.tag a = some (tagState, s'))
      (hnode : s'.tagNodes tagState = some node) (hretired : node.retired = true) :
      EnqueueMove cfg s (.register index item) (s'.setHistory (s'.history.finish item .dropped)) []
  | register {index item tagState a s' node}
      (hemplace : s.tryEmplace item.tag a = some (tagState, s'))
      (hnode : s'.tagNodes tagState = some node) (hretired : ¬ node.retired = true) :
      EnqueueMove cfg s (.register index item)
        ((s'.setNode tagState (node.add 1)).setHistory (s'.history.register item))
        [.enqueue (.increment index { item with tagState := some tagState })]
  | increment {index item} :
      EnqueueMove cfg s (.increment index item) (s.addQueued 1) [.enqueue (.push index item)]
  | push {index item s'} (hpush : s.push index item = some s') :
      EnqueueMove cfg s (.push index item) s' [.enqueue .gate]
  | pushThrows {index item} :
      EnqueueMove cfg s (.push index item) s [.enqueue (.undoIncrement item)]
  | undoIncrement {item} :
      EnqueueMove cfg s (.undoIncrement item) (s.addQueued (-1))
        [.enqueue (.completeTaggedTask item)]
  | complete {item s'} (hcomplete : s.completeTaggedTask item.tagState = some s') :
      EnqueueMove cfg s (.completeTaggedTask item) s' [.enqueue (.rethrow item)]
  | rethrow {item} :
      EnqueueMove cfg s (.rethrow item) (s.setHistory (s.history.finish item .discarded))
        [.unwinding]
  | enterGate (hidle : s.idleCount ≠ 0) : EnqueueMove cfg s .gate s [.enqueue .notify]
  | skipGate (hidle : ¬ s.idleCount ≠ 0) : EnqueueMove cfg s .gate s []
  | notify {t} (hwaiter : t ∈ s.idleCv ∨ s.idleCv = ∅) :
      EnqueueMove cfg s .notify (s.setIdleCv (s.idleCv.erase t)) []

theorem enqueueStep_move {c : Choice cfg.maxNumThreads clients Input}
    {s s' : PoolState cfg.maxNumThreads clients Code} {pc : EnqueuePc cfg.maxNumThreads Code}
    {after : List (Frame cfg.maxNumThreads Code)} (h : enqueueStep cfg c s pc = some (s', after)) :
    EnqueueMove cfg s pc s' after := by
  revert h
  fun_cases enqueueStep cfg c s pc
  all_goals intro h
  all_goals simp only [reduceCtorEq, Option.some.injEq, Prod.mk.injEq] at h
  all_goals obtain ⟨rfl, rfl⟩ := h
  all_goals constructor <;> assumption

/-- `enqueue` leaves the words of the workers' loop and of the shutdown alone. -/
theorem EnqueueMove.sameControl {s s' : PoolState cfg.maxNumThreads clients Code}
    {pc : EnqueuePc cfg.maxNumThreads Code} {after : List (Frame cfg.maxNumThreads Code)}
    (hmove : EnqueueMove cfg s pc s' after) : s.SameControl s' := by
  cases hmove with
  | drop hemplace | register hemplace =>
    obtain ⟨tagStates, tagNodes, rfl⟩ := PoolState.tryEmplace_setTags hemplace
    exact ⟨rfl, rfl, rfl, rfl, rfl⟩
  | push hpush => exact PoolState.sameControl_push hpush
  | complete hcomplete => exact PoolState.sameControl_completeTaggedTask hcomplete
  | _ => exact ⟨rfl, rfl, rfl, rfl, rfl⟩

end CppUtils
