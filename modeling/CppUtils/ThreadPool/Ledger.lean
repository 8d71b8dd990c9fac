import CppUtils.ThreadPool.State

/-!
# The ledger of the tasks

What the pool is for, seen from its tasks: a task is created, perhaps registered under a tag, queued,
taken, run or skipped, accounted and destroyed, and a `retire` removes queued tasks and waits for the
rest. The ledger keeps each task that is not destroyed yet with how far it has come, the `retire`
calls in progress, the tags and the history. It does not say where a task is held, by which thread,
or in which lane.
-/

namespace CppUtils

variable {workers : ℕ} {Code : Type}

/-- How far a task has come. It is `ended` while its `completeTaggedTask` is still to come, and
`released` while only its destruction is. -/
inductive Stage
  | entering
  | queued
  | taken
  | cleared
  | running
  | ended (fate : Fate)
  | released (fate : Fate)
  deriving DecidableEq

namespace Stage

/-- The outstanding count of the tag includes the task. -/
def counted : Stage → Bool
  | .released _ => false
  | _ => true

def begun : Stage → Bool
  | .running => true
  | .ended fate => fate = .ran
  | .released fate => fate = .ran
  | _ => false

section

variable (fate : Fate)

@[simp] theorem counted_entering : entering.counted = true := rfl

@[simp] theorem counted_queued : queued.counted = true := rfl

@[simp] theorem counted_taken : taken.counted = true := rfl

@[simp] theorem counted_cleared : cleared.counted = true := rfl

@[simp] theorem counted_running : running.counted = true := rfl

@[simp] theorem counted_ended : (ended fate).counted = true := rfl

@[simp] theorem counted_released : (released fate).counted = false := rfl

@[simp] theorem begun_entering : entering.begun = false := rfl

@[simp] theorem begun_queued : queued.begun = false := rfl

@[simp] theorem begun_taken : taken.begun = false := rfl

@[simp] theorem begun_cleared : cleared.begun = false := rfl

@[simp] theorem begun_running : running.begun = true := rfl

@[simp] theorem begun_ended : (ended fate).begun = decide (fate = .ran) := rfl

@[simp] theorem begun_released : (released fate).begun = decide (fate = .ran) := rfl

end

/-- The moves that neither read nor write a tag, and leave no event. -/
inductive Next : Stage → Stage → Prop
  | push : Next .entering .queued
  | pushThrew : Next .entering (.ended .discarded)
  | take : Next .queued .taken
  | clear : Next .taken .cleared
  | abandon : Next .taken (.ended .abandoned)
  | ran : Next .running (.ended .ran)

theorem Next.begun_eq {st st' : Stage} (hnext : st.Next st') : st'.begun = st.begun := by
  cases hnext <;> rfl

theorem Next.counted_eq {st st' : Stage} (hnext : st.Next st') : st'.counted = st.counted := by
  cases hnext <;> rfl

end Stage

/-- A `retire` call past its first block: its tag, its pointer, and the tasks it has removed and not
subtracted yet. -/
structure Retiring where
  tag : ℕ
  tagState : ℕ
  removed : ℕ
  deriving DecidableEq

abbrev HeldTask (Code : Type) := TaggedTask Code × Stage

structure Ledger (workers : ℕ) (Code : Type) where
  held : Multiset (HeldTask Code)
  retiring : Multiset Retiring
  tagStates : ℕ → Option ℕ
  tagNodes : ℕ → Option TagNode
  history : History workers

namespace Ledger

def initial (workers : ℕ) (Code : Type) : Ledger workers Code :=
  ⟨0, 0, fun _ => none, fun _ => none, ⟨0, []⟩⟩

inductive Step : Ledger workers Code → Ledger workers Code → Prop
  | create (held retiring tagStates tagNodes) (history : History workers) (item : TaggedTask Code)
      (hid : item.id = history.nextTaskId) (hnull : item.tagState = none) :
      Step ⟨held, retiring, tagStates, tagNodes, history⟩
        ⟨(item, .entering) ::ₘ held, retiring, tagStates, tagNodes, history.newTask⟩
  | emplace (held retiring tagStates tagNodes history) (tag address : ℕ)
      (hnew : tagStates tag = none) (hfree : tagNodes address = none) :
      Step ⟨held, retiring, tagStates, tagNodes, history⟩
        ⟨held, retiring, Function.update tagStates tag (some address),
          Function.update tagNodes address (some ⟨tag, 0, false⟩), history⟩
  | drop (held retiring tagStates tagNodes history) (item : TaggedTask Code) (tagState : ℕ)
      (node : TagNode) (hnull : item.tagState = none) (hentry : tagStates item.tag = some tagState)
      (hnode : tagNodes tagState = some node) (hretired : node.retired = true) :
      Step ⟨(item, .entering) ::ₘ held, retiring, tagStates, tagNodes, history⟩
        ⟨held, retiring, tagStates, tagNodes, history.finish item .dropped⟩
  | register (held retiring tagStates tagNodes history) (item : TaggedTask Code) (tagState : ℕ)
      (node : TagNode) (hnull : item.tagState = none) (hentry : tagStates item.tag = some tagState)
      (hnode : tagNodes tagState = some node) (hretired : node.retired = false) :
      Step ⟨(item, .entering) ::ₘ held, retiring, tagStates, tagNodes, history⟩
        ⟨({ item with tagState := some tagState }, .entering) ::ₘ held, retiring, tagStates,
          Function.update tagNodes tagState (some (node.add 1)), history.register item⟩
  | advance (held retiring tagStates tagNodes history) (item : TaggedTask Code) {st st' : Stage}
      (hnext : st.Next st') :
      Step ⟨(item, st) ::ₘ held, retiring, tagStates, tagNodes, history⟩
        ⟨(item, st') ::ₘ held, retiring, tagStates, tagNodes, history⟩
  | skip (held retiring tagStates tagNodes history) (item : TaggedTask Code) (tagState : ℕ)
      (node : TagNode) (hitem : item.tagState = some tagState)
      (hnode : tagNodes tagState = some node) (hretired : node.retired = true) :
      Step ⟨(item, .taken) ::ₘ held, retiring, tagStates, tagNodes, history⟩
        ⟨(item, .ended .skipped) ::ₘ held, retiring, tagStates, tagNodes, history⟩
  | begin (held retiring tagStates tagNodes history) (item : TaggedTask Code)
      (worker : Option (Fin workers)) :
      Step ⟨(item, .cleared) ::ₘ held, retiring, tagStates, tagNodes, history⟩
        ⟨(item, .running) ::ₘ held, retiring, tagStates, tagNodes, history.beginBody item worker⟩
  | completeUntagged (held retiring tagStates tagNodes history) (item : TaggedTask Code)
      (fate : Fate) (hitem : item.tagState = none) :
      Step ⟨(item, .ended fate) ::ₘ held, retiring, tagStates, tagNodes, history⟩
        ⟨(item, .released fate) ::ₘ held, retiring, tagStates, tagNodes, history⟩
  | complete (held retiring tagStates tagNodes history) (item : TaggedTask Code) (fate : Fate)
      (tagState : ℕ) (node : TagNode) (hitem : item.tagState = some tagState)
      (hnode : tagNodes tagState = some node) :
      Step ⟨(item, .ended fate) ::ₘ held, retiring, tagStates, tagNodes, history⟩
        ⟨(item, .released fate) ::ₘ held, retiring, tagStates,
          Function.update tagNodes tagState (some (node.add (-1))), history⟩
  | destroy (held retiring tagStates tagNodes history) (item : TaggedTask Code) (fate : Fate) :
      Step ⟨(item, .released fate) ::ₘ held, retiring, tagStates, tagNodes, history⟩
        ⟨held, retiring, tagStates, tagNodes, history.finish item fate⟩
  | retireStart (held retiring tagStates tagNodes history) (tag tagState : ℕ) (node : TagNode)
      (hentry : tagStates tag = some tagState) (hnode : tagNodes tagState = some node) :
      Step ⟨held, retiring, tagStates, tagNodes, history⟩
        ⟨held, ⟨tag, tagState, 0⟩ ::ₘ retiring, tagStates,
          Function.update tagNodes tagState (some node.retire), history.retire tag⟩
  | sweep (held retiring tagStates tagNodes history) (tag tagState k : ℕ)
      (items : List (TaggedTask Code)) (hitems : ∀ item ∈ items, item.tagState = some tagState) :
      Step ⟨(items.map fun item => (item, Stage.queued) : Multiset (HeldTask Code)) + held,
          ⟨tag, tagState, k⟩ ::ₘ retiring, tagStates, tagNodes, history⟩
        ⟨held, ⟨tag, tagState, k + items.length⟩ ::ₘ retiring, tagStates, tagNodes,
          history.finishAll items .removedByRetire⟩
  | subtract (held retiring tagStates tagNodes history) (tag tagState k : ℕ) (node : TagNode)
      (hnode : tagNodes tagState = some node) :
      Step ⟨held, ⟨tag, tagState, k⟩ ::ₘ retiring, tagStates, tagNodes, history⟩
        ⟨held, ⟨tag, tagState, 0⟩ ::ₘ retiring, tagStates,
          Function.update tagNodes tagState (some (node.add (-k))), history⟩
  | retireEnd (held retiring tagStates tagNodes history) (tag tagState : ℕ) (node : TagNode)
      (hnode : tagNodes tagState = some node) (hzero : node.outstandingTaskCount = 0)
      (hentry : tagStates tag = some tagState) :
      Step ⟨held, ⟨tag, tagState, 0⟩ ::ₘ retiring, tagStates, tagNodes, history⟩
        ⟨held, retiring, Function.update tagStates tag none, Function.update tagNodes tagState none,
          history⟩
  | retireEndStale (held retiring tagStates tagNodes history) (tag tagState : ℕ) (node : TagNode)
      (hnode : tagNodes tagState = some node) (hzero : node.outstandingTaskCount = 0)
      (hentry : tagStates tag ≠ some tagState) :
      Step ⟨held, ⟨tag, tagState, 0⟩ ::ₘ retiring, tagStates, tagNodes, history⟩
        ⟨held, retiring, tagStates, tagNodes, history⟩

def system (workers : ℕ) (Code : Type) : TransitionSystem (Ledger workers Code) where
  Init l := l = initial workers Code
  Step := Step

end Ledger

end CppUtils
