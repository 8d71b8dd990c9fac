import CppUtils.ExecutionQueue.State
import CppUtils.Lib.Threads

/-!
# The threads that use the queue

Every thread has a stack of calls in progress, and a step is one step of the innermost call of one
thread. The code of the threads and of the tasks is arbitrary.
-/

namespace CppUtils.ExecutionQueue

open Threaded

/-- What user code does next: call the queue and go on, return, or throw. A call of `exec` goes on
with what came out of it. -/
inductive UserStep (Code : Type)
  | enqueue (code : Option Code) (tag : ℤ) (resume : Code)
  | clear (resume : Code)
  | exec (mode : ExecutionMode) (resume : Option Exception → Code)
  | ret
  | throw (e : Exception)

/-- The code of the tasks and of the threads. What it does may depend on inputs the queue does not
see. -/
structure UserCode where
  Code : Type
  Input : Type
  next : Code → Input → UserStep Code

/-- Inside `exec`; `call` is the number of the call. -/
inductive ExecPc (Code : Type)
  | start (mode : ExecutionMode)
  | loop (call tasksToExecute : ℕ)
  | popped (call tasksToExecute : ℕ) (queuedTask : QueuedTask Code)
  | running (call tasksToExecute : ℕ) (queuedTask : QueuedTask Code)

/-- A call in progress. `user` is user code about to act, `calling` user code inside a call of
`exec`, and `throwing` an exception on its way to the frame below it. -/
inductive Frame (Code : Type)
  | user (code : Code)
  | calling (resume : Option Exception → Code)
  | throwing (e : Exception)
  | exec (pc : ExecPc Code)

variable {ι : Type} {U : UserCode}

def execStep {Code : Type} (s : QueueState Code) :
    ExecPc Code → QueueState Code × List (Frame Code)
  | .start mode => (s.enter mode, [.exec (.loop s.nextCall (s.tasksToExecute mode))])
  | .loop call 0 => (s.record (.returned call 0), [])
  | .loop call (tasksToExecute + 1) =>
    match s.tryPop call with
    | none => (s.record (.returned call (tasksToExecute + 1)), [])
    | some (queuedTask, s') => (s', [.exec (.popped call tasksToExecute queuedTask)])
  | .popped call tasksToExecute queuedTask =>
    match queuedTask.code with
    | none => (s, [.exec (.loop call tasksToExecute)])
    | some code =>
      (s.record (.called queuedTask call),
        [.user code, .exec (.running call tasksToExecute queuedTask)])
  | .running call tasksToExecute _ => (s, [.exec (.loop call tasksToExecute)])

def userStep {Code : Type} (s : QueueState Code) :
    UserStep Code → QueueState Code × List (Frame Code)
  | .enqueue code tag resume => (s.enqueue code tag, [.user resume])
  | .clear resume => (s.clear, [.user resume])
  | .exec mode resume => (s, [.exec (.start mode), .calling resume])
  | .ret => (s, [])
  | .throw e => (s, [.throwing e])

/-- What becomes of a frame when an exception reaches it. -/
def unwind {Code : Type} (s : QueueState Code) (e : Exception) :
    Frame Code → QueueState Code × List (Frame Code)
  | .calling resume => (s, [.user (resume (some e))])
  | .exec (.running call tasksToExecute _) =>
    (s.logException e, [.exec (.loop call tasksToExecute)])
  | _ => (s, [.throwing e])

abbrev QueueSystem (ι : Type) (U : UserCode) := Threaded ι (QueueState U.Code) (Frame U.Code)

def stackStep (U : UserCode) (i : U.Input) (s : QueueState U.Code) :
    List (Frame U.Code) → Option (QueueState U.Code × List (Frame U.Code))
  | .user code :: rest => some ((userStep s (U.next code i)).map id (· ++ rest))
  | .calling resume :: rest => some (s, .user (resume none) :: rest)
  | .exec pc :: rest => some ((execStep s pc).map id (· ++ rest))
  | .throwing e :: f :: rest => some ((unwind s e f).map id (· ++ rest))
  | _ => none

def step [DecidableEq ι] (t : ι) (i : U.Input) (s : QueueSystem ι U) : Option (QueueSystem ι U) :=
  (stackStep U i s.shared (s.threads t)).map fun (shared, frames) =>
    ⟨shared, Function.update s.threads t frames⟩

def initialSystem (main : ι → U.Code) : QueueSystem ι U := ⟨.initial, fun t => [.user (main t)]⟩

def queueSystem (ι : Type) (U : UserCode) [DecidableEq ι] : TransitionSystem (QueueSystem ι U) where
  Init s := ∃ main, s = initialSystem main
  Step s s' := ∃ t i, step t i s = some s'

/-! ### What a step can do -/

/-- What a step does to the queue and to the innermost frames of its thread. -/
inductive QueueRule (ι : Type) (U : UserCode) : Threaded.Rule ι (QueueState U.Code) (Frame U.Code)
  | user {t s code i} :
    QueueRule ι U t s [.user code] (userStep s (U.next code i)).1 (userStep s (U.next code i)).2
  | resume {t s resume} : QueueRule ι U t s [.calling resume] s [.user (resume none)]
  | exec {t s pc} : QueueRule ι U t s [.exec pc] (execStep s pc).1 (execStep s pc).2
  | unwind {t s e f} : QueueRule ι U t s [.throwing e, f] (unwind s e f).1 (unwind s e f).2

theorem step_move [DecidableEq ι] {s s' : QueueSystem ι U}
    (hstep : (queueSystem ι U).Step s s') : Threaded.Move (QueueRule ι U) s s' := by
  obtain ⟨t, i, h⟩ := hstep
  obtain ⟨⟨shared, frames⟩, hstack, rfl⟩ := Option.map_eq_some_iff.mp h
  generalize hframes : s.threads t = stack at hstack
  cases stack with
  | nil => cases hstack
  | cons f rest =>
    cases f with
    | user code =>
      cases hstack
      have hstack : s.threads t = [.user code] ++ rest := hframes
      exact .mk t hstack .user
    | calling resume =>
      cases hstack
      have hstack : s.threads t = [.calling resume] ++ rest := hframes
      exact .mk t hstack QueueRule.resume
    | exec pc =>
      cases hstack
      have hstack : s.threads t = [.exec pc] ++ rest := hframes
      exact .mk t hstack .exec
    | throwing e =>
      cases rest with
      | nil => cases hstack
      | cons f rest =>
        cases hstack
        have hstack : s.threads t = [.throwing e, f] ++ rest := hframes
        exact .mk t hstack .unwind

/-- What a step does to the queue. -/
inductive Change {Code : Type} (s : QueueState Code) : QueueState Code → Prop
  | same : Change s s
  | enqueue (code : Option Code) (tag : ℤ) : Change s (s.enqueue code tag)
  | clear : Change s s.clear
  | enter (mode : ExecutionMode) : Change s (s.enter mode)
  | take {call : ℕ} {task : QueuedTask Code} {s' : QueueState Code}
      (htake : s.tryPop call = some (task, s')) : Change s s'
  | called (task : QueuedTask Code) (call : ℕ) : Change s (s.record (.called task call))
  | returned (call tasksToExecute : ℕ) : Change s (s.record (.returned call tasksToExecute))
  | log (e : Exception) : Change s (s.logException e)

theorem execStep_change {Code : Type} (s : QueueState Code) (pc : ExecPc Code) :
    Change s (execStep s pc).1 := by
  fun_cases execStep s pc with
  | case1 mode => exact .enter mode
  | case2 call => exact .returned call 0
  | case3 call tasksToExecute => exact .returned call _
  | case4 call tasksToExecute queuedTask s' htake => exact .take htake
  | case5 => exact .same
  | case6 call tasksToExecute queuedTask code => exact .called queuedTask call
  | case7 => exact .same

theorem QueueRule.change {t : ι} {s s' : QueueState U.Code} {before after : List (Frame U.Code)}
    (hrule : QueueRule ι U t s before s' after) : Change s s' := by
  cases hrule with
  | @user _ _ code i =>
    cases U.next code i with
    | enqueue code tag resume => exact .enqueue code tag
    | clear resume => exact .clear
    | exec mode resume => exact .same
    | ret => exact .same
    | throw e => exact .same
  | resume => exact .same
  | exec => exact execStep_change ..
  | @unwind _ _ e f =>
    fun_cases ExecutionQueue.unwind s e f with
    | case1 => exact .same
    | case2 => exact .log e
    | case3 => exact .same

theorem step_change [DecidableEq ι] {s s' : QueueSystem ι U}
    (hstep : (queueSystem ι U).Step s s') : Change s.shared s'.shared := by
  cases step_move hstep with
  | mk t hstack hrule => exact hrule.change

/-! ### How calls nest -/

def Frame.isExec {Code : Type} : Frame Code → Bool
  | .exec _ => true
  | _ => false

/-- What stands directly below a frame: user code called `exec`, and `exec` calls tasks. -/
def Frame.Above {Code : Type} (f g : Frame Code) : Prop :=
  if f.isExec then ∃ resume, g = .calling resume
  else ∃ call tasksToExecute queuedTask, g = .exec (.running call tasksToExecute queuedTask)

theorem isChain_replaceOne {Code : Type} {f : Frame Code} {rest : List (Frame Code)}
    (hchain : (f :: rest).IsChain Frame.Above) (f' : Frame Code) (hkind : f'.isExec = f.isExec) :
    (f' :: rest).IsChain Frame.Above := by
  have hnew : ([f'] ++ rest).IsChain Frame.Above := by
    refine isChain_replace hchain (.singleton _) fun l hl g hg => ?_
    obtain rfl : f' = l := Option.some.inj hl
    unfold Frame.Above
    rw [hkind]
    exact hg
  exact hnew

theorem QueueRule.isChain {t : ι} {s s' : QueueState U.Code} {before after rest : List (Frame U.Code)}
    (hrule : QueueRule ι U t s before s' after) (hchain : (before ++ rest).IsChain Frame.Above) :
    (after ++ rest).IsChain Frame.Above := by
  cases hrule with
  | @user _ _ code i =>
    cases U.next code i with
    | enqueue code tag resume => exact isChain_replaceOne hchain (.user resume) rfl
    | clear resume => exact isChain_replaceOne hchain (.user resume) rfl
    | exec mode resume =>
      exact .cons_cons ⟨resume, rfl⟩ (isChain_replaceOne hchain (.calling resume) rfl)
    | ret => exact hchain.tail
    | throw e => exact isChain_replaceOne hchain (.throwing e) rfl
  | @resume _ _ resume => exact isChain_replaceOne hchain (.user (resume none)) rfl
  | @exec _ _ pc =>
    fun_cases execStep s pc with
    | case2 => exact hchain.tail
    | case3 => exact hchain.tail
    | case6 call n task code =>
      exact .cons_cons ⟨call, n, task, rfl⟩
        (isChain_replaceOne hchain (.exec (.running call n task)) rfl)
    | _ => exact isChain_replaceOne hchain (.exec _) rfl
  | @unwind _ _ e f =>
    obtain ⟨⟨call, n, task, rfl⟩, hrest⟩ := List.isChain_cons_cons.mp hchain
    exact isChain_replaceOne hrest (.exec (.loop call n)) rfl

theorem isChain_threads [DecidableEq ι] {s : QueueSystem ι U}
    (hreach : (queueSystem ι U).Reachable s) (t : ι) : (s.threads t).IsChain Frame.Above := by
  refine hreach.invariant (fun s => ∀ t, (s.threads t).IsChain Frame.Above) ?_ ?_ t
  · rintro _ ⟨main, rfl⟩ t
    exact .singleton _
  · intro s s' _ hs hstep
    refine (step_move hstep).forall_threads (P := fun _ _ frames => frames.IsChain Frame.Above) ?_ ?_ hs
    · exact fun t before after rest _ hrule hchain => hrule.isChain hchain
    · exact fun _ _ _ _ _ _ _ _ hchain => hchain

/-- What a step of a reachable state does: an exception goes to the `exec` call that runs the task,
which contains it. -/
inductive ExecRule (ι : Type) (U : UserCode) : Threaded.Rule ι (QueueState U.Code) (Frame U.Code)
  | user {t s code i} :
    ExecRule ι U t s [.user code] (userStep s (U.next code i)).1 (userStep s (U.next code i)).2
  | resume {t s resume} : ExecRule ι U t s [.calling resume] s [.user (resume none)]
  | exec {t s pc} : ExecRule ι U t s [.exec pc] (execStep s pc).1 (execStep s pc).2
  | contain {t s e call tasksToExecute queuedTask} :
    ExecRule ι U t s [.throwing e, .exec (.running call tasksToExecute queuedTask)]
      (s.logException e) [.exec (.loop call tasksToExecute)]

theorem step_execRule [DecidableEq ι] {s s' : QueueSystem ι U}
    (hreach : (queueSystem ι U).Reachable s) (hstep : (queueSystem ι U).Step s s') :
    Threaded.Move (ExecRule ι U) s s' := by
  cases step_move hstep with
  | @mk shared' before after rest t hstack hrule =>
    have hchain := isChain_threads hreach t
    rw [hstack] at hchain
    cases hrule with
    | user => exact .mk t hstack .user
    | resume => exact .mk t hstack ExecRule.resume
    | exec => exact .mk t hstack .exec
    | unwind =>
      obtain ⟨⟨call, n, task, rfl⟩, -⟩ := List.isChain_cons_cons.mp hchain
      exact .mk t hstack .contain

/-! ### Straight-line code

Code that makes its calls one after another and then returns or throws. Concrete runs are stated
over it. -/

inductive Script
  | ret
  | throw (e : Exception)
  | enqueue (code : Option Script) (tag : ℤ) (rest : Script)
  | clear (rest : Script)
  | exec (mode : ExecutionMode) (rest : Script)

def Script.next : Script → Unit → UserStep Script
  | .ret, _ => .ret
  | .throw e, _ => .throw e
  | .enqueue code tag rest, _ => .enqueue code tag rest
  | .clear rest, _ => .clear rest
  | .exec mode rest, _ => .exec mode fun _ => rest

abbrev scriptCode : UserCode := ⟨Script, Unit, Script.next⟩

/-- A run of scripts, given by the threads that take its steps. -/
def scriptRun [DecidableEq ι] (main : ι → Script) (moves : List ι) :
    Option (QueueSystem ι scriptCode) :=
  moves.foldlM (fun s t => step t () s) (initialSystem (U := scriptCode) main)

theorem foldlM_steps [DecidableEq ι] {moves : List ι} {s s' : QueueSystem ι scriptCode}
    (h : moves.foldlM (fun s t => step t () s) s = some s') :
    (queueSystem ι scriptCode).Steps s s' :=
  TransitionSystem.steps_of_foldlM (T := queueSystem ι scriptCode) (fun _ t _ hstep => ⟨t, (), hstep⟩) h

theorem scriptRun_reachable [DecidableEq ι] {main : ι → Script} {moves : List ι}
    {s : QueueSystem ι scriptCode} (h : scriptRun main moves = some s) :
    (queueSystem ι scriptCode).Reachable s :=
  TransitionSystem.Reachable.steps (.init ⟨main, rfl⟩ trivial) (foldlM_steps h)

end CppUtils.ExecutionQueue
