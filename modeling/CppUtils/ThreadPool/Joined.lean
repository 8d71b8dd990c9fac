import CppUtils.ThreadPool.ShutdownAsserts

/-!
# A pool that is not abandoned

`finishAllThreads` drops the handles of the workers only after it has joined them, so while
`abandonAllThreads` is not called, a pool without handles has no worker left. What is then recorded of the
tasks are the events of `enqueue`, of `retire` and of the two loops that run tasks.
-/

namespace CppUtils

open Threaded

variable {clients workers : ℕ} {U : UserCode} {Code : Type} {cfg : PoolConfig}

def Frame.isAbandonment : Frame workers Code → Bool
  | .abandonAllThreads _ => true
  | _ => false

def PoolSystem.NotAbandoned (s : PoolSystem cfg U clients) : Prop :=
  ∀ t, ∀ f ∈ s.threads t, f.isAbandonment = false

instance (s : PoolSystem cfg U clients) : Decidable s.NotAbandoned :=
  inferInstanceAs (Decidable (∀ _, _))

/-! ### The workers that have been joined -/

/-- The workers that a call of `finishAllThreads` has joined have exited. -/
def FinishPc.HasJoined (exited : Finset (Fin workers)) : FinishPc workers Code → Prop
  | .setTerminate => True
  | .notifyAll => True
  | .join rest => ∀ w, w ∉ rest → w ∈ exited
  | _ => ∀ w, w ∈ exited

def Frame.HasJoined (exited : Finset (Fin workers)) : Frame workers Code → Prop
  | .finishAllThreads _ pc => pc.HasJoined exited
  | _ => True

theorem Frame.HasJoined.mono {exited exited' : Finset (Fin workers)} {f : Frame workers Code}
    (h : f.HasJoined exited) (hsubset : exited ⊆ exited') : f.HasJoined exited' := by
  cases f with
  | finishAllThreads completePendingTasks pc =>
    cases pc with
    | setTerminate | notifyAll => trivial
    | join rest => exact fun w hw => hsubset (h w hw)
    | _ => exact fun w => hsubset (h w)
  | _ => trivial

theorem hasJoined_afterJoin {exited : Finset (Fin workers)} (hall : ∀ w, w ∈ exited)
    (completePendingTasks : Bool) :
    ∀ g ∈ afterJoin workers Code completePendingTasks, g.HasJoined exited := by
  intro g hg
  unfold afterJoin at hg
  split at hg
  · rw [List.mem_singleton.mp hg]
    exact hall
  · cases hg

theorem Closure.hasJoined_frame (exited : Finset (Fin workers)) (task : Closure Code) :
    (task.frame : Frame workers Code).HasJoined exited := by
  cases task <;> trivial

theorem FinishMove.hasJoined {s s' : PoolState cfg.maxNumThreads clients Code} {completePendingTasks : Bool}
    {pc : FinishPc cfg.maxNumThreads Code} {after : List (Frame cfg.maxNumThreads Code)}
    (hmove : FinishMove cfg s completePendingTasks pc s' after) {exited : Finset (Fin cfg.maxNumThreads)}
    (hpc : pc.HasJoined exited) (hexited : s.exited ⊆ exited) (hnone : s.workerThreads = [] → ∀ w, w ∈ exited)
    (hworkers : s.workerThreads = [] ∨ s.workerThreads = List.finRange cfg.maxNumThreads) :
    ∀ g ∈ after, g.HasJoined exited := by
  cases hmove with
  | notifyAllJoined hnil => exact hasJoined_afterJoin (hnone hnil) completePendingTasks
  | notifyAll hne =>
    rw [hworkers.resolve_left hne]
    refine List.forall_mem_singleton.mpr fun w hw => absurd (List.mem_finRange w) hw
  | joinedAll => exact List.forall_mem_singleton.mpr fun w => hpc w List.not_mem_nil
  | @join worker rest hworker =>
    refine List.forall_mem_singleton.mpr fun w hw => ?_
    by_cases heq : w = worker
    · rw [heq]
      exact hexited hworker
    · exact hpc w fun hmem => (List.mem_cons.mp hmem).elim heq hw
  | assertIdle => exact hasJoined_afterJoin hpc completePendingTasks
  | @begin i item =>
    exact List.forall_mem_cons.mpr ⟨item.task.hasJoined_frame exited, List.forall_mem_singleton.mpr hpc⟩
  | assertQueued =>
    intro g hg
    cases hg
  | setTerminate => exact List.forall_mem_singleton.mpr trivial
  | _ => exact List.forall_mem_singleton.mpr hpc

theorem FrameMove.hasJoined {t : ThreadId cfg.maxNumThreads clients}
    {s s' : Shared cfg.maxNumThreads clients U.Code} {f : Frame cfg.maxNumThreads U.Code}
    {after : List (Frame cfg.maxNumThreads U.Code)} (hmove : FrameMove cfg U t s f s' after)
    (hf : f.HasJoined s.pool.exited) (hnone : s.pool.workerThreads = [] → ∀ w, w ∈ s.pool.exited)
    (hworkers : s.pool.workerThreads = [] ∨ s.pool.workerThreads = List.finRange cfg.maxNumThreads) :
    ∀ g ∈ after, g.HasJoined s'.pool.exited := by
  have hexited := hmove.exited_subset
  intro g hg
  cases g with
  | finishAllThreads completePendingTasks pc =>
    obtain rfl | ⟨_, _, _, rfl, hfinish, rfl⟩ := hmove.finish_cases hg
    · trivial
    · exact hfinish.hasJoined (hf.mono hexited) hexited (fun hnil w => hexited (hnone hnil w)) hworkers _ hg
  | _ => trivial

namespace PoolSystem

variable {s : PoolSystem cfg U clients}

/-- Every call of `finishAllThreads` has joined what its place says, and without handles no worker is
left. -/
theorem hasJoined (hreach : (poolSystem cfg U clients).ReachableUnder NotAbandoned s) :
    (s.shared.pool.workerThreads = [] → ∀ w, w ∈ s.shared.pool.exited) ∧
      ∀ t, ∀ f ∈ s.threads t, f.HasJoined s.shared.pool.exited := by
  refine TransitionSystem.ReachableUnder.invariant (fun s : PoolSystem cfg U clients =>
    (s.shared.pool.workerThreads = [] → ∀ w, w ∈ s.shared.pool.exited) ∧
      ∀ t, ∀ f ∈ s.threads t, f.HasJoined s.shared.pool.exited) ?_ (fun s s' hr hI hstep _ => ?_) hreach
  · rintro s ⟨main, rfl⟩ _
    refine ⟨fun hnil w => ?_, fun t f hf => ?_⟩
    · have hmem := List.mem_finRange w
      rw [show List.finRange cfg.maxNumThreads = [] from hnil] at hmem
      cases hmem
    · cases t <;> (rw [List.mem_singleton.mp hf]; trivial)
  · obtain ⟨hnone, hframes⟩ := hI
    have hsubset := exited_subset_step hstep
    constructor
    · intro hnil w
      cases step_move hstep with
      | mk t hstack hrule =>
        cases hrule with
        | unwind => exact hnone hnil w
        | @frame _ _ f _ _ hmove =>
          have hmem : f ∈ s.threads t := hstack ▸ List.mem_cons_self
          obtain hsame | ⟨_, rfl | ⟨completePendingTasks, rfl⟩⟩ := hmove.workerThreads
          · exact hsubset (hnone (hsame.symm.trans hnil) w)
          · cases hr.keeps t _ hmem
          · exact hsubset (hframes t _ hmem w List.not_mem_nil)
    · refine (step_move hstep).forall_frames (P := fun shared _ f => f.HasJoined shared.pool.exited)
        (fun t before after hrule hmem hbefore => ?_) (fun t f _ hf => hf.mono hsubset) hframes
      generalize s'.shared = shared' at hrule
      cases hrule with
      | frame hmove =>
        exact hmove.hasJoined (hbefore _ (List.mem_singleton_self _)) hnone (workerThreads_cases hr.reachable)
      | @unwind _ _ f after hunwind =>
        have hf := hbefore f (List.mem_cons_of_mem _ (List.mem_singleton_self _))
        unfold unwind at hunwind
        split at hunwind <;> cases hunwind
        case h_3 => exact List.forall_mem_singleton.mpr hf
        all_goals simp [Frame.HasJoined]

end PoolSystem

/-! ### What is recorded of the tasks -/

/-- What the loops that run tasks make of them. -/
def Fate.isOfLoop : Fate → Bool
  | .ran => true
  | .skipped => true
  | _ => false

/-- The fate of the task that a frame is done with. -/
def Frame.fate : Frame workers Code → Option Fate
  | .runWorker _ (.completeTaggedTask _ fate) => some fate
  | .runWorker _ (.scopeEnd _ fate) => some fate
  | .finishAllThreads _ (.completeTaggedTask _ _ fate) => some fate
  | .finishAllThreads _ (.drain _ _ item) => item.map Prod.snd
  | .finishAllThreads _ (.assertQueued item) => item.map Prod.snd
  | _ => none

def Frame.FateOfLoop (f : Frame workers Code) : Prop := ∀ fate ∈ f.fate, fate.isOfLoop = true

theorem fateOfLoop_of_none {f : Frame workers Code} (h : f.fate = none) : f.FateOfLoop := by
  intro fate hfate
  rw [h] at hfate
  cases hfate

theorem Closure.fateOfLoop_frame (task : Closure Code) :
    (task.frame : Frame workers Code).FateOfLoop :=
  fateOfLoop_of_none (by cases task <;> rfl)

theorem fateOfLoop_afterJoin (completePendingTasks : Bool) :
    ∀ g ∈ afterJoin workers Code completePendingTasks, g.FateOfLoop := by
  intro g hg
  unfold afterJoin at hg
  split at hg
  · rw [List.mem_singleton.mp hg]
    exact fateOfLoop_of_none rfl
  · cases hg

theorem FrameMove.fateOfLoop {t : ThreadId cfg.maxNumThreads clients}
    {s s' : Shared cfg.maxNumThreads clients U.Code} {f : Frame cfg.maxNumThreads U.Code}
    {after : List (Frame cfg.maxNumThreads U.Code)} (hmove : FrameMove cfg U t s f s' after)
    (hf : f.FateOfLoop) : ∀ g ∈ after, g.FateOfLoop := by
  have hnone : (∀ g ∈ after, g.fate = none) → ∀ g ∈ after, g.FateOfLoop :=
    fun h g hg => fateOfLoop_of_none (h g hg)
  cases hmove with
  | @body code i hallowed =>
    refine hnone ?_
    cases U.next code i with
    | call request resume => cases request <;> simp [UserStep.frames, UserCall.frame, Frame.fate]
    | ret => simp [UserStep.frames]
    | throw => simp [UserStep.frames, Frame.fate]
  | resume => exact hnone (by simp [Frame.fate])
  | runWorker hmove =>
    cases hmove with
    | tryGetTask hget => exact hnone (by cases hget <;> simp [Frame.fate])
    | skip | ran => simp [Frame.FateOfLoop, Frame.fate, Fate.isOfLoop]
    | complete => exact List.forall_mem_singleton.mpr hf
    | @begin item =>
      exact List.forall_mem_cons.mpr ⟨item.task.fateOfLoop_frame, by simp [Frame.FateOfLoop, Frame.fate]⟩
    | _ => exact hnone (by simp [Frame.fate])
  | enqueue hmove => exact hnone (by cases hmove <;> simp [Frame.fate])
  | retire hmove =>
    refine hnone ?_
    cases hmove with
    | subtractOutstanding _ hwait | wait _ hwait => cases hwait <;> simp [Frame.fate]
    | _ => simp [Frame.fate]
  | finishAllThreads hmove =>
    cases hmove with
    | notifyAllJoined | assertIdle => exact fateOfLoop_afterJoin _
    | laneEmpty | nextPass | drained | complete => exact List.forall_mem_singleton.mpr hf
    | skip | ran => simp [Frame.FateOfLoop, Frame.fate, Fate.isOfLoop]
    | @begin i item =>
      exact List.forall_mem_cons.mpr ⟨item.task.fateOfLoop_frame, by simp [Frame.FateOfLoop, Frame.fate]⟩
    | _ => exact hnone (by simp [Frame.fate])
  | abandonAllThreads hmove => exact hnone (by cases hmove <;> simp [Frame.fate])
  | parallelFor hmove => exact hnone (by cases hmove <;> simp [Frame.fate])
  | parallelForAsync hmove => exact hnone (by cases hmove <;> simp [Frame.fate])
  | drainIndices hmove => exact hnone (by cases hmove <;> simp [Frame.fate])

theorem PoolSystem.fateOfLoop {s : PoolSystem cfg U clients} (hreach : (poolSystem cfg U clients).Reachable s) :
    ∀ t, ∀ f ∈ s.threads t, f.FateOfLoop := by
  refine TransitionSystem.Reachable.invariant
    (fun s : PoolSystem cfg U clients => ∀ t, ∀ f ∈ s.threads t, f.FateOfLoop) ?_
    (fun s s' _ hI hstep => ?_) hreach
  · rintro s ⟨main, rfl⟩ t f hf
    refine fateOfLoop_of_none ?_
    cases t <;> (rw [List.mem_singleton.mp hf]; rfl)
  · refine (step_move hstep).forall_frames (P := fun _ _ f => f.FateOfLoop)
      (fun t before after hrule _ hbefore => ?_) (fun _ _ _ hf => hf) hI
    generalize s'.shared = shared' at hrule
    cases hrule with
    | frame hmove => exact hmove.fateOfLoop (hbefore _ (List.mem_singleton_self _))
    | unwind hunwind =>
      refine fun g hg => fateOfLoop_of_none ?_
      unfold unwind at hunwind
      split at hunwind <;> cases hunwind
      all_goals
        rw [List.mem_singleton.mp hg]
        rfl

def History.Adds (p : TaskEvent workers → Prop) (h h' : History workers) : Prop :=
  ∃ later, h'.events = later ++ h.events ∧ ∀ e ∈ later, p e

namespace History.Adds

variable {p q : TaskEvent workers → Prop} {h h' h'' : History workers}

theorem of_eq (heq : h'.events = h.events) : h.Adds p h' := ⟨[], heq, by simp⟩

theorem of_cons {e : TaskEvent workers} (heq : h'.events = e :: h.events) (he : p e) : h.Adds p h' :=
  ⟨[e], heq, by simpa using he⟩

theorem mono (hadds : h.Adds p h') (hle : ∀ e, p e → q e) : h.Adds q h' := by
  obtain ⟨later, heq, hlater⟩ := hadds
  exact ⟨later, heq, fun e he => hle e (hlater e he)⟩

theorem trans (hadds : h.Adds p h') (hadds' : h'.Adds p h'') : h.Adds p h'' := by
  obtain ⟨later, heq, hlater⟩ := hadds
  obtain ⟨later', heq', hlater'⟩ := hadds'
  refine ⟨later' ++ later, by rw [heq', heq, List.append_assoc], ?_⟩
  exact List.forall_mem_append.mpr ⟨hlater', hlater⟩

theorem mem (hadds : h.Adds p h') {e : TaskEvent workers} (he : e ∈ h'.events) : p e ∨ e ∈ h.events := by
  obtain ⟨later, heq, hlater⟩ := hadds
  rw [heq, List.mem_append] at he
  exact he.imp_left (hlater e)

theorem finishLocal (h : History workers) (item : Option (TaggedTask Code × Fate))
    (hp : ∀ id, ∀ fate ∈ item.map Prod.snd, p (.finished id fate)) : h.Adds p (h.finishLocal item) := by
  cases item with
  | none => exact .of_eq rfl
  | some item => exact .of_cons rfl (hp _ _ rfl)

end History.Adds

/-- What a step of a frame may record. -/
inductive Frame.Records (s : PoolState workers clients Code) (f : Frame workers Code) : TaskEvent workers → Prop
  | registered {id tag} : Records s f (.registered id tag)
  | begun {id worker} : Records s f (.begun id worker)
  | done {id fate} (hfate : fate.isOfLoop = true) : Records s f (.finished id fate)
  | discarded {id} : Records s f (.finished id .discarded)
  | dropped {id} (hretired : ¬ s.NoneRetired) : Records s f (.finished id .dropped)
  | retired {tag pc} (hf : f = .retire tag pc) : Records s f (.retired tag)
  | removed {id tag pc} (hf : f = .retire tag pc) : Records s f (.finished id .removedByRetire)

theorem FrameMove.records {t : ThreadId cfg.maxNumThreads clients}
    {s s' : Shared cfg.maxNumThreads clients U.Code} {f : Frame cfg.maxNumThreads U.Code}
    {after : List (Frame cfg.maxNumThreads U.Code)} (hmove : FrameMove cfg U t s f s' after)
    (hf : f.FateOfLoop) (habandon : f.isAbandonment = false) :
    s.pool.history.Adds (f.Records s.pool) s'.pool.history := by
  cases hmove with
  | runWorker hmove =>
    cases hmove with
    | tryGetTask hget =>
      cases hget with
      | popOwn hpop | steal _ hpop =>
        obtain ⟨lane, -, rfl⟩ := PoolState.tryPop_eq_some hpop
        exact .of_eq rfl
      | _ => exact .of_eq rfl
    | begin => exact .of_cons rfl .begun
    | complete hcomplete =>
      obtain ⟨tagNodes, waiters, rfl⟩ := PoolState.completeTaggedTask_setTags hcomplete
      exact .of_eq rfl
    | scopeEnd => exact .of_cons rfl (.done (hf _ rfl))
    | _ => exact .of_eq rfl
  | enqueue hmove =>
    cases hmove with
    | drop hemplace hnode hretired =>
      have hmarked : ¬ s.pool.NoneRetired := by
        intro hnone
        rw [hnone.tryEmplace hemplace _ _ hnode] at hretired
        cases hretired
      obtain ⟨tagStates, tagNodes, rfl⟩ := PoolState.tryEmplace_setTags hemplace
      exact .of_cons rfl (.dropped hmarked)
    | register hemplace =>
      obtain ⟨tagStates, tagNodes, rfl⟩ := PoolState.tryEmplace_setTags hemplace
      exact .of_cons rfl .registered
    | push hpush =>
      obtain ⟨lane, -, rfl⟩ := PoolState.push_eq_some hpush
      exact .of_eq rfl
    | complete hcomplete =>
      obtain ⟨tagNodes, waiters, rfl⟩ := PoolState.completeTaggedTask_setTags hcomplete
      exact .of_eq rfl
    | rethrow => exact .of_cons rfl .discarded
    | _ => exact .of_eq rfl
  | @retire tag pc pool after hmove =>
    cases hmove with
    | setRetired => exact .of_cons rfl (.retired rfl)
    | @sweep tagState i removedCount h =>
      refine ⟨_, rfl, ?_⟩
      intro e he
      obtain ⟨item, -, rfl⟩ := List.mem_map.mp he
      exact .removed rfl
    | subtractOutstanding _ hwait | wait _ hwait =>
      cases hwait with
      | finish => exact .of_eq (congrArg History.events (PoolState.eraseTag_history _ _ _))
      | block => exact .of_eq rfl
    | _ => exact .of_eq rfl
  | finishAllThreads hmove =>
    cases hmove with
    | pop _ hpop =>
      obtain ⟨lane, -, rfl⟩ := PoolState.tryPop_eq_some hpop
      exact .finishLocal _ _ fun id fate hfate => .done (hf fate hfate)
    | begin => exact .of_cons rfl .begun
    | complete hcomplete =>
      obtain ⟨tagNodes, waiters, rfl⟩ := PoolState.completeTaggedTask_setTags hcomplete
      exact .of_eq rfl
    | assertQueued => exact .finishLocal _ _ fun id fate hfate => .done (hf fate hfate)
    | _ => exact .of_eq rfl
  | abandonAllThreads => cases habandon
  | parallelFor hmove => cases hmove <;> exact .of_eq rfl
  | parallelForAsync hmove => cases hmove <;> exact .of_eq rfl
  | drainIndices hmove => cases hmove <;> exact .of_eq rfl
  | _ => exact .of_eq rfl

theorem PoolSystem.not_abandoned {s : PoolSystem cfg U clients}
    (hreach : (poolSystem cfg U clients).ReachableUnder NotAbandoned s) (id : ℕ) :
    .finished id .abandoned ∉ s.shared.pool.history.events := by
  refine TransitionSystem.ReachableUnder.invariant (fun s : PoolSystem cfg U clients =>
    .finished id .abandoned ∉ s.shared.pool.history.events) ?_ (fun s s' hr hI hstep _ => ?_) hreach
  · rintro s ⟨main, rfl⟩ _
    exact List.not_mem_nil
  · cases step_move hstep with
    | @mk shared' before after rest t hstack hrule =>
      cases hrule with
      | unwind => exact hI
      | @frame _ _ f _ _ hmove =>
        have hmem : f ∈ s.threads t := hstack ▸ List.mem_cons_self
        have hadds := hmove.records (fateOfLoop hr.reachable t f hmem) (hr.keeps t f hmem)
        intro hevent
        obtain hrecords | hold := hadds.mem hevent
        · cases hrecords with
          | done hfate => cases hfate
        · exact hI hold

end CppUtils
