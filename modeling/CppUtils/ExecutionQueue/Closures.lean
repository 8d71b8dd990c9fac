import CppUtils.ExecutionQueue.System

/-!
# The end of a closure

A task is a closure, and its destructor is user code as its body is. `exec` calls the bodies without
`_queueMutex`; where a closure ends is decided by the assignment in `tryPop`, by `erase` and by `clear`,
all of them inside the blocks that hold it.
-/

namespace CppUtils.ExecutionQueue.Closures

open Threaded

/-- The code of the tasks and of the threads, with what the destructor of a closure runs. -/
structure ClosureCode extends UserCode where
  destructor : Code → Code

/-- The blocks that hold `_queueMutex`. `tryPop` overwrites the task that its call of `exec` holds. -/
inductive Block (Code : Type)
  | enqueue (code : Option Code) (tag : ℤ)
  | clear
  | size
  | tryPop (call tasksToExecute : ℕ) (queuedTask : Option Code)

/-- Inside `exec`. From `loop` to the end of the call, `queuedTask` holds the closure last popped. -/
inductive ExecPc (Code : Type)
  | start (mode : ExecutionMode)
  | loop (call tasksToExecute : ℕ) (queuedTask : Option Code)
  | popped (call tasksToExecute : ℕ) (queuedTask : QueuedTask Code)
  | running (call tasksToExecute : ℕ) (queuedTask : QueuedTask Code)
  | leaving (call tasksToExecute : ℕ) (queuedTask : Option Code)
  | left

/-- A call in progress. `locking` is about to lock `_queueMutex`; `locked` holds it, has closures still
to destroy and then lets go of it. -/
inductive Frame (Code : Type)
  | user (code : Code)
  | calling (resume : Option Exception → Code)
  | throwing (e : Exception)
  | locking (block : Block Code)
  | locked (destroyed : List Code) (next : Option (ExecPc Code))
  | exec (pc : ExecPc Code)

/-- The queue and who holds its mutex. -/
structure LockedQueue (ι Code : Type) where
  queue : QueueState Code
  owner : Option ι

variable {ι : Type} {U : ClosureCode}

/-- What a block does to the queue, which closures it destroys and where `exec` goes on. -/
def runBlock {Code : Type} (s : QueueState Code) :
    Block Code → QueueState Code × List Code × Option (ExecPc Code)
  | .enqueue code tag => (s.enqueue code tag, ((s.existingTask tag).bind QueuedTask.code).toList, none)
  | .clear => (s.clear, s.queue.filterMap QueuedTask.code, none)
  | .size => (s.enter .execAll, [], some (.loop s.nextCall (s.tasksToExecute .execAll) none))
  | .tryPop call tasksToExecute queuedTask =>
    match s.tryPop call with
    | none => (s, [], some (.leaving call (tasksToExecute + 1) queuedTask))
    | some (task, s') => (s', queuedTask.toList, some (.popped call tasksToExecute task))

/-- One step of `exec` outside its blocks. -/
def execStep (U : ClosureCode) (s : QueueState U.Code) :
    ExecPc U.Code → QueueState U.Code × List (Frame U.Code)
  | .start .execFirst =>
    (s.enter .execFirst, [.exec (.loop s.nextCall (s.tasksToExecute .execFirst) none)])
  | .start .execAll => (s, [.locking .size])
  | .loop call 0 queuedTask => (s, [.exec (.leaving call 0 queuedTask)])
  | .loop call (tasksToExecute + 1) queuedTask => (s, [.locking (.tryPop call tasksToExecute queuedTask)])
  | .popped call tasksToExecute queuedTask =>
    match queuedTask.code with
    | none => (s, [.exec (.loop call tasksToExecute none)])
    | some code =>
      (s.record (.called queuedTask call), [.user code, .exec (.running call tasksToExecute queuedTask)])
  | .running call tasksToExecute queuedTask => (s, [.exec (.loop call tasksToExecute queuedTask.code)])
  | .leaving call tasksToExecute queuedTask =>
    (s.record (.returned call tasksToExecute),
      queuedTask.toList.map (fun code => .user (U.destructor code)) ++ [.exec .left])
  | .left => (s, [])

def userStep {Code : Type} : UserStep Code → List (Frame Code)
  | .enqueue code tag resume => [.locking (.enqueue code tag), .user resume]
  | .clear resume => [.locking .clear, .user resume]
  | .exec mode resume => [.exec (.start mode), .calling resume]
  | .ret => []
  | .throw e => [.throwing e]

/-- What becomes of a frame when an exception reaches it; a destructor that throws ends the program. -/
def unwind {Code : Type} (s : QueueState Code) (e : Exception) :
    Frame Code → Option (QueueState Code × List (Frame Code))
  | .calling resume => some (s, [.user (resume (some e))])
  | .exec (.running call tasksToExecute queuedTask) =>
    some (s.logException e, [.exec (.loop call tasksToExecute queuedTask.code)])
  | _ => none

abbrev ClosureSystem (ι : Type) (U : ClosureCode) := Threaded ι (LockedQueue ι U.Code) (Frame U.Code)

/-- One step of the innermost frames of a thread. -/
def frameStep (t : ι) (i : U.Input) (s : LockedQueue ι U.Code) :
    List (Frame U.Code) → Option (LockedQueue ι U.Code × List (Frame U.Code))
  | .user code :: rest => some (s, userStep (U.next code i) ++ rest)
  | .calling resume :: rest => some (s, .user (resume none) :: rest)
  | .throwing e :: f :: rest =>
    (unwind s.queue e f).map fun (queue, frames) => ({ s with queue }, frames ++ rest)
  | .locking block :: rest =>
    match s.owner with
    | some _ => none
    | none =>
      let (queue, destroyed, next) := runBlock s.queue block
      some (⟨queue, some t⟩, .locked destroyed next :: rest)
  | .locked (code :: destroyed) next :: rest =>
    some (s, .user (U.destructor code) :: .locked destroyed next :: rest)
  | .locked [] next :: rest => some ({ s with owner := none }, next.toList.map .exec ++ rest)
  | .exec pc :: rest =>
    some ({ s with queue := (execStep U s.queue pc).1 }, (execStep U s.queue pc).2 ++ rest)
  | _ => none

def step [DecidableEq ι] (t : ι) (i : U.Input) (s : ClosureSystem ι U) : Option (ClosureSystem ι U) :=
  (frameStep t i s.shared (s.threads t)).map fun (shared, frames) =>
    ⟨shared, Function.update s.threads t frames⟩

def initialSystem (main : ι → U.Code) : ClosureSystem ι U :=
  ⟨⟨.initial, none⟩, fun t => [.user (main t)]⟩

def closureSystem (ι : Type) (U : ClosureCode) [DecidableEq ι] : TransitionSystem (ClosureSystem ι U) where
  Init s := ∃ main, s = initialSystem main
  Step s s' := ∃ t i, step t i s = some s'

def Frame.isLocking {Code : Type} : Frame Code → Bool
  | .locking _ => true
  | _ => false

def Frame.isLocked {Code : Type} : Frame Code → Bool
  | .locked _ _ => true
  | _ => false

/-- The thread tries to lock the mutex that it holds. -/
def RelocksMutex (s : ClosureSystem ι U) (t : ι) : Prop :=
  (s.threads t).head?.any Frame.isLocking = true ∧ s.shared.owner = some t

/-! ### Destructors that leave the queue alone -/

/-- The destructor of a closure calls nothing of the queue. -/
def QuietlyDestroyed (U : ClosureCode) (code : U.Code) : Prop :=
  ∀ i, U.next (U.destructor code) i = .ret ∨ ∃ e, U.next (U.destructor code) i = .throw e

/-- If the next step of the thread destroys a closure under the mutex, then that closure's destructor
leaves the queue alone. -/
def DestroysQuietly (s : ClosureSystem ι U) (t : ι) : Prop :=
  ∀ code destroyed next rest, s.threads t = .locked (code :: destroyed) next :: rest →
    QuietlyDestroyed U code

def quietSystem (ι : Type) (U : ClosureCode) [DecidableEq ι] : TransitionSystem (ClosureSystem ι U) where
  Init := (closureSystem ι U).Init
  Step s s' := ∃ t i, step t i s = some s' ∧ DestroysQuietly s t

/-! ### Who holds the mutex -/

variable {s s' : LockedQueue ι U.Code} {stack stack' rest : List (Frame U.Code)} {t : ι} {i : U.Input}

/-- No block is in progress. -/
def Free (stack : List (Frame U.Code)) : Prop := ∀ f ∈ stack, f.isLocked = false

/-- The innermost block is in progress, or inside a destructor that leaves the queue alone. -/
inductive Holding (U : ClosureCode) : List (Frame U.Code) → Prop
  | locked {destroyed next rest} (hrest : Free rest) : Holding U (.locked destroyed next :: rest)
  | destructor {code destroyed next rest} (hcode : QuietlyDestroyed U code) (hrest : Free rest) :
    Holding U (.user (U.destructor code) :: .locked destroyed next :: rest)
  | throwing {e destroyed next rest} (hrest : Free rest) :
    Holding U (.throwing e :: .locked destroyed next :: rest)

/-- The owner of the mutex is in a block, and no other thread is. -/
def OwnerInBlock (s : ClosureSystem ι U) : Prop :=
  ∀ t, (s.shared.owner = some t → Holding U (s.threads t)) ∧
    (s.shared.owner ≠ some t → Free (s.threads t))

theorem Free.append (hstack : Free stack) (hrest : Free rest) : Free (stack ++ rest) := by
  intro f hf
  obtain hf | hf := List.mem_append.mp hf
  · exact hstack f hf
  · exact hrest f hf

theorem Free.of_cons {f : Frame U.Code} (h : Free (f :: rest)) : Free rest :=
  fun g hg => h g (List.mem_cons_of_mem f hg)

theorem free_userStep (next : UserStep U.Code) : Free (userStep next) := by
  cases next <;> simp [Free, userStep, Frame.isLocked]

theorem free_execStep (s : QueueState U.Code) (pc : ExecPc U.Code) : Free (execStep U s pc).2 := by
  unfold Free
  cases pc with
  | start mode => cases mode <;> simp [execStep, Frame.isLocked]
  | loop call tasksToExecute queuedTask => cases tasksToExecute <;> simp [execStep, Frame.isLocked]
  | popped call tasksToExecute queuedTask =>
    cases hcode : queuedTask.code <;> simp [execStep, hcode, Frame.isLocked]
  | running call tasksToExecute queuedTask => simp [execStep, Frame.isLocked]
  | leaving call tasksToExecute queuedTask => cases queuedTask <;> simp [execStep, Frame.isLocked]
  | left => simp [execStep]

theorem free_unwind {s s' : QueueState U.Code} {e : Exception} {f : Frame U.Code}
    (h : unwind s e f = some (s', stack)) : Free stack := by
  unfold unwind at h
  split at h
  · cases h
    simp [Free, Frame.isLocked]
  · cases h
    simp [Free, Frame.isLocked]
  · cases h

/-- The owner goes on in its block or leaves it. -/
theorem Holding.frameStep (hholding : Holding U stack) (howner : s.owner = some t)
    (hquiet : ∀ code destroyed next rest, stack = .locked (code :: destroyed) next :: rest →
      QuietlyDestroyed U code) (hstep : frameStep t i s stack = some (s', stack')) :
    (s'.owner = some t ∧ Holding U stack') ∨ (s'.owner = none ∧ Free stack') := by
  cases hholding with
  | @locked destroyed next rest hrest =>
    cases destroyed with
    | nil =>
      cases hstep
      refine .inr ⟨rfl, Free.append ?_ hrest⟩
      cases next <;> simp [Free, Frame.isLocked]
    | cons code destroyed =>
      cases hstep
      exact .inl ⟨howner, .destructor (hquiet _ _ _ _ rfl) hrest⟩
  | @destructor code destroyed next rest hcode hrest =>
    cases hstep
    obtain hret | ⟨e, hthrow⟩ := hcode i
    · rw [hret]
      exact .inl ⟨howner, .locked hrest⟩
    · rw [hthrow]
      exact .inl ⟨howner, .throwing hrest⟩
  | throwing hrest => cases hstep

theorem Free.frameStep (hfree : Free stack) (hstep : frameStep t i s stack = some (s', stack')) :
    (s'.owner = s.owner ∧ Free stack') ∨
      (s.owner = none ∧ s'.owner = some t ∧ Holding U stack') := by
  cases stack with
  | nil => cases hstep
  | cons f rest =>
    have hrest := hfree.of_cons
    cases f with
    | user code =>
      cases hstep
      exact .inl ⟨rfl, (free_userStep _).append hrest⟩
    | calling resume =>
      cases hstep
      have hresume : Free [Frame.user (resume none)] := by simp [Free, Frame.isLocked]
      exact .inl ⟨rfl, hresume.append hrest⟩
    | throwing e =>
      cases rest with
      | nil => cases hstep
      | cons f rest =>
        obtain ⟨⟨queue, frames⟩, hunwind, heq⟩ := Option.map_eq_some_iff.mp hstep
        cases heq
        exact .inl ⟨rfl, (free_unwind hunwind).append hrest.of_cons⟩
    | locking block =>
      cases howner : s.owner with
      | some u =>
        simp only [Closures.frameStep, howner] at hstep
        cases hstep
      | none =>
        simp only [Closures.frameStep, howner] at hstep
        cases hstep
        exact .inr ⟨rfl, rfl, .locked hrest⟩
    | locked destroyed next =>
      have hlocked := hfree _ List.mem_cons_self
      cases hlocked
    | exec pc =>
      cases hstep
      exact .inl ⟨rfl, (free_execStep _ pc).append hrest⟩

variable [DecidableEq ι]

theorem ownerInBlock_step {s s' : ClosureSystem ι U} (hs : OwnerInBlock s) (hquiet : DestroysQuietly s t)
    (hstep : step t i s = some s') : OwnerInBlock s' := by
  obtain ⟨⟨shared, frames⟩, hframes, rfl⟩ := Option.map_eq_some_iff.mp hstep
  have hkept : ((shared.owner = some t → Holding U frames) ∧ (shared.owner ≠ some t → Free frames)) ∧
      ∀ u ≠ t, shared.owner = some u ↔ s.shared.owner = some u := by
    by_cases howner : s.shared.owner = some t
    · obtain ⟨howner', hframes'⟩ | ⟨hfree, hframes'⟩ := ((hs t).1 howner).frameStep howner hquiet hframes
      · refine ⟨⟨fun _ => hframes', fun hne => absurd howner' hne⟩, ?_⟩
        intro u _
        rw [howner', howner]
      · refine ⟨⟨fun h => ?_, fun _ => hframes'⟩, ?_⟩
        · rw [hfree] at h
          cases h
        · intro u hu
          rw [hfree, howner]
          exact ⟨fun h => (nomatch h), fun h => absurd (Option.some.inj h).symm hu⟩
    · obtain ⟨hsame, hframes'⟩ | ⟨hnone, howner', hframes'⟩ := ((hs t).2 howner).frameStep hframes
      · refine ⟨⟨fun h => absurd (hsame.symm.trans h) howner, fun _ => hframes'⟩, ?_⟩
        intro u _
        rw [hsame]
      · refine ⟨⟨fun _ => hframes', fun hne => absurd howner' hne⟩, ?_⟩
        intro u hu
        rw [hnone, howner']
        exact ⟨fun h => absurd (Option.some.inj h).symm hu, fun h => (nomatch h)⟩
  intro u
  dsimp only
  by_cases hu : u = t
  · subst hu
    rw [Function.update_self]
    exact hkept.1
  · rw [Function.update_of_ne hu]
    refine ⟨fun h => (hs u).1 ((hkept.2 u hu).mp h), fun h => (hs u).2 ?_⟩
    exact fun howner => h ((hkept.2 u hu).mpr howner)

theorem ownerInBlock {s : ClosureSystem ι U} (hreach : (quietSystem ι U).Reachable s) : OwnerInBlock s := by
  refine TransitionSystem.Reachable.invariant OwnerInBlock ?_ ?_ hreach
  · rintro _ ⟨main, rfl⟩ t
    refine ⟨fun h => (nomatch h), ?_⟩
    intro _ f hf
    rw [List.mem_singleton.mp hf]
    rfl
  · rintro s s' _ hs ⟨t, i, hstep, hquiet⟩
    exact ownerInBlock_step hs hquiet hstep

theorem step_of_frameStep {threads : ι → List (Frame U.Code)}
    (hframes : frameStep t i s stack = some (s', stack')) :
    (closureSystem ι U).Step ⟨s, Function.update threads t stack⟩ ⟨s', Function.update threads t stack'⟩ := by
  refine ⟨t, i, ?_⟩
  unfold step
  dsimp only
  rw [Function.update_self, hframes, Option.map_some, Function.update_idem]

/-- A destructor that calls the queue while its closure is destroyed in a block comes to lock the mutex
again. -/
theorem exists_relocksMutex {s : ClosureSystem ι U} (howner : s.shared.owner = some t)
    (hloud : ¬ DestroysQuietly s t) :
    ∃ s', (closureSystem ι U).Steps s s' ∧ RelocksMutex s' t := by
  unfold DestroysQuietly QuietlyDestroyed at hloud
  push Not at hloud
  obtain ⟨code, destroyed, next, rest, hstack, i, hret, hthrow⟩ := hloud
  -- What the destructor's call puts on top of the block leads to a block of its own.
  have hreaches : ∀ above, userStep (U.next (U.destructor code) i) = above →
      (∃ queue block above', (closureSystem ι U).Steps
        ⟨s.shared, Function.update s.threads t (above ++ .locked destroyed next :: rest)⟩
        ⟨{ s.shared with queue }, Function.update s.threads t (.locking block :: above')⟩) →
      ∃ s', (closureSystem ι U).Steps s s' ∧ RelocksMutex s' t := by
    rintro above habove ⟨queue, block, above', hsteps⟩
    have hdestroy : (closureSystem ι U).Step s ⟨s.shared, Function.update s.threads t
        (.user (U.destructor code) :: .locked destroyed next :: rest)⟩ := by
      refine ⟨t, i, ?_⟩
      rw [step, hstack]
      rfl
    have hcall : frameStep t i s.shared (.user (U.destructor code) :: .locked destroyed next :: rest) =
        some (s.shared, above ++ .locked destroyed next :: rest) := by
      rw [frameStep, habove]
    refine ⟨_, .head hdestroy (.head (step_of_frameStep hcall) hsteps), ?_, howner⟩
    dsimp only
    rw [Function.update_self]
    rfl
  cases hcall : U.next (U.destructor code) i with
  | ret => exact absurd hcall hret
  | throw e => exact absurd hcall (hthrow e)
  | enqueue new tag resume => exact hreaches _ (by rw [hcall]) ⟨_, _, _, .refl⟩
  | clear resume => exact hreaches _ (by rw [hcall]) ⟨_, _, _, .refl⟩
  | exec mode resume =>
    refine hreaches _ (by rw [hcall]) ?_
    cases mode with
    | execAll => exact ⟨_, _, _, .single (step_of_frameStep (i := i) rfl)⟩
    | execFirst =>
      exact ⟨_, _, _, .head (step_of_frameStep (i := i) rfl) (.single (step_of_frameStep (i := i) rfl))⟩

/-- With such destructors no thread tries to lock the mutex that it holds; with the first other one that is
destroyed in a block, the thread that destroys it can come to do so. -/
theorem not_relocksMutex_of_quiet {s : ClosureSystem ι U} (hreach : (quietSystem ι U).Reachable s)
    (t : ι) : ¬ RelocksMutex s t ∧
      (¬ DestroysQuietly s t → ∃ s', (closureSystem ι U).Steps s s' ∧ RelocksMutex s' t) := by
  have hs := ownerInBlock hreach
  constructor
  · rintro ⟨hlocking, howner⟩
    have hholding := (hs t).1 howner
    generalize s.threads t = stack at hholding hlocking
    cases hholding <;> cases hlocking
  · intro hloud
    refine exists_relocksMutex ?_ hloud
    by_contra hother
    refine hloud fun code destroyed next rest hstack => ?_
    have hlocked := (hs t).2 hother (.locked (code :: destroyed) next) (hstack ▸ List.mem_cons_self)
    cases hlocked

/-! ### A task that releases a capture -/

/-- Code of one thread: `main` enqueues a task with a capture and another task and executes both, `alone`
enqueues and executes the first. Released, the capture enqueues something. -/
inductive CaptureCode
  | main
  | enqueuedOne
  | enqueuedBoth
  | alone
  | enqueuedAlone
  | task
  | release
  | done

def captureCode : ClosureCode where
  Code := CaptureCode
  Input := Unit
  next
    | .main, _ => .enqueue (some .task) untagged .enqueuedOne
    | .enqueuedOne, _ => .enqueue (some .done) untagged .enqueuedBoth
    | .enqueuedBoth, _ => .exec .execAll fun _ => .done
    | .alone, _ => .enqueue (some .task) untagged .enqueuedAlone
    | .enqueuedAlone, _ => .exec .execFirst fun _ => .done
    | .release, _ => .enqueue (some .done) untagged .done
    | .task, _ => .ret
    | .done, _ => .ret
  destructor
    | .task => .release
    | _ => .done

/-- A number of steps of one thread, none of which destroys a closure under the mutex if `quiet` is set. -/
def runAlone (quiet : Bool) (n : ℕ) (first : CaptureCode) : Option (ClosureSystem Unit captureCode) :=
  (List.replicate n ()).foldlM (fun s _ =>
    match quiet, s.threads () with
    | true, .locked (_ :: _) _ :: _ => none
    | _, _ => step () () s) (initialSystem fun _ => first)

theorem runAlone_reachable {n : ℕ} {first : CaptureCode} {s : ClosureSystem Unit captureCode}
    (h : runAlone true n first = some s) : (quietSystem Unit captureCode).Reachable s := by
  refine TransitionSystem.Reachable.steps (.init ⟨_, rfl⟩ trivial)
    (TransitionSystem.steps_of_foldlM (T := quietSystem Unit captureCode) ?_ h)
  intro s _ s' hstep
  split at hstep
  · cases hstep
  · rename_i hnone
    refine ⟨(), (), hstep, ?_⟩
    intro code destroyed next rest hstack
    exact absurd hstack (hnone code destroyed next rest rfl)

/-- The last task of a call of `exec` ends after the call's last block, and its capture may enqueue. -/
theorem not_relocksMutex_of_quiet_alone : ∃ s, runAlone true 14 .alone = some s ∧
    (s.threads ()).head?.any Frame.isLocking = true ∧ ¬ RelocksMutex s () := by
  have hrun : (runAlone true 14 .alone).map (fun s => (s.threads ()).head?.any Frame.isLocking)
      = some true := by decide
  obtain ⟨s, hs, hlocking⟩ := Option.map_eq_some_iff.mp hrun
  exact ⟨s, hs, hlocking, (not_relocksMutex_of_quiet (runAlone_reachable hs) ()).1⟩

/-- Any task before the last ends in the block that pops the next one. -/
theorem relocksMutex_captureReleased : ¬ ∀ (U : ClosureCode) (s : ClosureSystem Unit U),
    (closureSystem Unit U).Reachable s → ∀ t, ¬ RelocksMutex s t := by
  intro h
  have hrun : (runAlone false 20 .main).map
      (fun s => ((s.threads ()).head?.any Frame.isLocking, s.shared.owner)) = some (true, some ()) := by
    decide
  obtain ⟨s, hs, hvalues⟩ := Option.map_eq_some_iff.mp hrun
  have hreach : (closureSystem Unit captureCode).Reachable s := by
    refine TransitionSystem.Reachable.steps (.init ⟨_, rfl⟩ trivial)
      (TransitionSystem.steps_of_foldlM (T := closureSystem Unit captureCode) ?_ hs)
    exact fun s _ s' hstep => ⟨(), (), hstep⟩
  exact h captureCode s hreach () ⟨(Prod.mk.inj hvalues).1, (Prod.mk.inj hvalues).2⟩

end CppUtils.ExecutionQueue.Closures
