import CppUtils.Lib.FairRuns
import CppUtils.Lib.TransitionSystem
import Mathlib

/-!
# The interruptable thread

One owner starts, joins and destroys a `CInterruptableThread`; any thread may request cancellation; the
payload reads the flag. `start` clears the flag before it assigns to `_thread`, and assigning over a
joinable `std::thread` ends the process. Each run of the payload has a number.
-/

namespace CppUtils.Threading.InterruptableThread

inductive PayloadStep (Code : Type)
  | goOn (code : Code)
  | ret
  | throw

/-- Payloads. What one does may depend on inputs the class does not see. -/
structure PayloadCode where
  Code : Type
  Input : Type
  next : Code → Bool → Input → PayloadStep Code
  nonempty : Nonempty Input

variable {P : PayloadCode}

/-- Where a run is: before the payload, in it, in a `catch` block, or at its end. -/
inductive RunPc (P : PayloadCode)
  | setThreadName (payload : P.Code)
  | payload (code : P.Code)
  | log
  | ended

inductive OwnerPc (P : PayloadCode)
  | outside
  | createThread (payload : P.Code)
  | assignThread (run : ℕ)
  | join
  | destroyJoin
  | destroyed

/-- What happened: a start, with the flag just cleared, on a thread that was joinable or not; a run was
created; a cancellation was requested; a run read the flag. -/
inductive Event
  | started (joinable : Bool)
  | created (run : ℕ)
  | requested
  | read (run : ℕ) (value : Bool)
  deriving DecidableEq

/-- The members, with where everyone is. `thread` is the run that `_thread` stands for. -/
structure State (P : PayloadCode) where
  cancellationRequested : Bool
  thread : Option ℕ
  runs : List (RunPc P)
  owner : OwnerPc P
  terminated : Bool
  events : List Event

def State.initial (P : PayloadCode) : State P := ⟨false, none, [], .outside, false, []⟩

inductive Party
  | owner
  | other
  | run (index : ℕ)
  deriving DecidableEq

/-- What the surroundings decide: which function is called, whether a thread can be created, and what a
payload sees. -/
inductive Choice (P : PayloadCode)
  | go
  | start (payload : P.Code)
  | join
  | destroy
  | requestCancellation
  | createFails
  | input (i : P.Input)

namespace State

variable (s : State P)

/-- `_thread.join()`, if it is joinable; none while the run goes on. -/
def joinThread : Option (State P) :=
  match s.thread with
  | none => some s
  | some run =>
    match s.runs[run]? with
    | some .ended => some { s with thread := none }
    | _ => none

def requestCancellation : State P :=
  { s with cancellationRequested := true, events := s.events ++ [.requested] }

def ownerStep (c : Choice P) : Option (State P) :=
  match s.owner, c with
  | .outside, .start payload =>
    some { s with
      cancellationRequested := false
      owner := .createThread payload
      events := s.events ++ [.started s.thread.isSome] }
  | .createThread payload, .go =>
    some { s with
      runs := s.runs ++ [.setThreadName payload]
      owner := .assignThread s.runs.length
      events := s.events ++ [.created s.runs.length] }
  | .createThread _, .createFails => some { s with owner := .outside }
  | .assignThread run, .go =>
    match s.thread with
    | none => some { s with thread := some run, owner := .outside }
    | some _ => some { s with terminated := true }
  | .outside, .join => some { s with owner := .join }
  | .join, .go => s.joinThread.map fun s' => { s' with owner := .outside }
  | .outside, .destroy => some { s.requestCancellation with owner := .destroyJoin }
  | .destroyJoin, .go => s.joinThread.map fun s' => { s' with owner := .destroyed }
  | _, _ => none

/-- One step of a run. What the payload throws is caught. -/
def runStep (run : ℕ) (c : Choice P) : Option (State P) :=
  match s.runs[run]?, c with
  | some (.setThreadName payload), .go => some { s with runs := s.runs.set run (.payload payload) }
  | some (.payload code), .input i =>
    let pc := match P.next code s.cancellationRequested i with
      | .goOn code => .payload code
      | .ret => .ended
      | .throw => .log
    some { s with runs := s.runs.set run pc, events := s.events ++ [.read run s.cancellationRequested] }
  | some .log, .go => some { s with runs := s.runs.set run .ended }
  | _, _ => none

/-- One step of another thread: it requests cancellation, or it does something else. -/
def otherStep (c : Choice P) : Option (State P) :=
  match s.owner, c with
  | .destroyed, .requestCancellation => none
  | _, .requestCancellation => some s.requestCancellation
  | _, .go => some s
  | _, _ => none

end State

def step (t : Party) (c : Choice P) (s : State P) : Option (State P) :=
  if s.terminated = true then none
  else
    match t with
    | .owner => s.ownerStep c
    | .other => s.otherStep c
    | .run index => s.runStep index c

def system (P : PayloadCode) : TransitionSystem (State P) where
  Init s := s = State.initial P
  Step s s' := ∃ t c, step t c s = some s'

/-! ### One step -/

variable {s s' : State P}

inductive Moved (s : State P) : Party → State P → Prop
  | start (payload : P.Code) (howner : s.owner = .outside) :
    Moved s .owner { s with
      cancellationRequested := false
      owner := .createThread payload
      events := s.events ++ [.started s.thread.isSome] }
  | create {payload : P.Code} (howner : s.owner = .createThread payload) :
    Moved s .owner { s with
      runs := s.runs ++ [.setThreadName payload]
      owner := .assignThread s.runs.length
      events := s.events ++ [.created s.runs.length] }
  | createFails {payload : P.Code} (howner : s.owner = .createThread payload) :
    Moved s .owner { s with owner := .outside }
  | assign {run : ℕ} (howner : s.owner = .assignThread run) (hthread : s.thread = none) :
    Moved s .owner { s with thread := some run, owner := .outside }
  | terminate {run other : ℕ} (howner : s.owner = .assignThread run) (hthread : s.thread = some other) :
    Moved s .owner { s with terminated := true }
  | join (howner : s.owner = .outside) : Moved s .owner { s with owner := .join }
  | destroy (howner : s.owner = .outside) :
    Moved s .owner { s.requestCancellation with owner := .destroyJoin }
  | joined (owner : OwnerPc P) (hended : ∀ run, s.thread = some run → s.runs[run]? = some .ended)
    (howner : s.owner = .join ∧ owner = .outside ∨ s.owner = .destroyJoin ∧ owner = .destroyed) :
    Moved s .owner { s with thread := none, owner := owner }
  | run {run : ℕ} {pc : RunPc P} (pc' : RunPc P) (hpc : s.runs[run]? = some pc)
    (hmoves : (∃ payload, pc = .setThreadName payload ∧ pc' = .payload payload) ∨ pc = .log ∧ pc' = .ended) :
    Moved s (.run run) { s with runs := s.runs.set run pc' }
  | read {run : ℕ} {code : P.Code} (i : P.Input) (pc' : RunPc P) (hpc : s.runs[run]? = some (.payload code))
    (hmoves : match P.next code s.cancellationRequested i with
      | .goOn code => pc' = .payload code
      | .ret => pc' = .ended
      | .throw => pc' = .log) :
    Moved s (.run run) { s with
      runs := s.runs.set run pc'
      events := s.events ++ [.read run s.cancellationRequested] }
  | request (howner : s.owner ≠ .destroyed) : Moved s .other s.requestCancellation
  | other : Moved s .other s

theorem joinThread_eq_some (h : s.joinThread = some s') :
    (∀ run, s.thread = some run → s.runs[run]? = some .ended) ∧ s' = { s with thread := none } := by
  unfold State.joinThread at h
  split at h
  · rename_i hthread
    cases h
    refine ⟨fun run hrun => ?_, ?_⟩
    · rw [hthread] at hrun
      cases hrun
    · rw [← hthread]
  · rename_i run hthread
    split at h
    · rename_i hended
      cases h
      refine ⟨fun run' hrun => ?_, rfl⟩
      rw [hthread] at hrun
      cases hrun
      exact hended
    · cases h

theorem ownerStep_moved {c : Choice P} (h : s.ownerStep c = some s') : Moved s .owner s' := by
  unfold State.ownerStep at h
  split at h
  case h_1 payload howner =>
    cases h
    exact .start payload howner
  case h_2 howner =>
    cases h
    exact .create howner
  case h_3 howner =>
    cases h
    exact .createFails howner
  case h_4 howner =>
    split at h
    · cases h
      exact .assign howner ‹_›
    · cases h
      exact .terminate howner ‹_›
  case h_5 howner =>
    cases h
    exact .join howner
  case h_6 howner =>
    obtain ⟨s₁, hjoin, rfl⟩ := Option.map_eq_some_iff.mp h
    obtain ⟨hended, rfl⟩ := joinThread_eq_some hjoin
    exact .joined .outside hended (.inl ⟨howner, rfl⟩)
  case h_7 howner =>
    cases h
    exact .destroy howner
  case h_8 howner =>
    obtain ⟨s₁, hjoin, rfl⟩ := Option.map_eq_some_iff.mp h
    obtain ⟨hended, rfl⟩ := joinThread_eq_some hjoin
    exact .joined .destroyed hended (.inr ⟨howner, rfl⟩)
  case h_9 => cases h

theorem runStep_moved {run : ℕ} {c : Choice P} (h : s.runStep run c = some s') : Moved s (.run run) s' := by
  unfold State.runStep at h
  split at h
  case h_1 payload hpc =>
    cases h
    exact .run _ hpc (.inl ⟨payload, rfl, rfl⟩)
  case h_2 code i hpc =>
    cases h
    refine .read i _ hpc ?_
    cases P.next code s.cancellationRequested i <;> rfl
  case h_3 hpc =>
    cases h
    exact .run _ hpc (.inr ⟨rfl, rfl⟩)
  case h_4 => cases h

theorem otherStep_moved {c : Choice P} (h : s.otherStep c = some s') : Moved s .other s' := by
  unfold State.otherStep at h
  split at h
  case h_1 => cases h
  case h_2 howner =>
    cases h
    exact .request howner
  case h_3 =>
    cases h
    exact .other
  case h_4 => cases h

theorem step_moved {t : Party} {c : Choice P} (h : step t c s = some s') :
    s.terminated = false ∧ Moved s t s' := by
  unfold step at h
  split at h
  · cases h
  · rename_i hrunning
    refine ⟨by simpa using hrunning, ?_⟩
    cases t with
    | owner => exact ownerStep_moved h
    | other => exact otherStep_moved h
    | run => exact runStep_moved h

/-! ### The events since the last start -/

def Event.isStarted : Event → Bool
  | .started _ => true
  | _ => false

def sinceStart (events : List Event) : List Event := events.rtakeWhile fun event => !event.isStarted

@[simp] theorem sinceStart_started (events : List Event) (joinable : Bool) :
    sinceStart (events ++ [.started joinable]) = [] :=
  List.rtakeWhile_concat_neg _ _ _ (by simp [Event.isStarted])

@[simp] theorem sinceStart_created (events : List Event) (run : ℕ) :
    sinceStart (events ++ [.created run]) = sinceStart events ++ [.created run] :=
  List.rtakeWhile_concat_pos _ _ _ (by simp [Event.isStarted])

@[simp] theorem sinceStart_requested (events : List Event) :
    sinceStart (events ++ [.requested]) = sinceStart events ++ [.requested] :=
  List.rtakeWhile_concat_pos _ _ _ (by simp [Event.isStarted])

@[simp] theorem sinceStart_read (events : List Event) (run : ℕ) (value : Bool) :
    sinceStart (events ++ [.read run value]) = sinceStart events ++ [.read run value] :=
  List.rtakeWhile_concat_pos _ _ _ (by simp [Event.isStarted])

namespace State

def Running (s : State P) (run : ℕ) : Prop := ∃ pc, s.runs[run]? = some pc ∧ pc ≠ .ended

/-- The run that `_thread` stands for, or is about to. -/
def Bound (s : State P) (run : ℕ) : Prop := s.thread = some run ∨ s.owner = .assignThread run

/-- `start` was called while a run was not joined yet. -/
def Misused (s : State P) : Prop := .started true ∈ s.events

structure Sound (s : State P) : Prop where
  running : ∀ run, s.Running run → s.Bound run
  known : ∀ run, s.Bound run → run < s.runs.length
  starting : ∀ run, s.thread = some run →
    (∃ payload, s.owner = .createThread payload) ∨ (∃ run', s.owner = .assignThread run') → s.Misused
  bound : ∀ run, s.Bound run → s.Misused ∨ .created run ∈ sinceStart s.events
  flag : s.cancellationRequested = true ↔ .requested ∈ sinceStart s.events
  terminated : s.terminated = true → s.Misused ∧ ∃ run, s.owner = .assignThread run
  destroying : s.owner = .destroyJoin → s.cancellationRequested = true
  destroyed : s.owner = .destroyed → s.thread = none

theorem Running.of_set {run k : ℕ} {pc pc' : RunPc P} (h : s'.Running k) (hruns : s'.runs = s.runs.set run pc')
    (hpc : s.runs[run]? = some pc) (hne : pc ≠ .ended) : s.Running k := by
  obtain ⟨pc₁, hpc₁, hne₁⟩ := h
  by_cases hk : run = k
  · subst hk
    exact ⟨pc, hpc, hne⟩
  · rw [hruns, List.getElem?_set_ne hk] at hpc₁
    exact ⟨pc₁, hpc₁, hne₁⟩

namespace Sound

/-- A step of a run or of another thread, which at most reads the flag or sets it. -/
theorem elsewhere {event : Event} (h : s.Sound) (hterminated : s.terminated = false)
    (hrunning : ∀ run, s'.Running run → s.Running run) (hlength : s'.runs.length = s.runs.length)
    (hthread : s'.thread = s.thread)
    (howner : s'.owner = s.owner) (hevents : s'.events = s.events ++ [event])
    (hstarted : event.isStarted = false) (hterminated' : s'.terminated = s.terminated)
    (hflag : s'.cancellationRequested = true ↔ s.cancellationRequested = true ∨ event = .requested) :
    s'.Sound := by
  have hsince : sinceStart s'.events = sinceStart s.events ++ [event] := by
    rw [hevents]
    exact List.rtakeWhile_concat_pos _ _ _ (by simp [hstarted])
  have hmisused : s.Misused → s'.Misused := fun hmisused => by
    rw [Misused, hevents]
    exact List.mem_append_left _ hmisused
  constructor
  · intro run hrun
    rw [Bound, hthread, howner]
    exact h.running run (hrunning run hrun)
  · intro run hbound
    rw [Bound, hthread, howner] at hbound
    exact hlength ▸ h.known run hbound
  · intro run hrun hstarting
    rw [hthread] at hrun
    rw [howner] at hstarting
    exact hmisused (h.starting run hrun hstarting)
  · intro run hbound
    rw [Bound, hthread, howner] at hbound
    rw [hsince]
    exact (h.bound run hbound).imp hmisused (List.mem_append_left _)
  · rw [hflag, h.flag, hsince, List.mem_append, List.mem_singleton, eq_comm]
  · intro hterm
    rw [hterminated', hterminated] at hterm
    cases hterm
  · intro hdestroying
    rw [howner] at hdestroying
    exact hflag.mpr (.inl (h.destroying hdestroying))
  · intro hdestroyed
    rw [howner] at hdestroyed
    rw [hthread]
    exact h.destroyed hdestroyed

theorem moved {t : Party} (h : s.Sound) (hterminated : s.terminated = false) (hmoved : Moved s t s') :
    s'.Sound := by
  have hnever : ∀ {Q : Prop}, s.terminated = true → Q := fun hterm => by
    rw [hterminated] at hterm
    cases hterm
  cases hmoved with
  | start payload howner =>
    have hthread : ∀ run, s.thread = some run → .started true ∈ s.events ++ [.started s.thread.isSome] :=
      fun run hrun => by simp [hrun]
    constructor
    · intro run hrun
      refine .inl ((h.running run hrun).resolve_right ?_)
      rw [howner]
      exact nofun
    · rintro run (hrun | hrun)
      · exact h.known run (.inl hrun)
      · cases hrun
    · exact fun run hrun _ => hthread run hrun
    · rintro run (hrun | hrun)
      · exact .inl (hthread run hrun)
      · cases hrun
    · simp
    · exact hnever
    · exact nofun
    · exact nofun
  | @create payload howner =>
    have hmisused : ∀ run, s.thread = some run → .started true ∈ s.events ++ [.created s.runs.length] :=
      fun run hrun => List.mem_append_left _ (h.starting run hrun (.inl ⟨payload, howner⟩))
    constructor
    · rintro run ⟨pc, hpc, hne⟩
      rw [List.getElem?_append] at hpc
      split at hpc
      · refine .inl ((h.running run ⟨pc, hpc, hne⟩).resolve_right ?_)
        rw [howner]
        exact nofun
      · rename_i hlt
        have hlen := (List.getElem?_eq_some_iff.mp hpc).1
        simp only [List.length_singleton] at hlen
        exact .inr (congrArg OwnerPc.assignThread (by omega))
    · rintro run (hrun | hrun)
      · exact (h.known run (.inl hrun)).trans_le (by simp)
      · cases hrun
        simp
    · exact fun run hrun _ => hmisused run hrun
    · rintro run (hrun | hrun)
      · exact .inl (hmisused run hrun)
      · cases hrun
        exact .inr (by simp)
    · simpa using h.flag
    · exact hnever
    · exact nofun
    · exact nofun
  | @createFails payload howner =>
    constructor
    · intro run hrun
      refine .inl ((h.running run hrun).resolve_right ?_)
      rw [howner]
      exact nofun
    · rintro run (hrun | hrun)
      · exact h.known run (.inl hrun)
      · cases hrun
    · rintro run hrun (⟨_, h'⟩ | ⟨_, h'⟩) <;> cases h'
    · rintro run (hrun | hrun)
      · exact h.bound run (.inl hrun)
      · cases hrun
    · exact h.flag
    · exact hnever
    · exact nofun
    · exact nofun
  | @assign run howner hthread =>
    constructor
    · intro run' hrun
      rcases h.running run' hrun with h' | h'
      · rw [hthread] at h'
        cases h'
      · rw [howner] at h'
        cases h'
        exact .inl rfl
    · rintro run' (hrun | hrun)
      · cases hrun
        exact h.known run (.inr howner)
      · cases hrun
    · rintro run hrun (⟨_, h'⟩ | ⟨_, h'⟩) <;> cases h'
    · rintro run' (hrun | hrun)
      · cases hrun
        exact h.bound run (.inr howner)
      · cases hrun
    · exact h.flag
    · exact hnever
    · exact nofun
    · exact nofun
  | @terminate run other howner hthread =>
    have hmisused := h.starting other hthread (.inr ⟨run, howner⟩)
    exact ⟨h.running, h.known, h.starting, h.bound, h.flag, fun _ => ⟨hmisused, run, howner⟩, h.destroying, h.destroyed⟩
  | join howner =>
    constructor
    · intro run hrun
      refine .inl ((h.running run hrun).resolve_right ?_)
      rw [howner]
      exact nofun
    · rintro run (hrun | hrun)
      · exact h.known run (.inl hrun)
      · cases hrun
    · rintro run hrun (⟨_, h'⟩ | ⟨_, h'⟩) <;> cases h'
    · rintro run (hrun | hrun)
      · exact h.bound run (.inl hrun)
      · cases hrun
    · exact h.flag
    · exact hnever
    · exact nofun
    · exact nofun
  | destroy howner =>
    constructor
    · intro run hrun
      refine .inl ((h.running run hrun).resolve_right ?_)
      rw [howner]
      exact nofun
    · rintro run (hrun | hrun)
      · exact h.known run (.inl hrun)
      · cases hrun
    · rintro run hrun (⟨_, h'⟩ | ⟨_, h'⟩) <;> cases h'
    · rintro run (hrun | hrun)
      · refine (h.bound run (.inl hrun)).imp (List.mem_append_left _) fun hcreated => ?_
        rw [requestCancellation, sinceStart_requested]
        exact List.mem_append_left _ hcreated
      · cases hrun
    · simp [requestCancellation]
    · exact hnever
    · exact fun _ => rfl
    · exact nofun
  | joined owner hended howner =>
    -- The run that was waited for is over, and there is no other.
    have hnone : ∀ run, ¬ s.Running run := fun run hrun => by
      rcases h.running run hrun with hthread | hassign
      · obtain ⟨pc, hpc, hne⟩ := hrun
        rw [hended run hthread] at hpc
        exact hne (Option.some.inj hpc).symm
      · rcases howner with ⟨h', -⟩ | ⟨h', -⟩ <;> rw [h'] at hassign <;> cases hassign
    have hbound : owner = .outside ∨ owner = .destroyed := howner.imp And.right And.right
    have hunbound : ∀ {Q : Prop} run, (none : Option ℕ) = some run ∨ owner = .assignThread run → Q := by
      rintro Q run (hrun | hrun)
      · cases hrun
      · rcases hbound with rfl | rfl <;> cases hrun
    constructor
    · exact fun run hrun => absurd hrun (hnone run)
    · exact fun run hrun => hunbound run hrun
    · exact fun run hrun => nomatch hrun
    · exact fun run hrun => hunbound run hrun
    · exact h.flag
    · exact hnever
    · intro hdestroying
      rcases hbound with rfl | rfl <;> cases hdestroying
    · exact fun _ => rfl
  | @run run pc pc' hpc hmoves =>
    have hne : pc ≠ .ended := by
      rcases hmoves with ⟨payload, rfl, rfl⟩ | ⟨rfl, rfl⟩ <;> exact nofun
    exact ⟨fun k hk => h.running k (hk.of_set rfl hpc hne), fun k hk => by simpa using h.known k hk, h.starting, h.bound, h.flag, hnever,
      h.destroying, h.destroyed⟩
  | read i pc' hpc hmoves =>
    exact h.elsewhere hterminated (fun k hk => hk.of_set rfl hpc nofun) (by simp) rfl rfl rfl rfl rfl (by simp)
  | request howner =>
    exact h.elsewhere hterminated (fun _ => id) rfl rfl rfl rfl rfl rfl (by simp [requestCancellation])
  | other => exact h

end Sound

theorem sound (hreach : (system P).Reachable s) : s.Sound := by
  refine TransitionSystem.Reachable.invariant Sound ?_ ?_ hreach
  · rintro s rfl
    refine ⟨?_, ?_, nofun, ?_, by simp [State.initial, sinceStart], nofun, nofun, fun _ => rfl⟩
    · rintro run ⟨pc, hpc, -⟩
      cases hpc
    all_goals
      rintro run (hrun | hrun) <;> cases hrun
  · rintro s s' - hI ⟨t, c, hstep⟩
    obtain ⟨hterminated, hmoved⟩ := step_moved hstep
    exact hI.moved hterminated hmoved

end State

end CppUtils.Threading.InterruptableThread
