import CppUtils.PeriodicThread.Pausing

/-!
# Pausing and resuming in one period wait

`pause` ends the wait for the period by its notification and by the flag that the thread looks at once
it has the mutex again. A `resume` before that look takes the flag back, and the thread goes on waiting.
-/

namespace CppUtils.PeriodicThread

open State

variable {s s' : State} {action : Action} {since : List Event}

/-- The thread is blocked for the period, or is woken and has not yet looked at the flags. -/
def InPeriodWait (s : State) : Prop :=
  s.worker = .periodBlocked ∨ ∃ cause, s.worker = .periodWoken cause

/-- The steps of a system that stay in one period wait. -/
abbrev WaitSteps (T : TransitionSystem State) : State → State → Prop :=
  Relation.ReflTransGen fun s s' => T.Step s s' ∧ InPeriodWait s'

/-- A `resume` takes back the flag of a `pause` that the woken thread has not seen, and the period is
not over. -/
def ResumesUnseenPause (s : State) (action : Action) : Prop :=
  action = .owner .resume ∧ s.owner = .outside ∧ s.paused = true ∧
    ∃ cause, cause ≠ .timeout ∧ s.worker = .periodWoken cause

/-- The runs in which no `resume` comes that early. -/
def seenPauseSystem : TransitionSystem State where
  Init := periodicSystem.Init
  Step s s' := ∃ action, s.step action = some s' ∧ ¬ ResumesUnseenPause s action

/-- What becomes of `_paused` with an event. -/
def Event.pausedAfter (paused : Bool) : Event → Bool
  | .paused => true
  | .resumed => false
  | _ => paused

theorem pausedAfter_resumed (paused : Bool) (before : List Event) {after : List Event} (h : .paused ∉ after) :
    (before ++ .resumed :: after).foldl Event.pausedAfter paused = false := by
  have hkept : ∀ after : List Event, .paused ∉ after → after.foldl Event.pausedAfter false = false := by
    intro after
    induction after with
    | nil => exact fun _ => rfl
    | cons e after ih =>
      intro h
      rw [List.mem_cons, not_or] at h
      have he : e.pausedAfter false = false := by
        cases e with
        | paused => exact absurd rfl h.1
        | _ => rfl
      rw [List.foldl_cons, he]
      exact ih h.2
  rw [List.foldl_append, List.foldl_cons]
  exact hkept after h

structure BeforeCall (s : State) : Prop where
  notInWorkload : s.worker ≠ .inWorkload
  notPastWorkload : s.worker ≠ .periodWait
  parked : s.worker = .pauseBlocked → s.paused = true

/-- From a `pause` on, the thread leaves its period wait when it looks at the flags. -/
structure LeavesPeriod (s : State) : Prop extends BeforeCall s where
  notBlocked : s.worker ≠ .periodBlocked
  woken : ∀ cause, s.worker = .periodWoken cause → s.paused = true ∨ cause = .timeout

@[simp] theorem leavePause_history (s : State) : s.leavePause.history = s.history := by
  unfold State.leavePause
  split <;> rfl

@[simp] theorem leavePeriod_history (s : State) : s.leavePeriod.history = s.history := by
  unfold State.leavePeriod
  split <;> rfl

@[simp] theorem leavePause_paused (s : State) : s.leavePause.paused = s.paused := by
  unfold State.leavePause
  split <;> rfl

@[simp] theorem leavePeriod_paused (s : State) : s.leavePeriod.paused = s.paused := by
  unfold State.leavePeriod
  split <;> rfl

/-- A step records one event at most, which tells what becomes of `_paused`; and only `pause` records that
one. -/
def StepRecords (s s' : State) : Prop :=
  (s'.history = s.history ∧ s'.paused = s.paused) ∨
    ∃ e : Event, s'.history = s.history ++ [e] ∧ s'.paused = e.pausedAfter s.paused ∧ (e = .paused → s' = s.pause)

theorem ownerStep_records {call : Call} (hstep : s.ownerStep call = some s') : StepRecords s s' := by
  unfold State.ownerStep at hstep
  cases howner : s.owner with
  | outside =>
    rw [howner] at hstep
    cases call with
    | setWorkload workload =>
      obtain rfl := Option.some.inj hstep
      unfold State.setWorkload
      split <;> exact .inl ⟨rfl, rfl⟩
    | start workload delayBeforeStartMs =>
      obtain rfl := Option.some.inj hstep
      unfold State.start
      split
      · exact .inr ⟨.started, rfl, rfl, fun h => nomatch h⟩
      · exact .inl ⟨rfl, rfl⟩
    | pause =>
      obtain rfl := Option.some.inj hstep
      exact .inr ⟨.paused, rfl, rfl, fun _ => rfl⟩
    | resume =>
      obtain rfl := Option.some.inj hstep
      exact .inr ⟨.resumed, rfl, rfl, fun h => nomatch h⟩
    | terminate =>
      dsimp only at hstep
      split at hstep
      · obtain rfl := Option.some.inj hstep
        exact .inl ⟨rfl, rfl⟩
      · obtain rfl := Option.some.inj hstep
        exact .inr ⟨.terminated, rfl, rfl, fun h => nomatch h⟩
  | setTerminate =>
    rw [howner] at hstep
    obtain rfl := Option.some.inj hstep
    exact .inr ⟨.terminateSet, rfl, rfl, fun h => nomatch h⟩
  | join =>
    rw [howner] at hstep
    dsimp only at hstep
    split at hstep
    · obtain rfl := Option.some.inj hstep
      exact .inl ⟨rfl, rfl⟩
    · cases hstep
  | resetTerminate =>
    rw [howner] at hstep
    obtain rfl := Option.some.inj hstep
    exact .inr ⟨.terminated, rfl, rfl, fun h => nomatch h⟩

theorem workerStep_records {choice : Choice} (hstep : s.workerStep choice = some s') : StepRecords s s' := by
  unfold State.workerStep at hstep
  split at hstep
  case h_9 =>
    obtain rfl := Option.some.inj hstep
    exact .inr ⟨.workloadBegun, rfl, rfl, fun h => nomatch h⟩
  case h_10 =>
    obtain rfl := Option.some.inj hstep
    exact .inr ⟨.workloadEnded, rfl, rfl, fun h => nomatch h⟩
  case h_15 => cases hstep
  all_goals
    left
    repeat' split at hstep
    all_goals
      obtain rfl := Option.some.inj hstep
      simp [goTo]

theorem step_records (hstep : s.step action = some s') : StepRecords s s' := by
  cases action with
  | owner call => exact ownerStep_records hstep
  | worker choice => exact workerStep_records hstep

/-! ### The steps before the next call -/

theorem ownerStep_cases {call : Call} (hstep : s.ownerStep call = some s') :
    (s'.worker = s.worker ∧ s'.paused = s.paused) ∨ (s'.worker = s.worker.notify ∧ s'.paused = s.paused) ∨
      s'.worker = .none ∨ (∃ delay, s'.worker = .starting delay) ∨ s' = s.pause ∨
      (call = .resume ∧ s.owner = .outside ∧ s' = s.resume) := by
  unfold State.ownerStep at hstep
  cases howner : s.owner with
  | outside =>
    rw [howner] at hstep
    cases call with
    | setWorkload workload =>
      obtain rfl := Option.some.inj hstep
      unfold State.setWorkload
      split <;> exact .inl ⟨rfl, rfl⟩
    | start workload delayBeforeStartMs =>
      obtain rfl := Option.some.inj hstep
      unfold State.start
      split
      · exact .inr (.inr (.inr (.inl ⟨_, rfl⟩)))
      · exact .inl ⟨rfl, rfl⟩
    | pause => exact .inr (.inr (.inr (.inr (.inl (Option.some.inj hstep).symm))))
    | resume => exact .inr (.inr (.inr (.inr (.inr ⟨rfl, rfl, (Option.some.inj hstep).symm⟩))))
    | terminate =>
      dsimp only at hstep
      split at hstep <;> obtain rfl := Option.some.inj hstep <;> exact .inl ⟨rfl, rfl⟩
  | setTerminate =>
    rw [howner] at hstep
    obtain rfl := Option.some.inj hstep
    exact .inr (.inl ⟨rfl, rfl⟩)
  | join =>
    rw [howner] at hstep
    dsimp only at hstep
    split at hstep
    · obtain rfl := Option.some.inj hstep
      exact .inr (.inr (.inl rfl))
    · cases hstep
  | resetTerminate =>
    rw [howner] at hstep
    obtain rfl := Option.some.inj hstep
    exact .inl ⟨rfl, rfl⟩

theorem notify_beforeCall (h : BeforeCall s) (hworker : s'.worker = s.worker.notify) : BeforeCall s' := by
  obtain ⟨hin, hpast, hparked⟩ := h
  constructor
  all_goals
    rw [hworker]
    revert hin hpast hparked
    cases s.worker <;> simp [WorkerPc.notify]

theorem BeforeCall.pause (h : BeforeCall s) : LeavesPeriod s.pause where
  toBeforeCall := notify_beforeCall h rfl
  notBlocked := by
    change s.worker.notify ≠ .periodBlocked
    cases s.worker <;> simp [WorkerPc.notify]
  woken _ _ := .inl rfl

theorem LeavesPeriod.notify (h : LeavesPeriod s) (hworker : s'.worker = s.worker.notify)
    (hpaused : ∀ cause, s.worker = .periodWoken cause → s'.paused = true ∨ cause = .timeout) : LeavesPeriod s' where
  toBeforeCall := notify_beforeCall h.toBeforeCall hworker
  notBlocked := by
    rw [hworker]
    cases s.worker <;> simp [WorkerPc.notify]
  woken cause hcause := by
    refine hpaused cause ?_
    have hnotBlocked := h.notBlocked
    rw [hworker] at hcause
    revert hcause hnotBlocked
    cases s.worker <;> simp [WorkerPc.notify]

theorem BeforeCall.ownerStep (h : BeforeCall s) {call : Call} (hstep : s.ownerStep call = some s') :
    BeforeCall s' := by
  obtain ⟨hworker, hpaused⟩ | ⟨hworker, -⟩ | hnone | ⟨delay, hstarting⟩ | rfl | ⟨-, -, rfl⟩ := ownerStep_cases hstep
  · exact ⟨hworker ▸ h.notInWorkload, hworker ▸ h.notPastWorkload, by rw [hworker, hpaused]; exact h.parked⟩
  · exact notify_beforeCall h hworker
  · exact ⟨by simp [hnone], by simp [hnone], by simp [hnone]⟩
  · exact ⟨by simp [hstarting], by simp [hstarting], by simp [hstarting]⟩
  · exact h.pause.toBeforeCall
  · exact notify_beforeCall h rfl

theorem LeavesPeriod.ownerStep (h : LeavesPeriod s) {call : Call} (hstep : s.ownerStep call = some s')
    (hseen : ¬ ResumesUnseenPause s (.owner call)) : LeavesPeriod s' := by
  have hbefore := h.toBeforeCall.ownerStep hstep
  obtain ⟨hworker, hpaused⟩ | ⟨hworker, hpaused⟩ | hnone | ⟨delay, hstarting⟩ | rfl | ⟨rfl, houtside, rfl⟩ :=
    ownerStep_cases hstep
  · exact ⟨hbefore, hworker ▸ h.notBlocked, by rw [hworker, hpaused]; exact h.woken⟩
  · exact h.notify hworker (by rw [hpaused]; exact h.woken)
  · exact ⟨hbefore, by simp [hnone], by simp [hnone]⟩
  · exact ⟨hbefore, by simp [hstarting], by simp [hstarting]⟩
  · exact h.toBeforeCall.pause
  · refine h.notify rfl fun cause hcause => .inr ?_
    -- Only a period that is over allows this `resume`.
    obtain hpaused | htimeout := h.woken cause hcause
    · by_contra hne
      exact hseen ⟨rfl, houtside, hpaused, cause, hne, hcause⟩
    · exact htimeout

theorem workerStep_beforeCall (h : BeforeCall s) {choice : Choice} (hstep : s.workerStep choice = some s') :
    s'.history = s.history ++ [.workloadBegun] ∨ BeforeCall s' ∧ (LeavesPeriod s → LeavesPeriod s') := by
  obtain ⟨hin, hpast, -⟩ := h
  have hgoTo : ∀ pc : WorkerPc, pc ≠ .inWorkload → pc ≠ .periodWait → pc ≠ .periodBlocked →
      (∀ cause, pc ≠ .periodWoken cause) → (pc = .pauseBlocked → s.paused = true) →
      BeforeCall (s.goTo pc) ∧ (LeavesPeriod s → LeavesPeriod (s.goTo pc)) := by
    intro pc hin hpast hblocked hwoken hparked
    have hbefore : BeforeCall (s.goTo pc) := ⟨hin, hpast, hparked⟩
    exact ⟨hbefore, fun _ => ⟨hbefore, hblocked, fun cause hcause => absurd hcause (hwoken cause)⟩⟩
  -- Back into the period wait goes no thread that is to leave it.
  have hwaits : ∀ pc : WorkerPc, pc ≠ .inWorkload → pc ≠ .periodWait → pc ≠ .pauseBlocked → ¬ LeavesPeriod s →
      BeforeCall (s.goTo pc) ∧ (LeavesPeriod s → LeavesPeriod (s.goTo pc)) := fun pc hin hpast hparked hnot =>
    ⟨⟨hin, hpast, fun h => absurd h hparked⟩, fun h => absurd h hnot⟩
  revert hstep
  fun_cases workerStep s choice with
  | case10 | case13 =>
    rintro ⟨⟩
    unfold leavePause
    split <;> exact .inr (hgoTo _ (by simp) (by simp) (by simp) (by simp) (by simp))
  | case11 _ hpaused | case14 _ _ hpaused =>
    rintro ⟨⟩
    exact .inr (hgoTo _ (by simp) (by simp) (by simp) (by simp) fun _ => by simp_all)
  | case15 =>
    rintro ⟨⟩
    exact .inl rfl
  | case16 hcall => exact absurd hcall hin
  | case17 hwait | case18 hwait => exact absurd hwait hpast
  | case19 hblocked | case20 hblocked =>
    rintro ⟨⟩
    exact .inr (hwaits _ (by simp) (by simp) (by simp) fun h => h.notBlocked hblocked)
  | case21 =>
    rintro ⟨⟩
    unfold leavePeriod
    split <;> exact .inr (hgoTo _ (by simp) (by simp) (by simp) (by simp) (by simp))
  | case22 cause hwoken hasks =>
    rintro ⟨⟩
    refine .inr (hwaits _ (by simp) (by simp) (by simp) fun h => ?_)
    have hleaves := h.woken cause hwoken
    simp_all
  | case23 =>
    intro h
    cases h
  | _ =>
    rintro ⟨⟩
    exact .inr (hgoTo _ (by simp) (by simp) (by simp) (by simp) (by simp))

/-! ### The run -/

/-- What a run from a period wait leaves of it, by the events since. -/
theorem beforeCall_of_steps (hwait : InPeriodWait s) (hsteps : seenPauseSystem.Steps s s') :
    ∃ since : List Event, s'.history = s.history ++ since ∧ s'.paused = since.foldl Event.pausedAfter s.paused ∧
      (.workloadBegun ∉ since → BeforeCall s' ∧ (.paused ∈ since → LeavesPeriod s')) := by
  induction hsteps with
  | refl =>
    refine ⟨[], (List.append_nil _).symm, rfl, fun _ => ⟨?_, fun h => absurd h List.not_mem_nil⟩⟩
    obtain hblocked | ⟨cause, hwoken⟩ := hwait
    · exact ⟨by simp [hblocked], by simp [hblocked], by simp [hblocked]⟩
    · exact ⟨by simp [hwoken], by simp [hwoken], by simp [hwoken]⟩
  | @tail m s' _ hstep ih =>
    obtain ⟨since, hhistory, hpaused, hbefore⟩ := ih
    obtain ⟨action, haction, hseen⟩ := hstep
    -- What the step leaves of the wait, unless it begins the call.
    have hnext : .workloadBegun ∉ since → s'.history = m.history ++ [.workloadBegun] ∨
        BeforeCall s' ∧ (.paused ∈ since → LeavesPeriod s') := by
      intro hcall
      obtain ⟨hm, hleaves⟩ := hbefore hcall
      cases action with
      | owner call =>
        exact .inr ⟨hm.ownerStep haction, fun hmem => (hleaves hmem).ownerStep haction hseen⟩
      | worker choice =>
        exact (workerStep_beforeCall hm haction).imp_right fun h => ⟨h.1, fun hmem => h.2 (hleaves hmem)⟩
    obtain ⟨hsame, hkept⟩ | ⟨e, he, hkept, hpause⟩ := step_records haction
    · refine ⟨since, hsame.trans hhistory, hkept.trans hpaused, fun hcall => ?_⟩
      refine (hnext hcall).resolve_left fun hbegun => ?_
      simp [hsame] at hbegun
    · refine ⟨since ++ [e], by rw [he, hhistory, List.append_assoc], by simp [hkept, hpaused], fun hcall => ?_⟩
      rw [List.mem_append, not_or, List.mem_singleton] at hcall
      obtain ⟨hnot, hne⟩ := hcall
      obtain ⟨hbefore', hleaves⟩ := (hnext hnot).resolve_left fun hbegun => hne (by simpa [he] using hbegun.symm)
      refine ⟨hbefore', fun hmem => ?_⟩
      obtain hmem | hmem := List.mem_append.mp hmem
      · exact hleaves hmem
      · rw [hpause (List.mem_singleton.mp hmem).symm]
        exact (hbefore hnot).1.pause

/-- After a `pause` and a later `resume` in or after a period wait, and no `pause` since, the thread is blocked in
no wait before its next workload call, whether it was parked meanwhile or not, if no `resume` takes back a
`pause` that the thread has yet to see. One that does always lets the thread block again at once. -/
theorem resumed_of_seenPause (s s' : State) :
    (∀ before between after, InPeriodWait s → seenPauseSystem.Steps s s' →
      s'.history = s.history ++ (before ++ .paused :: between ++ .resumed :: after) → .paused ∉ after →
      .workloadBegun ∉ before ++ .paused :: between ++ .resumed :: after →
      s'.worker ≠ .periodBlocked ∧ s'.worker ≠ .pauseBlocked) ∧
    ∀ action, s.terminate = false → ResumesUnseenPause s action → s.step action = some s' →
      ∃ s'', s'.step (.worker .go) = some s'' ∧ s''.worker = .periodBlocked ∧
        s''.history = s.history ++ [.resumed] := by
  constructor
  · intro before between after hwait hsteps hhistory hlast hcall
    obtain ⟨since, hsince, hpaused, hbefore⟩ := beforeCall_of_steps hwait hsteps
    obtain rfl := List.append_cancel_left (hsince.symm.trans hhistory)
    obtain ⟨hbefore, hleaves⟩ := hbefore hcall
    refine ⟨(hleaves (by simp)).notBlocked, fun hparked => ?_⟩
    rw [pausedAfter_resumed _ _ hlast] at hpaused
    rw [hbefore.parked hparked] at hpaused
    cases hpaused
  · rintro _ hterminate ⟨rfl, houtside, _, cause, hne, hworker⟩ hstep
    obtain rfl : s.resume = s' := by
      simpa only [State.step, State.ownerStep, houtside, Option.some.injEq] using hstep
    have hwoken : s.resume.worker = .periodWoken cause := by
      rw [State.resume, hworker]
      rfl
    refine ⟨s.resume.goTo .periodBlocked, ?_, rfl, rfl⟩
    simp only [State.step, State.workerStep, hwoken]
    rw [if_neg]
    simp [State.resume, hterminate, hne]

def waitingForPeriod : Option State :=
  run false [.owner (.start true 0), .worker .go, .worker .go, .worker .go, .worker .go, .worker .go]

theorem waitingForPeriod_parks : ∃ s parked s', waitingForPeriod = some s ∧ s.worker = .periodBlocked ∧
    seenPauseSystem.Steps s parked ∧ parked.worker = .pauseBlocked ∧ seenPauseSystem.Steps parked s' ∧
    s'.history = s.history ++ ([] ++ .paused :: [] ++ .resumed :: []) := by
  have hpause : ∀ {s s' : State}, s.step (.owner .pause) = some s' → seenPauseSystem.Step s s' :=
    fun h => ⟨_, h, fun hresumes => by cases hresumes.1⟩
  have hgo : ∀ {s s' : State}, s.step (.worker .go) = some s' → seenPauseSystem.Step s s' :=
    fun h => ⟨_, h, fun hresumes => by cases hresumes.1⟩
  refine ⟨_, _, _, rfl, rfl, .tail (.tail (.single (hpause rfl)) (hgo rfl)) (hgo rfl), rfl,
    .single ⟨.owner .resume, rfl, ?_⟩, rfl⟩
  rintro ⟨-, -, -, cause, -, hwoken⟩
  cases hwoken

/-- The thread is parked when the owner resumes it. -/
theorem resumed_of_seenPause_parked : ∃ s parked s', waitingForPeriod = some s ∧ s.worker = .periodBlocked ∧
    seenPauseSystem.Steps s parked ∧ parked.worker = .pauseBlocked ∧ seenPauseSystem.Steps parked s' ∧
    s'.worker ≠ .periodBlocked ∧ s'.worker ≠ .pauseBlocked := by
  obtain ⟨s, parked, s', hs, hworker, hparks, hparked, hresumes, hhistory⟩ := waitingForPeriod_parks
  refine ⟨s, parked, s', hs, hworker, hparks, hparked, hresumes, ?_⟩
  exact (resumed_of_seenPause s s').1 [] [] [] (.inl hworker) (hparks.trans hresumes) hhistory (by simp) (by simp)

/-- The owner pauses and resumes before the woken thread has the mutex: the thread waits on. -/
theorem periodBlocked_after_resume : ¬ ∀ s s' since, periodicSystem.Reachable s → InPeriodWait s →
    WaitSteps periodicSystem s s' → s'.history = s.history ++ since →
    [.paused, .resumed].Sublist since → s'.worker ≠ .periodBlocked := by
  intro h
  have hrun : waitingForPeriod.map State.worker = some .periodBlocked := by decide
  obtain ⟨s, hs, hworker⟩ := Option.map_eq_some_iff.mp hrun
  obtain ⟨houtside, hterminate⟩ : s.owner = .outside ∧ s.terminate = false := by
    have hrest : waitingForPeriod.map (fun s => (s.owner, s.terminate)) = some (.outside, false) := by
      decide
    rw [hs] at hrest
    exact Prod.mk.inj (Option.some.inj hrest)
  have hwoken : s.pause.worker = .periodWoken .notified := by
    rw [State.pause, hworker]
    rfl
  have hwoken' : s.pause.resume.worker = .periodWoken .notified := by
    rw [State.resume, hwoken]
    rfl
  have hlook : s.pause.resume.step (.worker .go) = some (s.pause.resume.goTo .periodBlocked) := by
    simp only [State.step, State.workerStep, hwoken']
    rw [if_neg]
    simp [State.resume, State.pause, hterminate]
  have hsteps : WaitSteps periodicSystem s (s.pause.resume.goTo .periodBlocked) := by
    refine .tail (.tail (.single ⟨⟨.owner .pause, ?_⟩, .inr ⟨_, hwoken⟩⟩)
      ⟨⟨.owner .resume, ?_⟩, .inr ⟨_, hwoken'⟩⟩) ⟨⟨.worker .go, hlook⟩, .inl rfl⟩
    · simp only [State.step, State.ownerStep, houtside]
    · simp only [State.step, State.ownerStep, State.pause, houtside]
  exact h s _ [.paused, .resumed] (run_reachable hs) (.inl hworker) hsteps
    (List.append_assoc s.history [.paused] [.resumed]) (List.Sublist.refl _) rfl

end CppUtils.PeriodicThread
