import CppUtils.PeriodicThread.State

/-!
# Pausing and terminating

A thread that is past its wait while paused calls the workload once more, and then meets the flag
that was set. A thread that is blocked is blocked for a reason: every change of a flag wakes it.
-/

namespace CppUtils.PeriodicThread

/-- From a `pause` to the next `resume`. -/
def pauseWindow : Window Event where
  opens e := e = .paused
  closes e := e = .resumed
  counts e := e = .workloadBegun
  opens_only e he := by cases e <;> simp_all

/-- From the flag that `terminate` sets to the next `start`. -/
def terminateWindow : Window Event where
  opens e := e = .terminateSet
  closes e := e = .started
  counts e := e = .workloadBegun
  opens_only e he := by cases e <;> simp_all

/-- From the return of a `terminate` to the next `start`. -/
def stoppedWindow : Window Event where
  opens e := e = .terminated
  closes e := e = .started
  counts e := e = .workloadBegun
  opens_only e he := by cases e <;> simp_all

theorem pauseWindow_next (n : Option ℕ) (e : Event) : pauseWindow.next n e = match e with
    | .paused => some (n.getD 0)
    | .resumed => none
    | .workloadBegun => n.map (· + 1)
    | _ => n := by
  cases e <;> rfl

theorem terminateWindow_next (n : Option ℕ) (e : Event) : terminateWindow.next n e = match e with
    | .terminateSet => some (n.getD 0)
    | .started => none
    | .workloadBegun => n.map (· + 1)
    | _ => n := by
  cases e <;> rfl

theorem stoppedWindow_next (n : Option ℕ) (e : Event) : stoppedWindow.next n e = match e with
    | .terminated => some (n.getD 0)
    | .started => none
    | .workloadBegun => n.map (· + 1)
    | _ => n := by
  cases e <;> rfl

/-- The workload call that a thread past its wait while paused is about to begin. -/
def WorkerPc.pendingCalls : WorkerPc → ℕ
  | .callWorkload => 1
  | _ => 0

theorem WorkerPc.pendingCalls_le (pc : WorkerPc) : pc.pendingCalls ≤ 1 := by
  cases pc <;> simp [pendingCalls]

@[simp] theorem WorkerPc.pendingCalls_notify (pc : WorkerPc) :
    pc.notify.pendingCalls = pc.pendingCalls := by
  cases pc <;> rfl

@[simp] theorem WorkerPc.notify_eq_none {pc : WorkerPc} : pc.notify = .none ↔ pc = .none := by
  cases pc <;> simp [notify]

@[simp] theorem WorkerPc.notify_ne_pauseBlocked {pc : WorkerPc} : pc.notify ≠ .pauseBlocked := by
  cases pc <;> simp [notify]

@[simp] theorem WorkerPc.notify_ne_periodBlocked {pc : WorkerPc} : pc.notify ≠ .periodBlocked := by
  cases pc <;> simp [notify]

/-- The flags against the places of both threads and the history. -/
structure State.Consistent (s : State) : Prop where
  joinable : s.joinable = true ↔ s.worker ≠ .none
  owner : s.owner = .resetTerminate → s.joinable = false
  terminate : s.terminate = true ↔ s.owner = .join ∨ s.owner = .resetTerminate
  pauseBlocked : s.worker = .pauseBlocked → s.paused = true ∧ s.terminate = false
  periodBlocked : s.worker = .periodBlocked → s.paused = false ∧ s.terminate = false
  sincePause : ∀ n, pauseWindow.since s.history = some n →
    s.paused = true ∧ n + s.worker.pendingCalls ≤ 1
  sinceTerminateSet : ∀ n, terminateWindow.since s.history = some n →
    (s.terminate = true ∨ s.worker = .none) ∧ n + s.worker.pendingCalls ≤ 1
  sinceTerminated : ∀ n, stoppedWindow.since s.history = some n → s.worker = .none ∧ n = 0

namespace State

variable {s s' : State} {pc : WorkerPc}

/-! ### The owner -/

theorem Consistent.pause (hs : s.Consistent) : s.pause.Consistent where
  joinable := by simpa [State.pause] using hs.joinable
  owner := hs.owner
  terminate := hs.terminate
  pauseBlocked := by simp [State.pause]
  periodBlocked := by simp [State.pause]
  sincePause := by
    intro n hn
    refine ⟨rfl, ?_⟩
    have hpending := s.worker.pendingCalls_le
    cases hold : pauseWindow.since s.history with
    | none =>
      obtain rfl : 0 = n := by simpa [State.pause, pauseWindow_next, hold] using hn
      simpa [State.pause] using hpending
    | some m =>
      obtain rfl : m = n := by simpa [State.pause, pauseWindow_next, hold] using hn
      simpa [State.pause] using (hs.sincePause m hold).2
  sinceTerminateSet := by
    simpa [State.pause, terminateWindow_next] using hs.sinceTerminateSet
  sinceTerminated := by
    simpa [State.pause, stoppedWindow_next] using hs.sinceTerminated

theorem Consistent.resume (hs : s.Consistent) : s.resume.Consistent where
  joinable := by simpa [State.resume] using hs.joinable
  owner := hs.owner
  terminate := hs.terminate
  pauseBlocked := by simp [State.resume]
  periodBlocked := by simp [State.resume]
  sincePause := by simp [State.resume, pauseWindow_next]
  sinceTerminateSet := by
    simpa [State.resume, terminateWindow_next] using hs.sinceTerminateSet
  sinceTerminated := by
    simpa [State.resume, stoppedWindow_next] using hs.sinceTerminated

theorem Consistent.setWorkload (hs : s.Consistent) (workload : Bool) :
    (s.setWorkload workload).Consistent := by
  unfold State.setWorkload
  split
  · exact ⟨hs.joinable, hs.owner, hs.terminate, hs.pauseBlocked, hs.periodBlocked, hs.sincePause,
      hs.sinceTerminateSet, hs.sinceTerminated⟩
  · exact hs

theorem Consistent.start (hs : s.Consistent) (howner : s.owner = .outside) (workload : Bool)
    (delayBeforeStartMs : ℕ) : (s.start workload delayBeforeStartMs).Consistent := by
  unfold State.start
  split
  · rename_i hjoinable
    have hnone : s.worker = .none := by
      have hjoinable : s.joinable = false := by simpa using hjoinable
      simpa [hjoinable] using hs.joinable
    refine ⟨by simp, by simp [howner], hs.terminate, by simp, by simp, ?_, ?_, ?_⟩
    · simpa [pauseWindow_next, hnone, WorkerPc.pendingCalls] using hs.sincePause
    · simp [terminateWindow_next]
    · simp [stoppedWindow_next]
  · exact hs

theorem Consistent.terminated (hs : s.Consistent)
    (hjoinable : s.joinable = false) : (s.record .terminated).Consistent := by
  have hnone : s.worker = .none := by simpa [hjoinable] using hs.joinable
  refine ⟨hs.joinable, hs.owner, hs.terminate, hs.pauseBlocked, hs.periodBlocked, ?_, ?_, ?_⟩
  · simpa [record, pauseWindow_next] using hs.sincePause
  · simpa [record, terminateWindow_next] using hs.sinceTerminateSet
  · intro n hn
    refine ⟨hnone, ?_⟩
    cases hold : stoppedWindow.since s.history with
    | none => simpa [record, stoppedWindow_next, hold, eq_comm] using hn
    | some m =>
      obtain rfl : m = n := by simpa [record, stoppedWindow_next, hold] using hn
      exact (hs.sinceTerminated m hold).2

theorem Consistent.terminateSet (hs : s.Consistent) :
    ({ s with
      terminate := true
      worker := s.worker.notify
      owner := .join
      history := s.history ++ [.terminateSet] } : State).Consistent where
  joinable := by simpa using hs.joinable
  owner := by simp
  terminate := by simp
  pauseBlocked := by simp
  periodBlocked := by simp
  sincePause := by simpa [pauseWindow_next] using hs.sincePause
  sinceTerminateSet := by
    intro n hn
    refine ⟨.inl rfl, ?_⟩
    have hpending := s.worker.pendingCalls_le
    cases hold : terminateWindow.since s.history with
    | none =>
      obtain rfl : 0 = n := by simpa [terminateWindow_next, hold] using hn
      simpa using hpending
    | some m =>
      obtain rfl : m = n := by simpa [terminateWindow_next, hold] using hn
      simpa using (hs.sinceTerminateSet m hold).2
  sinceTerminated := by simpa [stoppedWindow_next] using hs.sinceTerminated

theorem Consistent.join (hs : s.Consistent) (howner : s.owner = .join) :
    ({ s with joinable := false, worker := .none, owner := .resetTerminate } : State).Consistent where
  joinable := by simp
  owner := by simp
  terminate := by simpa [howner] using hs.terminate
  pauseBlocked := by simp
  periodBlocked := by simp
  sincePause n hn := ⟨(hs.sincePause n hn).1, (Nat.le_add_right _ _).trans (hs.sincePause n hn).2⟩
  sinceTerminateSet n hn :=
    ⟨.inr rfl, (Nat.le_add_right _ _).trans (hs.sinceTerminateSet n hn).2⟩
  sinceTerminated n hn := ⟨rfl, (hs.sinceTerminated n hn).2⟩

theorem Consistent.resetTerminate (hs : s.Consistent) (hnone : s.worker = .none) :
    ({ s with
      terminate := false
      owner := .outside
      history := s.history ++ [.terminated] } : State).Consistent where
  joinable := hs.joinable
  owner := by simp
  terminate := by simp
  pauseBlocked := by simp [hnone]
  periodBlocked := by simp [hnone]
  sincePause := by simpa [pauseWindow_next] using hs.sincePause
  sinceTerminateSet := by
    intro n hn
    exact ⟨.inr hnone, (hs.sinceTerminateSet n (by simpa [terminateWindow_next] using hn)).2⟩
  sinceTerminated := by
    intro n hn
    refine ⟨hnone, ?_⟩
    cases hold : stoppedWindow.since s.history with
    | none => simpa [stoppedWindow_next, hold, eq_comm] using hn
    | some m =>
      obtain rfl : m = n := by simpa [stoppedWindow_next, hold] using hn
      exact (hs.sinceTerminated m hold).2

/-! ### The thread -/

/-- The thread goes on to another place, and past its wait while paused only when no flag is set. -/
theorem Consistent.goTo (hs : s.Consistent) (hworker : s.worker ≠ .none) (hpc : pc ≠ .none)
    (hpause : pc = .pauseBlocked → s.paused = true ∧ s.terminate = false)
    (hperiod : pc = .periodBlocked → s.paused = false ∧ s.terminate = false)
    (hcall : pc.pendingCalls = 0 ∨ s.paused = false ∧ s.terminate = false) :
    (s.goTo pc).Consistent where
  joinable := by simpa [State.goTo, hpc, hworker] using hs.joinable
  owner := hs.owner
  terminate := hs.terminate
  pauseBlocked := hpause
  periodBlocked := hperiod
  sincePause := by
    intro n hn
    obtain ⟨hpaused, hle⟩ := hs.sincePause n hn
    refine ⟨hpaused, ?_⟩
    rcases hcall with hcall | ⟨hflag, -⟩
    · change n + pc.pendingCalls ≤ 1
      omega
    · rw [hpaused] at hflag
      cases hflag
  sinceTerminateSet := by
    intro n hn
    obtain ⟨hterminate, hle⟩ := hs.sinceTerminateSet n hn
    have hterminate := hterminate.resolve_right hworker
    refine ⟨.inl hterminate, ?_⟩
    rcases hcall with hcall | ⟨-, hflag⟩
    · change n + pc.pendingCalls ≤ 1
      omega
    · rw [hterminate] at hflag
      cases hflag
  sinceTerminated n hn := absurd (hs.sinceTerminated n hn).1 hworker

theorem Consistent.workloadBegun (hs : s.Consistent) (hworker : s.worker = .callWorkload) :
    ((s.goTo .inWorkload).record .workloadBegun).Consistent where
  joinable := by simpa [State.goTo, record, hworker] using hs.joinable
  owner := hs.owner
  terminate := hs.terminate
  pauseBlocked := by simp [State.goTo, record]
  periodBlocked := by simp [State.goTo, record]
  sincePause := by
    intro n hn
    obtain ⟨m, hm, rfl⟩ : ∃ m, pauseWindow.since s.history = some m ∧ m + 1 = n := by
      simpa [State.goTo, record, pauseWindow_next] using hn
    simpa [State.goTo, record, hworker, WorkerPc.pendingCalls] using hs.sincePause m hm
  sinceTerminateSet := by
    intro n hn
    obtain ⟨m, hm, rfl⟩ : ∃ m, terminateWindow.since s.history = some m ∧ m + 1 = n := by
      simpa [State.goTo, record, terminateWindow_next] using hn
    simpa [State.goTo, record, hworker, WorkerPc.pendingCalls] using hs.sinceTerminateSet m hm
  sinceTerminated := by
    intro n hn
    obtain ⟨m, hm, rfl⟩ : ∃ m, stoppedWindow.since s.history = some m ∧ m + 1 = n := by
      simpa [State.goTo, record, stoppedWindow_next] using hn
    have hnone := (hs.sinceTerminated m hm).1
    rw [hworker] at hnone
    cases hnone

theorem Consistent.workloadEnded (hs : s.Consistent) (hworker : s.worker = .inWorkload) :
    ((s.goTo .periodWait).record .workloadEnded).Consistent where
  joinable := by simpa [State.goTo, record, hworker] using hs.joinable
  owner := hs.owner
  terminate := hs.terminate
  pauseBlocked := by simp [State.goTo, record]
  periodBlocked := by simp [State.goTo, record]
  sincePause := by
    simpa [State.goTo, record, pauseWindow_next, hworker, WorkerPc.pendingCalls] using hs.sincePause
  sinceTerminateSet := by
    simpa [State.goTo, record, terminateWindow_next, hworker, WorkerPc.pendingCalls]
      using hs.sinceTerminateSet
  sinceTerminated := by
    simpa [State.goTo, record, stoppedWindow_next, hworker] using hs.sinceTerminated

theorem ownerStep_consistent (hs : s.Consistent) {call : Call} (h : s.ownerStep call = some s') :
    s'.Consistent := by
  unfold ownerStep at h
  split at h
  · rename_i howner
    cases call with
    | setWorkload workload =>
      cases h
      exact hs.setWorkload workload
    | start workload delayBeforeStartMs =>
      cases h
      exact hs.start howner workload delayBeforeStartMs
    | pause =>
      cases h
      exact hs.pause
    | resume =>
      cases h
      exact hs.resume
    | terminate =>
      simp only at h
      split at h
      · cases h
        exact ⟨hs.joinable, by simp, by simpa [howner] using hs.terminate, hs.pauseBlocked,
          hs.periodBlocked, hs.sincePause, hs.sinceTerminateSet, hs.sinceTerminated⟩
      · rename_i hjoinable
        cases h
        exact hs.terminated (by simpa using hjoinable)
  · cases h
    exact hs.terminateSet
  · rename_i howner
    split at h
    · cases h
      exact hs.join howner
    · cases h
  · rename_i howner
    cases h
    have hnone : s.worker = .none := by simpa [hs.owner howner] using hs.joinable
    exact hs.resetTerminate hnone

theorem leavePause_consistent (hs : s.Consistent) (hworker : s.worker ≠ .none)
    (hdone : (!s.paused || s.terminate) = true) : s.leavePause.Consistent := by
  unfold leavePause
  split
  · exact hs.goTo hworker (by simp) (by simp) (by simp) (.inl rfl)
  · rename_i hterminate
    have hflags : s.paused = false ∧ s.terminate = false := by simp_all
    exact hs.goTo hworker (by simp) (by simp) (by simp) (.inr hflags)

theorem leavePeriod_consistent (hs : s.Consistent) (hworker : s.worker ≠ .none) :
    s.leavePeriod.Consistent := by
  unfold leavePeriod
  split
  · exact hs.goTo hworker (by simp) (by simp) (by simp) (.inl rfl)
  · exact hs.goTo hworker (by simp) (by simp) (by simp) (.inl rfl)

theorem workerStep_consistent (hs : s.Consistent) {choice : Choice}
    (h : s.workerStep choice = some s') : s'.Consistent := by
  have hworker : s.worker ≠ .none := by
    intro hnone
    simp [workerStep, hnone] at h
  have hgoTo : ∀ pc : WorkerPc, pc ≠ .none → pc ≠ .pauseBlocked → pc ≠ .periodBlocked →
      pc.pendingCalls = 0 → (s.goTo pc).Consistent := fun pc hpc hpause hperiod hcall =>
    hs.goTo hworker hpc (absurd · hpause) (absurd · hperiod) (.inl hcall)
  have hpause : ¬(!s.paused || s.terminate) = true → (s.goTo .pauseBlocked).Consistent := by
    intro hwaits
    have hflags : s.paused = true ∧ s.terminate = false := by simp_all
    exact hs.goTo hworker (by simp) (fun _ => hflags) (by simp) (.inl rfl)
  have hperiod : (s.paused || s.terminate) = false → (s.goTo .periodBlocked).Consistent := by
    intro hwaits
    have hflags : s.paused = false ∧ s.terminate = false := by simp_all
    exact hs.goTo hworker (by simp) (by simp) (fun _ => hflags) (.inl rfl)
  revert h
  fun_cases workerStep s choice with
  | case10 _ hdone | case13 _ _ hdone =>
    intro h
    cases h
    exact leavePause_consistent hs hworker hdone
  | case11 _ hwaits | case14 _ _ hwaits =>
    intro h
    cases h
    exact hpause hwaits
  | case15 hcall =>
    intro h
    cases h
    exact hs.workloadBegun hcall
  | case16 hcall =>
    intro h
    cases h
    exact hs.workloadEnded hcall
  | case17 | case21 =>
    intro h
    cases h
    exact leavePeriod_consistent hs hworker
  | case18 _ hwaits =>
    intro h
    cases h
    exact hperiod (by simpa using hwaits)
  | case22 cause _ hwaits =>
    intro h
    cases h
    have hflags : (s.paused || s.terminate) = false := by simp_all
    exact hperiod hflags
  | case23 => nofun
  | _ =>
    -- the waits that are over and the delay: no flag is asked, and no call is near
    intro h
    cases h
    exact hgoTo _ (by simp) (by simp) (by simp) rfl

end State

theorem consistent {s : State} (hreach : periodicSystem.Reachable s) : s.Consistent := by
  refine hreach.invariant State.Consistent ?_ ?_
  · rintro _ ⟨workload, rfl⟩
    exact ⟨by simp [State.initial], by simp [State.initial], by simp [State.initial],
      by simp [State.initial], by simp [State.initial], by simp [State.initial],
      by simp [State.initial], by simp [State.initial]⟩
  · intro s s' _ hs hstep
    obtain ⟨action, haction⟩ := hstep
    cases action with
    | owner call => exact State.ownerStep_consistent hs haction
    | worker choice => exact State.workerStep_consistent hs haction

theorem count_le_since {w : Window Event} {opening closing : Event} {history before since : List Event}
    (hopens : w.opens opening = true) (hcloses : w.closes = fun e => decide (e = closing))
    (hcounts : w.counts = fun e => decide (e = .workloadBegun))
    (hhistory : history = before ++ opening :: since) (hopen : closing ∉ since) :
    ∃ n, w.since history = some n ∧ since.count .workloadBegun ≤ n := by
  have hmiddle : ∀ e ∈ since, w.closes e = false := by
    intro e he
    rw [hcloses]
    exact decide_eq_false fun h => hopen (h ▸ he)
  obtain ⟨n, hn, hcount⟩ := w.exists_since before hopens hmiddle
  refine ⟨n, hhistory ▸ hn, ?_⟩
  rw [hcounts] at hcount
  exact hcount

/-- Of every moment of every run: since a `pause` that no `resume` has followed, at most one workload
call has begun; since the return of a `terminate` that no `start` has followed, none has, and none is
in progress; since such a `terminate` set its flag, at most one has. The thread is blocked in the wait
while paused only when paused and not terminating, and in the wait for its period only when neither. -/
theorem periodicThread_obeys {s : State} (hreach : periodicSystem.Reachable s) :
    (∀ before since, s.history = before ++ .paused :: since → .resumed ∉ since →
      since.count .workloadBegun ≤ 1) ∧
    (∀ before since, s.history = before ++ .terminated :: since → .started ∉ since →
      since.count .workloadBegun = 0 ∧ s.worker ≠ .inWorkload) ∧
    (∀ before since, s.history = before ++ .terminateSet :: since → .started ∉ since →
      since.count .workloadBegun ≤ 1) ∧
    (s.worker = .pauseBlocked → s.paused = true ∧ s.terminate = false) ∧
    (s.worker = .periodBlocked → s.paused = false ∧ s.terminate = false) := by
  have hs := consistent hreach
  refine ⟨?_, ?_, ?_, hs.pauseBlocked, hs.periodBlocked⟩
  · intro before since hhistory hopen
    obtain ⟨n, hn, hcount⟩ := count_le_since (w := pauseWindow) rfl rfl rfl hhistory hopen
    have hle := (hs.sincePause n hn).2
    omega
  · intro before since hhistory hopen
    obtain ⟨n, hn, hcount⟩ := count_le_since (w := stoppedWindow) rfl rfl rfl hhistory hopen
    obtain ⟨hnone, rfl⟩ := hs.sinceTerminated n hn
    exact ⟨Nat.le_zero.mp hcount, by simp [hnone]⟩
  · intro before since hhistory hopen
    obtain ⟨n, hn, hcount⟩ := count_le_since (w := terminateWindow) rfl rfl rfl hhistory hopen
    have hle := (hs.sinceTerminateSet n hn).2
    omega

/-- The owner pauses while the thread is about to call the workload; after the call the thread parks. -/
def pausedBeforeCall : Option State :=
  run false [.owner (.start true 0), .worker .go, .worker .go, .owner .pause, .worker .go, .worker .go,
    .worker .go, .worker .go]

theorem periodicThread_obeys_pausedBeforeCall : ∃ s, pausedBeforeCall = some s ∧
    s.history = [.started] ++ .paused :: [.workloadBegun, .workloadEnded] ∧
    s.worker = .pauseBlocked ∧
    [Event.workloadBegun, .workloadEnded].count .workloadBegun ≤ 1 ∧ s.paused = true := by
  have hrun : pausedBeforeCall.map (fun s => (s.history, s.worker))
      = some ([.started, .paused, .workloadBegun, .workloadEnded], .pauseBlocked) := by decide
  obtain ⟨s, hs, hvalues⟩ := Option.map_eq_some_iff.mp hrun
  simp only [Prod.mk.injEq] at hvalues
  have hobeys := periodicThread_obeys (run_reachable hs)
  exact ⟨s, hs, hvalues.1, hvalues.2, hobeys.1 [.started] _ hvalues.1 (by decide),
    (hobeys.2.2.2.1 hvalues.2).1⟩

end CppUtils.PeriodicThread
