import CppUtils.PeriodicThread.Terminating

/-!
# The workload is called again and again

As long as the owner neither pauses nor terminates it, a started thread goes round its loop. A wait with
a timeout can go on when it is woken early, so it has no bounded number of turns: a run must say that
such waits end, as it must of the workload calls.
-/

namespace CppUtils.PeriodicThread

open State

def WorkerPc.timed : WorkerPc → Bool
  | .delayBlocked => true
  | .delayWoken _ => true
  | .periodBlocked => true
  | .periodWoken _ => true
  | _ => false

/-- How many places the thread passes until it calls the workload. -/
def WorkerPc.turnsToCall : WorkerPc → ℕ
  | .none => 0
  | .starting _ => 6
  | .delayWait => 5
  | .delayBlocked => 4
  | .delayWoken _ => 4
  | .pauseWait => 2
  | .pauseBlocked => 3
  | .pauseWoken _ => 2
  | .callWorkload => 1
  | .inWorkload => 9
  | .periodWait => 8
  | .periodBlocked => 7
  | .periodWoken _ => 7
  | .exited => 0

/-- A turn of the thread brings it nearer to its next call, or leaves it in a wait with a timeout. -/
def WorkerPc.NearerThan (pc' pc : WorkerPc) : Prop :=
  pc'.turnsToCall < pc.turnsToCall ∨
    pc.timed = true ∧ pc'.timed = true ∧ pc'.turnsToCall = pc.turnsToCall

theorem WorkerPc.ne_inWorkload_of_timed {pc : WorkerPc} (h : pc.timed = true) : pc ≠ .inWorkload := by
  rintro rfl
  cases h

@[simp] theorem WorkerPc.timed_notify (pc : WorkerPc) : pc.notify.timed = pc.timed := by
  cases pc <;> rfl

@[simp] theorem WorkerPc.notify_eq_inWorkload {pc : WorkerPc} : pc.notify = .inWorkload ↔ pc = .inWorkload := by
  cases pc <;> simp [notify]

@[simp] theorem WorkerPc.notify_eq_exited {pc : WorkerPc} : pc.notify = .exited ↔ pc = .exited := by
  cases pc <;> simp [notify]

theorem WorkerPc.turnsToCall_notify {pc : WorkerPc} (h : pc ≠ .pauseBlocked) :
    pc.notify.turnsToCall = pc.turnsToCall := by
  cases pc with
  | pauseBlocked => exact absurd rfl h
  | _ => rfl

namespace State

variable {s s' : State}

def calls (s : State) : ℕ :=
  s.history.count .workloadBegun

/-- The owner has neither paused nor terminated the thread, which has a workload. -/
structure Open (s : State) : Prop where
  owner : s.owner = .outside
  paused : s.paused = false
  started : s.worker ≠ .none
  goesOn : s.worker ≠ .exited
  workload : s.workload = true

theorem workerStep_open (hs : s.Consistent) (h : s.Open) {choice : Choice} (hstep : s.workerStep choice = some s') :
    s'.Open ∧ (s'.calls = s.calls + 1 ∨ s'.calls = s.calls ∧ s'.worker.NearerThan s.worker) := by
  have hterminate : s.terminate = false := by
    have hflag := hs.terminate
    rw [h.owner] at hflag
    simpa using hflag
  obtain ⟨howner, hpaused, -, -, hworkload⟩ := h
  have hgoTo : ∀ pc : WorkerPc, pc ≠ .none → pc ≠ .exited → pc.NearerThan s.worker →
      (s.goTo pc).Open ∧ ((s.goTo pc).calls = s.calls + 1 ∨
        (s.goTo pc).calls = s.calls ∧ (s.goTo pc).worker.NearerThan s.worker) :=
    fun pc hstarted hexited hnearer => ⟨⟨howner, hpaused, hstarted, hexited, hworkload⟩, .inr ⟨rfl, hnearer⟩⟩
  revert hstep
  fun_cases workerStep s choice with
  | case1 _ _ hnone => simp [hworkload] at hnone
  | case10 hworker | case13 _ hworker =>
    rintro ⟨⟩
    simp only [leavePause, hterminate]
    exact hgoTo .callWorkload (by simp) (by simp) (.inl (by simp [hworker, WorkerPc.turnsToCall]))
  | case11 _ hwaits | case14 _ _ hwaits => simp [hpaused] at hwaits
  | case15 hworker =>
    rintro ⟨⟩
    refine ⟨⟨howner, hpaused, ?_, ?_, hworkload⟩, .inl ?_⟩ <;> simp [calls, record, goTo]
  | case16 hworker =>
    rintro ⟨⟩
    refine ⟨⟨howner, hpaused, ?_, ?_, hworkload⟩, .inr ⟨?_, .inl ?_⟩⟩ <;>
      simp [hworker, calls, record, goTo, WorkerPc.turnsToCall]
  | case17 hworker | case21 _ hworker =>
    rintro ⟨⟩
    simp only [leavePeriod, hterminate]
    exact hgoTo .pauseWait (by simp) (by simp) (.inl (by simp [hworker, WorkerPc.turnsToCall]))
  | case23 =>
    intro h
    cases h
  | _ =>
    rintro ⟨⟩
    exact hgoTo _ (by simp) (by simp) (by simp [*, WorkerPc.NearerThan, WorkerPc.turnsToCall, WorkerPc.timed])

/-- The owner's calls, but for `pause` and `terminate`, leave the thread in its wait or in its call. -/
theorem ownerStep_open (hs : s.Consistent) (h : s.Open) {call : Call} (hstep : s.ownerStep call = some s')
    (howner : s'.owner = .outside) (hpaused : s'.paused = false) :
    s'.Open ∧ s'.calls = s.calls ∧ s'.worker.turnsToCall = s.worker.turnsToCall ∧
      s'.worker.timed = s.worker.timed ∧ (s'.worker = .inWorkload ↔ s.worker = .inWorkload) := by
  have hjoinable : s.joinable = true := hs.joinable.mpr h.started
  simp only [ownerStep, h.owner] at hstep
  cases call with
  | setWorkload workload =>
    obtain rfl : s = s' := by simpa [setWorkload, hjoinable] using hstep
    exact ⟨h, rfl, rfl, rfl, .rfl⟩
  | start workload delayBeforeStartMs =>
    obtain rfl : s = s' := by simpa [start, hjoinable] using hstep
    exact ⟨h, rfl, rfl, rfl, .rfl⟩
  | pause =>
    cases hstep
    cases hpaused
  | resume =>
    cases hstep
    have hpause : s.worker ≠ .pauseBlocked := by
      intro hblocked
      have hflag := (hs.pauseBlocked hblocked).1
      rw [h.paused] at hflag
      cases hflag
    refine ⟨⟨h.owner, rfl, ?_, ?_, h.workload⟩, by simp [calls, resume], WorkerPc.turnsToCall_notify hpause,
      WorkerPc.timed_notify _, WorkerPc.notify_eq_inWorkload⟩
    · exact WorkerPc.notify_eq_none.not.mpr h.started
    · exact WorkerPc.notify_eq_exited.not.mpr h.goesOn
  | terminate =>
    simp only [hjoinable, if_true] at hstep
    cases hstep
    cases howner

end State

/-! ### The run -/

/-- Every wait with a timeout ends at last. -/
def PeriodicRun.WaitsEnd (r : PeriodicRun) : Prop :=
  ∀ n, (r.state n).worker.timed = true → Eventually (fun m => (r.state m).worker.timed = false) n

/-- From this time on the owner neither pauses nor terminates the thread. -/
structure PeriodicRun.LeftAlone (r : PeriodicRun) (start : ℕ) : Prop where
  reachable_zero : periodicSystem.Reachable (r.state 0)
  open_start : (r.state start).Open
  owner (n : ℕ) (hn : start ≤ n) : (r.state n).owner = .outside
  paused (n : ℕ) (hn : start ≤ n) : (r.state n).paused = false

namespace PeriodicRun.LeftAlone

variable {r : PeriodicRun} {start n : ℕ}

theorem step (h : r.LeftAlone start) (hn : start ≤ n) (hopen : (r.state n).Open) :
    (r.state (n + 1)).Open ∧ ((r.state (n + 1)).calls = (r.state n).calls + 1 ∨
      (r.state (n + 1)).calls = (r.state n).calls ∧
        ((r.state (n + 1)).worker.NearerThan (r.state n).worker ∨
          r.party n = .owner ∧ (r.state (n + 1)).worker.turnsToCall = (r.state n).worker.turnsToCall ∧
            (r.state (n + 1)).worker.timed = (r.state n).worker.timed ∧
            ((r.state (n + 1)).worker = .inWorkload ↔ (r.state n).worker = .inWorkload))) := by
  have hs := consistent (PeriodicRun.reachable h.reachable_zero n)
  obtain ⟨action, hparty, hstep⟩ := r.step n
  cases action with
  | owner call =>
    obtain ⟨hopen', hcalls, hsame⟩ := ownerStep_open hs hopen hstep (h.owner (n + 1) (hn.trans n.le_succ))
      (h.paused (n + 1) (hn.trans n.le_succ))
    exact ⟨hopen', .inr ⟨hcalls, .inr ⟨hparty.symm, hsame⟩⟩⟩
  | worker choice =>
    obtain ⟨hopen', hcalls⟩ := workerStep_open hs hopen hstep
    exact ⟨hopen', hcalls.imp_right fun h => ⟨h.1, .inl h.2⟩⟩

theorem isOpen (h : r.LeftAlone start) (hn : start ≤ n) : (r.state n).Open := by
  induction n, hn using Nat.le_induction with
  | base => exact h.open_start
  | succ n hn ih => exact (h.step hn ih).1

theorem eventually_called (h : r.LeftAlone start) (hends : r.WorkloadEnds) (hwaits : r.WaitsEnd)
    (hn : start ≤ n) : Eventually (fun m => (r.state n).calls < (r.state m).calls) n := by
  let Waits := fun m => start ≤ m ∧ (r.state m).calls = (r.state n).calls
  refine Eventually.of_descent (A := Waits) (fun m => (r.state m).worker.turnsToCall) (fun k hk => ?_) n ⟨hn, rfl⟩
  -- Until the thread gets nearer it stays in the wait or in the call that it is in at the time `k`.
  let Goal := fun m => (r.state n).calls < (r.state m).calls ∨
    Waits m ∧ (r.state m).worker.turnsToCall < (r.state k).worker.turnsToCall
  let Stays := fun m => Waits m ∧ (r.state m).worker.turnsToCall = (r.state k).worker.turnsToCall ∧
    (r.state m).worker.timed = (r.state k).worker.timed ∧
    ((r.state m).worker = .inWorkload ↔ (r.state k).worker = .inWorkload)
  have hstays : Stays k := ⟨hk, rfl, rfl, .rfl⟩
  have hkept : ∀ m, Stays m → Goal (m + 1) ∨ Stays (m + 1) ∧
      (r.party m = .owner ∨ (r.state k).worker.timed = true) := by
    rintro m ⟨⟨hm, hcalls⟩, hturns, htimed, hcall⟩
    obtain ⟨-, hbegun | ⟨hsame, hnearer⟩⟩ := h.step hm (h.isOpen hm)
    · exact .inl (.inl (by omega))
    have hwaits' : Waits (m + 1) := ⟨hm.trans m.le_succ, hsame.trans hcalls⟩
    obtain (hlt | ⟨htimed₁, htimed₂, hturns'⟩) | ⟨howner, hturns', htimed', hcall'⟩ := hnearer
    · exact .inl (.inr ⟨hwaits', hlt.trans_eq hturns⟩)
    · have hne := WorkerPc.ne_inWorkload_of_timed htimed₂
      have hne' := WorkerPc.ne_inWorkload_of_timed htimed₁
      refine .inr ⟨⟨hwaits', hturns'.trans hturns, (htimed₂.trans htimed₁.symm).trans htimed, ?_⟩,
        .inr (htimed.symm.trans htimed₁)⟩
      exact ⟨fun h => absurd h hne, fun h => absurd (hcall.mpr h) hne'⟩
    · exact .inr ⟨⟨hwaits', hturns'.trans hturns, htimed'.trans htimed, hcall'.trans hcall⟩, .inl howner⟩
  have hgoal : ∀ m, k ≤ m → Eventually Goal k ∨ Stays m := fun m hm =>
    Eventually.or_kept (fun m hm => (hkept m hm).imp_right And.left) hm hstays
  by_cases htimed : (r.state k).worker.timed = true
  · obtain ⟨m, hm, hover⟩ := hwaits k htimed
    refine (hgoal m hm).resolve_right fun hstays => ?_
    rw [hstays.2.2.1.trans htimed] at hover
    cases hover
  by_cases hcall : (r.state k).worker = .inWorkload
  · obtain ⟨m, hm, hover⟩ := hends k hcall
    exact (hgoal m hm).resolve_right fun hstays => hover (hstays.2.2.2.mpr hcall)
  have hready : ∀ m, Stays m → ∃ s', ExpectedTurn .thread (r.state m) s' := by
    intro m hstays
    have hopen := h.isOpen hstays.1.1
    refine exists_threadTurn hopen.started hopen.goesOn (fun hblocked => ?_) (hstays.2.2.2.not.mpr hcall)
    have hflag := ((consistent (PeriodicRun.reachable h.reachable_zero m)).pauseBlocked hblocked).1
    rw [hopen.paused] at hflag
    cases hflag
  refine (r.exists_turn (t := .thread) (A := Stays) (Q := Goal) trivial hready
    (fun m hm _ => (hkept m hm).imp_right And.left) hstays).trans fun m _ hturn => ?_
  obtain hgoal | ⟨hstays, hparty⟩ := hturn
  · exact .now hgoal
  · refine ⟨m + 1, m.le_succ, (hkept m hstays).resolve_right fun h => ?_⟩
    rcases h.2 with howner | htimed'
    · rw [hparty] at howner
      cases howner
    · exact htimed htimed'

end PeriodicRun.LeftAlone

/-- A started thread that the owner neither pauses nor terminates calls its workload again and again, in every
run that is fair to it and in which workload calls and waits with a timeout end. -/
theorem workload_isCalledAgain {r : PeriodicRun} {start : ℕ} (halone : r.LeftAlone start)
    (hends : r.WorkloadEnds) (hwaits : r.WaitsEnd) (calls : ℕ) :
    Eventually (fun m => calls ≤ (r.state m).history.count .workloadBegun) start := by
  have hcalls : Eventually (fun m => start ≤ m ∧ calls ≤ (r.state m).calls) start := by
    induction calls with
    | zero => exact .now ⟨le_rfl, Nat.zero_le _⟩
    | succ calls ih =>
      refine ih.trans fun m _ ⟨hm, hle⟩ => ?_
      exact (halone.eventually_called hends hwaits hm).mono fun k hk hlt => ⟨hm.trans hk, by omega⟩
  exact hcalls.mono fun m _ h => h.2

/-! ### A run -/

/-- Where a thread goes that neither the owner nor the system disturbs. -/
def WorkerPc.goRound : WorkerPc → WorkerPc
  | .pauseWait => .callWorkload
  | .callWorkload => .inWorkload
  | .inWorkload => .periodWait
  | .periodWait => .periodBlocked
  | .periodBlocked => .periodWoken .timeout
  | _ => .pauseWait

theorem WorkerPc.timed_goRound {pc : WorkerPc} (h : pc.timed = true) : pc.goRound.goRound.timed = false := by
  cases pc <;> first | rfl | cases h

structure State.GoesRound (s : State) : Prop where
  isOpen : s.Open
  terminate : s.terminate = false
  worker : s.worker ∈ [.pauseWait, .callWorkload, .inWorkload, .periodWait, .periodBlocked, .periodWoken .timeout]

theorem State.GoesRound.next {s : State} (h : s.GoesRound) :
    ∃ s', Turn .thread s s' ∧ s'.GoesRound ∧ s'.worker = s.worker.goRound := by
  obtain ⟨⟨howner, hpaused, -, -, hworkload⟩, hterminate, hworker⟩ := h
  have hturn : ∀ choice s', s.workerStep choice = some s' → s'.workload = s.workload → s'.paused = s.paused →
      s'.worker = s.worker.goRound → ∃ s', Turn .thread s s' ∧ s'.GoesRound ∧ s'.worker = s.worker.goRound := by
    intro choice s' hstep hworkload' hpaused' hworker'
    obtain ⟨howner', hterminate', -⟩ := workerStep_kept hstep
    refine ⟨s', ⟨.worker choice, rfl, hstep⟩, ⟨⟨howner'.trans howner, hpaused'.trans hpaused, ?_, ?_,
      hworkload'.trans hworkload⟩, hterminate'.trans hterminate, ?_⟩, hworker'⟩
    all_goals
      rw [hworker']
      cases s.worker <;> simp [WorkerPc.goRound]
  have hgoTo : ∀ choice pc, s.workerStep choice = some (s.goTo pc) → pc = s.worker.goRound →
      ∃ s', Turn .thread s s' ∧ s'.GoesRound ∧ s'.worker = s.worker.goRound :=
    fun choice pc hstep hpc => hturn choice _ hstep rfl rfl hpc
  simp only [List.mem_cons, List.not_mem_nil, or_false] at hworker
  rcases hworker with hpc | hpc | hpc | hpc | hpc | hpc
  · exact hgoTo .go .callWorkload (by simp [workerStep, hpc, hpaused, leavePause, hterminate]) (by rw [hpc]; rfl)
  · exact hturn .go ((s.goTo .inWorkload).record .workloadBegun) (by simp only [workerStep, hpc]) rfl rfl
      (by rw [hpc]; rfl)
  · exact hturn .go ((s.goTo .periodWait).record .workloadEnded) (by simp only [workerStep, hpc]) rfl rfl
      (by rw [hpc]; rfl)
  · exact hgoTo .go .periodBlocked (by simp [workerStep, hpc, hpaused, hterminate]) (by rw [hpc]; rfl)
  · exact hgoTo .timeout (.periodWoken .timeout) (by simp only [workerStep, hpc]) (by rw [hpc]; rfl)
  · exact hgoTo .go .pauseWait (by simp [workerStep, hpc, leavePeriod, hterminate]) (by rw [hpc]; rfl)

theorem State.GoesRound.exists_forever {s : State} (h : s.GoesRound) : ∃ r : PeriodicRun, r.state 0 = s ∧
    ∀ n, (r.state n).GoesRound ∧ (r.state (n + 1)).worker = (r.state n).worker.goRound := by
  refine FairRun.exists_forever_of (t := Party.thread) (fun u _ => ?_) (fun s h => h.next) h
  cases u with
  | thread => exact .inl rfl
  | owner =>
    refine .inr fun s h s' ⟨action, hparty, hexpects, _⟩ => ?_
    cases action with
    | owner call => simp [expects, h.isOpen.owner] at hexpects
    | worker choice => cases hparty

def threadStarted : Option State :=
  run false [.owner (.start true 0), .worker .go]

theorem threadStarted_goesRound : ∃ s, threadStarted = some s ∧ s.worker = .pauseWait ∧ s.GoesRound :=
  ⟨_, rfl, rfl, ⟨rfl, rfl, by decide, by decide, rfl⟩, rfl, List.mem_cons_self⟩

theorem workload_isCalledAgain_everyPeriod : ∃ r : PeriodicRun, (r.state 0).worker = .pauseWait ∧
    ∀ calls, Eventually (fun m => calls ≤ (r.state m).history.count .workloadBegun) 0 := by
  obtain ⟨s, hs, hwaiting, hround⟩ := threadStarted_goesRound
  obtain ⟨r, hr, hforever⟩ := hround.exists_forever
  have halone : r.LeftAlone 0 :=
    ⟨hr ▸ run_reachable hs, (hforever 0).1.isOpen, fun n _ => (hforever n).1.isOpen.owner,
      fun n _ => (hforever n).1.isOpen.paused⟩
  have hends : r.WorkloadEnds := by
    intro n hcall
    have hover : (r.state (n + 1)).worker = .periodWait := by
      rw [(hforever n).2, hcall]
      rfl
    exact ⟨n + 1, n.le_succ, fun hcall' => by rw [hover] at hcall'; cases hcall'⟩
  have hwaits : r.WaitsEnd := by
    intro n htimed
    refine ⟨n + 2, by omega, ?_⟩
    show (r.state (n + 2)).worker.timed = false
    rw [(hforever (n + 1)).2, (hforever n).2]
    exact WorkerPc.timed_goRound htimed
  rw [← hr] at hwaiting
  exact ⟨r, hwaiting, workload_isCalledAgain halone hends hwaits⟩

end CppUtils.PeriodicThread
