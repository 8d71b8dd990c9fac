import CppUtils.Lib.FairRuns
import CppUtils.PeriodicThread.Pausing

/-!
# `terminate` returns

While `terminate` is in its join the flag is set, and no wait of the thread asks for more: with each
turn the thread is nearer to its end, but for a call of the workload, of which a run must say that it
ends. The owner's own turns in the call are three.
-/

namespace CppUtils.PeriodicThread

open State

/-! ### Fair runs -/

inductive Party
  | owner
  | thread
  deriving DecidableEq

def State.Action.party : Action → Party
  | .owner _ => .owner
  | .worker _ => .thread

def Turn (t : Party) (s s' : State) : Prop :=
  ∃ action : Action, action.party = t ∧ s.step action = some s'

/-- The steps that come by themselves: no new call of the owner, no end of a workload call, and no wake-up
without a cause. -/
def State.expects (s : State) : Action → Bool
  | .owner _ => decide (s.owner ≠ .outside)
  | .worker .spurious => false
  | .worker _ => decide (s.worker ≠ .inWorkload)

def ExpectedTurn (t : Party) (s s' : State) : Prop :=
  ∃ action : Action, action.party = t ∧ s.expects action = true ∧ s.step action = some s'

/-- The infinite runs that are fair to the owner and to the thread. -/
abbrev PeriodicRun := FairRun Turn ExpectedTurn fun _ => True

def PeriodicRun.WorkloadEnds (r : PeriodicRun) : Prop :=
  ∀ n, (r.state n).worker = .inWorkload → Eventually (fun m => (r.state m).worker ≠ .inWorkload) n

theorem PeriodicRun.reachable {r : PeriodicRun} (hreach : periodicSystem.Reachable (r.state 0)) (n : ℕ) :
    periodicSystem.Reachable (r.state n) := by
  induction n with
  | zero => exact hreach
  | succ n ih =>
    obtain ⟨action, -, hstep⟩ := r.step n
    exact ih.next ⟨action, hstep⟩

/-! ### The thread under the flag -/

/-- How many turns the thread has left when the flag is set. -/
def WorkerPc.turnsToExit : WorkerPc → ℕ
  | .none => 0
  | .starting _ => 4
  | .delayWait => 2
  | .delayBlocked => 3
  | .delayWoken _ => 2
  | .pauseWait => 1
  | .pauseBlocked => 2
  | .pauseWoken _ => 1
  | .callWorkload => 3
  | .inWorkload => 2
  | .periodWait => 1
  | .periodBlocked => 2
  | .periodWoken _ => 1
  | .exited => 0

theorem WorkerPc.turnsToExit_le (pc : WorkerPc) : pc.turnsToExit ≤ 4 := by
  cases pc <;> simp [turnsToExit]

namespace State

variable {s s' : State}

theorem workerStep_kept {choice : Choice} (h : s.workerStep choice = some s') :
    s'.owner = s.owner ∧ s'.terminate = s.terminate ∧ s'.joinable = s.joinable := by
  revert h
  fun_cases workerStep s choice with
  | case10 | case13 =>
    rintro ⟨⟩
    unfold leavePause
    split <;> exact ⟨rfl, rfl, rfl⟩
  | case17 | case21 =>
    rintro ⟨⟩
    unfold leavePeriod
    split <;> exact ⟨rfl, rfl, rfl⟩
  | case23 =>
    intro h
    cases h
  | _ =>
    rintro ⟨⟩
    exact ⟨rfl, rfl, rfl⟩

/-- Under the flag every turn of the thread brings it nearer to its end. -/
theorem workerStep_turnsToExit {choice : Choice} (hterminate : s.terminate = true)
    (h : s.workerStep choice = some s') : s'.worker.turnsToExit < s.worker.turnsToExit := by
  revert h
  fun_cases workerStep s choice with
  | case10 | case13 | case17 | case21 =>
    rintro ⟨⟩
    simp_all [leavePause, leavePeriod, goTo, WorkerPc.turnsToExit]
  | case23 =>
    intro h
    cases h
  | _ =>
    rintro ⟨⟩
    simp_all [goTo, record, WorkerPc.turnsToExit]

theorem exists_threadTurn (hstarted : s.worker ≠ .none) (hexited : s.worker ≠ .exited)
    (hpause : s.worker ≠ .pauseBlocked) (hcall : s.worker ≠ .inWorkload) : ∃ s', ExpectedTurn .thread s s' := by
  have hturn : ∀ choice, choice ≠ .spurious → (∃ s', s.workerStep choice = some s') →
      ∃ s', ExpectedTurn .thread s s' := by
    rintro choice hchoice ⟨s', hstep⟩
    refine ⟨s', .worker choice, rfl, ?_, hstep⟩
    cases choice with
    | spurious => exact absurd rfl hchoice
    | _ => exact decide_eq_true hcall
  cases hworker : s.worker with
  | none => exact absurd hworker hstarted
  | exited => exact absurd hworker hexited
  | pauseBlocked => exact absurd hworker hpause
  | inWorkload => exact absurd hworker hcall
  | delayBlocked | periodBlocked => exact hturn .timeout (by simp) ⟨_, by simp only [workerStep, hworker]; rfl⟩
  | callWorkload => exact hturn .go (by simp) ⟨_, by simp only [workerStep, hworker]; rfl⟩
  | starting delay =>
    refine hturn .go (by simp) ?_
    simp only [workerStep, hworker]
    split_ifs <;> exact ⟨_, rfl⟩
  | _ =>
    refine hturn .go (by simp) ?_
    simp only [workerStep, hworker]
    split <;> exact ⟨_, rfl⟩

/-! ### The call -/

/-- Until its join is over, the call has a thread to join. -/
def JoinsThread (s : State) : Prop :=
  s.owner = .setTerminate ∨ s.owner = .join → s.joinable = true

theorem joinsThread (hreach : periodicSystem.Reachable s) : s.JoinsThread := by
  refine hreach.invariant JoinsThread ?_ ?_
  · rintro _ ⟨workload, rfl⟩ (h | h) <;> cases h
  · rintro s s' - hI ⟨action, hstep⟩
    cases action with
    | worker choice =>
      obtain ⟨howner, -, hjoinable⟩ := workerStep_kept hstep
      intro h
      rw [howner] at h
      exact hjoinable.trans (hI h)
    | owner call =>
      have hstep : s.ownerStep call = some s' := hstep
      unfold ownerStep at hstep
      cases howner : s.owner with
      | outside =>
        simp only [howner] at hstep
        cases call with
        | terminate =>
          simp only at hstep
          split at hstep
          · rename_i hjoinable
            cases hstep
            exact fun _ => hjoinable
          · cases hstep
            simp [JoinsThread, record, howner]
        | setWorkload workload =>
          cases hstep
          unfold setWorkload
          split <;> simp [JoinsThread, howner]
        | start workload delayBeforeStartMs =>
          cases hstep
          unfold start
          split <;> simp [JoinsThread, howner]
        | pause | resume =>
          cases hstep
          simp [JoinsThread, pause, resume, howner]
      | setTerminate =>
        simp only [howner] at hstep
        cases hstep
        exact fun _ => hI (.inl howner)
      | join =>
        simp only [howner] at hstep
        split at hstep
        · cases hstep
          simp [JoinsThread]
        · cases hstep
      | resetTerminate =>
        simp only [howner] at hstep
        cases hstep
        simp [JoinsThread]

/-- How many turns are left until the call returns, those of the thread among them. -/
def turnsToReturn (s : State) : ℕ :=
  match s.owner with
  | .outside => 0
  | .setTerminate => 7
  | .join => s.worker.turnsToExit + 2
  | .resetTerminate => 1

/-- The call is over: the thread is gone, and another one can be started. -/
structure Returned (s : State) : Prop where
  owner : s.owner = .outside
  worker : s.worker = .none
  terminate : s.terminate = false

theorem ownerStep_turnsToReturn (hs : s.Consistent) (hentered : s.owner ≠ .outside) {call : Call}
    (h : s.ownerStep call = some s') :
    s'.Returned ∨ s'.owner ≠ .outside ∧ s'.turnsToReturn < s.turnsToReturn := by
  unfold ownerStep at h
  cases howner : s.owner with
  | outside => exact absurd howner hentered
  | setTerminate =>
    simp only [howner] at h
    cases h
    have hle := s.worker.notify.turnsToExit_le
    refine .inr ⟨by simp, ?_⟩
    simp only [turnsToReturn, howner]
    omega
  | join =>
    simp only [howner] at h
    split at h
    · cases h
      refine .inr ⟨by simp, ?_⟩
      simp only [turnsToReturn, howner]
      omega
    · cases h
  | resetTerminate =>
    simp only [howner] at h
    cases h
    have hnone : s.worker = .none := by simpa [hs.owner howner] using hs.joinable
    exact .inl ⟨rfl, hnone, rfl⟩

theorem workerStep_turnsToReturn (hs : s.Consistent) {choice : Choice} (h : s.workerStep choice = some s') :
    s'.turnsToReturn ≤ s.turnsToReturn ∧ (s.owner = .join → s'.turnsToReturn < s.turnsToReturn) := by
  have howner := (workerStep_kept h).1
  by_cases hjoin : s.owner = .join
  · have hlt := workerStep_turnsToExit (hs.terminate.mpr (.inl hjoin)) h
    have hlt' : s'.turnsToReturn < s.turnsToReturn := by
      simp only [turnsToReturn, howner, hjoin]
      omega
    exact ⟨hlt'.le, fun _ => hlt'⟩
  · refine ⟨?_, fun h => absurd h hjoin⟩
    simp only [turnsToReturn, howner]
    split
    case h_3 h => exact absurd h hjoin
    all_goals exact le_rfl

end State

/-! ### The run -/

namespace PeriodicRun

variable {r : PeriodicRun}

def InCall (r : PeriodicRun) (n : ℕ) : Prop :=
  (r.state n).owner ≠ .outside

theorem step_turnsToReturn (hreach : periodicSystem.Reachable (r.state 0)) {n : ℕ} (hcall : r.InCall n) :
    (r.state (n + 1)).Returned ∨ r.InCall (n + 1) ∧
      (r.state (n + 1)).turnsToReturn ≤ (r.state n).turnsToReturn ∧
      (r.party n = .owner ∨ (r.state n).owner = .join →
        (r.state (n + 1)).turnsToReturn < (r.state n).turnsToReturn) := by
  have hs := consistent (reachable hreach n)
  obtain ⟨action, hparty, hstep⟩ := r.step n
  cases action with
  | owner call =>
    refine (ownerStep_turnsToReturn hs hcall hstep).imp_right fun ⟨hcall', hlt⟩ => ?_
    exact ⟨hcall', hlt.le, fun _ => hlt⟩
  | worker choice =>
    obtain ⟨hle, hlt⟩ := workerStep_turnsToReturn hs hstep
    refine .inr ⟨fun h => hcall ((workerStep_kept hstep).1.symm.trans h), hle, fun h => hlt (h.resolve_left ?_)⟩
    simp [← hparty, Action.party]

theorem helps_owner (hreach : periodicSystem.Reachable (r.state 0)) :
    r.Helps r.InCall (fun n => (r.state n).Returned) (fun n => (r.state n).turnsToReturn) .owner
      fun n => (r.state n).owner = .join → (r.state n).worker = .exited where
  ready n hcall hhome := by
    have hstep : ∃ s', (r.state n).ownerStep .terminate = some s' := by
      unfold ownerStep
      cases howner : (r.state n).owner with
      | outside => exact absurd howner hcall
      | setTerminate | resetTerminate => exact ⟨_, rfl⟩
      | join => exact ⟨_, if_pos (hhome howner)⟩
    obtain ⟨s', hstep⟩ := hstep
    exact ⟨s', .owner .terminate, rfl, decide_eq_true hcall, hstep⟩
  stay n hcall hhome hother := by
    obtain ⟨action, hparty, hstep⟩ := r.step n
    cases action with
    | owner call => exact absurd hparty.symm hother
    | worker choice =>
      refine .inr fun hjoin => ?_
      rw [(workerStep_kept hstep).1] at hjoin
      have hstep : (r.state n).workerStep choice = some (r.state (n + 1)) := hstep
      simp [workerStep, hhome hjoin] at hstep
  turn n hcall hhome hparty :=
    (step_turnsToReturn hreach hcall).imp_right fun h => h.2.2 (.inl hparty)

theorem helps_thread (hreach : periodicSystem.Reachable (r.state 0)) :
    r.Helps r.InCall (fun n => (r.state n).Returned) (fun n => (r.state n).turnsToReturn) .thread
      fun n => (r.state n).owner = .join ∧ (r.state n).worker ≠ .exited ∧ (r.state n).worker ≠ .inWorkload where
  ready n hcall hhome := by
    obtain ⟨hjoin, hexited, hworkload⟩ := hhome
    have hs := consistent (reachable hreach n)
    have hstarted := hs.joinable.mp (joinsThread (reachable hreach n) (.inr hjoin))
    refine exists_threadTurn hstarted hexited (fun hblocked => ?_) hworkload
    have hclear := (hs.pauseBlocked hblocked).2
    rw [hs.terminate.mpr (.inl hjoin)] at hclear
    cases hclear
  stay n hcall hhome hother := by
    obtain ⟨action, hparty, hstep⟩ := r.step n
    cases action with
    | owner call =>
      have hstep : (r.state n).ownerStep call = some (r.state (n + 1)) := hstep
      simp [ownerStep, hhome.1, hhome.2.1] at hstep
    | worker choice => exact absurd hparty.symm hother
  turn n hcall hhome _ :=
    (step_turnsToReturn hreach hcall).imp_right fun h => h.2.2 (.inr hhome.1)

/-- A workload call that the join waits for ends. -/
theorem WorkloadEnds.eventually_afterWorkload (hends : r.WorkloadEnds) {n : ℕ}
    (hjoin : (r.state n).owner = .join) (hworkload : (r.state n).worker = .inWorkload) :
    Eventually (fun m => (r.state m).owner = .join ∧ (r.state m).worker = .periodWait) n := by
  have hkept : ∀ m, (r.state m).owner = .join ∧ (r.state m).worker = .inWorkload →
      ((r.state (m + 1)).owner = .join ∧ (r.state (m + 1)).worker = .periodWait) ∨
        (r.state (m + 1)).owner = .join ∧ (r.state (m + 1)).worker = .inWorkload := by
    rintro m ⟨hjoin, hworkload⟩
    obtain ⟨action, -, hstep⟩ := r.step m
    cases action with
    | owner call =>
      have hstep : (r.state m).ownerStep call = some (r.state (m + 1)) := hstep
      simp [ownerStep, hjoin, hworkload] at hstep
    | worker choice =>
      have hstep : (r.state m).workerStep choice = some (r.state (m + 1)) := hstep
      have howner := (workerStep_kept hstep).1.trans hjoin
      cases choice with
      | go =>
        simp only [workerStep, hworkload, Option.some.injEq] at hstep
        exact .inl ⟨howner, by rw [← hstep]; rfl⟩
      | timeout | spurious => simp [workerStep, hworkload] at hstep
  obtain ⟨m, hm, hover⟩ := hends n hworkload
  exact (Eventually.or_kept hkept hm ⟨hjoin, hworkload⟩).resolve_right fun h => hover h.2

end PeriodicRun

/-- In every run that is fair to the owner and to the thread and in which workload calls end, `terminate`
returns at last, wherever the thread was; then the thread is gone and the flag is back. -/
theorem terminate_returns {r : PeriodicRun} (hreach : periodicSystem.Reachable (r.state 0))
    (hends : r.WorkloadEnds) {n : ℕ} (hentered : (r.state n).owner ≠ .outside) :
    Eventually (fun m => (r.state m).owner = .outside ∧ (r.state m).worker = .none ∧
      (r.state m).terminate = false) n := by
  have hreturned : Eventually (fun m => (r.state m).Returned) n := by
    refine r.eventually_of_helpers (A := r.InCall) (fun m => (r.state m).turnsToReturn) (fun m hcall => ?_)
      (fun m _ => ?_) n hentered
    · exact (PeriodicRun.step_turnsToReturn hreach hcall).imp_right fun h => ⟨h.1, h.2.1⟩
    by_cases hjoins : (r.state m).owner = .join ∧ (r.state m).worker ≠ .exited
    swap
    · have hhome : (r.state m).owner = .join → (r.state m).worker = .exited := fun hjoin =>
        by_contra fun hexited => hjoins ⟨hjoin, hexited⟩
      exact ⟨.owner, _, trivial, PeriodicRun.helps_owner hreach, .now (.inr hhome)⟩
    obtain ⟨hjoin, hexited⟩ := hjoins
    refine ⟨.thread, _, trivial, PeriodicRun.helps_thread hreach, ?_⟩
    by_cases hworkload : (r.state m).worker = .inWorkload
    · refine (hends.eventually_afterWorkload hjoin hworkload).mono fun k _ ⟨hjoin, hworker⟩ => .inr ⟨hjoin, ?_⟩
      rw [hworker]
      exact ⟨by simp, by simp⟩
    · exact .now (.inr ⟨hjoin, hexited, hworkload⟩)
  exact hreturned.mono fun m _ h => ⟨h.owner, h.worker, h.terminate⟩

/-! ### A run -/

theorem State.Returned.exists_forever {s : State} (h : s.Returned) :
    ∃ r : PeriodicRun, r.state 0 = s ∧ ∀ n, (r.state n).Returned := by
  refine FairRun.exists_forever (t := .owner) (fun u _ => ?_) (fun s h => ?_) h
  · cases u with
    | owner => exact .inl rfl
    | thread =>
      refine .inr fun s h s' ⟨action, hparty, _, hstep⟩ => ?_
      cases action with
      | owner call => cases hparty
      | worker choice => simp [step, workerStep, h.worker] at hstep
  · refine ⟨s, ⟨.owner (.setWorkload s.workload), rfl, ?_⟩, h⟩
    have hsame : s.setWorkload s.workload = s := by
      unfold setWorkload
      split <;> rfl
    simp only [step, ownerStep, h.owner, hsame]

def terminateBegins : Option State :=
  run false [.owner (.start true 0), .worker .go, .worker .go, .worker .go, .owner .terminate]

def endTerminate : List Action :=
  [.owner .terminate, .worker .go, .worker .go, .owner .terminate, .owner .terminate]

theorem terminateBegins_ends : ∃ s s', terminateBegins = some s ∧ s.owner = .setTerminate ∧
    s.worker = .inWorkload ∧ endTerminate.foldlM step s = some s' ∧ s'.Returned :=
  ⟨_, _, rfl, rfl, rfl, rfl, rfl, rfl, rfl⟩

theorem terminate_returns_inWorkload : ∃ r : PeriodicRun,
    (r.state 0).owner = .setTerminate ∧ (r.state 0).worker = .inWorkload ∧
      Eventually (fun m => (r.state m).owner = .outside ∧ (r.state m).worker = .none ∧
        (r.state m).terminate = false) 0 := by
  obtain ⟨s, s', hs, howner, hworker, hend, hreturned⟩ := terminateBegins_ends
  obtain ⟨idle, hidle, hforever⟩ := hreturned.exists_forever
  have hturn : ∀ s (action : Action) s', s.step action = some s' → Turn action.party s s' :=
    fun _ action _ hstep => ⟨action, rfl, hstep⟩
  obtain ⟨r, hr, hlater⟩ := idle.exists_prepend hturn (hidle ▸ hend)
  have hends : PeriodicRun.WorkloadEnds r := by
    intro n _
    have hover : (r.state (n + endTerminate.length)).worker ≠ .inWorkload := by
      rw [hlater n, (hforever n).worker]
      simp
    exact ⟨n + endTerminate.length, Nat.le_add_right _ _, hover⟩
  rw [← hr] at howner hworker
  have hentered : (r.state 0).owner ≠ .outside := by
    rw [howner]
    simp
  exact ⟨r, howner, hworker, terminate_returns (hr ▸ run_reachable hs) hends hentered⟩

end CppUtils.PeriodicThread
