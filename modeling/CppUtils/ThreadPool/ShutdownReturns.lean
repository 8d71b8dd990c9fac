import CppUtils.ThreadPool.Joined
import CppUtils.ThreadPool.Starvation

/-!
# `finishAllThreads` joins its workers

Once `terminate` is set a worker goes to the end of what it has in hand and leaves its loop, whatever is
in the lanes and whatever other threads go on to push. The call that joins the workers returns after the
last of them, or goes on to its drain.
-/

namespace CppUtils

open Threaded

variable {clients workers : ℕ} {U : UserCode} {Code : Type} {cfg : PoolConfig}

/-! ### A worker leaves its loop -/

/-- How many turns a worker that stands here has left once `terminate` is set: those until it would look at
its own lane again, and it does not. -/
def RunWorkerPc.turnsToExit (workers : ℕ) (blocked : Bool) : RunWorkerPc Code → ℕ
  | .tryGetTask .own => workers + 11
  | pc => pc.turnsToOwn workers blocked

theorem RunWorkerPc.turnsToExit_mono {pc : RunWorkerPc Code} {blocked blocked' : Bool}
    (h : blocked = true → blocked' = true) : pc.turnsToExit workers blocked ≤ pc.turnsToExit workers blocked' := by
  unfold turnsToExit
  split
  · exact le_rfl
  · exact turnsToOwn_mono h

theorem RunWorkerMove.turnsToExit {t : ThreadId cfg.maxNumThreads clients}
    {s s' : PoolState cfg.maxNumThreads clients Code} {own : Fin cfg.maxNumThreads} {pc : RunWorkerPc Code}
    {after : List (Frame cfg.maxNumThreads Code)} (hmove : RunWorkerMove cfg t s own pc s' after)
    (hterminate : s.terminate = true) :
    own ∈ s'.exited ∨ ∃ above pc', after = above ++ [.runWorker own pc'] ∧
      pc'.turnsToExit cfg.maxNumThreads (decide (t ∈ s'.idleCv))
        < pc.turnsToExit cfg.maxNumThreads (decide (t ∈ s.idleCv)) := by
  cases hmove with
  | exit => exact .inl (Finset.mem_insert_self own _)
  | enter hrunning => exact absurd hterminate hrunning
  | block _ hpred => exact absurd (.inl hterminate) hpred
  | tryGetTask hget =>
    refine .inr ⟨[], _, rfl, ?_⟩
    cases hget <;> simp only [RunWorkerPc.turnsToExit, RunWorkerPc.turnsToOwn] <;> omega
  | begin => exact .inr ⟨[_], _, rfl, Nat.lt_succ_self _⟩
  | pass hpc =>
    refine .inr ⟨[], _, rfl, ?_⟩
    rcases hpc with rfl | ⟨rfl, hawake⟩
    · simp [RunWorkerPc.turnsToExit, RunWorkerPc.turnsToOwn]
    · simp [RunWorkerPc.turnsToExit, RunWorkerPc.turnsToOwn, hawake]
  | spurious hblocked | timeout =>
    refine .inr ⟨[], _, rfl, ?_⟩
    by_cases hmem : t ∈ s.idleCv <;> simp_all [RunWorkerPc.turnsToExit, RunWorkerPc.turnsToOwn]
  | _ => exact .inr ⟨[], _, rfl, by simp [RunWorkerPc.turnsToExit, RunWorkerPc.turnsToOwn]⟩

namespace PoolSystem

variable {s s' : PoolSystem cfg U clients} {own : Fin cfg.maxNumThreads}

/-- How many turns in its loop a worker has left once `terminate` is set. -/
def turnsToExit (s : PoolSystem cfg U clients) (own : Fin cfg.maxNumThreads) : ℕ :=
  (s.loopPc own).turnsToExit cfg.maxNumThreads (decide (.worker own ∈ s.shared.pool.idleCv))

theorem turnsToExit_eq {above : List (Frame cfg.maxNumThreads U.Code)} {pc : RunWorkerPc U.Code}
    (hstack : s.threads (.worker own) = above ++ [.runWorker own pc]) :
    s.turnsToExit own =
      pc.turnsToExit cfg.maxNumThreads (decide (.worker own ∈ s.shared.pool.idleCv)) := by
  rw [turnsToExit, loopPc_eq hstack]

/-- Only its own thread puts a worker among the blocked ones, and not once `terminate` is set. -/
theorem idleCv_of_terminate {t : ThreadId cfg.maxNumThreads clients}
    {c : Choice cfg.maxNumThreads clients U.Input} (h : step cfg U t c s = some s')
    (hterminate : s.shared.pool.terminate = true) : s'.shared.pool.idleCv ⊆ s.shared.pool.idleCv := by
  obtain ⟨before, after, rest, -, hrule, -⟩ := step_rule h
  generalize s'.shared = shared' at hrule
  cases hrule with
  | unwind => exact subset_rfl
  | frame hmove =>
    rcases hmove.idleCv with ⟨hsubset, -⟩ | ⟨-, -, -, hrunning, -⟩
    · exact hsubset
    · rw [hterminate] at hrunning
      cases hrunning

/-- Once `terminate` is set, no step puts off the exit of a worker, and its own turns bring it nearer. -/
theorem turnsToExit_step (hreach : (poolSystem cfg U clients).Reachable s)
    {t : ThreadId cfg.maxNumThreads clients} {c : Choice cfg.maxNumThreads clients U.Input}
    (h : step cfg U t c s = some s') (hterminate : s.shared.pool.terminate = true)
    {above : List (Frame cfg.maxNumThreads U.Code)} {pc : RunWorkerPc U.Code}
    (hstack : s.threads (.worker own) = above ++ [.runWorker own pc]) :
    own ∈ s'.shared.pool.exited ∨
      (∃ above' pc', s'.threads (.worker own) = above' ++ [.runWorker own pc']) ∧
        s'.turnsToExit own ≤ s.turnsToExit own ∧
        (above = [] → t = .worker own → s'.turnsToExit own < s.turnsToExit own) := by
  have hblocked : decide (.worker own ∈ s'.shared.pool.idleCv) = true →
      decide (.worker own ∈ s.shared.pool.idleCv) = true := fun hmem =>
    decide_eq_true (idleCv_of_terminate h hterminate (of_decide_eq_true hmem))
  by_cases ht : t = .worker own
  · subst ht
    rcases worker_step hreach h hstack with ⟨hne, above', habove⟩ | ⟨rfl, hmove⟩
    · refine .inr ⟨⟨above', pc, habove⟩, ?_, fun hnil => absurd hnil hne⟩
      rw [turnsToExit_eq hstack, turnsToExit_eq habove]
      exact RunWorkerPc.turnsToExit_mono hblocked
    · refine (hmove.turnsToExit hterminate).imp_right ?_
      rintro ⟨above', pc', hafter, hlt⟩
      rw [turnsToExit_eq hstack, turnsToExit_eq hafter]
      exact ⟨⟨above', pc', hafter⟩, hlt.le, fun _ _ => hlt⟩
  · have hstack' := (threads_of_ne h (Ne.symm ht)).trans hstack
    refine .inr ⟨⟨above, pc, hstack'⟩, ?_, fun _ hown => absurd hown ht⟩
    rw [turnsToExit_eq hstack, turnsToExit_eq hstack']
    exact RunWorkerPc.turnsToExit_mono hblocked

end PoolSystem

/-- Once `terminate` is set a worker exits at last. -/
theorem PoolRun.BodiesEnd.eventually_exited {Fair : ThreadId cfg.maxNumThreads clients → Prop}
    {r : PoolRun cfg U clients Fair} (hbodies : r.BodiesEnd)
    (hreach : (poolSystem cfg U clients).Reachable (r.state 0)) {own : Fin cfg.maxNumThreads}
    (hfair : Fair (.worker own)) {n : ℕ} (hterminate : (r.state n).shared.pool.terminate = true) :
    Eventually (fun m => own ∈ (r.state m).shared.pool.exited) n := by
  have hr : ∀ m, (poolSystem cfg U clients).Reachable (r.state m) := PoolRun.reachable hreach
  obtain ⟨hexited, -⟩ | ⟨-, above, pc, hstack⟩ := PoolSystem.workerStack (hr n) (.worker own) own rfl
  · exact .now hexited
  refine r.eventually_of_rank (t := .worker own) (fun m => (r.state m).turnsToExit own)
    (A := fun m => (r.state m).shared.pool.terminate = true ∧
      ∃ above pc, (r.state m).threads (.worker own) = above ++ [.runWorker own pc])
    (fun m => (r.state m).inLoop own) hfair
    (fun m _ hloop => PoolSystem.exists_expectedTurn (hr m) hloop) (fun m hA => ?_) (fun m _ hloop hother => ?_)
    (fun m hA => ?_) (fun m hA hloop hparty => ?_) n ⟨hterminate, above, pc, hstack⟩
  · obtain ⟨-, above, pc, hstack⟩ := hA
    obtain rfl | habove := eq_or_ne above []
    · exact .now (.inr ⟨pc, hstack⟩)
    · obtain ⟨item, rfl⟩ := PoolSystem.running_of_above (hr m) hstack habove
      exact (hbodies m own above item hstack).mono fun _ _ hloop => .inr ⟨_, hloop⟩
  · obtain ⟨pc, hstack⟩ := hloop
    obtain ⟨c, hstep⟩ := r.step m
    exact .inr ⟨pc, (PoolSystem.threads_of_ne hstep hother.symm).trans hstack⟩
  · obtain ⟨hterminate, above, pc, hstack⟩ := hA
    obtain ⟨c, hstep⟩ := r.step m
    refine (PoolSystem.turnsToExit_step (hr m) hstep hterminate hstack).imp_right ?_
    rintro ⟨hstack', hle, -⟩
    exact ⟨⟨PoolSystem.terminate_step ⟨_, c, hstep⟩ hterminate, hstack'⟩, hle⟩
  · obtain ⟨hterminate, -⟩ := hA
    obtain ⟨pc, hstack⟩ := hloop
    obtain ⟨c, hstep⟩ := r.step m
    have hbottom : (r.state m).threads (.worker own) = [] ++ [.runWorker own pc] := hstack
    exact (PoolSystem.turnsToExit_step (hr m) hstep hterminate hbottom).imp_right fun h => h.2.2 rfl hparty

/-! ### The owner joins the workers -/

/-- What a call that joins these workers has seen. -/
def FinishPc.HasJoinedOf (handles : List (Fin workers)) (s : PoolState workers clients Code) :
    FinishPc workers Code → Prop
  | .setTerminate => s.workerThreads = handles
  | .notifyAll => s.workerThreads = handles
  | .join rest => ∀ w ∈ handles, w ∈ rest ∨ w ∈ s.exited
  | .assertIdle => ∀ w ∈ handles, w ∈ s.exited
  | _ => False

/-- How many turns the owner has left until the workers are joined, not counting the waits. -/
def FinishPc.turnsToJoined (workers : ℕ) : FinishPc workers Code → ℕ
  | .setTerminate => workers + 4
  | .notifyAll => workers + 3
  | .join rest => rest.length + 2
  | .assertIdle => 1
  | _ => 0

theorem FinishPc.HasJoinedOf.mono {handles : List (Fin workers)} {s s' : PoolState workers clients Code}
    {pc : FinishPc workers Code} (h : pc.HasJoinedOf handles s) (hexited : s.exited ⊆ s'.exited)
    (hworkers : s'.workerThreads = s.workerThreads) : pc.HasJoinedOf handles s' := by
  cases pc with
  | setTerminate | notifyAll => exact hworkers.trans h
  | join rest => exact fun w hw => (h w hw).imp_right fun hmem => hexited hmem
  | assertIdle => exact fun w hw => hexited (h w hw)
  | _ => exact h

theorem FinishMove.hasJoinedOf {s s' : PoolState cfg.maxNumThreads clients Code} {completePendingTasks : Bool}
    {pc : FinishPc cfg.maxNumThreads Code} {after : List (Frame cfg.maxNumThreads Code)}
    (hmove : FinishMove cfg s completePendingTasks pc s' after) {handles : List (Fin cfg.maxNumThreads)}
    (h : pc.HasJoinedOf handles s) (hworkers : s.workerThreads.length ≤ cfg.maxNumThreads) :
    (after = afterJoin cfg.maxNumThreads Code completePendingTasks ∧ ∀ w ∈ handles, w ∈ s'.exited) ∨
      ∃ pc', after = [.finishAllThreads completePendingTasks pc'] ∧ pc'.HasJoinedOf handles s' ∧
        pc'.turnsToJoined cfg.maxNumThreads < pc.turnsToJoined cfg.maxNumThreads := by
  cases hmove with
  | setTerminate => exact .inr ⟨_, rfl, h, Nat.lt_succ_self _⟩
  | notifyAllJoined hnone =>
    refine .inl ⟨rfl, fun w hw => ?_⟩
    rw [← h, hnone] at hw
    exact absurd hw List.not_mem_nil
  | notifyAll =>
    refine .inr ⟨_, rfl, fun w hw => .inl (h ▸ hw), ?_⟩
    simp only [FinishPc.turnsToJoined]
    omega
  | joinedAll =>
    exact .inr ⟨_, rfl, fun w hw => (h w hw).resolve_left List.not_mem_nil, Nat.lt_succ_self _⟩
  | join hexited =>
    refine .inr ⟨_, rfl, fun w hw => ?_, Nat.lt_succ_self _⟩
    rcases h w hw with hmem | hmem
    · rcases List.mem_cons.mp hmem with rfl | hmem
      · exact .inr hexited
      · exact .inl hmem
    · exact .inr hmem
  | assertIdle => exact .inl ⟨rfl, h⟩
  | _ => exact h.elim

namespace PoolSystem

variable {s s' : PoolSystem cfg U clients}

theorem workerThreads_of_ne (hreach : (poolSystem cfg U clients).Reachable s)
    {t : ThreadId cfg.maxNumThreads clients} {c : Choice cfg.maxNumThreads clients U.Input}
    (h : step cfg U t c s = some s') (ht : t ≠ .owner) :
    s'.shared.pool.workerThreads = s.shared.pool.workerThreads := by
  obtain ⟨before, after, rest, hstack, hrule, -⟩ := step_rule h
  generalize s'.shared = shared' at hrule
  cases hrule with
  | unwind => rfl
  | @frame _ _ f _ _ hmove =>
    have howner := belongsTo hreach t f (hstack ▸ List.mem_cons_self)
    rcases hmove.workerThreads with hsame | ⟨-, rfl | ⟨completePendingTasks, rfl⟩⟩
    · exact hsame
    · exact absurd howner ht
    · exact absurd howner ht

def finishPc (s : PoolSystem cfg U clients) : Option (FinishPc cfg.maxNumThreads U.Code) :=
  match s.threads .owner with
  | .finishAllThreads _ pc :: _ => some pc
  | _ => none

def turnsToJoined (s : PoolSystem cfg U clients) : ℕ :=
  (s.finishPc.map fun pc => pc.turnsToJoined cfg.maxNumThreads).getD 0

variable {completePendingTasks : Bool} {pc : FinishPc cfg.maxNumThreads U.Code}
  {rest : List (Frame cfg.maxNumThreads U.Code)}

theorem turnsToJoined_eq (hstack : s.threads .owner = .finishAllThreads completePendingTasks pc :: rest) :
    s.turnsToJoined = pc.turnsToJoined cfg.maxNumThreads := by
  simp [turnsToJoined, finishPc, hstack]

/-- The owner is in a call that joins these workers. -/
def Joining (s : PoolSystem cfg U clients) (handles : List (Fin cfg.maxNumThreads))
    (completePendingTasks : Bool) (rest : List (Frame cfg.maxNumThreads U.Code)) : Prop :=
  ∃ pc, s.threads .owner = .finishAllThreads completePendingTasks pc :: rest ∧
    pc.HasJoinedOf handles s.shared.pool

/-- The workers are joined, and the call has gone on. -/
def Joined (s : PoolSystem cfg U clients) (handles : List (Fin cfg.maxNumThreads))
    (completePendingTasks : Bool) (rest : List (Frame cfg.maxNumThreads U.Code)) : Prop :=
  s.threads .owner = afterJoin cfg.maxNumThreads U.Code completePendingTasks ++ rest ∧
    ∀ w ∈ handles, w ∈ s.shared.pool.exited

theorem Joining.step {handles : List (Fin cfg.maxNumThreads)}
    (hreach : (poolSystem cfg U clients).Reachable s) (h : s.Joining handles completePendingTasks rest)
    {t : ThreadId cfg.maxNumThreads clients} {c : Choice cfg.maxNumThreads clients U.Input}
    (hstep : step cfg U t c s = some s') :
    s'.Joined handles completePendingTasks rest ∨ s'.Joining handles completePendingTasks rest ∧
      s'.turnsToJoined ≤ s.turnsToJoined ∧ (t = .owner → s'.turnsToJoined < s.turnsToJoined) := by
  obtain ⟨pc, hstack, hpc⟩ := h
  obtain ⟨-, after, hmove, hafter⟩ | ⟨ht, hstack'⟩ :=
    innermost_step (g := .finishAllThreads completePendingTasks pc) hstep nofun hstack
  · have hworkers : s.shared.pool.workerThreads.length ≤ cfg.maxNumThreads := by
      obtain hnil | hall := workerThreads_cases hreach
      · simp [hnil]
      · simp [hall]
    have hfinish : FinishMove cfg s.shared.pool completePendingTasks pc s'.shared.pool after := by
      generalize s'.shared = shared' at hmove ⊢
      cases hmove with
      | finishAllThreads hmove => exact hmove
    rcases hfinish.hasJoinedOf hpc hworkers with ⟨rfl, hexited⟩ | ⟨pc', rfl, hpc', hlt⟩
    · exact .inl ⟨hafter, hexited⟩
    · refine .inr ⟨⟨pc', hafter, hpc'⟩, ?_⟩
      rw [turnsToJoined_eq hstack, turnsToJoined_eq hafter]
      exact ⟨hlt.le, fun _ => hlt⟩
  · refine .inr ⟨⟨pc, hstack', hpc.mono (exited_subset_step ⟨t, c, hstep⟩) (workerThreads_of_ne hreach hstep ht)⟩,
      ?_, fun howner => absurd howner ht⟩
    rw [turnsToJoined_eq hstack, turnsToJoined_eq hstack']

end PoolSystem

/-- In every run that is fair to the owner and the workers and in which bodies that workers have begun end,
`finishAllThreads` joins the workers at last, whatever the other threads do meanwhile: `finishAllThreads(false)`
returns, and `finishAllThreads(true)` gets to its drain. -/
theorem finishAllThreads_joinsWorkers {Fair : ThreadId cfg.maxNumThreads clients → Prop}
    {r : PoolRun cfg U clients Fair} (hreach : (poolSystem cfg U clients).Reachable (r.state 0))
    (hbodies : r.BodiesEnd) (howner : Fair .owner) (hworkers : ∀ own, Fair (.worker own)) {n : ℕ}
    {completePendingTasks : Bool} {rest : List (Frame cfg.maxNumThreads U.Code)}
    (hstack : (r.state n).threads .owner = .finishAllThreads completePendingTasks .setTerminate :: rest) :
    Eventually (fun m =>
      (r.state m).threads .owner = afterJoin cfg.maxNumThreads U.Code completePendingTasks ++ rest ∧
      ∀ w ∈ (r.state n).shared.pool.workerThreads, w ∈ (r.state m).shared.pool.exited) n := by
  have hr : ∀ m, (poolSystem cfg U clients).Reachable (r.state m) := PoolRun.reachable hreach
  refine r.eventually_of_rank (t := .owner) (fun m => (r.state m).turnsToJoined)
    (A := fun m => (r.state m).Joining (r.state n).shared.pool.workerThreads completePendingTasks rest)
    (fun m => (r.state m).finishPc = some .setTerminate ∨ ∀ w, w ∈ (r.state m).shared.pool.exited)
    howner (fun m hA hhome => ?_) (fun m hA => ?_) (fun m _ hhome hother => ?_) (fun m hA => ?_)
    (fun m hA hhome hparty => ?_) n ⟨.setTerminate, hstack, rfl⟩
  · obtain ⟨pc, hstack, -⟩ := hA
    have hfree : ¬ (Frame.finishAllThreads completePendingTasks pc).mayBlock U (r.state m).shared .owner := by
      intro hblocked
      rcases hhome with hbegins | hexited
      · obtain rfl : pc = .setTerminate := by simpa [PoolSystem.finishPc, hstack] using hbegins
        exact hblocked
      · cases pc with
        | join handles =>
          cases handles with
          | nil => exact hblocked
          | cons w handles => exact hblocked (hexited w)
        | _ => exact hblocked
    obtain ⟨c, s', husual, hstep⟩ := PoolSystem.exists_usualStep (hr m) hstack hfree
    exact ⟨s', c, Choice.isExpected_of_isUsual husual, hstep⟩
  · obtain ⟨pc, hstack, -⟩ := hA
    by_cases hbegins : pc = .setTerminate
    · exact .now (.inr (.inl (by simp [PoolSystem.finishPc, hstack, hbegins])))
    have hterminate : (r.state m).shared.pool.terminate = true := by
      refine PoolSystem.terminate_of_hasSetTerminate (hr m) .owner _ (hstack ▸ List.mem_cons_self) ?_
      cases pc with
      | setTerminate => exact absurd rfl hbegins
      | _ => rfl
    have hall : Eventually (fun k => ∀ w ∈ List.finRange cfg.maxNumThreads,
        w ∈ (r.state k).shared.pool.exited) m :=
      Eventually.all (fun w k hw => PoolSystem.exited_subset_step (r.system_step k) hw)
        fun w _ => hbodies.eventually_exited hreach (hworkers w) hterminate
    exact hall.mono fun k _ h => .inr (.inr fun w => h w (List.mem_finRange w))
  · obtain ⟨c, hstep⟩ := r.step m
    rcases hhome with hbegins | hexited
    · have hstack' := PoolSystem.threads_of_ne hstep hother.symm
      exact .inr (.inl (by rw [PoolSystem.finishPc, hstack', ← PoolSystem.finishPc, hbegins]))
    · exact .inr (.inr fun w => PoolSystem.exited_subset_step ⟨_, c, hstep⟩ (hexited w))
  · obtain ⟨c, hstep⟩ := r.step m
    exact (hA.step (hr m) hstep).imp_right fun h => ⟨h.1, h.2.1⟩
  · obtain ⟨c, hstep⟩ := r.step m
    exact (hA.step (hr m) hstep).imp_right fun h => h.2.2 hparty

/-! ### A run -/

/-- The owner enqueues tasks and shuts the pool down; another caller goes on using the pool for ever. -/
inductive CallerCode
  | ret
  | shutdownAfter (tasks : ℕ)
  | useForever

def CallerCode.next : CallerCode → Unit → UserStep CallerCode
  | .ret, _ => .ret
  | .shutdownAfter 0, _ => .call (.finishAllThreads false) fun _ => .ret
  | .shutdownAfter (tasks + 1), _ => .call (.enqueue .ret 0) fun _ => .shutdownAfter tasks
  | .useForever, _ => .call (.parallelFor 0 fun _ => .ret) fun _ => .useForever

abbrev callerCode : UserCode := ⟨CallerCode, Unit, CallerCode.next⟩

/-- The worker is in the first of two tasks when the owner calls `finishAllThreads`. -/
def shutdownBegins : Option (PoolSystem oneWorker callerCode 1) :=
  exec oneWorker callerCode
    (initialSystem oneWorker callerCode 1 fun t => match t with
      | .owner => .shutdownAfter 2
      | _ => .useForever)
    ((.owner, .input ()) :: List.replicate 5 (.owner, .go) ++ (.owner, .input ()) :: List.replicate 5 (.owner, .go) ++
      List.replicate 6 (soleWorker, .go) ++ [(.owner, .input ())])

def endShutdown : List (ThreadId 1 1 × Choice 1 1 Unit) :=
  [(.owner, .go), (.owner, .go), (soleWorker, .input ())] ++ List.replicate 4 (soleWorker, .go) ++
    List.replicate 4 (.owner, .go) ++ [(.owner, .input ())]

/-- The pool is shut down; the other caller is in or before its call. -/
structure ShutDown (s : PoolSystem oneWorker callerCode 1) : Prop where
  owner : s.threads .owner = []
  worker : s.threads soleWorker = []
  caller : s.threads (.client 0) = [.body .useForever] ∨
    s.threads (.client 0) = [.parallelFor (.start 0 fun _ => .ret), .calling fun _ => .useForever] ∨
    s.threads (.client 0) = [.calling fun _ => .useForever]

theorem shutdownBegins_ends : ∃ s s', shutdownBegins = some s ∧
    s.threads .owner = [.finishAllThreads false .setTerminate, .calling fun _ => .ret] ∧
    (s.shared.pool.queues (Fin.last 0)).items.length = 1 ∧
    exec oneWorker callerCode s endShutdown = some s' ∧ ShutDown s' :=
  ⟨_, _, rfl, rfl, rfl, rfl, rfl, rfl, .inl rfl⟩

theorem ShutDown.next {s : PoolSystem oneWorker callerCode 1} (h : ShutDown s) :
    ∃ s', Turn oneWorker callerCode 1 (.client 0) s s' ∧ ShutDown s' := by
  obtain ⟨howner, hworker, hcaller⟩ := h
  have hturn : ∀ {f : Frame oneWorker.maxNumThreads CallerCode} {rest}
      (c : Choice oneWorker.maxNumThreads 1 Unit) (r), s.threads (.client 0) = f :: rest →
      frameStep oneWorker callerCode (.client 0) c s.shared f = some r →
      ∃ s', Turn oneWorker callerCode 1 (.client 0) s s' ∧ s'.threads .owner = [] ∧
        s'.threads soleWorker = [] ∧ s'.threads (.client 0) = r.2 ++ rest := by
    intro f rest c r hstack hr
    exact ⟨_, ⟨c, step_eq_of_frameStep hstack hr⟩, howner, hworker, by simp⟩
  rcases hcaller with hstack | hstack | hstack
  · obtain ⟨s', hs', howner', hworker', hcaller'⟩ := hturn (.input ()) _ hstack rfl
    exact ⟨s', hs', howner', hworker', .inr (.inl hcaller')⟩
  · obtain ⟨s', hs', howner', hworker', hcaller'⟩ := hturn .go _ hstack rfl
    exact ⟨s', hs', howner', hworker', .inr (.inr hcaller')⟩
  · obtain ⟨s', hs', howner', hworker', hcaller'⟩ := hturn .go _ hstack rfl
    exact ⟨s', hs', howner', hworker', .inl hcaller'⟩

theorem finishAllThreads_joinsWorkers_taskBehind :
    ∃ r : PoolRun oneWorker callerCode 1 fun _ => True,
      (r.state 0).threads .owner = [.finishAllThreads false .setTerminate, .calling fun _ => .ret] ∧
      ((r.state 0).shared.pool.queues (Fin.last 0)).items.length = 1 ∧
      Eventually (fun m => (r.state m).threads .owner = [.calling fun _ => .ret]) 0 := by
  obtain ⟨s, s', hs, hstack, hbehind, hexec, hend⟩ := shutdownBegins_ends
  have hothers : ∀ u : ThreadId 1 1, True → u = .client 0 ∨
      ∀ s, ShutDown s → ∀ s', ¬ ExpectedTurn oneWorker callerCode 1 u s s' := by
    intro u _
    cases u with
    | worker own =>
      obtain rfl : own = Fin.last 0 := Subsingleton.elim (α := Fin 1) own _
      exact .inr fun s h s' => PoolSystem.not_expectedTurn_of_nil h.worker
    | owner => exact .inr fun s h s' => PoolSystem.not_expectedTurn_of_nil h.owner
    | client k => exact .inl (congrArg ThreadId.client (Subsingleton.elim (α := Fin 1) k 0))
  have hidle : ∃ r : PoolRun oneWorker callerCode 1 fun _ => True, r.state 0 = s' ∧ ∀ n, ShutDown (r.state n) :=
    FairRun.exists_forever hothers (fun s h => h.next) hend
  obtain ⟨idle, hidle, hforever⟩ := hidle
  obtain ⟨r, hr, hlater⟩ := PoolRun.exists_prepend idle (hidle ▸ hexec)
  have hbodies : r.BodiesEnd := PoolRun.bodiesEnd_of_length fun n own => by
    obtain rfl : own = Fin.last 0 := Subsingleton.elim (α := Fin 1) _ _
    have hnil : (r.state (n + endShutdown.length)).threads soleWorker = [] := hlater n ▸ (hforever n).worker
    exact ⟨n + endShutdown.length, Nat.le_add_right _ _, (congrArg List.length hnil).le.trans zero_le_one⟩
  rw [← hr] at hstack hbehind
  have hjoined := finishAllThreads_joinsWorkers (hr ▸ exec_reachable hs) hbodies trivial (fun _ => trivial) hstack
  exact ⟨r, hstack, hbehind, hjoined.mono fun m _ h => h.1⟩

end CppUtils
