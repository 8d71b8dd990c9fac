import CppUtils.Threading.InterruptableThread

/-!
# Cancellation

A run sees the requests since its own start, and no others. A payload that ends once it has seen the flag
lets the destructor return.
-/

namespace CppUtils.Threading.InterruptableThread

variable {P : PayloadCode} {s s' : State P}

/-! ### What a run sees -/

/-- Every value read is whether there was a request since the last start, which is the run's own unless
`start` was misused. -/
def ReadsOwn (events : List Event) : Prop :=
  ∀ front run value, front ++ [.read run value] <+: events →
    (value = true ↔ .requested ∈ sinceStart front) ∧ (.started true ∈ front ∨ .created run ∈ sinceStart front)

theorem ReadsOwn.append {events : List Event} {event : Event} (h : ReadsOwn events)
    (hread : ∀ run value, event = .read run value → (value = true ↔ .requested ∈ sinceStart events) ∧
      (.started true ∈ events ∨ .created run ∈ sinceStart events)) : ReadsOwn (events ++ [event]) := by
  intro front run value hbefore
  rcases List.prefix_concat_iff.mp hbefore with heq | hbefore
  · obtain ⟨rfl, hevent⟩ := List.append_inj' heq rfl
    exact hread run value (List.singleton_inj.mp hevent).symm
  · exact h front run value hbefore

theorem ReadsOwn.moved {t : Party} (h : ReadsOwn s.events) (hsound : s.Sound) (hmoved : Moved s t s') :
    ReadsOwn s'.events := by
  cases hmoved with
  | start | create | destroy | request => exact h.append nofun
  | createFails | assign | terminate | join | joined | run | other => exact h
  | @read run code i pc' hpc =>
    refine h.append fun run' value hevent => ?_
    cases hevent
    exact ⟨hsound.flag, hsound.bound run (hsound.running run ⟨_, hpc, nofun⟩)⟩

theorem readsOwn (hreach : (system P).Reachable s) : ReadsOwn s.events := by
  refine TransitionSystem.Reachable.invariant (fun s => ReadsOwn s.events) ?_ ?_ hreach
  · rintro s rfl front run value hbefore
    simpa using List.prefix_nil.mp hbefore
  · rintro s s' hr hI ⟨t, c, hstep⟩
    exact hI.moved (State.sound hr) (step_moved hstep).2

theorem State.Sound.running_unique (h : s.Sound) (hmisused : ¬ s.Misused) {j k : ℕ} (hj : s.Running j)
    (hk : s.Running k) : j = k := by
  -- One of two would be the thread, and the other about to become it.
  rcases h.running j hj with hthread | hassign <;> rcases h.running k hk with hthread' | hassign'
  · rw [hthread] at hthread'
    exact Option.some.inj hthread'
  · exact absurd (h.starting j hthread (.inr ⟨k, hassign'⟩)) hmisused
  · exact absurd (h.starting k hthread' (.inr ⟨j, hassign⟩)) hmisused
  · rw [hassign] at hassign'
    cases hassign'
    rfl

/-- However the owner, the runs and the requests interleave, a run that reads the flag reads whether
cancellation was requested since the last `start`; that is the `start` of the run itself, there is at most
one run at a time and the process goes on, unless `start` was called on a thread not joined yet. After the
destructor no run goes on. -/
theorem cancellation_isOfOneRun (hreach : (system P).Reachable s) :
    (∀ front run value, front ++ [.read run value] <+: s.events →
      (value = true ↔ .requested ∈ sinceStart front) ∧
        (.started true ∉ front → .created run ∈ sinceStart front)) ∧
      (.started true ∉ s.events → s.terminated = false ∧ ∀ j k, s.Running j → s.Running k → j = k) ∧
      (s.owner = .destroyed → ∀ run, ¬ s.Running run) := by
  have hsound := State.sound hreach
  refine ⟨fun front run value hbefore => ?_, fun hmisused => ⟨?_, fun j k => ?_⟩, fun hdestroyed run hrun => ?_⟩
  · obtain ⟨hvalue, hown⟩ := readsOwn hreach front run value hbefore
    exact ⟨hvalue, hown.resolve_left⟩
  · by_contra hterminated
    exact hmisused (hsound.terminated (by simpa using hterminated)).1
  · exact hsound.running_unique hmisused
  · rcases hsound.running run hrun with hthread | hassign
    · rw [hsound.destroyed hdestroyed] at hthread
      cases hthread
    · rw [hdestroyed] at hassign
      cases hassign

/-- A payload that ignores its input, and ends when it reads that it is cancelled. -/
def obedient : PayloadCode where
  Code := Unit
  Input := Unit
  next _ cancelled _ := if cancelled = true then .ret else .goOn ()
  nonempty := ⟨()⟩

theorem cancellation_isOfOneRun_twoRuns : ∃ s : State obedient, (system obedient).Reachable s ∧
    s.events = [.started false, .created 0, .requested, .read 0 true, .started false, .created 1,
      .read 1 false] ∧
    ((false = true ↔ .requested ∈ sinceStart (s.events.take 6)) ∧
      (.started true ∉ s.events.take 6 → .created 1 ∈ sinceStart (s.events.take 6))) := by
  let moves : List (Party × Choice obedient) :=
    [(.owner, .start ()), (.owner, .go), (.owner, .go), (.other, .requestCancellation), (.run 0, .go),
      (.run 0, .input ()), (.owner, .join), (.owner, .go), (.owner, .start ()), (.owner, .go),
      (.owner, .go), (.run 1, .go), (.run 1, .input ())]
  let s : State obedient := ⟨false, some 1, [.ended, .payload ()], .outside, false,
    [.started false, .created 0, .requested, .read 0 true, .started false, .created 1, .read 1 false]⟩
  have hrun : moves.foldlM (fun s (m : Party × Choice obedient) => step m.1 m.2 s) (State.initial obedient) =
      some s := rfl
  have hsteps := TransitionSystem.steps_of_foldlM (T := system obedient)
    (fun _ m _ hstep => ⟨m.1, m.2, hstep⟩) hrun
  have hreach : (system obedient).Reachable s := .steps (.init rfl trivial) hsteps
  exact ⟨s, hreach, rfl, (cancellation_isOfOneRun hreach).1 _ 1 false List.prefix_rfl⟩

/-! ### The destructor returns -/

/-- Payloads that come to their end once they read that they are cancelled: none then goes on for ever. -/
def Heeds (P : PayloadCode) : Prop :=
  WellFounded fun code' code : P.Code => ∃ i, P.next code true i = .goOn code'

theorem State.Running.ready {run : ℕ} (h : s.Running run) : ∃ c s', s.runStep run c = some s' := by
  obtain ⟨pc, hpc, hne⟩ := h
  cases pc with
  | setThreadName | log => exact ⟨.go, by simp [State.runStep, hpc]⟩
  | payload =>
    obtain ⟨i⟩ := P.nonempty
    exact ⟨.input i, by simp [State.runStep, hpc]⟩
  | ended => exact absurd rfl hne

/-- A step of one of the parties. -/
def Turn (t : Party) (s s' : State P) : Prop := ∃ c, step t c s = some s'

/-- A step that a party takes on its own: whether the owner calls a function is up to it. -/
def ExpectedTurn (t : Party) (s s' : State P) : Prop :=
  Turn t s s' ∧ (t = .owner → s.owner ≠ .outside)

/-- A run fair to the owner and to the runs of the payload. -/
abbrev ThreadRun (P : PayloadCode) := FairRun (Turn (P := P)) ExpectedTurn (· ≠ .other)

variable (hP : Heeds P)

/-- How far a run is from its end, once cancelled: the part it is in, and within the payload the rank of
what it does next. -/
noncomputable def RunPc.remaining : RunPc P → ℕ ×ₗ Ordinal
  | .setThreadName _ => toLex (3, 0)
  | .payload code => toLex (2, (hP.apply code).rank)
  | .log => toLex (1, 0)
  | .ended => toLex (0, 0)

structure State.Waits (s : State P) (run : ℕ) : Prop where
  owner : s.owner = .destroyJoin
  thread : s.thread = some run
  terminated : s.terminated = false
  cancelled : s.cancellationRequested = true

theorem State.Waits.moved {run : ℕ} {t : Party} (h : s.Waits run) (hmoved : Moved s t s')
    (hrun : s.Running run) : s'.Waits run := by
  obtain ⟨howner, hthread, hterminated, hcancelled⟩ := h
  cases hmoved with
  | start _ h' | create h' | createFails h' | assign h' | terminate h' | join h' | destroy h' =>
    rw [howner] at h'
    cases h'
  | joined owner hended =>
    obtain ⟨pc, hpc, hne⟩ := hrun
    rw [hended run hthread] at hpc
    exact absurd (Option.some.inj hpc).symm hne
  | run | read | other => exact ⟨howner, hthread, hterminated, hcancelled⟩
  | request => exact ⟨howner, hthread, hterminated, rfl⟩

/-- Only the run's own steps change where it is, and each of them brings it closer to its end. -/
theorem State.Waits.remaining_moved {run : ℕ} {t : Party} {pc : RunPc P} (h : s.Waits run)
    (hmoved : Moved s t s') (hpc : s.runs[run]? = some pc) (hne : pc ≠ .ended) :
    ∃ pc', s'.runs[run]? = some pc' ∧
      (if t = .run run then pc'.remaining hP < pc.remaining hP else pc' = pc) := by
  have hset : ∀ (k : ℕ) (pc₁ pc₂ : RunPc P), s.runs[k]? = some pc₁ →
      (k = run → pc₂.remaining hP < pc₁.remaining hP) →
      ∃ pc', (s.runs.set k pc₂)[run]? = some pc' ∧
        (if Party.run k = .run run then pc'.remaining hP < pc.remaining hP else pc' = pc) := by
    intro k pc₁ pc₂ hpc₁ hlt
    by_cases hk : k = run
    · subst hk
      rw [hpc] at hpc₁
      cases hpc₁
      refine ⟨pc₂, List.getElem?_set_self (List.getElem?_eq_some_iff.mp hpc).1, ?_⟩
      rw [if_pos rfl]
      exact hlt rfl
    · refine ⟨pc, by rw [List.getElem?_set_ne hk, hpc], ?_⟩
      rw [if_neg fun heq => hk (Party.run.inj heq)]
  obtain ⟨howner, hthread, hterminated, hcancelled⟩ := h
  cases hmoved with
  | start _ h' | create h' | createFails h' | assign h' | terminate h' | join h' | destroy h' =>
    rw [howner] at h'
    cases h'
  | joined owner hended =>
    rw [hended run hthread] at hpc
    exact absurd (Option.some.inj hpc).symm hne
  | request | other => exact ⟨pc, hpc, rfl⟩
  | @run k pc₁ pc₂ hpc₁ hmoves =>
    refine hset k pc₁ pc₂ hpc₁ fun _ => ?_
    rcases hmoves with ⟨payload, rfl, rfl⟩ | ⟨rfl, rfl⟩ <;> exact Prod.Lex.left _ _ (by decide)
  | @read k code i pc₂ hpc₁ hmoves =>
    refine hset k _ pc₂ hpc₁ fun _ => ?_
    rw [hcancelled] at hmoves
    cases hnext : P.next code true i with
    | goOn code' =>
      rw [hnext] at hmoves
      rw [hmoves]
      exact Prod.Lex.right _ ((hP.apply code).rank_lt_of_rel ⟨i, hnext⟩)
    | ret | throw =>
      rw [hnext] at hmoves
      rw [hmoves]
      exact Prod.Lex.left _ _ (by decide)

structure State.Joins (s : State P) : Prop where
  owner : s.owner = .destroyJoin
  terminated : s.terminated = false
  ended : ∀ run, s.thread = some run → s.runs[run]? = some .ended

theorem State.Joins.ready (h : s.Joins) : ∃ s', ExpectedTurn .owner s s' := by
  have hjoin : ∃ s', s.joinThread = some s' := by
    unfold State.joinThread
    cases hthread : s.thread with
    | none => exact ⟨s, rfl⟩
    | some run => simp [h.ended run hthread]
  obtain ⟨s', hjoin⟩ := hjoin
  refine ⟨{ s' with owner := .destroyed }, ⟨.go, ?_⟩, fun _ => by simp [h.owner]⟩
  simp [step, h.terminated, State.ownerStep, h.owner, hjoin]

/-- The owner's next turn is the last of the destructor. -/
theorem State.Joins.moved {t : Party} (h : s.Joins) (hmoved : Moved s t s') :
    if t = .owner then s'.owner = .destroyed else s'.Joins := by
  obtain ⟨howner, hterminated, hended⟩ := h
  have hset : ∀ (k : ℕ) (pc pc' : RunPc P), s.runs[k]? = some pc → pc ≠ .ended →
      ∀ run, s.thread = some run → (s.runs.set k pc')[run]? = some .ended := by
    intro k pc pc' hpc hne run hthread
    have hother : k ≠ run := by
      rintro rfl
      rw [hended k hthread] at hpc
      exact hne (Option.some.inj hpc).symm
    rw [List.getElem?_set_ne hother]
    exact hended run hthread
  cases hmoved with
  | start _ h' | create h' | createFails h' | assign h' | terminate h' | join h' | destroy h' =>
    rw [howner] at h'
    cases h'
  | joined owner _ h' =>
    rcases h' with ⟨h', -⟩ | ⟨-, rfl⟩
    · rw [howner] at h'
      cases h'
    · rfl
  | @run k pc pc' hpc hmoves =>
    have hne : pc ≠ .ended := by
      rcases hmoves with ⟨payload, rfl, rfl⟩ | ⟨rfl, rfl⟩ <;> exact nofun
    exact ⟨howner, hterminated, hset k pc pc' hpc hne⟩
  | @read k code i pc' hpc => exact ⟨howner, hterminated, hset k _ pc' hpc nofun⟩
  | request | other => exact ⟨howner, hterminated, hended⟩

namespace ThreadRun

variable (r : ThreadRun P)

theorem moved (n : ℕ) : Moved (r.state n) (r.party n) (r.state (n + 1)) :=
  let ⟨_, hstep⟩ := r.step n
  (step_moved hstep).2

theorem reachable {n : ℕ} (hreach : (system P).Reachable (r.state n)) {m : ℕ} (hm : n ≤ m) :
    (system P).Reachable (r.state m) := by
  induction m, hm using Nat.le_induction with
  | base => exact hreach
  | succ m _ ih => exact ih.next ⟨_, r.step m⟩

include hP in
/-- The run that is waited for ends. -/
theorem eventually_ended {n run : ℕ} (hwaits : (r.state n).Waits run) (hrun : (r.state n).Running run) :
    Eventually (fun m => (r.state m).Waits run ∧ (r.state m).runs[run]? = some .ended) n := by
  let rank := fun m => ((r.state m).runs[run]?.map (RunPc.remaining hP)).getD (toLex (0, 0))
  -- One step of whoever it is, while the run goes on.
  have hnext : ∀ m, (r.state m).Waits run ∧ (r.state m).Running run → (r.state (m + 1)).Waits run ∧
      ((r.state (m + 1)).runs[run]? = some .ended ∨
        (r.state (m + 1)).Running run ∧ rank (m + 1) ≤ rank m ∧
          (r.party m = .run run → rank (m + 1) < rank m)) := by
    rintro m ⟨hwaits, hrun⟩
    refine ⟨hwaits.moved (r.moved m) hrun, ?_⟩
    obtain ⟨pc, hpc, hne⟩ := hrun
    obtain ⟨pc', hpc', hremaining⟩ := hwaits.remaining_moved hP (r.moved m) hpc hne
    by_cases hended : pc' = .ended
    · exact .inl (hended ▸ hpc')
    refine .inr ⟨⟨pc', hpc', hended⟩, ?_⟩
    simp only [rank, hpc, hpc', Option.map_some, Option.getD_some]
    split at hremaining
    · exact ⟨hremaining.le, fun _ => hremaining⟩
    · exact ⟨hremaining ▸ le_rfl, fun hturn => absurd hturn ‹_›⟩
  refine r.eventually_of_rank (t := .run run)
    (A := fun m => (r.state m).Waits run ∧ (r.state m).Running run) rank (fun _ => True) nofun
    ?_ (fun m _ => .now (.inr trivial)) (fun _ _ _ _ => .inr trivial) ?_ ?_ n ⟨hwaits, hrun⟩
  · rintro m ⟨hwaits, hrun⟩ -
    obtain ⟨c, s', hstep⟩ := hrun.ready
    refine ⟨s', ⟨c, ?_⟩, nofun⟩
    rw [step, hwaits.terminated]
    exact hstep
  · intro m h
    obtain ⟨hwaits', hended | ⟨hrun', hle, -⟩⟩ := hnext m h
    · exact .inl ⟨hwaits', hended⟩
    · exact .inr ⟨⟨hwaits', hrun'⟩, hle⟩
  · intro m h _ hturn
    obtain ⟨hwaits', hended | ⟨-, -, hlt⟩⟩ := hnext m h
    · exact .inl ⟨hwaits', hended⟩
    · exact .inr (hlt hturn)

/-- The destructor returns once it has nothing left to wait for. -/
theorem eventually_destroyed {n : ℕ} (hjoins : (r.state n).Joins) :
    Eventually (fun m => (r.state m).owner = .destroyed) n := by
  have hturn := r.exists_turn (t := .owner) (A := fun m => (r.state m).Joins)
    (Q := fun m => (r.state m).owner = .destroyed) nofun (fun m h => h.ready)
    (fun m h hother => .inr (by simpa [hother] using h.moved (r.moved m))) hjoins
  refine hturn.trans fun m _ h => ?_
  rcases h with h | ⟨h, hturn⟩
  · exact .now h
  · exact ⟨m + 1, by omega, by simpa [hturn] using h.moved (r.moved m)⟩

end ThreadRun

/-- Whatever the runs and the other threads do, a destructor that was entered returns, if the payload comes
to its end once it has read that it is cancelled. -/
theorem destructor_returns (hP : Heeds P) (r : ThreadRun P) {n : ℕ}
    (hreach : (system P).Reachable (r.state n)) (hentered : (r.state n).owner = .destroyJoin) :
    Eventually (fun m => (r.state m).owner = .destroyed) n := by
  have hsound := State.sound hreach
  have hterminated : (r.state n).terminated = false := by
    by_contra hterminated
    obtain ⟨-, run, howner⟩ := hsound.terminated (by simpa using hterminated)
    rw [hentered] at howner
    cases howner
  by_cases hjoins : (r.state n).Joins
  · exact r.eventually_destroyed hjoins
  -- Otherwise the thread is a run that has not ended.
  have hwaits : ∃ run, (r.state n).Waits run ∧ (r.state n).Running run := by
    by_contra hnone
    refine hjoins ⟨hentered, hterminated, fun run hthread => ?_⟩
    have hknown := hsound.known run (.inl hthread)
    by_contra hended
    refine hnone ⟨run, ⟨hentered, hthread, hterminated, hsound.destroying hentered⟩, _,
      List.getElem?_eq_getElem hknown, fun heq => hended ?_⟩
    rw [List.getElem?_eq_getElem hknown, heq]
  obtain ⟨run, hwaits, hrun⟩ := hwaits
  refine (r.eventually_ended hP hwaits hrun).trans fun m _ ⟨hwaits', hended⟩ => ?_
  refine r.eventually_destroyed ⟨hwaits'.owner, hwaits'.terminated, fun run' hthread => ?_⟩
  rw [hwaits'.thread] at hthread
  cases hthread
  exact hended

/-- The run goes on until it sees the destructor's request. -/
theorem destructor_returns_obedient : ∃ r : ThreadRun obedient,
    (r.state 5).owner = .destroyJoin ∧ (r.state 5).runs = [.payload ()] ∧
      Eventually (fun m => (r.state m).owner = .destroyed) 5 := by
  have heeds : Heeds obedient := ⟨fun _ => ⟨_, fun _ ⟨_, hgoesOn⟩ => by cases hgoesOn⟩⟩
  let next (s : State obedient) (move : Party × Choice obedient) : Option (State obedient) :=
    step move.1 move.2 s
  let start : List (Party × Choice obedient) :=
    [(.owner, .start ()), (.owner, .go), (.owner, .go), (.run 0, .go), (.owner, .destroy)]
  let finish : List (Party × Choice obedient) := [(.run 0, .input ()), (.owner, .go)]
  let entered : State obedient :=
    ⟨true, some 0, [.payload ()], .destroyJoin, false, [.started false, .created 0, .requested]⟩
  let last : State obedient := ⟨true, none, [.ended], .destroyed, false,
    [.started false, .created 0, .requested, .read 0 true]⟩
  have hnext : ∀ s (move : Party × Choice obedient) s', next s move = some s' → Turn move.1 s s' :=
    fun _ move _ hstep => ⟨move.2, hstep⟩
  have hsystem : ∀ s (move : Party × Choice obedient) s', next s move = some s' → (system obedient).Step s s' :=
    fun s move s' hstep => ⟨move.1, move.2, hstep⟩
  -- At the end there is nothing left to do for the owner and for the run.
  have hover : ∀ t, t ≠ Party.other → t = .other ∨ ∀ s, s = last → ∀ s', ¬ ExpectedTurn t s s' := by
    rintro t hother
    refine .inr ?_
    rintro s rfl s' ⟨⟨c, hstep⟩, -⟩
    cases t with
    | owner => cases c <;> cases hstep
    | other => exact hother rfl
    | run index => cases index <;> cases c <;> cases hstep
  have hstays : ∀ s, s = last → ∃ s', Turn .other s s' ∧ s' = last := by
    rintro s rfl
    exact ⟨last, ⟨.go, rfl⟩, rfl⟩
  have hidle : ∃ idle : ThreadRun obedient, idle.state 0 = last ∧ ∀ n, idle.state n = last :=
    FairRun.exists_forever hover hstays rfl
  obtain ⟨idle, hidle, -⟩ := hidle
  have hfinish : finish.foldlM next entered = some (idle.state 0) := hidle ▸ rfl
  obtain ⟨r₁, hr₁, -⟩ := idle.exists_prepend hnext hfinish
  have hstart : start.foldlM next (State.initial obedient) = some (r₁.state 0) := hr₁ ▸ rfl
  obtain ⟨r, -, hlater⟩ := r₁.exists_prepend hnext hstart
  have hentered : r.state 5 = entered := (hlater 0).trans hr₁
  have hsteps : (system obedient).Steps (State.initial obedient) entered :=
    TransitionSystem.steps_of_foldlM hsystem (hr₁ ▸ hstart)
  have hreach : (system obedient).Reachable entered := .steps (.init rfl trivial) hsteps
  refine ⟨r, by rw [hentered], by rw [hentered], ?_⟩
  exact destructor_returns heeds r (hentered ▸ hreach) (by rw [hentered])

end CppUtils.Threading.InterruptableThread
