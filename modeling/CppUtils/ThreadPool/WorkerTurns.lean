import CppUtils.Lib.FairRuns
import CppUtils.ThreadPool.Lanes
import CppUtils.ThreadPool.Progress

/-!
# The turns of a worker

Fair runs of the pool, and what a worker does with its turns while no shutdown has begun: it is in its
loop, or inside a body of which the run must say that it ends. A worker that has taken a task lets go
of it after a few turns of its own.
-/

namespace CppUtils

open Threaded

variable {clients workers : ℕ} {U : UserCode} {Code : Type} {cfg : PoolConfig}

/-! ### Fair runs -/

/-- The choices that a ready thread does not wait for: a push that throws, a wake-up without a cause. -/
def Choice.isExpected {Input : Type} : Choice workers clients Input → Bool
  | .pushThrows => false
  | .spurious => false
  | _ => true

theorem Choice.isExpected_of_isUsual {Input : Type} {c : Choice workers clients Input}
    (h : c.isUsual = true) : c.isExpected = true := by
  cases c with
  | pushThrows | spurious => cases h
  | _ => rfl

def Turn (cfg : PoolConfig) (U : UserCode) (clients : ℕ) (t : ThreadId cfg.maxNumThreads clients)
    (s s' : PoolSystem cfg U clients) : Prop :=
  ∃ c, step cfg U t c s = some s'

/-- A step of a thread that is not blocked; the idle wait is over after its timeout at the latest. -/
def ExpectedTurn (cfg : PoolConfig) (U : UserCode) (clients : ℕ) (t : ThreadId cfg.maxNumThreads clients)
    (s s' : PoolSystem cfg U clients) : Prop :=
  ∃ c, c.isExpected = true ∧ step cfg U t c s = some s'

/-- The infinite runs of the pool, fair to some of its threads. -/
abbrev PoolRun (cfg : PoolConfig) (U : UserCode) (clients : ℕ)
    (Fair : ThreadId cfg.maxNumThreads clients → Prop) :=
  FairRun (Turn cfg U clients) (ExpectedTurn cfg U clients) Fair

/-- A run without a shutdown, from a reachable state. -/
structure PoolRun.Serving {Fair : ThreadId cfg.maxNumThreads clients → Prop}
    (r : PoolRun cfg U clients Fair) : Prop where
  reachable_zero : (poolSystem cfg U clients).Reachable (r.state 0)
  terminate (n : ℕ) : (r.state n).shared.pool.terminate = false

/-- Every body that a worker begins returns or throws at last. -/
def PoolRun.BodiesEnd {Fair : ThreadId cfg.maxNumThreads clients → Prop}
    (r : PoolRun cfg U clients Fair) : Prop :=
  ∀ n own above item, (r.state n).threads (.worker own) = above ++ [.runWorker own (.running item)] →
    Eventually (fun m => (r.state m).threads (.worker own) = [.runWorker own (.running item)]) n

theorem PoolRun.system_step {Fair : ThreadId cfg.maxNumThreads clients → Prop}
    (r : PoolRun cfg U clients Fair) (n : ℕ) :
    (poolSystem cfg U clients).Step (r.state n) (r.state (n + 1)) :=
  let ⟨c, hstep⟩ := r.step n
  ⟨_, c, hstep⟩

theorem PoolRun.reachable {Fair : ThreadId cfg.maxNumThreads clients → Prop}
    {r : PoolRun cfg U clients Fair} (hreach : (poolSystem cfg U clients).Reachable (r.state 0)) (n : ℕ) :
    (poolSystem cfg U clients).Reachable (r.state n) := by
  induction n with
  | zero => exact hreach
  | succ n ih => exact ih.next (r.system_step n)

theorem PoolRun.Serving.reachable {Fair : ThreadId cfg.maxNumThreads clients → Prop}
    {r : PoolRun cfg U clients Fair} (h : r.Serving) (n : ℕ) :
    (poolSystem cfg U clients).Reachable (r.state n) :=
  PoolRun.reachable h.reachable_zero n

theorem PoolRun.serving_of_later {Fair : ThreadId cfg.maxNumThreads clients → Prop}
    {r : PoolRun cfg U clients Fair} (hreach : (poolSystem cfg U clients).Reachable (r.state 0))
    (hlater : ∀ n, ∃ m, n ≤ m ∧ (r.state m).shared.pool.terminate = false) : r.Serving := by
  refine ⟨hreach, fun n => ?_⟩
  obtain ⟨m, hm, hterminate⟩ := hlater n
  induction m, hm using Nat.le_induction with
  | base => exact hterminate
  | succ m hm ih =>
    refine ih (Bool.eq_false_iff.mpr fun h => ?_)
    obtain ⟨c, hstep⟩ := r.step m
    rw [PoolSystem.terminate_step ⟨_, c, hstep⟩ h] at hterminate
    cases hterminate

/-! ### The stack of a worker -/

namespace PoolSystem

variable {s s' : PoolSystem cfg U clients} {own : Fin cfg.maxNumThreads}

theorem terminate_of_mem_exited (hreach : (poolSystem cfg U clients).Reachable s) :
    ∀ own ∈ s.shared.pool.exited, s.shared.pool.terminate = true := by
  refine TransitionSystem.Reachable.invariant
    (fun s : PoolSystem cfg U clients => ∀ own ∈ s.shared.pool.exited, s.shared.pool.terminate = true)
    ?_ (fun s s' _ hI hstep own hown => ?_) hreach
  · rintro s ⟨main, rfl⟩ own hown
    exact absurd hown (Finset.notMem_empty own)
  · have hmono := terminate_step hstep
    cases step_move hstep with
    | mk t hstack hrule =>
      cases hrule with
      | frame hmove =>
        obtain ⟨hsame, -⟩ | ⟨own', rfl, rfl, -⟩ := hmove.exited
        · exact hmono (hI own (hsame ▸ hown))
        · cases hmove with
          | runWorker hmove =>
            cases hmove with
            | exit hterminate => exact hterminate
      | unwind => exact hI own hown

theorem exists_workerStack (hreach : (poolSystem cfg U clients).Reachable s)
    (hterminate : s.shared.pool.terminate = false) (own : Fin cfg.maxNumThreads) :
    ∃ above pc, s.threads (.worker own) = above ++ [.runWorker own pc] := by
  obtain ⟨hexited, -⟩ | ⟨-, hstack⟩ := workerStack hreach (.worker own) own rfl
  · rw [terminate_of_mem_exited hreach own hexited] at hterminate
    cases hterminate
  · exact hstack

theorem running_of_above (hreach : (poolSystem cfg U clients).Reachable s)
    {above : List (Frame cfg.maxNumThreads U.Code)} {pc : RunWorkerPc U.Code}
    (hstack : s.threads (.worker own) = above ++ [.runWorker own pc]) (habove : above ≠ []) :
    ∃ item, pc = .running item := by
  obtain ⟨k, hk⟩ := awaits_of_above hreach hstack habove
  cases pc with
  | running item => exact ⟨item, rfl⟩
  | _ => exact hk.elim

def inLoop (s : PoolSystem cfg U clients) (own : Fin cfg.maxNumThreads) : Prop :=
  ∃ pc, s.threads (.worker own) = [.runWorker own pc]

theorem threads_of_ne {t u : ThreadId cfg.maxNumThreads clients}
    {c : Choice cfg.maxNumThreads clients U.Input} (h : step cfg U t c s = some s') (hne : u ≠ t) :
    s'.threads u = s.threads u := by
  obtain ⟨_, _, _, _, _, hthreads⟩ := step_rule h
  rw [hthreads, Function.update_of_ne hne]

/-- What a step of any thread does to an innermost call: the call moves, or another thread does. -/
theorem innermost_step {t u : ThreadId cfg.maxNumThreads clients}
    {c : Choice cfg.maxNumThreads clients U.Input} (h : step cfg U t c s = some s')
    {g : Frame cfg.maxNumThreads U.Code} (hg : g ≠ .unwinding) {rest : List (Frame cfg.maxNumThreads U.Code)}
    (hstack : s.threads u = g :: rest) :
    (t = u ∧ ∃ after, FrameMove cfg U u s.shared g s'.shared after ∧ s'.threads u = after ++ rest) ∨
      t ≠ u ∧ s'.threads u = g :: rest := by
  by_cases ht : t = u
  · subst ht
    have hbottom : s.threads t = [] ++ g :: rest := hstack
    obtain ⟨hne, -⟩ | ⟨-, hmoves⟩ | ⟨hunwinding, -⟩ := step_above h hg hbottom
    · exact absurd rfl hne
    · exact .inl ⟨rfl, hmoves⟩
    · cases hunwinding
  · exact .inr ⟨ht, (threads_of_ne h (Ne.symm ht)).trans hstack⟩

/-- What a step of its own does to the stack of a worker: a call above its loop moves, or its loop. -/
theorem worker_step (hreach : (poolSystem cfg U clients).Reachable s)
    {c : Choice cfg.maxNumThreads clients U.Input} (h : step cfg U (.worker own) c s = some s')
    {above : List (Frame cfg.maxNumThreads U.Code)} {pc : RunWorkerPc U.Code}
    (hstack : s.threads (.worker own) = above ++ [.runWorker own pc]) :
    (above ≠ [] ∧ ∃ above', s'.threads (.worker own) = above' ++ [.runWorker own pc]) ∨
      above = [] ∧
        RunWorkerMove cfg (.worker own) s.shared.pool own pc s'.shared.pool (s'.threads (.worker own)) := by
  rcases step_above h (fun hg => by cases hg) hstack with
    ⟨hne, above', habove⟩ | ⟨rfl, after, hmove, hafter⟩ | ⟨rfl, -, after, hunwind, hafter⟩
  · exact .inl ⟨hne, above', habove⟩
  · refine .inr ⟨rfl, ?_⟩
    rw [hafter, List.append_nil]
    generalize s'.shared = shared' at hmove ⊢
    cases hmove with
    | runWorker hmove => exact hmove
  · obtain ⟨item, rfl⟩ := running_of_above hreach hstack (List.cons_ne_nil _ _)
    cases hunwind
    exact .inl ⟨List.cons_ne_nil _ _, [], hafter⟩

theorem exists_expectedTurn (hreach : (poolSystem cfg U clients).Reachable s) (hloop : s.inLoop own) :
    ∃ s', ExpectedTurn cfg U clients (.worker own) s s' := by
  obtain ⟨pc, hstack⟩ := hloop
  by_cases hblocked : (Frame.runWorker own pc).mayBlock U s.shared (.worker own)
  · cases pc with
    | idleWait => exact ⟨_, .timeout, rfl, step_eq_of_frameStep hstack rfl⟩
    | _ => exact hblocked.elim
  · obtain ⟨c, s', husual, hstep⟩ := exists_usualStep hreach hstack hblocked
    exact ⟨s', c, Choice.isExpected_of_isUsual husual, hstep⟩

def loopPc (s : PoolSystem cfg U clients) (own : Fin cfg.maxNumThreads) : RunWorkerPc U.Code :=
  match (s.threads (.worker own)).getLast? with
  | some (.runWorker _ pc) => pc
  | _ => .starting

theorem loopPc_eq {above : List (Frame cfg.maxNumThreads U.Code)} {pc : RunWorkerPc U.Code}
    (hstack : s.threads (.worker own) = above ++ [.runWorker own pc]) : s.loopPc own = pc := by
  simp [loopPc, hstack]

end PoolSystem

namespace PoolRun.Serving

variable {Fair : ThreadId cfg.maxNumThreads clients → Prop} {r : PoolRun cfg U clients Fair}
  {own : Fin cfg.maxNumThreads}

theorem eventually_inLoop (h : r.Serving) (hbodies : r.BodiesEnd) (own : Fin cfg.maxNumThreads) (n : ℕ) :
    Eventually (fun m => (r.state m).inLoop own) n := by
  obtain ⟨above, pc, hstack⟩ := PoolSystem.exists_workerStack (h.reachable n) (h.terminate n) own
  obtain rfl | habove := eq_or_ne above []
  · exact .now ⟨pc, hstack⟩
  · obtain ⟨item, rfl⟩ := PoolSystem.running_of_above (h.reachable n) hstack habove
    exact (hbodies n own above item hstack).mono fun m _ hloop => ⟨_, hloop⟩

/-- What no step puts off, and each turn of a worker in its loop brings nearer, happens. -/
theorem eventually_of_turns {β : Type*} [PartialOrder β] [WellFoundedLT β] (h : r.Serving)
    (hbodies : r.BodiesEnd) (hfair : Fair (.worker own)) {A Q : ℕ → Prop} (rank : ℕ → β)
    (hstep : ∀ n, A n → Q (n + 1) ∨ A (n + 1) ∧ rank (n + 1) ≤ rank n)
    (hturn : ∀ n, A n → (r.state n).inLoop own → r.party n = .worker own →
      Q (n + 1) ∨ rank (n + 1) < rank n) {n : ℕ} (hA : A n) : Eventually Q n := by
  refine r.eventually_of_rank rank (fun n => (r.state n).inLoop own) hfair
    (fun n _ hloop => PoolSystem.exists_expectedTurn (h.reachable n) hloop)
    (fun n _ => (h.eventually_inLoop hbodies own n).mono fun _ _ => .inr) (fun n _ hloop hother => ?_)
    hstep hturn n hA
  obtain ⟨pc, hstack⟩ := hloop
  obtain ⟨c, hmove⟩ := r.step n
  exact .inr ⟨pc, (PoolSystem.threads_of_ne hmove hother.symm).trans hstack⟩

end PoolRun.Serving

/-- A call that catches what is thrown above it is the innermost one at last, if it has nothing above it
again and again. -/
theorem PoolRun.eventually_innermost {Fair : ThreadId cfg.maxNumThreads clients → Prop}
    {r : PoolRun cfg U clients Fair} {u : ThreadId cfg.maxNumThreads clients}
    {g : Frame cfg.maxNumThreads U.Code} {above rest : List (Frame cfg.maxNumThreads U.Code)}
    (hg : g ≠ .unwinding) (hcatch : unwind g = some [g])
    (hbare : ∀ n, Eventually (fun m => ∀ above, (r.state m).threads u = above ++ g :: rest → above = []) n)
    {n : ℕ} (hstack : (r.state n).threads u = above ++ g :: rest) :
    Eventually (fun m => (r.state m).threads u = g :: rest) n := by
  obtain ⟨m, hm, hnil⟩ := hbare n
  obtain ⟨k, rfl⟩ := Nat.exists_eq_add_of_le hm
  induction k generalizing n above with
  | zero =>
    obtain rfl := hnil above hstack
    exact .now hstack
  | succ k ih =>
    obtain rfl | habove := eq_or_ne above []
    · exact .now hstack
    · obtain ⟨c, hstep⟩ := r.step n
      have hnext : ∃ above', (r.state (n + 1)).threads u = above' ++ g :: rest := by
        by_cases hparty : r.party n = u
        · rw [hparty] at hstep
          rcases PoolSystem.step_above hstep hg hstack with ⟨-, above', habove'⟩ | ⟨hnil, -⟩ |
            ⟨-, -, after, hunwind, hafter⟩
          · exact ⟨above', habove'⟩
          · exact absurd hnil habove
          · rw [hcatch] at hunwind
            cases hunwind
            exact ⟨[], hafter⟩
        · exact ⟨above, (PoolSystem.threads_of_ne hstep (Ne.symm hparty)).trans hstack⟩
      obtain ⟨above', hstack'⟩ := hnext
      rw [show n + (k + 1) = n + 1 + k by omega] at hnil
      exact (ih hstack' (Nat.le_add_right _ _) hnil).later (Nat.le_succ n)

theorem PoolRun.bodiesEnd_of_length {Fair : ThreadId cfg.maxNumThreads clients → Prop}
    {r : PoolRun cfg U clients Fair}
    (hshort : ∀ n own, Eventually (fun m => ((r.state m).threads (.worker own)).length ≤ 1) n) :
    r.BodiesEnd := by
  intro n own above item hstack
  refine PoolRun.eventually_innermost (g := .runWorker own (.running item)) nofun rfl (fun n => ?_) hstack
  refine (hshort n own).mono fun m _ hlength above hstack => List.eq_nil_of_length_eq_zero ?_
  simpa [hstack] using hlength

theorem PoolSystem.not_expectedTurn_of_nil {s s' : PoolSystem cfg U clients}
    {t : ThreadId cfg.maxNumThreads clients} (h : s.threads t = []) : ¬ ExpectedTurn cfg U clients t s s' := by
  rintro ⟨c, -, hstep⟩
  simp [step, h] at hstep

/-- A run with some moves in front. -/
theorem PoolRun.exists_prepend {Fair : ThreadId cfg.maxNumThreads clients → Prop}
    (r : PoolRun cfg U clients Fair)
    {moves : List (ThreadId cfg.maxNumThreads clients × Choice cfg.maxNumThreads clients U.Input)}
    {s : PoolSystem cfg U clients} (h : exec cfg U s moves = some (r.state 0)) :
    ∃ r' : PoolRun cfg U clients Fair, r'.state 0 = s ∧
      ∀ n, r'.state (n + moves.length) = r.state n := by
  have hexec : ∀ (moves) (s : PoolSystem cfg U clients),
      exec cfg U s moves = moves.foldlM (fun s move => step cfg U move.1 move.2 s) s := by
    intro moves
    induction moves with
    | nil => exact fun s => rfl
    | cons move moves ih =>
      intro s
      cases hstep : step cfg U move.1 move.2 s with
      | none => simp [exec, List.foldlM_cons, hstep]
      | some s₁ => simp [exec, List.foldlM_cons, hstep, ih]
  rw [hexec] at h
  exact FairRun.exists_prepend r (fun _ move _ hstep => ⟨move.2, hstep⟩) h

theorem PoolRun.exists_prependUnder {Fair : ThreadId cfg.maxNumThreads clients → Prop}
    (r : PoolRun cfg U clients Fair) {check : PoolSystem cfg U clients → Bool}
    {moves : List (ThreadId cfg.maxNumThreads clients × Choice cfg.maxNumThreads clients U.Input)}
    {s : PoolSystem cfg U clients} (h : execUnder cfg U check s moves = some (r.state 0))
    (hcheck : ∀ n, check (r.state n) = true) :
    ∃ r' : PoolRun cfg U clients Fair, r'.state 0 = s ∧ (∀ n, r'.state (n + moves.length) = r.state n) ∧
      ∀ n, check (r'.state n) = true := by
  let next (s : PoolSystem cfg U clients)
      (move : ThreadId cfg.maxNumThreads clients × Choice cfg.maxNumThreads clients U.Input) :=
    if check s = true then step cfg U move.1 move.2 s else none
  have hexec : ∀ (moves) (s : PoolSystem cfg U clients), execUnder cfg U check s moves = some (r.state 0) →
      moves.foldlM next s = some (r.state 0) := by
    intro moves
    induction moves with
    | nil =>
      intro s h
      simp only [execUnder] at h
      split at h
      · exact h
      · cases h
    | cons move moves ih =>
      intro s h
      simp only [execUnder] at h
      split at h
      · rename_i hs
        split at h
        · cases h
        · rename_i s₁ hstep
          simpa [List.foldlM_cons, next, hs, hstep] using ih s₁ h
      · cases h
  have hnext : ∀ s move s', next s move = some s' → check s = true ∧ Turn cfg U clients move.1 s s' := by
    intro s move s' hstep
    simp only [next] at hstep
    split at hstep
    · rename_i hs
      exact ⟨hs, move.2, hstep⟩
    · cases hstep
  exact FairRun.exists_prepend_of r (P := fun s => check s = true) hnext hcheck (hexec moves s h)

/-! ### Letting go of a task -/

/-- The worker has taken this task and not yet let go of it; if its fate is settled, it is one of these. -/
def RunWorkerPc.serves (item : TaggedTask Code) (ends : Fate → Prop) : RunWorkerPc Code → Prop
  | .tryGetTask (.popped item') => item' = item
  | .taggedTaskCanRun item' => item' = item
  | .begin item' => item' = item
  | .running item' => item' = item
  | .completeTaggedTask item' fate => item' = item ∧ ends fate
  | .scopeEnd item' fate => item' = item ∧ ends fate
  | _ => False

/-- How many turns in its loop a worker has left with its task. -/
def RunWorkerPc.turnsToFinish : RunWorkerPc Code → ℕ
  | .tryGetTask _ => 6
  | .taggedTaskCanRun _ => 5
  | .begin _ => 4
  | .running _ => 3
  | .completeTaggedTask _ _ => 2
  | .scopeEnd _ _ => 1
  | _ => 0

/-- The task has come to one of these ends. -/
def PoolState.hasEnded (s : PoolState workers clients Code) (item : TaggedTask Code) (ends : Fate → Prop) : Prop :=
  ∃ fate, ends fate ∧ .finished item.id fate ∈ s.history.events

theorem RunWorkerMove.serves {t : ThreadId cfg.maxNumThreads clients}
    {s s' : PoolState cfg.maxNumThreads clients Code} {own : Fin cfg.maxNumThreads} {pc : RunWorkerPc Code}
    {after : List (Frame cfg.maxNumThreads Code)} (hmove : RunWorkerMove cfg t s own pc s' after)
    {item : TaggedTask Code} {ends : Fate → Prop} (hran : ends .ran) (hskipped : item.tagState ≠ none → ends .skipped)
    (h : pc.serves item ends) :
    s'.hasEnded item ends ∨ ∃ above pc', after = above ++ [.runWorker own pc'] ∧ pc'.serves item ends ∧
      pc'.turnsToFinish < pc.turnsToFinish := by
  cases hmove with
  | tryGetTask hget =>
    cases hget with
    | popped => exact .inr ⟨[], _, rfl, h, by simp [RunWorkerPc.turnsToFinish]⟩
    | _ => exact h.elim
  | canRun => exact .inr ⟨[], _, rfl, h, by simp [RunWorkerPc.turnsToFinish]⟩
  | @skip item' hrun =>
    obtain rfl : item' = item := h
    have htag : item'.tagState ≠ none := fun hnone => by
      rw [hnone] at hrun
      cases hrun
    exact .inr ⟨[], _, rfl, ⟨rfl, hskipped htag⟩, by simp [RunWorkerPc.turnsToFinish]⟩
  | begin => exact .inr ⟨[_], _, rfl, h, by simp [RunWorkerPc.turnsToFinish]⟩
  | ran => exact .inr ⟨[], _, rfl, ⟨h, hran⟩, by simp [RunWorkerPc.turnsToFinish]⟩
  | complete => exact .inr ⟨[], _, rfl, h, by simp [RunWorkerPc.turnsToFinish]⟩
  | @scopeEnd _ fate =>
    obtain ⟨rfl, hends⟩ := h
    exact .inl ⟨fate, hends, List.mem_cons_self⟩
  | pass hpc | block hpc => rcases hpc with rfl | ⟨rfl, -⟩ <;> exact h.elim
  | _ => exact h.elim

/-- A worker lets go of the task that it has taken. -/
theorem PoolRun.Serving.eventually_hasEnded {Fair : ThreadId cfg.maxNumThreads clients → Prop}
    {r : PoolRun cfg U clients Fair} {own : Fin cfg.maxNumThreads} (h : r.Serving)
    (hbodies : r.BodiesEnd) (hfair : Fair (.worker own)) {n : ℕ}
    {above : List (Frame cfg.maxNumThreads U.Code)} {pc : RunWorkerPc U.Code} {item : TaggedTask U.Code}
    {ends : Fate → Prop} (hran : ends .ran) (hskipped : item.tagState ≠ none → ends .skipped)
    (hstack : (r.state n).threads (.worker own) = above ++ [.runWorker own pc]) (hserves : pc.serves item ends) :
    Eventually (fun m => (r.state m).shared.pool.hasEnded item ends) n := by
  have hmoved : ∀ n above pc, (r.state n).threads (.worker own) = above ++ [.runWorker own pc] →
      pc.serves item ends → (r.state (n + 1)).shared.pool.hasEnded item ends ∨
        ∃ above' pc', (r.state (n + 1)).threads (.worker own) = above' ++ [.runWorker own pc'] ∧
          pc'.serves item ends ∧ (pc' = pc ∧ (above ≠ [] ∨ r.party n ≠ .worker own) ∨
            pc'.turnsToFinish < pc.turnsToFinish) := by
    intro n above pc hstack hserves
    obtain ⟨c, hstep⟩ := r.step n
    by_cases hparty : r.party n = .worker own
    · rw [hparty] at hstep
      rcases PoolSystem.worker_step (h.reachable n) hstep hstack with ⟨hne, above', habove⟩ | ⟨-, hmove⟩
      · exact .inr ⟨above', pc, habove, hserves, .inl ⟨rfl, .inl hne⟩⟩
      · refine (hmove.serves hran hskipped hserves).imp_right ?_
        rintro ⟨above', pc', hafter, hserves', hlt⟩
        exact ⟨above', pc', hafter, hserves', .inr hlt⟩
    · have hsame := PoolSystem.threads_of_ne hstep (Ne.symm hparty)
      exact .inr ⟨above, pc, hsame.trans hstack, hserves, .inl ⟨rfl, .inr hparty⟩⟩
  refine h.eventually_of_turns hbodies hfair
    (A := fun n => ∃ above pc, (r.state n).threads (.worker own) = above ++ [.runWorker own pc] ∧
      pc.serves item ends)
    (fun n => ((r.state n).loopPc own).turnsToFinish) ?_ ?_ ⟨above, pc, hstack, hserves⟩
  · rintro n ⟨above, pc, hstack, hserves⟩
    refine (hmoved n above pc hstack hserves).imp_right ?_
    rintro ⟨above', pc', hstack', hserves', hturns⟩
    refine ⟨⟨above', pc', hstack', hserves'⟩, ?_⟩
    rw [PoolSystem.loopPc_eq hstack, PoolSystem.loopPc_eq hstack']
    rcases hturns with ⟨rfl, -⟩ | hlt
    · exact le_rfl
    · exact hlt.le
  · rintro n ⟨above, pc, hstack, hserves⟩ ⟨pc', hloop⟩ hparty
    rw [hstack] at hloop
    obtain ⟨rfl, -⟩ := List.append_eq_singleton_iff.mp hloop |>.resolve_right (by simp)
    refine (hmoved n [] pc hstack hserves).imp_right ?_
    rintro ⟨above', pc'', hstack', -, ⟨-, hstays⟩ | hlt⟩
    · rcases hstays with hne | hne
      · exact absurd rfl hne
      · exact absurd hparty hne
    · rwa [PoolSystem.loopPc_eq hstack, PoolSystem.loopPc_eq hstack']

end CppUtils
