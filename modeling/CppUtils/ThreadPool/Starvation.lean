import CppUtils.ThreadPool.WorkerTurns
import Mathlib.Data.Prod.Lex

/-!
# No task starves

A queued task has a worker of its own, the one of its lane. That worker looks at its own lane first in
every round, and a round is a bounded number of its turns: the wait in it has a timeout, and the search
in the other lanes takes one turn for each. So the tasks ahead of it in the lane get fewer with every
round, whoever takes them.
-/

namespace CppUtils

variable {clients workers : ℕ} {U : UserCode} {Code : Type} {cfg : PoolConfig}

theorem idxOf_le_of_sublist {α : Type*} [DecidableEq α] {l l' : List α} (h : l.Sublist l')
    (hnodup : l'.Nodup) {x : α} (hx : x ∈ l) : l.idxOf x ≤ l'.idxOf x := by
  induction h with
  | slnil => exact absurd hx List.not_mem_nil
  | @cons l l' y h ih =>
    obtain ⟨hy, hnodup⟩ := List.nodup_cons.mp hnodup
    have hne : y ≠ x := fun heq => hy (heq ▸ h.subset hx)
    rw [List.idxOf_cons_ne _ hne]
    exact (ih hnodup hx).trans (Nat.le_succ _)
  | @cons_cons l l' y h ih =>
    by_cases heq : y = x
    · simp [heq]
    · rw [List.idxOf_cons_ne _ heq, List.idxOf_cons_ne _ heq]
      have hmem : x ∈ l := (List.mem_cons.mp hx).resolve_left (Ne.symm heq)
      exact Nat.succ_le_succ (ih (List.nodup_cons.mp hnodup).2 hmem)

/-- How many turns in its loop a worker is away from looking at its own lane, itself included. -/
def RunWorkerPc.turnsToOwn (workers : ℕ) (blocked : Bool) : RunWorkerPc Code → ℕ
  | .tryGetTask .own => 1
  | .loopHead => 2
  | .starting => 3
  | .leaveIdle => 3
  | .scopeEnd _ _ => 3
  | .idlePredicate => 4
  | .completeTaggedTask _ _ => 4
  | .idleWait => if blocked = true then 5 else 4
  | .enterIdle => 5
  | .running _ => 5
  | .begin _ => 6
  | .taggedTaskCanRun _ => 7
  | .tryGetTask (.popped _) => 8
  | .tryGetTask (.steal offset) => 9 + (workers - offset)
  | .tryGetTask .checkQueued => 10 + workers

theorem RunWorkerPc.turnsToOwn_mono {pc : RunWorkerPc Code} {blocked blocked' : Bool}
    (h : blocked = true → blocked' = true) :
    pc.turnsToOwn workers blocked ≤ pc.turnsToOwn workers blocked' := by
  cases pc with
  | idleWait => cases blocked <;> cases blocked' <;> simp_all [turnsToOwn]
  | tryGetTask pc => cases pc <;> exact le_rfl
  | _ => exact le_rfl

/-- A turn in its loop brings a worker nearer to its own lane, or it pops its first task. -/
theorem RunWorkerMove.turnsToOwn {t : ThreadId cfg.maxNumThreads clients}
    {s s' : PoolState cfg.maxNumThreads clients Code} {own : Fin cfg.maxNumThreads} {pc : RunWorkerPc Code}
    {after : List (Frame cfg.maxNumThreads Code)} (hmove : RunWorkerMove cfg t s own pc s' after)
    (hterminate : s.terminate = false) (hqueued : s.queuedCount ≠ 0)
    (hlane : (s.queues own).items ≠ []) :
    (∃ item, (s.queues own).items = item :: (s'.queues own).items) ∨
      ∃ above pc', after = above ++ [.runWorker own pc'] ∧
        pc'.turnsToOwn cfg.maxNumThreads (decide (t ∈ s'.idleCv))
          < pc.turnsToOwn cfg.maxNumThreads (decide (t ∈ s.idleCv)) := by
  cases hmove with
  | exit h => rw [hterminate] at h; cases h
  | tryGetTask hget =>
    cases hget with
    | popOwn hpop =>
      obtain ⟨lane, hitems, rfl⟩ := PoolState.tryPop_eq_some hpop
      exact .inl ⟨_, by simpa using hitems⟩
    | ownEmpty hpop => exact absurd (PoolState.tryPop_eq_none.mp hpop) hlane
    | nothingQueued h => exact absurd h hqueued
    | _ => exact .inr ⟨[], _, rfl, by simp only [RunWorkerPc.turnsToOwn]; omega⟩
  | begin => exact .inr ⟨[_], _, rfl, by simp [RunWorkerPc.turnsToOwn]⟩
  | pass hpc =>
    refine .inr ⟨[], _, rfl, ?_⟩
    rcases hpc with rfl | ⟨rfl, hawake⟩
    · simp [RunWorkerPc.turnsToOwn]
    · simp [RunWorkerPc.turnsToOwn, hawake]
  | block _ hpred => exact absurd (.inr hqueued) hpred
  | spurious hblocked | timeout =>
    refine .inr ⟨[], _, rfl, ?_⟩
    by_cases hmem : t ∈ s.idleCv <;> simp_all [RunWorkerPc.turnsToOwn]
  | _ => exact .inr ⟨[], _, rfl, by simp [RunWorkerPc.turnsToOwn]⟩

/-! ### One step -/

/-- How many tasks of the lane are ahead of this one. -/
def PoolState.ahead (s : PoolState workers clients Code) (index : Fin workers) (id : ℕ) : ℕ :=
  ((s.queues index).items.map TaggedTask.id).idxOf id

def PoolState.hasRemoved (s : PoolState workers clients Code) (item : TaggedTask Code) : Prop :=
  item.tagState ≠ none ∧ .finished item.id .removedByRetire ∈ s.history.events

namespace PoolSystem

variable {s s' : PoolSystem cfg U clients} {t : ThreadId cfg.maxNumThreads clients}
  {c : Choice cfg.maxNumThreads clients U.Input} {index own : Fin cfg.maxNumThreads}
  {item : TaggedTask U.Code}

/-- A worker has just popped the task. -/
def hasTaken (s : PoolSystem cfg U clients) (item : TaggedTask U.Code) : Prop :=
  ∃ own, s.threads (.worker own) = [.runWorker own (.tryGetTask (.popped item))]

theorem ahead_lt (hreach : (poolSystem cfg U clients).Reachable s)
    {pool : PoolState cfg.maxNumThreads clients U.Code} {first : TaggedTask U.Code}
    (hitems : (s.shared.pool.queues index).items = first :: (pool.queues index).items)
    (hitem : item ∈ (pool.queues index).items) :
    pool.ahead index item.id < s.shared.pool.ahead index item.id := by
  have hnodup := nodup_ids hreach index
  rw [hitems] at hnodup
  have hne : first.id ≠ item.id := fun heq =>
    (List.nodup_cons.mp hnodup).1 (heq ▸ List.mem_map_of_mem hitem)
  rw [PoolState.ahead, PoolState.ahead, hitems, List.map_cons, List.idxOf_cons_ne _ hne]
  exact Nat.lt_succ_self _

/-- What becomes of a queued task in a step before a shutdown: a worker takes it, `retire` destroys it,
or it stays in its lane, with no more tasks ahead of it than before. -/
theorem queued_step (hreach : (poolSystem cfg U clients).Reachable s)
    (hterminate : s.shared.pool.terminate = false) (h : step cfg U t c s = some s')
    (hitem : item ∈ (s.shared.pool.queues index).items) :
    (s'.hasTaken item ∨ s'.shared.pool.hasRemoved item) ∨
      item ∈ (s'.shared.pool.queues index).items ∧
        s'.shared.pool.ahead index item.id ≤ s.shared.pool.ahead index item.id := by
  obtain ⟨before, after, rest, hstack, hrule, hthreads⟩ := step_rule h
  generalize hshared : s'.shared = shared' at hrule
  cases hrule with
  | unwind => exact .inr ⟨hitem, le_rfl⟩
  | @frame _ _ f _ _ hmove =>
    have hmem : f ∈ s.threads t := hstack ▸ List.mem_cons_self
    cases hmove.laneChange index with
    | same hsame =>
      rw [hsame, PoolState.ahead, hsame]
      exact .inr ⟨hitem, le_rfl⟩
    | pushed _ hitems =>
      refine .inr ⟨hitems ▸ List.mem_append_left _ hitem, ?_⟩
      rw [PoolState.ahead, hitems, List.map_append,
        List.idxOf_append_of_mem (List.mem_map_of_mem hitem), PoolState.ahead]
    | @taken own pc first hf hafter hitems =>
      rcases List.mem_cons.mp (hitems ▸ hitem) with rfl | hbehind
      · -- The task is the first of its lane, so the worker takes this one.
        subst hf hafter
        have hworker := not_worker_of_ne hreach hmem
        have hbottom : s.threads t = [] ++ .runWorker own (.tryGetTask pc) :: rest := hstack
        obtain rfl := rest_eq_nil_of_worker hreach hbottom
        refine .inl (.inl ⟨own, ?_⟩)
        rw [hthreads, ← hworker, Function.update_self, List.append_nil]
      · exact .inr ⟨hbehind, (ahead_lt hreach hitems hbehind).le⟩
    | drained hset =>
      rw [terminate_of_hasSetTerminate hreach t f hmem hset] at hterminate
      cases hterminate
    | @removed tag tagState _ _ _ hitems hhistory =>
      by_cases htag : item.tagState = some tagState
      · have hmatching : item ∈ s.shared.pool.matching index tagState :=
          List.mem_filter.mpr ⟨hitem, by simpa using htag⟩
        refine .inl (.inr ⟨by simp [htag], ?_⟩)
        rw [hhistory]
        exact List.mem_append_left _ (List.mem_map_of_mem hmatching)
      · have hstays : item ∈ (shared'.pool.queues index).items :=
          hitems ▸ List.mem_filter.mpr ⟨hitem, by simpa using htag⟩
        exact .inr ⟨hstays, idxOf_le_of_sublist (hitems ▸ List.filter_sublist.map _)
          (nodup_ids hreach index) (List.mem_map_of_mem hstays)⟩

def turnsToOwn (s : PoolSystem cfg U clients) (own : Fin cfg.maxNumThreads) : ℕ :=
  (s.loopPc own).turnsToOwn cfg.maxNumThreads (decide (.worker own ∈ s.shared.pool.idleCv))

theorem turnsToOwn_eq {above : List (Frame cfg.maxNumThreads U.Code)} {pc : RunWorkerPc U.Code}
    (hstack : s.threads (.worker own) = above ++ [.runWorker own pc]) :
    s.turnsToOwn own =
      pc.turnsToOwn cfg.maxNumThreads (decide (.worker own ∈ s.shared.pool.idleCv)) := by
  rw [turnsToOwn, loopPc_eq hstack]

theorem turnsToOwn_of_ne (hreach : (poolSystem cfg U clients).Reachable s)
    (hterminate : s.shared.pool.terminate = false) (h : step cfg U t c s = some s')
    (hne : t ≠ .worker own) : s'.turnsToOwn own ≤ s.turnsToOwn own := by
  obtain ⟨above, pc, hstack⟩ := exists_workerStack hreach hterminate own
  rw [turnsToOwn_eq hstack, turnsToOwn_eq ((threads_of_ne h hne.symm).trans hstack)]
  refine RunWorkerPc.turnsToOwn_mono fun hblocked => ?_
  rw [decide_eq_true_iff] at hblocked ⊢
  obtain ⟨before, after, rest, -, hrule, -⟩ := step_rule h
  generalize s'.shared = shared' at hrule hblocked
  cases hrule with
  | unwind => exact hblocked
  | frame hmove =>
    rcases hmove.idleCv with ⟨hsubset, -⟩ | ⟨_, -, hblock, -⟩
    · exact hsubset hblocked
    · rw [hblock] at hblocked
      exact Finset.mem_of_mem_insert_of_ne hblocked hne.symm

/-- With its lane not empty, a turn of a worker puts off no later one, and in its loop it brings the
worker nearer to its lane, or takes the first task out of it. -/
theorem turnsToOwn_of_eq (hreach : (poolSystem cfg U clients).Reachable s)
    (hterminate : s.shared.pool.terminate = false) (h : step cfg U (.worker own) c s = some s')
    (hlane : (s.shared.pool.queues own).items ≠ []) :
    (∃ first, (s.shared.pool.queues own).items = first :: (s'.shared.pool.queues own).items) ∨
      s'.turnsToOwn own ≤ s.turnsToOwn own ∧ (s.inLoop own → s'.turnsToOwn own < s.turnsToOwn own) := by
  obtain ⟨above, pc, hstack⟩ := exists_workerStack hreach hterminate own
  rcases worker_step hreach h hstack with ⟨hne, above', habove⟩ | ⟨rfl, hmove⟩
  · obtain ⟨item, rfl⟩ := running_of_above hreach hstack hne
    refine .inr ⟨by rw [turnsToOwn_eq hstack, turnsToOwn_eq habove]; rfl, fun ⟨pc, hloop⟩ => ?_⟩
    rw [hstack] at hloop
    exact absurd (congrArg List.length hloop) (by simpa using hne)
  · have htotal := s.shared.pool.length_le_laneTotal own
    have hcount := queuedCount_eq hreach
    have hpos := List.length_pos_iff.mpr hlane
    refine (hmove.turnsToOwn hterminate (by omega) hlane).imp_right ?_
    rintro ⟨above', pc', hafter, hlt⟩
    rw [turnsToOwn_eq hstack, turnsToOwn_eq hafter]
    exact ⟨hlt.le, fun _ => hlt⟩

end PoolSystem

/-! ### The run -/

/-- A queued task is taken by a worker at last, or destroyed by `retire`. -/
theorem PoolRun.Serving.eventually_taken {Fair : ThreadId cfg.maxNumThreads clients → Prop}
    {r : PoolRun cfg U clients Fair} (h : r.Serving) (hbodies : r.BodiesEnd)
    {index : Fin cfg.maxNumThreads} (hfair : Fair (.worker index)) {n : ℕ} {item : TaggedTask U.Code}
    (hitem : item ∈ ((r.state n).shared.pool.queues index).items) :
    Eventually (fun m => (r.state m).hasTaken item ∨ (r.state m).shared.pool.hasRemoved item) n := by
  -- The tasks ahead of it, then the turns until the worker of the lane takes the first one.
  let rank : ℕ → ℕ ×ₗ ℕ := fun n =>
    toLex ((r.state n).shared.pool.ahead index item.id, (r.state n).turnsToOwn index)
  refine h.eventually_of_turns hbodies hfair
    (A := fun n => item ∈ ((r.state n).shared.pool.queues index).items) rank
    (fun n hitem => ?_) (fun n hitem hloop hparty => ?_) hitem
  · obtain ⟨c, hstep⟩ := r.step n
    refine (PoolSystem.queued_step (h.reachable n) (h.terminate n) hstep hitem).imp_right ?_
    rintro ⟨hstays, hahead⟩
    refine ⟨hstays, ?_⟩
    by_cases hparty : r.party n = .worker index
    · rw [hparty] at hstep
      rcases PoolSystem.turnsToOwn_of_eq (h.reachable n) (h.terminate n) hstep
        (List.ne_nil_of_mem hitem) with ⟨first, hitems⟩ | ⟨hturns, -⟩
      · exact (Prod.Lex.toLex_lt_toLex.mpr
          (.inl (PoolSystem.ahead_lt (h.reachable n) hitems hstays))).le
      · exact Prod.Lex.toLex_mono ⟨hahead, hturns⟩
    · have hturns := PoolSystem.turnsToOwn_of_ne (h.reachable n) (h.terminate n) hstep hparty
      exact Prod.Lex.toLex_mono ⟨hahead, hturns⟩
  · obtain ⟨c, hstep⟩ := r.step n
    refine (PoolSystem.queued_step (h.reachable n) (h.terminate n) hstep hitem).imp_right ?_
    rintro ⟨hstays, hahead⟩
    rw [hparty] at hstep
    rcases PoolSystem.turnsToOwn_of_eq (h.reachable n) (h.terminate n) hstep
      (List.ne_nil_of_mem hitem) with ⟨first, hitems⟩ | ⟨-, hturns⟩
    · exact Prod.Lex.toLex_lt_toLex.mpr (.inl (PoolSystem.ahead_lt (h.reachable n) hitems hstays))
    · exact Prod.Lex.toLex_lt_toLex'.mpr ⟨hahead, fun _ => hturns hloop⟩

/-- In every run that is fair to the workers, with no shutdown and with bodies that end, no task starves:
once it is in a lane, it is run to its end and destroyed at last. Only a task with a tag may go otherwise,
skipped by its worker or removed by `retire`. -/
theorem queuedTask_isServed {Fair : ThreadId cfg.maxNumThreads clients → Prop}
    {r : PoolRun cfg U clients Fair} (hserving : r.Serving) (hbodies : r.BodiesEnd)
    (hfair : ∀ own, Fair (.worker own)) {n : ℕ} {index : Fin cfg.maxNumThreads}
    {item : TaggedTask U.Code} (hitem : item ∈ ((r.state n).shared.pool.queues index).items) :
    Eventually (fun m => .finished item.id .ran ∈ (r.state m).shared.pool.history.events ∨
      item.tagState ≠ none ∧ (.finished item.id .skipped ∈ (r.state m).shared.pool.history.events ∨
        .finished item.id .removedByRetire ∈ (r.state m).shared.pool.history.events)) n := by
  refine (hserving.eventually_taken hbodies (hfair index) hitem).trans fun m _ h => ?_
  rcases h with ⟨own, hstack⟩ | ⟨htag, hremoved⟩
  · have hbottom : (r.state m).threads (.worker own) = [] ++ [_] := hstack
    let ends : Fate → Prop := fun fate => fate = .ran ∨ item.tagState ≠ none ∧ fate = .skipped
    have hended : Eventually (fun m => (r.state m).shared.pool.hasEnded item ends) m :=
      hserving.eventually_hasEnded hbodies (hfair own) (.inl rfl) (fun htag => .inr ⟨htag, rfl⟩) hbottom rfl
    refine hended.mono fun m _ h => ?_
    obtain ⟨-, rfl | ⟨htag, rfl⟩, hfinished⟩ := h
    · exact .inl hfinished
    · exact .inr ⟨htag, .inl hfinished⟩
  · exact .now (.inr ⟨htag, .inr hremoved⟩)

/-! ### A run -/

/-- The places of the loop of a worker that finds nothing. -/
def RunWorkerPc.isIdle : RunWorkerPc Code → Bool
  | .loopHead => true
  | .tryGetTask .own => true
  | .tryGetTask .checkQueued => true
  | .enterIdle => true
  | .idlePredicate => true
  | .idleWait => true
  | .leaveIdle => true
  | _ => false

/-- The worker goes round its loop, with nothing to do. -/
structure PoolSystem.Idles (own : Fin cfg.maxNumThreads) (s : PoolSystem cfg U clients) : Prop where
  stack : ∃ pc, s.threads (.worker own) = [.runWorker own pc] ∧ pc.isIdle = true
  terminate : s.shared.pool.terminate = false
  queuedCount : s.shared.pool.queuedCount = 0
  lane : (s.shared.pool.queues own).items = []

theorem PoolSystem.Idles.next {own : Fin cfg.maxNumThreads} {s : PoolSystem cfg U clients}
    (h : s.Idles own) : ∃ s', Turn cfg U clients (.worker own) s s' ∧ s'.Idles own := by
  obtain ⟨⟨pc, hstack, hpc⟩, hterminate, hqueued, hlane⟩ := h
  have hturn : ∀ c r, frameStep cfg U (.worker own) c s.shared (.runWorker own pc) = some r →
      Turn cfg U clients (.worker own) s ⟨r.1, Function.update s.threads (.worker own) (r.2 ++ [])⟩ :=
    fun c r hr => ⟨c, step_eq_of_frameStep hstack hr⟩
  cases pc with
  | loopHead =>
    refine ⟨_, hturn .go _ (by simp [frameStep, runWorkerStep, hterminate]; rfl), ?_⟩
    exact ⟨⟨_, Function.update_self .., rfl⟩, hterminate, hqueued, hlane⟩
  | tryGetTask pc =>
    cases pc with
    | own =>
      have hpop := PoolState.tryPop_eq_none.mpr hlane
      refine ⟨_, hturn .go _ (by simp [frameStep, runWorkerStep, tryGetTaskStep, hpop]; rfl), ?_⟩
      exact ⟨⟨_, Function.update_self .., rfl⟩, hterminate, hqueued, hlane⟩
    | checkQueued =>
      refine ⟨_, hturn .go _ (by simp [frameStep, runWorkerStep, tryGetTaskStep, hqueued]; rfl), ?_⟩
      exact ⟨⟨_, Function.update_self .., rfl⟩, hterminate, hqueued, hlane⟩
    | _ => cases hpc
  | enterIdle =>
    exact ⟨_, hturn .go _ rfl, ⟨_, Function.update_self .., rfl⟩, hterminate, hqueued, hlane⟩
  | idlePredicate =>
    refine ⟨_, hturn .go _ (by simp [frameStep, runWorkerStep, idlePredicateStep, hterminate, hqueued]; rfl), ?_⟩
    exact ⟨⟨_, Function.update_self .., rfl⟩, hterminate, hqueued, hlane⟩
  | idleWait =>
    exact ⟨_, hturn .timeout _ rfl, ⟨_, Function.update_self .., rfl⟩, hterminate, hqueued, hlane⟩
  | leaveIdle =>
    exact ⟨_, hturn .go _ rfl, ⟨_, Function.update_self .., rfl⟩, hterminate, hqueued, hlane⟩
  | _ => cases hpc

theorem PoolRun.serving_of_idles {Fair : ThreadId cfg.maxNumThreads clients → Prop}
    {r : PoolRun cfg U clients Fair} (hreach : (poolSystem cfg U clients).Reachable (r.state 0))
    {own : Fin cfg.maxNumThreads} (hidles : ∀ n, Eventually (fun m => (r.state m).Idles own) n) : r.Serving :=
  PoolRun.serving_of_later hreach fun n => (hidles n).mono fun _ _ h => h.terminate

theorem PoolRun.bodiesEnd_of_idles {Fair : ThreadId cfg.maxNumThreads clients → Prop}
    {r : PoolRun cfg U clients Fair} (hidles : ∀ n own, Eventually (fun m => (r.state m).Idles own) n) :
    r.BodiesEnd := by
  refine PoolRun.bodiesEnd_of_length fun n own => (hidles n own).mono fun m _ h => ?_
  obtain ⟨pc, hstack, -⟩ := h.stack
  exact (congrArg List.length hstack).le

theorem PoolSystem.threads_of_ne_soleWorker {s : PoolSystem oneWorker scriptCode 0} (howner : s.threads .owner = []) :
    ∀ u ≠ soleWorker, s.threads u = [] := by
  intro u hu
  cases u with
  | worker own => exact absurd (congrArg ThreadId.worker (Subsingleton.elim (α := Fin 1) own _)) hu
  | owner => exact howner
  | client i => exact i.elim0

/-- The only worker goes round for ever when the other threads have ended. -/
theorem PoolSystem.Idles.exists_forever {clients : ℕ} {s : PoolSystem oneWorker scriptCode clients}
    (h : s.Idles (Fin.last 0)) (hothers : ∀ u ≠ soleWorker, s.threads u = []) :
    ∃ r : PoolRun oneWorker scriptCode clients fun _ => True, r.state 0 = s ∧
      ∀ n, (r.state n).Idles (Fin.last 0) ∧ ∀ u ≠ soleWorker, (r.state n).threads u = [] := by
  let Quiet (s : PoolSystem oneWorker scriptCode clients) : Prop :=
    s.Idles (Fin.last 0) ∧ ∀ u ≠ soleWorker, s.threads u = []
  have hnext : ∀ s, Quiet s → ∃ s', Turn oneWorker scriptCode clients soleWorker s s' ∧ Quiet s' := by
    rintro s ⟨hidles, hothers⟩
    obtain ⟨s', ⟨c, hstep⟩, hidles'⟩ := hidles.next
    exact ⟨s', ⟨c, hstep⟩, hidles', fun u hu => (threads_of_ne hstep hu).trans (hothers u hu)⟩
  refine FairRun.exists_forever (fun u _ => ?_) hnext ⟨h, hothers⟩
  by_cases hu : u = soleWorker
  · exact .inl hu
  · exact .inr fun s hquiet s' => not_expectedTurn_of_nil (hquiet.2 u hu)

def onePushed : Option (PoolSystem oneWorker scriptCode 0) :=
  scriptRun oneWorker 0 (fun _ => .call (.enqueue .ret 0) .ret)
    [(.owner, .input ()), (.owner, .go), (.owner, .go), (.owner, .go)]

def serveTask : List (ThreadId 1 0 × Choice 1 0 Unit) :=
  List.replicate 6 (soleWorker, .go) ++ (soleWorker, .input ()) :: List.replicate 3 (soleWorker, .go)

theorem onePushed_served : ∃ s s', onePushed = some s ∧
    (s.shared.pool.queues (Fin.last 0)).items = [⟨none, .user .ret, 0, 0⟩] ∧
    exec oneWorker scriptCode s serveTask = some s' ∧ s'.Idles (Fin.last 0) :=
  ⟨_, _, rfl, rfl, rfl, ⟨_, rfl, rfl⟩, rfl, rfl, rfl⟩

theorem queuedTask_isServed_onePushed :
    ∃ r : PoolRun oneWorker scriptCode 0 (· = soleWorker),
      ((r.state 0).shared.pool.queues (Fin.last 0)).items.map TaggedTask.id = [0] ∧
      Eventually (fun m => .finished 0 .ran ∈ (r.state m).shared.pool.history.events) 0 := by
  obtain ⟨s, s', hs, hitems, hexec, hidles⟩ := onePushed_served
  have hidle : ∃ r : PoolRun oneWorker scriptCode 0 (· = soleWorker),
      r.state 0 = s' ∧ ∀ n, (r.state n).Idles (Fin.last 0) :=
    FairRun.exists_forever (fun _ h => .inl h) (fun s h => PoolSystem.Idles.next h) hidles
  obtain ⟨idle, hidle, hforever⟩ := hidle
  obtain ⟨r, hr, hlater⟩ := PoolRun.exists_prepend idle (hidle ▸ hexec)
  have hidles : ∀ n own, Eventually (fun m => (r.state m).Idles own) n := by
    intro n own
    obtain rfl : own = Fin.last 0 := Subsingleton.elim (α := Fin 1) _ _
    have hidle : (r.state (n + serveTask.length)).Idles (Fin.last 0) := hlater n ▸ hforever n
    exact ⟨n + serveTask.length, Nat.le_add_right _ _, hidle⟩
  have hserving : r.Serving :=
    PoolRun.serving_of_idles (hr ▸ scriptRun_reachable hs) fun n => hidles n (Fin.last 0)
  have hbodies : r.BodiesEnd := PoolRun.bodiesEnd_of_idles hidles
  rw [← hr] at hitems
  have hitem : ⟨none, .user .ret, 0, 0⟩ ∈ ((r.state 0).shared.pool.queues (Fin.last 0)).items := by
    rw [hitems]
    exact List.mem_singleton_self _
  have hserved := queuedTask_isServed hserving hbodies
    (fun own => congrArg ThreadId.worker (Subsingleton.elim (α := Fin 1) _ _)) hitem
  refine ⟨r, by rw [hitems]; rfl, hserved.mono fun m _ h => ?_⟩
  exact h.resolve_right fun htag => htag.1 rfl

end CppUtils
