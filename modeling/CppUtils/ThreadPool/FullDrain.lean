import CppUtils.ThreadPool.DrainCall
import CppUtils.ThreadPool.Progress
import CppUtils.ThreadPool.TaskPlaces
import CppUtils.ThreadPool.TagAccounting
import CppUtils.ThreadPool.Script

/-!
# `finishAllThreads(true)` drains everything

Once the owner has set `terminate` every step of the call lowers the effort that is left, so the call goes
on until no thread of it can take a step. That is when it has returned, or when a push waits for room in
a full lane; with the workers gone nobody else makes room.
-/

namespace CppUtils

open Threaded Relation

variable {clients workers : ℕ} {U : UserCode} {Code : Type} {cfg : PoolConfig}

/-! ### The call comes to an end -/

namespace DrainCall

variable {start s s' : PoolSystem cfg U clients} {resume : Outcome → U.Code}

theorem step_descends (h : DrainCall start resume s) (hstep : (callSystem cfg U start resume).Step s s')
    (hset : s.shared.pool.terminate = true) :
    s'.shared.pool.terminate = true ∧ Descends (Grows U start.shared.calls) s'.callEffort s.callEffort := by
  obtain ⟨hnot, t, c, ht, hmove⟩ := hstep
  refine ⟨PoolSystem.terminate_step ⟨t, c, hmove⟩ hset, ?_⟩
  obtain ⟨hlower | ⟨hrunning, -⟩, -⟩ := h.descends hnot ht hmove
  · rwa [h.calls] at hlower
  · rw [hset] at hrunning
    cases hrunning

end DrainCall

section Runs

variable {s : PoolSystem cfg U clients} {resume : Outcome → U.Code} {run : ℕ → PoolSystem cfg U clients}

/-- No run of the call goes on for ever, except one in which the owner never takes its first step. -/
theorem owner_waits (hreach : (poolSystem cfg U clients).ReachableUnder PoolSystem.NotAbandoned s)
    (hbegins : s.FinishBegins resume) (hstart : run 0 = s)
    (hrun : ∀ n, (callSystem cfg U s resume).Step (run n) (run (n + 1))) (n : ℕ) :
    (run n).threads .owner = s.threads .owner := by
  have hcall : ∀ n, DrainCall s resume (run n) := by
    intro n
    induction n with
    | zero =>
      rw [hstart]
      exact .begin hreach hbegins
    | succ n ih => exact ih.step (hrun n)
  by_contra hmoved
  have hset : (run n).shared.pool.terminate = true := by
    refine (hcall n).terminate.resolve_left fun hfirst => hmoved ?_
    rw [hbegins.owner]
    exact hfirst
  have hall : ∀ k, (run (n + k)).shared.pool.terminate = true := by
    intro k
    induction k with
    | zero => exact hset
    | succ k ih => exact ((hcall (n + k)).step_descends (hrun (n + k)) ih).1
  have : IsWellFounded _ (Descends (Grows U s.shared.calls)) := ⟨Descends.wellFounded grows_wellFounded⟩
  obtain ⟨k, hk⟩ := WellFounded.not_rel_apply_succ (r := Descends (Grows U s.shared.calls))
    fun k => (run (n + k)).callEffort
  exact hk ((hcall (n + k)).step_descends (hrun (n + k)) (hall k)).2

end Runs

/-! ### Until it has returned it goes on -/

namespace PoolSystem

/-- A push of the call waits for room in its lane. -/
def PushWaits (s : PoolSystem cfg U clients) : Prop :=
  ∃ t index item rest, ThreadId.isClient t = false ∧ s.threads t = .enqueue (.push index item) :: rest ∧
    laneMaxSize ≤ (s.shared.pool.queues index).items.length

/-- A thread of the call can take a step, without a wait that ends by itself or a push that fails. -/
def GoesOn (s : PoolSystem cfg U clients) : Prop :=
  ∃ t c s', ThreadId.isClient t = false ∧ c.isUsual = true ∧ step cfg U t c s = some s'

end PoolSystem

namespace DrainCall

variable {start s : PoolSystem cfg U clients} {resume : Outcome → U.Code}

theorem goesOn_of_stack [Nonempty U.Input] (h : DrainCall start resume s)
    {t : ThreadId cfg.maxNumThreads clients} (ht : t.isClient = false)
    {f : Frame cfg.maxNumThreads U.Code} {rest : List (Frame cfg.maxNumThreads U.Code)}
    (hstack : s.threads t = f :: rest) (hf : f ∈ s.callFrames t) (hrest : rest ≠ [] ∨ f ≠ .unwinding)
    (hidle : ∀ own, f = .runWorker own .idleWait → t ∉ s.shared.pool.idleCv)
    (hjoin : ∀ completePendingTasks w ws,
      f = .finishAllThreads completePendingTasks (.join (w :: ws)) → w ∈ s.shared.pool.exited) :
    s.GoesOn ∨ s.PushWaits := by
  have hreach := h.reachable.reachable
  by_cases hblock : f.mayBlock U s.shared t
  · cases f with
    | unwinding =>
      obtain ⟨g, rest, rfl⟩ := List.exists_cons_of_ne_nil (hrest.resolve_right fun hne => hne rfl)
      obtain ⟨s', hstep⟩ := PoolSystem.exists_step_of_unwinding hreach hstack
      exact .inl ⟨t, .go, s', ht, rfl, hstep⟩
    | body code =>
      have htree : EnqueueTree U s.shared.calls (.code code) :=
        h.tree_of_mem hf (Multiset.mem_singleton_self _)
      have i : U.Input := Classical.arbitrary U.Input
      have hnot := hblock i
      obtain ⟨task, tag, resume, hnext⟩ | hnext | hnext := htree.frames (i := i) <;>
        (rw [hnext] at hnot; cases hnot)
    | runWorker own pc =>
      cases pc with
      | idleWait => exact absurd hblock (hidle own rfl)
      | _ => exact hblock.elim
    | enqueue pc =>
      cases pc with
      | push index item => exact .inr ⟨t, index, item, rest, ht, hstack, hblock⟩
      | _ => exact hblock.elim
    | finishAllThreads completePendingTasks pc =>
      cases pc with
      | join ws =>
        cases ws with
        | nil => exact hblock.elim
        | cons w ws => exact absurd (hjoin completePendingTasks w ws rfl) hblock
      | _ => exact hblock.elim
    | retire | abandonAllThreads | parallelFor | parallelForAsync => cases h.draining t _ hf
    | _ => exact hblock.elim
  · obtain ⟨c, s', husual, hstep⟩ := PoolSystem.exists_usualStep hreach hstack hblock
    exact .inl ⟨t, c, s', ht, husual, hstep⟩

theorem goesOn_of_worker [Nonempty U.Input] (h : DrainCall start resume s) {w : Fin cfg.maxNumThreads}
    (hrunning : w ∉ s.shared.pool.exited) (hawake : s.shared.pool.idleCv = ∅) : s.GoesOn ∨ s.PushWaits := by
  have hreach := h.reachable.reachable
  obtain ⟨hexited, -⟩ | ⟨-, above, pc, hstack⟩ := PoolSystem.workerStack hreach (.worker w) w rfl
  · exact absurd hexited hrunning
  have hidle : .worker w ∉ s.shared.pool.idleCv := by
    rw [hawake]
    exact Finset.notMem_empty _
  have hjoin : ∀ f ∈ s.threads (.worker w), ∀ completePendingTasks v vs,
      f = .finishAllThreads completePendingTasks (.join (v :: vs)) → v ∈ s.shared.pool.exited := by
    rintro f hf completePendingTasks v vs rfl
    cases PoolSystem.belongsTo hreach (.worker w) _ hf
  cases above with
  | nil =>
    have hmem : .runWorker w pc ∈ s.threads (.worker w) := hstack ▸ List.mem_singleton_self _
    exact h.goesOn_of_stack rfl hstack hmem (.inr (by simp)) (fun _ _ => hidle) (hjoin _ hmem)
  | cons f above =>
    have hmem : f ∈ s.threads (.worker w) := hstack ▸ List.mem_cons_self
    exact h.goesOn_of_stack rfl hstack hmem (.inl (by simp)) (fun _ _ => hidle) (hjoin _ hmem)

/-- Until the call has returned a thread of it can take a step, or a push waits for room. -/
theorem goesOn [Nonempty U.Input] (h : DrainCall start resume s) (hnot : ¬ s.HasReturned resume) :
    s.GoesOn ∨ s.PushWaits := by
  have hreach := h.reachable.reachable
  obtain ⟨above, pc, hcall, -⟩ := h.stack.resolve_right fun hreturned => hnot hreturned.1
  have hframes : s.callFrames .owner = above ++ [.finishAllThreads true pc] := by
    rw [PoolSystem.callFrames, hcall, List.append_cons, List.dropLast_concat]
  cases above with
  | nil =>
    have hmem : .finishAllThreads true pc ∈ s.callFrames .owner := hframes ▸ List.mem_singleton_self _
    by_cases hwaits : ∃ w ws, pc = .join (w :: ws) ∧ w ∉ s.shared.pool.exited
    · obtain ⟨w, ws, rfl, hrunning⟩ := hwaits
      exact h.goesOn_of_worker hrunning (h.awake _ hcall)
    · refine h.goesOn_of_stack rfl hcall hmem (.inr (by simp)) (fun own hf => by simp at hf) ?_
      rintro completePendingTasks w ws hf
      simp only [Frame.finishAllThreads.injEq] at hf
      by_contra hrunning
      exact hwaits ⟨w, ws, hf.2, hrunning⟩
  | cons f above =>
    have hmem : f ∈ s.callFrames .owner := hframes ▸ List.mem_cons_self
    have hfinish : .finishAllThreads true pc ∈ s.threads .owner := by
      rw [hcall]
      simp
    obtain ⟨i, item, rfl⟩ := running_of_above hreach hcall (List.cons_ne_nil _ _)
    have hjoined : ∀ w, w ∈ s.shared.pool.exited := (PoolSystem.hasJoined h.reachable).2 .owner _ hfinish
    refine h.goesOn_of_stack rfl hcall hmem (.inl (by simp)) ?_ fun _ w _ _ => hjoined w
    rintro own rfl
    have hworker : .runWorker own .idleWait ∈ s.threads .owner := hcall ▸ List.mem_cons_self
    cases PoolSystem.belongsTo hreach .owner _ hworker

end DrainCall

/-! ### When it has returned -/

theorem Ledger.RetiredAfter.of_append {later events : List (TaskEvent workers)} {id tag : ℕ}
    (h : RetiredAfter (later ++ events) id tag) (hnone : .retired tag ∉ later) :
    RetiredAfter events id tag := by
  obtain ⟨later', between, earlier, heq⟩ := h
  obtain ⟨rest, rfl, hrest⟩ | ⟨rest, rfl, hrest⟩ := List.append_eq_append_iff.mp heq
  · exact ⟨rest, between, earlier, hrest⟩
  · cases rest with
    | nil => exact ⟨[], between, earlier, hrest.symm⟩
    | cons e rest =>
      obtain ⟨rfl, -⟩ := List.cons_eq_cons.mp hrest
      exact absurd (List.mem_append_right _ List.mem_cons_self) hnone

namespace PoolSystem

def RanOnce (s : PoolSystem cfg U clients) (id : ℕ) : Prop :=
  s.shared.pool.timesBegun id = 1 ∧ .finished id .ran ∈ s.shared.pool.history.events

/-- `enqueue` did not take the task: its tag was being retired, or the push failed. -/
def Refused (s : PoolSystem cfg U clients) (id : ℕ) : Prop :=
  .finished id .dropped ∈ s.shared.pool.history.events ∨ .finished id .discarded ∈ s.shared.pool.history.events

/-- Before this state a `retire` had removed the task from its lane, or had marked its tag, so that it was
skipped. -/
def RetiredBefore (start s : PoolSystem cfg U clients) (id : ℕ) : Prop :=
  .finished id .removedByRetire ∈ start.shared.pool.history.events ∨
    .finished id .skipped ∈ s.shared.pool.history.events ∧
      ∃ tag, Ledger.RetiredAfter start.shared.pool.history.events id tag

variable {s : PoolSystem cfg U clients}

theorem ledger_of_isCode (hcode : ∀ t, ∀ f ∈ s.threads t, f.isCode = true)
    (hlanes : ∀ j, (s.shared.pool.queues j).items = []) : s.ledger.held = 0 ∧ s.ledger.retiring = 0 := by
  have hnone : ∀ t, ∀ f ∈ s.threads t, f.poolWeight (custody cfg.maxNumThreads U.Code) = 0 := by
    intro t f hf
    have hf := hcode t f hf
    cases f with
    | body | calling | unwinding => rfl
    | _ => cases hf
  have hcalls : s.total (custody cfg.maxNumThreads U.Code) = 0 := by
    refine Finset.sum_eq_zero fun t _ => List.sum_eq_zero fun m hm => ?_
    obtain ⟨f, hf, rfl⟩ := List.mem_map.mp hm
    exact hnone t f hf
  have hqueued : s.shared.pool.queuedTasks = 0 := by simp [PoolState.queuedTasks, hlanes]
  rw [ledger, hcalls, PoolState.ledger_zero]
  exact ⟨hqueued, rfl⟩

end PoolSystem

namespace DrainCall

variable {start s : PoolSystem cfg U clients} {resume : Outcome → U.Code}

theorem of_hasReturned (h : DrainCall start resume s) (hreturned : s.HasReturned resume) :
    (∀ t, ∀ f ∈ s.threads t, f.isCode = true) ∧ ∀ j, (s.shared.pool.queues j).items = [] := by
  obtain ⟨above, pc, hcall, -⟩ | ⟨-, hexited, hlanes⟩ := h.stack
  · rw [PoolSystem.InCall, hreturned] at hcall
    simp [List.cons_eq_append_iff] at hcall
  · refine ⟨fun t f hf => ?_, hlanes⟩
    cases t with
    | client k => exact h.clients k f hf
    | owner =>
      rw [hreturned] at hf
      rw [List.mem_singleton.mp hf]
      rfl
    | worker w =>
      obtain ⟨-, hnil⟩ | ⟨hstays, -⟩ := PoolSystem.workerStack h.reachable.reachable (.worker w) w rfl
      · rw [hnil] at hf
        cases hf
      · exact absurd (hexited w) hstays

theorem tasks_of_hasReturned (h : DrainCall start resume s) (hreturned : s.HasReturned resume) :
    ∀ id < s.shared.pool.history.nextTaskId,
      s.RanOnce id ∨ s.Refused id ∨ PoolSystem.RetiredBefore start s id := by
  intro id hid
  obtain ⟨hcode, hlanes⟩ := h.of_hasReturned hreturned
  have hledger := PoolSystem.ledger_reachable h.reachable.reachable
  obtain ⟨hheld, -⟩ := PoolSystem.ledger_of_isCode hcode hlanes
  obtain ⟨fate, hfate⟩ := Ledger.finished_of_not_held hledger hid (by simp [hheld])
  have hbegun := Ledger.begins_of_finished hledger hfate
  cases fate with
  | ran => exact .inl ⟨hbegun, hfate⟩
  | dropped => exact .inr (.inl (.inl hfate))
  | discarded => exact .inr (.inl (.inr hfate))
  | abandoned => exact absurd hfate (PoolSystem.not_abandoned h.reachable id)
  | removedByRetire =>
    refine .inr (.inr (.inl ((h.events.mem hfate).resolve_left ?_)))
    simp [TaskEvent.isOfRetire]
  | skipped =>
    obtain ⟨tag, htag⟩ := (Ledger.skippedRetired hledger).2 id hfate
    obtain ⟨later, hevents, hlater⟩ := h.events
    change Ledger.RetiredAfter s.shared.pool.history.events id tag at htag
    rw [hevents] at htag
    refine .inr (.inr (.inr ⟨hfate, tag, htag.of_append fun hmem => ?_⟩))
    cases hlater _ hmem

theorem counts_of_hasReturned (h : DrainCall start resume s) (hreturned : s.HasReturned resume) :
    (∀ a node, s.shared.pool.tagNodes a = some node → node.outstandingTaskCount = 0) ∧
      s.shared.pool.queuedCount = 0 := by
  obtain ⟨hcode, hlanes⟩ := h.of_hasReturned hreturned
  obtain ⟨hheld, hretiring⟩ := PoolSystem.ledger_of_isCode hcode hlanes
  constructor
  · intro a node hnode
    have hcount := Ledger.outstanding_eq (PoolSystem.ledger_reachable h.reachable.reachable) a
    rw [Ledger.outstanding_of_node hnode, Ledger.refs, Ledger.pendingRemoved, hheld, hretiring] at hcount
    simpa using hcount
  · refine (queuedCount_accounting h.reachable.reachable).2.2.2 hlanes fun t f hf => ?_
    have hf := hcode t f hf
    cases f with
    | body | calling | unwinding => rfl
    | _ => cases hf

end DrainCall

/-- A call of `finishAllThreads(true)` on a pool that was not abandoned, with no `retire` in progress and with
tasks that make finite trees of enqueues: it does not go on for ever once the owner has taken a step, until it
has returned a thread of it can take a step or a push waits for room in a full lane, and when it has returned
every task has run once, or was refused or retired before the call; every lane is empty, and no count is
left. -/
theorem finishAllThreads_drainsEverything [Nonempty U.Input] {s : PoolSystem cfg U clients}
    {resume : Outcome → U.Code}
    (hreach : (poolSystem cfg U clients).ReachableUnder PoolSystem.NotAbandoned s)
    (hbegins : s.FinishBegins resume) :
    (∀ run : ℕ → PoolSystem cfg U clients, run 0 = s →
      (∀ n, (callSystem cfg U s resume).Step (run n) (run (n + 1))) →
        ∀ n, (run n).threads .owner = s.threads .owner) ∧
    ∀ s', (callSystem cfg U s resume).Reachable s' →
      (¬ s'.HasReturned resume → s'.GoesOn ∨ s'.PushWaits) ∧
      (s'.HasReturned resume →
        (∀ id < s'.shared.pool.history.nextTaskId,
          s'.RanOnce id ∨ s'.Refused id ∨ PoolSystem.RetiredBefore s s' id) ∧
        (∀ j, (s'.shared.pool.queues j).items = []) ∧
        (∀ a node, s'.shared.pool.tagNodes a = some node → node.outstandingTaskCount = 0) ∧
        s'.shared.pool.queuedCount = 0) := by
  constructor
  · intro run hstart hrun n
    exact owner_waits hreach hbegins hstart hrun n
  · intro s' hcall
    have hdrain := DrainCall.of_reachable hreach hbegins hcall
    refine ⟨hdrain.goesOn, fun hreturned => ?_⟩
    obtain ⟨hnodes, hcount⟩ := hdrain.counts_of_hasReturned hreturned
    exact ⟨hdrain.tasks_of_hasReturned hreturned, (hdrain.of_hasReturned hreturned).2, hnodes, hcount⟩

/-! ### A task that fills its lane -/

def spawner : ℕ → Script
  | 0 => .ret
  | n + 1 => .call (.enqueue .ret 0) (spawner n)

theorem ret_enqueueTree (calls : ℕ → Option (BatchCall Script)) :
    EnqueueTree scriptCode calls (.code .ret) := by
  refine .mk (fun code i request resume hcode hnext => ?_) fun work hgives => ?_
  · cases hcode
    cases hnext
  · cases hgives with
    | task hnext => cases hnext
    | calling hnext => cases hnext

theorem spawner_enqueueTree (calls : ℕ → Option (BatchCall Script)) (n : ℕ) :
    EnqueueTree scriptCode calls (.code (spawner n)) := by
  induction n with
  | zero => exact ret_enqueueTree calls
  | succ n ih =>
    refine .mk (fun code i request resume hcode hnext => ?_) fun work hgives => ?_
    · cases hcode
      cases hnext
      exact ⟨_, _, rfl⟩
    · cases hgives with
      | task hnext =>
        cases hnext
        exact ret_enqueueTree calls
      | calling hnext =>
        cases hnext
        refine .mk (fun code i request resume hcode hnext => ?_) fun work hgives => ?_
        · cases hcode
        · cases hgives with
          | resume => exact ih

/-- The owner enqueues a spawner and calls `finishAllThreads(true)` before the worker has done anything. -/
def spawnRun (n : ℕ) : Option (PoolSystem oneWorker scriptCode 0) :=
  scriptRunUnder oneWorker 0 (fun s => decide s.NotAbandoned)
    (fun _ => .call (.enqueue (spawner n) 0) (.call (.finishAllThreads true) .ret))
    [(.owner, .input ()), (.owner, .go), (.owner, .go), (.owner, .go), (.owner, .go), (.owner, .go),
      (.owner, .input ())]

theorem spawnRun_finishBegins {n : ℕ} {s : PoolSystem oneWorker scriptCode 0} (h : spawnRun n = some s) :
    s.FinishBegins fun _ => .ret := by
  have hrun : (spawnRun n).map (fun s => (s.threads .owner, s.threads soleWorker,
      (s.shared.pool.queues 0).items, s.shared.batches, s.shared.nextBatch)) =
    some ([.finishAllThreads true .setTerminate, .calling fun _ => .ret], [.runWorker 0 .starting],
      [⟨none, .user (spawner n), 0, 0⟩], fun _ => none, 0) := rfl
  rw [h, Option.map_some, Option.some.injEq] at hrun
  simp only [Prod.mk.injEq] at hrun
  obtain ⟨howner, hworker, hlane, hbatches, hnext⟩ := hrun
  have hsole : ∀ w : Fin 1, w = Fin.last 0 := fun w => Subsingleton.elim w _
  have hworkers : ∀ w, s.threads (.worker w) = [.runWorker 0 .starting] := by
    intro w
    rw [hsole w]
    exact hworker
  refine ⟨howner, fun k => k.elim0, ?_, ?_, ?_⟩
  · intro w f hf
    rw [hworkers w] at hf
    rw [List.mem_singleton.mp hf]
    rfl
  · intro work hwork
    obtain ⟨j, item, hitem, rfl⟩ | ⟨batch, hbatch, -⟩ | ⟨t, f, hf, hmem⟩ := PoolSystem.mem_callEffort hwork
    · rw [hsole j] at hitem
      change item ∈ (s.shared.pool.queues 0).items at hitem
      rw [hlane] at hitem
      rw [List.mem_singleton.mp hitem]
      exact spawner_enqueueTree _ n
    · rw [hnext] at hbatch
      exact absurd hbatch (Nat.not_lt_zero _)
    · cases t with
      | client k => exact k.elim0
      | owner =>
        rw [PoolSystem.callFrames, howner] at hf
        rw [List.mem_singleton.mp hf] at hmem
        exact absurd hmem (Multiset.notMem_zero _)
      | worker w =>
        rw [PoolSystem.callFrames, hworkers w] at hf
        rw [List.mem_singleton.mp hf] at hmem
        exact absurd hmem (Multiset.notMem_zero _)
  · intro batch call hcall
    rw [Shared.calls, hbatches] at hcall
    cases hcall

def callRun (s : PoolSystem oneWorker scriptCode 0) (moves : List (ThreadId 1 0 × Choice 1 0 Unit)) :
    Option (PoolSystem oneWorker scriptCode 0) :=
  execUnder oneWorker scriptCode (fun s => decide (1 < (s.threads .owner).length)) s moves

theorem callRun_steps (start : PoolSystem oneWorker scriptCode 0) (resume : Outcome → Script)
    {s s' : PoolSystem oneWorker scriptCode 0} {moves : List (ThreadId 1 0 × Choice 1 0 Unit)}
    (h : callRun s moves = some s') :
    (callSystem oneWorker scriptCode start resume).Steps s s' ∧ ¬ s'.HasReturned resume := by
  have hnot : ∀ {s : PoolSystem oneWorker scriptCode 0}, 1 < (s.threads .owner).length →
      ¬ s.HasReturned resume := by
    intro s hlong hreturned
    rw [hreturned] at hlong
    exact absurd hlong (Nat.lt_irrefl 1)
  induction moves generalizing s with
  | nil =>
    simp only [callRun, execUnder] at h
    split at h
    · rename_i hlong
      cases h
      exact ⟨.refl, hnot (of_decide_eq_true hlong)⟩
    · cases h
  | cons move moves ih =>
    obtain ⟨t, c⟩ := move
    simp only [callRun, execUnder] at h
    split at h
    · rename_i hlong
      split at h
      · cases h
      · rename_i s₁ hstep
        obtain ⟨hsteps, hlast⟩ := ih h
        refine ⟨.head ⟨hnot (of_decide_eq_true hlong), t, c, ?_, hstep⟩ hsteps, hlast⟩
        cases t with
        | client k => exact k.elim0
        | _ => rfl
    · cases h

def toFirstPush : List (ThreadId 1 0 × Choice 1 0 Unit) :=
  [(.owner, .go), (.owner, .go), (soleWorker, .go), (soleWorker, .go)] ++ List.replicate 7 (.owner, .go) ++
    [(.owner, .input ()), (.owner, .go), (.owner, .go)]

/-- From there to the last assertion, when that task enqueues nothing more. -/
def toLastAssertion : List (ThreadId 1 0 × Choice 1 0 Unit) :=
  List.replicate 3 (.owner, .go) ++ [(.owner, .input ())] ++ List.replicate 6 (.owner, .go) ++
    [(.owner, .input ())] ++ List.replicate 6 (.owner, .go)

/-- The whole call, with the state in which it begins. -/
def spawnedDrain : Option (PoolSystem oneWorker scriptCode 0 × PoolSystem oneWorker scriptCode 0) :=
  (spawnRun 1).bind fun s => (callRun s (toFirstPush ++ toLastAssertion)).bind fun s₁ =>
    (step oneWorker scriptCode .owner .go s₁).map fun s' => (s, s')

/-- The drain runs the task and the one that it enqueues onto the lane that it has just left. -/
theorem finishAllThreads_drainsEverything_spawned : ∃ s s', spawnedDrain = some (s, s') ∧
    (s'.HasReturned fun _ => .ret) ∧ s.shared.pool.history.nextTaskId = 1 ∧
      s'.shared.pool.history.nextTaskId = 2 ∧ (∀ id < 2, s'.RanOnce id) ∧
      (∀ j, (s'.shared.pool.queues j).items = []) ∧ s'.shared.pool.queuedCount = 0 := by
  have hvalues : spawnedDrain.map (fun r => (r.1.shared.pool.history, r.2.shared.pool.history,
      r.2.threads .owner)) = some (⟨1, []⟩,
        ⟨2, [.finished 1 .ran, .begun 1 none, .finished 0 .ran, .begun 0 none]⟩, [.calling fun _ => .ret]) := rfl
  obtain ⟨⟨s, s'⟩, hrun, hvalues⟩ := Option.map_eq_some_iff.mp hvalues
  simp only [Prod.mk.injEq] at hvalues
  obtain ⟨hhistory, hhistory', hreturned⟩ := hvalues
  obtain ⟨s₀, hbegin, hrest⟩ := Option.bind_eq_some_iff.mp hrun
  obtain ⟨s₁, hcall, hlast⟩ := Option.bind_eq_some_iff.mp hrest
  obtain ⟨s₂, hstep, heq⟩ := Option.map_eq_some_iff.mp hlast
  simp only [Prod.mk.injEq] at heq
  obtain ⟨rfl, rfl⟩ := heq
  obtain ⟨hsteps, hnot⟩ := callRun_steps s₀ (fun _ => .ret) hcall
  have hreach : (callSystem oneWorker scriptCode s₀ fun _ => .ret).Reachable s₂ :=
    (TransitionSystem.Reachable.steps (.init rfl trivial) hsteps).next ⟨hnot, .owner, .go, rfl, hstep⟩
  obtain ⟨htasks, hlanes, -, hcount⟩ := ((finishAllThreads_drainsEverything
    (scriptRunUnder_reachable (fun _ => of_decide_eq_true) hbegin) (spawnRun_finishBegins hbegin)).2 s₂ hreach).2
      hreturned
  refine ⟨s₀, s₂, hrun, hreturned, by rw [hhistory], by rw [hhistory'], fun id hid => ?_, hlanes, hcount⟩
  obtain hran | (hdropped | hdiscarded) | hremoved | ⟨hskipped, -⟩ := htasks id (by rw [hhistory']; exact hid)
  · exact hran
  · simp [hhistory'] at hdropped
  · simp [hhistory'] at hdiscarded
  · simp [hhistory] at hremoved
  · simp [hhistory'] at hskipped

/-- The worker has exited and the owner drains: its frames above the call, and how full the lane is. -/
structure DrainsAlone (above : List (Frame oneWorker.maxNumThreads Script)) (m : ℕ)
    (s : PoolSystem oneWorker scriptCode 0) : Prop where
  owner : ∃ i item, s.threads .owner =
    above ++ [.finishAllThreads true (.running i item), .calling fun _ => .ret]
  worker : ∀ w, s.threads (.worker w) = []
  idle : s.shared.pool.idleCount = 0
  lane : ∀ j, (s.shared.pool.queues j).items.length = m

def pushing (n : ℕ) (index : Fin oneWorker.maxNumThreads) (item : TaggedTask Script) :
    List (Frame oneWorker.maxNumThreads Script) :=
  [.enqueue (.push index item), .calling fun _ => spawner n]

namespace DrainsAlone

variable {s : PoolSystem oneWorker scriptCode 0} {f : Frame oneWorker.maxNumThreads Script}
  {above : List (Frame oneWorker.maxNumThreads Script)} {n m : ℕ} {index : Fin oneWorker.maxNumThreads}
  {item : TaggedTask Script}

theorem next (h : DrainsAlone (f :: above) m s) (start : PoolSystem oneWorker scriptCode 0)
    (c : Choice oneWorker.maxNumThreads 0 Unit) {m' : ℕ}
    {r : Shared oneWorker.maxNumThreads 0 Script × List (Frame oneWorker.maxNumThreads Script)}
    (hr : frameStep oneWorker scriptCode .owner c s.shared f = some r) (hidle : r.1.pool.idleCount = 0)
    (hlane : ∀ j, (r.1.pool.queues j).items.length = m') :
    ∃ s', (callSystem oneWorker scriptCode start fun _ => .ret).Step s s' ∧
      DrainsAlone (r.2 ++ above) m' s' := by
  obtain ⟨i, item, howner⟩ := h.owner
  refine ⟨_, ⟨fun hreturned => ?_, .owner, c, rfl, step_eq_of_frameStep howner hr⟩,
    ⟨i, item, ?_⟩, fun w => ?_, hidle, hlane⟩
  · rw [PoolSystem.HasReturned, howner] at hreturned
    simp at hreturned
  · show Function.update s.threads .owner _ .owner = _
    rw [Function.update_self, List.append_assoc]
    rfl
  · simpa using h.worker w

theorem push_step (h : DrainsAlone (pushing (n + 1) index item) m s)
    (start : PoolSystem oneWorker scriptCode 0) (hm : m < laneMaxSize) :
    ∃ s' index' item', (callSystem oneWorker scriptCode start fun _ => .ret).Steps s s' ∧
      DrainsAlone (pushing n index' item') (m + 1) s' := by
  obtain ⟨pool, hpush⟩ : ∃ pool, s.shared.pool.push index item = some pool := by
    refine Option.ne_none_iff_exists'.mp fun hfull => ?_
    rw [PoolState.push_eq_none, h.lane] at hfull
    omega
  have hidle : pool.idleCount = 0 := (PoolState.sameControl_push hpush).idleCount.trans h.idle
  have hsole : ∀ i j : Fin 1, i = j := Subsingleton.elim
  have hlane : ∀ j, (pool.queues j).items.length = m + 1 := by
    intro j
    obtain ⟨lane, hitems, rfl⟩ := PoolState.push_eq_some hpush
    obtain rfl : j = index := hsole j index
    rw [PoolState.setLane_queues, Function.update_self, hitems, List.length_append, h.lane]
    rfl
  obtain ⟨s₁, hstep₁, h₁⟩ := h.next start .go
    (r := (s.shared.setPool pool, [.enqueue .gate])) (by simp [frameStep, enqueueStep, hpush]) hidle hlane
  obtain ⟨s₂, hstep₂, h₂⟩ := h₁.next start .go (r := (s₁.shared, []))
    (by simp [frameStep, enqueueStep, h₁.idle]; rfl) h₁.idle h₁.lane
  obtain ⟨s₃, hstep₃, h₃⟩ := h₂.next start .go rfl h₂.idle h₂.lane
  obtain ⟨s₄, hstep₄, h₄⟩ := h₃.next start (.input ()) rfl h₃.idle h₃.lane
  obtain ⟨s₅, hstep₅, h₅⟩ := h₄.next start .go rfl h₄.idle h₄.lane
  obtain ⟨s₆, hstep₆, h₆⟩ := h₅.next start .go rfl h₅.idle h₅.lane
  refine ⟨s₆, _, _, ?_, h₆⟩
  exact .head hstep₁ (.head hstep₂ (.head hstep₃ (.head hstep₄ (.head hstep₅ (.single hstep₆)))))

theorem push_run (h : DrainsAlone (pushing n index item) m s) (start : PoolSystem oneWorker scriptCode 0)
    (hall : n + m = laneMaxSize) :
    ∃ s' index' item', (callSystem oneWorker scriptCode start fun _ => .ret).Steps s s' ∧
      DrainsAlone (pushing 0 index' item') laneMaxSize s' := by
  induction n generalizing m s index item with
  | zero =>
    rw [zero_add] at hall
    exact ⟨s, index, item, .refl, hall ▸ h⟩
  | succ n ih =>
    obtain ⟨s₁, index₁, item₁, hsteps, h₁⟩ := h.push_step start (by omega)
    obtain ⟨s', index', item', hsteps', h'⟩ := ih h₁ (by omega)
    exact ⟨s', index', item', hsteps.trans hsteps', h'⟩

theorem not_goesOn (h : DrainsAlone (pushing n index item) laneMaxSize s) : ¬ s.GoesOn := by
  rintro ⟨t, c, s', ht, husual, hstep⟩
  cases t with
  | client k => cases ht
  | worker w =>
    rw [step, h.worker w] at hstep
    cases hstep
  | owner =>
    obtain ⟨i, item', howner⟩ := h.owner
    have hfull : s.shared.pool.push index item = none := by
      rw [PoolState.push_eq_none, h.lane]
    rw [step, howner] at hstep
    cases c with
    | pushThrows => cases husual
    | _ => simp [pushing, frameStep, enqueueStep, hfull] at hstep

end DrainsAlone

/-- With 2 ^ 31 tasks to enqueue the drain waits for ever for room in the lane that it drains. -/
theorem finishAllThreads_waitsForever : ∃ s s' : PoolSystem oneWorker scriptCode 0,
    (poolSystem oneWorker scriptCode 0).ReachableUnder PoolSystem.NotAbandoned s ∧
      (s.FinishBegins fun _ => .ret) ∧ (callSystem oneWorker scriptCode s fun _ => .ret).Reachable s' ∧
      (¬ s'.HasReturned fun _ => .ret) ∧ ¬ s'.GoesOn := by
  have hsole : ∀ w : Fin 1, w = Fin.last 0 := fun w => Subsingleton.elim w _
  have hrun : ∀ n, ∃ index item i held, ((spawnRun (n + 1)).bind fun s => callRun s toFirstPush).map
      (fun s => (s.threads .owner, s.threads soleWorker, s.shared.pool.idleCount,
        (s.shared.pool.queues 0).items)) =
      some (pushing n index item ++ [.finishAllThreads true (.running i held), .calling fun _ => .ret],
        [], 0, []) := fun n => ⟨_, _, _, _, rfl⟩
  obtain ⟨index, item, i, held, hfirst⟩ := hrun laneMaxSize
  obtain ⟨s₁, hbind, hvalues⟩ := Option.map_eq_some_iff.mp hfirst
  obtain ⟨s, hbegin, hcall⟩ := Option.bind_eq_some_iff.mp hbind
  simp only [Prod.mk.injEq] at hvalues
  obtain ⟨howner, hworker, hidle, hlane⟩ := hvalues
  have hpushing : DrainsAlone (pushing laneMaxSize index item) 0 s₁ := by
    refine ⟨⟨i, held, howner⟩, fun w => ?_, hidle, fun j => ?_⟩
    · rw [hsole w]
      exact hworker
    · rw [hsole j]
      exact congrArg List.length hlane
  obtain ⟨hsteps, -⟩ := callRun_steps s (fun _ => .ret) hcall
  obtain ⟨s', index', item', hsteps', hfull⟩ := hpushing.push_run s (add_zero _)
  refine ⟨s, s', scriptRunUnder_reachable (fun _ => of_decide_eq_true) hbegin, spawnRun_finishBegins hbegin,
    TransitionSystem.Reachable.steps (.init rfl trivial) (hsteps.trans hsteps'), fun hreturned => ?_,
    hfull.not_goesOn⟩
  obtain ⟨i, held, howner⟩ := hfull.owner
  rw [hreturned] at howner
  simp [pushing] at howner

end CppUtils
