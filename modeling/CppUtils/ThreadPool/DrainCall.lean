import CppUtils.ThreadPool.SpawnTrees
import CppUtils.ThreadPool.Joined
import CppUtils.ThreadPool.Progress

/-!
# A call of `finishAllThreads(true)`

The call runs beside the workers until it has joined them, and from then on the only tasks that run are
those of the drain, on the calling thread. Those may still enqueue, onto lanes that the pass in hand has
left behind; a pass that finds every lane empty ran no task, so no lane was filled behind it.
-/

namespace CppUtils

open Threaded Relation

variable {clients workers : ℕ} {U : UserCode} {Code : Type} {cfg : PoolConfig}

def ThreadId.isClient : ThreadId workers clients → Bool
  | .client _ => true
  | _ => false

/-- User code, outside any call of the pool when no other frame is above it. -/
def Frame.isCode : Frame workers Code → Bool
  | .body _ => true
  | .calling _ => true
  | .unwinding => true
  | _ => false

namespace PoolSystem

/-- The frames of the workers, and those of the owner down to its call of `finishAllThreads`. -/
def callFrames (s : PoolSystem cfg U clients) :
    ThreadId cfg.maxNumThreads clients → List (Frame cfg.maxNumThreads U.Code)
  | .owner => (s.threads .owner).dropLast
  | .worker w => s.threads (.worker w)
  | .client _ => []

/-- What the tasks in the pool have still to do, and the call. -/
def callEffort (s : PoolSystem cfg U clients) : Effort (Work U.Code) :=
  s.shared.effort + weight Frame.effort s.callFrames

theorem mem_callEffort {s : PoolSystem cfg U clients} {work : Work U.Code} (h : work ∈ s.callEffort.1) :
    (∃ j, ∃ item ∈ (s.shared.pool.queues j).items, work = item.task.work) ∨
      (∃ batch < s.shared.nextBatch, work ∈ s.shared.unstarted batch) ∨
      ∃ t, ∃ f ∈ s.callFrames t, work ∈ f.work := by
  obtain hshared | hframes := Multiset.mem_add.mp h
  · obtain hlanes | hbatches := Multiset.mem_add.mp hshared
    · obtain ⟨x, hx, rfl⟩ := Multiset.mem_map.mp hlanes
      obtain ⟨j, -, hj⟩ := Multiset.mem_sum.mp hx
      obtain ⟨item, hitem, rfl⟩ := List.mem_map.mp (Multiset.mem_coe.mp hj)
      exact .inl ⟨j, item, hitem, rfl⟩
    · change work ∈ ∑ batch ∈ Finset.range s.shared.nextBatch, s.shared.unstarted batch at hbatches
      obtain ⟨batch, hbatch, hwork⟩ := Multiset.mem_sum.mp hbatches
      exact .inr (.inl ⟨batch, Finset.mem_range.mp hbatch, hwork⟩)
  · rw [show (weight Frame.effort s.callFrames).1 = weight Frame.work s.callFrames from
      map_weight (AddMonoidHom.fst _ _) Frame.effort s.callFrames] at hframes
    exact .inr (.inr (mem_weight.mp hframes))

/-- The owner has just called `finishAllThreads(true)`, no other thread outside the pool is in a call of it,
no `retire` is in progress, and what the tasks have still to do are finite trees of enqueues. A batch has
a `size_t` of indices. -/
structure FinishBegins (s : PoolSystem cfg U clients) (resume : Outcome → U.Code) : Prop where
  owner : s.threads .owner = [.finishAllThreads true .setTerminate, .calling resume]
  clients : ∀ k, ∀ f ∈ s.threads (.client k), f.isCode = true
  draining : ∀ w, ∀ f ∈ s.threads (.worker w), f.isDraining = true
  trees : ∀ work ∈ s.callEffort.1, EnqueueTree U s.shared.calls work
  sizes : ∀ batch call, s.shared.calls batch = some call → call.count < 2 ^ 64

def InCall (s : PoolSystem cfg U clients) (resume : Outcome → U.Code)
    (above : List (Frame cfg.maxNumThreads U.Code)) (pc : FinishPc cfg.maxNumThreads U.Code) : Prop :=
  s.threads .owner = above ++ [.finishAllThreads true pc, .calling resume]

def HasReturned (s : PoolSystem cfg U clients) (resume : Outcome → U.Code) : Prop :=
  s.threads .owner = [.calling resume]

end PoolSystem

/-- The runs of the call from this state: the steps of the owner and of the workers until it returns. -/
def callSystem (cfg : PoolConfig) (U : UserCode) {clients : ℕ} (start : PoolSystem cfg U clients)
    (resume : Outcome → U.Code) : TransitionSystem (PoolSystem cfg U clients) where
  Init s := s = start
  Step s s' := ¬ s.HasReturned resume ∧
    ∃ t c, ThreadId.isClient t = false ∧ step cfg U t c s = some s'

/-- A tag is retired, or a task comes to its end by that. -/
def TaskEvent.isOfRetire : TaskEvent workers → Bool
  | .retired _ => true
  | .finished _ .removedByRetire => true
  | .finished _ .dropped => true
  | _ => false

/-- What holds in every state of the call. -/
structure DrainCall (start : PoolSystem cfg U clients) (resume : Outcome → U.Code)
    (s : PoolSystem cfg U clients) : Prop where
  reachable : (poolSystem cfg U clients).ReachableUnder PoolSystem.NotAbandoned s
  stack : (∃ above pc, s.InCall resume above pc ∧ pc.HasSeen s.shared.pool) ∨
    s.HasReturned resume ∧ (∀ w, w ∈ s.shared.pool.exited) ∧ ∀ j, (s.shared.pool.queues j).items = []
  terminate : s.InCall resume [] .setTerminate ∨ s.shared.pool.terminate = true
  awake : ∀ rest, s.InCall resume [] (.join rest) → s.shared.pool.idleCv = ∅
  clients : ∀ k, ∀ f ∈ s.threads (.client k), f.isCode = true
  draining : ∀ t, ∀ f ∈ s.callFrames t, f.isDraining = true
  trees : ∀ work ∈ s.callEffort.1, EnqueueTree U s.shared.calls work
  sizes : ∀ batch call, s.shared.calls batch = some call → call.count < 2 ^ 64
  calls : s.shared.calls = start.shared.calls
  events : start.shared.pool.history.Adds (fun e => e.isOfRetire = false) s.shared.pool.history

namespace DrainCall

variable {start s s' : PoolSystem cfg U clients} {resume : Outcome → U.Code}
  {t : ThreadId cfg.maxNumThreads clients} {c : Choice cfg.maxNumThreads clients U.Input}

/-! ### The frames of the call -/

theorem callFrames_move (h : DrainCall start resume s) (hnot : ¬ s.HasReturned resume)
    (ht : t.isClient = false) (hstep : step cfg U t c s = some s') :
    ∃ before after rest, s.callFrames t = before ++ rest ∧
      PoolRule cfg U t s.shared before s'.shared after ∧
      s'.callFrames = Function.update s.callFrames t (after ++ rest) := by
  obtain ⟨before, after, rest, hstack, hrule, hthreads⟩ := step_rule hstep
  cases t with
  | client k => cases ht
  | worker w =>
    refine ⟨before, after, rest, hstack, hrule, ?_⟩
    funext u
    cases u <;> simp [PoolSystem.callFrames, hthreads, Function.update]
  | owner =>
    obtain ⟨above, pc, hcall, -⟩ := h.stack.resolve_right fun hreturned => hnot hreturned.1
    rw [PoolSystem.InCall, hstack] at hcall
    have hrest : rest ≠ [] := by
      rintro rfl
      rw [List.append_nil] at hcall
      generalize s'.shared = shared' at hrule
      cases hrule with
      | frame => simp [List.cons_eq_append_iff] at hcall
      | unwind => simp [List.cons_eq_append_iff] at hcall
    refine ⟨before, after, rest.dropLast, ?_, hrule, ?_⟩
    · rw [PoolSystem.callFrames, hstack, List.dropLast_append_of_ne_nil hrest]
    · funext u
      cases u with
      | owner =>
        rw [PoolSystem.callFrames, hthreads, Function.update_self, Function.update_self,
          List.dropLast_append_of_ne_nil hrest]
      | _ => simp [PoolSystem.callFrames, hthreads, Function.update]

theorem tree_of_mem (h : DrainCall start resume s) {f : Frame cfg.maxNumThreads U.Code}
    (hf : f ∈ s.callFrames t) {work : Work U.Code} (hwork : work ∈ f.work) :
    EnqueueTree U s.shared.calls work := by
  refine h.trees work (Multiset.mem_add.mpr (.inr ?_))
  rw [show (weight Frame.effort s.callFrames).1 = weight Frame.work s.callFrames from
    map_weight (AddMonoidHom.fst _ _) Frame.effort s.callFrames]
  exact mem_weight.mpr ⟨t, f, hf, hwork⟩

/-- A step of the call descends once `terminate` is set, and the tasks still only enqueue. -/
theorem descends (h : DrainCall start resume s) (hnot : ¬ s.HasReturned resume) (ht : t.isClient = false)
    (hstep : step cfg U t c s = some s') :
    (Descends (Grows U s.shared.calls) s'.callEffort s.callEffort ∨
      s.shared.pool.terminate = false ∧ s'.callEffort.1 = s.callEffort.1) ∧
    s'.shared.calls = s.shared.calls ∧ ∀ u, ∀ f ∈ s'.callFrames u, f.isDraining = true := by
  obtain ⟨before, after, rest, hstack, hrule, hframes⟩ := h.callFrames_move hnot ht hstep
  obtain ⟨r, hbefore, hafter⟩ := weight_split Frame.effort hstack after
  have heffort : s.callEffort = s.shared.effort + stackWeight Frame.effort before + r := by
    rw [PoolSystem.callEffort, hbefore, add_assoc]
  have heffort' : s'.callEffort = s'.shared.effort + stackWeight Frame.effort after + r := by
    rw [PoolSystem.callEffort, hframes, hafter, add_assoc]
  have htrees : ∀ f ∈ before, ∀ work ∈ f.work, EnqueueTree U s.shared.calls work := by
    intro f hf work hwork
    exact h.tree_of_mem (hstack ▸ List.mem_append_left _ hf) hwork
  have hdraining : ∀ f ∈ before, f.isDraining = true := by
    intro f hf
    exact h.draining t f (hstack ▸ List.mem_append_left _ hf)
  have hkept : (∀ f ∈ after, f.isDraining = true) → ∀ u, ∀ f ∈ s'.callFrames u, f.isDraining = true := by
    intro hmoved u f hf
    rw [hframes] at hf
    by_cases hu : u = t
    · subst hu
      rw [Function.update_self] at hf
      obtain hf | hf := List.mem_append.mp hf
      · exact hmoved f hf
      · exact h.draining u f (hstack ▸ List.mem_append_right _ hf)
    · rw [Function.update_of_ne hu] at hf
      exact h.draining u f hf
  rw [heffort, heffort']
  generalize s'.shared = shared' at hrule ⊢
  cases hrule with
  | @frame _ _ f _ _ hmove =>
    have hmem : f ∈ [f] := List.mem_singleton_self f
    have hworkers : s.shared.pool.workerThreads.length ≤ cfg.maxNumThreads := by
      obtain hnil | hall := PoolSystem.workerThreads_cases h.reachable.reachable
      · rw [hnil]
        exact Nat.zero_le _
      · rw [hall, List.length_finRange]
    obtain ⟨hdescends, hcalls⟩ := hmove.descends (hdraining f hmem)
      (PoolSystem.batchesMade h.reachable.reachable) hworkers h.sizes (htrees f hmem)
    refine ⟨?_, hcalls, hkept (hmove.isDraining (hdraining f hmem) (htrees f hmem))⟩
    rw [stackWeight_cons, stackWeight_nil, add_zero]
    obtain hlower | ⟨hrunning, hsame⟩ := hdescends
    · exact .inl (hlower.add_right r)
    · exact .inr ⟨hrunning, congrArg (· + r.1) hsame⟩
  | @unwind _ _ f _ hunwind =>
    have hmem : f ∈ [.unwinding, f] := List.mem_cons_of_mem _ (List.mem_singleton_self f)
    obtain ⟨hdescends, hmoved⟩ := unwind_descends hunwind (hdraining f hmem) (htrees f hmem)
    refine ⟨.inl ?_, rfl, hkept hmoved⟩
    rw [stackWeight_cons, stackWeight_cons, stackWeight_nil, add_zero]
    exact (hdescends.add_left s.shared.effort).add_right r

/-! ### The call itself -/

/-- Under a task that the drain runs the call stands at `running`. -/
theorem running_of_above (hreach : (poolSystem cfg U clients).Reachable s)
    {above : List (Frame cfg.maxNumThreads U.Code)} {pc : FinishPc cfg.maxNumThreads U.Code}
    (hcall : s.InCall resume above pc) (habove : above ≠ []) : ∃ i item, pc = .running i item := by
  obtain ⟨k, hk⟩ := PoolSystem.awaits_of_above hreach hcall habove
  cases pc with
  | running i item => exact ⟨i, item, rfl⟩
  | _ => cases hk

/-- What a step of `finishAllThreads(true)` leaves: the call, perhaps under a task, or nothing once it has
asserted that the queues are empty. -/
theorem finishMove_after {pool pool' : PoolState cfg.maxNumThreads clients Code}
    {pc : FinishPc cfg.maxNumThreads Code} {after : List (Frame cfg.maxNumThreads Code)}
    (hmove : FinishMove cfg pool true pc pool' after) :
    (after = [] ∧ ∃ item, pc = .assertQueued item ∧ pool'.queues = pool.queues) ∨
      ∃ above pc', after = above ++ [.finishAllThreads true pc'] := by
  cases hmove with
  | assertQueued => exact .inl ⟨rfl, _, rfl, rfl⟩
  | notifyAllJoined | assertIdle => exact .inr ⟨[], .drain false 0 none, rfl⟩
  | @begin i item => exact .inr ⟨[item.task.frame], .running i item, rfl⟩
  | _ => exact .inr ⟨[], _, rfl⟩

theorem finishMove_join {pool pool' : PoolState cfg.maxNumThreads clients Code}
    {pc : FinishPc cfg.maxNumThreads Code} {after : List (Frame cfg.maxNumThreads Code)}
    (hmove : FinishMove cfg pool true pc pool' after) {rest : List (Fin cfg.maxNumThreads)}
    (hafter : after = [.finishAllThreads true (.join rest)]) :
    pool'.idleCv = ∅ ∨ ∃ rest', pc = .join rest' := by
  cases hmove with
  | notifyAll => exact .inl rfl
  | joinedAll | join => exact .inr ⟨_, rfl⟩
  | notifyAllJoined | assertIdle => simp [afterJoin] at hafter
  | _ => simp at hafter

/-- Before the workers are joined a worker may still run; then none is left that could push. -/
theorem hasSeen_worker {w : Fin cfg.maxNumThreads} (hreach : (poolSystem cfg U clients).ReachableUnder
      PoolSystem.NotAbandoned s) (hstep : step cfg U (.worker w) c s = some s')
    {above : List (Frame cfg.maxNumThreads U.Code)} {pc : FinishPc cfg.maxNumThreads U.Code}
    (hcall : s.InCall resume above pc) (hseen : pc.HasSeen s.shared.pool) : pc.HasSeen s'.shared.pool := by
  have hrunning : w ∉ s.shared.pool.exited := by
    intro hexited
    obtain ⟨-, hnil⟩ | ⟨hstays, -⟩ := PoolSystem.workerStack hreach.reachable (.worker w) w rfl
    · simp [step, hnil] at hstep
    · exact hstays hexited
  have hsubset := PoolSystem.exited_subset_step ⟨.worker w, c, hstep⟩
  have hmem : .finishAllThreads true pc ∈ s.threads .owner := by
    rw [hcall]
    simp
  have hjoined := (PoolSystem.hasJoined hreach).2 .owner _ hmem
  cases pc with
  | setTerminate | notifyAll => trivial
  | join rest => exact fun v hv => hsubset (hseen v hv)
  | _ => exact absurd (hjoined w) hrunning

theorem stack_step (h : DrainCall start resume s) (hnot : ¬ s.HasReturned resume) (ht : t.isClient = false)
    (hstep : step cfg U t c s = some s') :
    (∃ above pc, s'.InCall resume above pc ∧ pc.HasSeen s'.shared.pool) ∨
      s'.HasReturned resume ∧ (∀ w, w ∈ s'.shared.pool.exited) ∧
        ∀ j, (s'.shared.pool.queues j).items = [] := by
  obtain ⟨above, pc, hcall, hseen⟩ := h.stack.resolve_right fun hreturned => hnot hreturned.1
  have hreach := h.reachable.reachable
  cases t with
  | client k => cases ht
  | worker w =>
    obtain ⟨_, _, _, _, _, hthreads⟩ := step_rule hstep
    refine .inl ⟨above, pc, ?_, hasSeen_worker h.reachable hstep hcall hseen⟩
    rw [PoolSystem.InCall, hthreads, Function.update_of_ne (by simp)]
    exact hcall
  | owner =>
    have hmem : .finishAllThreads true pc ∈ s.threads .owner := by
      rw [hcall]
      simp
    obtain ⟨habove, above', hstack'⟩ | ⟨rfl, after, hmove, hstack'⟩ | ⟨rfl, -, after, hunwind, hstack'⟩ :=
      PoolSystem.step_above hstep (by simp) hcall
    · obtain ⟨i, item, rfl⟩ := running_of_above hreach hcall habove
      exact .inl ⟨above', _, hstack', trivial⟩
    · have hseen' := hmove.hasSeen (f := .finishAllThreads true pc) hseen
        (PoolSystem.workerThreads_cases hreach)
      have hsubset := PoolSystem.exited_subset_step ⟨.owner, c, hstep⟩
      have hjoined := (PoolSystem.hasJoined h.reachable).2 .owner _ hmem
      generalize s'.shared = shared' at hmove hseen' hsubset ⊢
      cases hmove with
      | finishAllThreads hmove =>
        obtain ⟨rfl, item, rfl, hqueues⟩ | ⟨above', pc', rfl⟩ := finishMove_after hmove
        · refine .inr ⟨hstack', fun w => hsubset (hjoined w), fun j => ?_⟩
          rw [show (s.shared.setPool _).pool.queues = s.shared.pool.queues from hqueues]
          exact hseen j
        · have hpc' := hseen' (.finishAllThreads true pc') (by simp)
          refine .inl ⟨above', pc', ?_, hpc'⟩
          rw [PoolSystem.InCall, hstack', List.append_assoc]
          rfl
    · obtain ⟨i, item, rfl⟩ := running_of_above hreach hcall (List.cons_ne_nil _ _)
      cases hunwind
      exact .inl ⟨[], _, hstack', trivial⟩

theorem terminate_step (h : DrainCall start resume s) (ht : t.isClient = false)
    (hstep : step cfg U t c s = some s') :
    s'.InCall resume [] .setTerminate ∨ s'.shared.pool.terminate = true := by
  obtain hbegins | hset := h.terminate
  · cases t with
    | client k => cases ht
    | worker w =>
      obtain ⟨_, _, _, _, _, hthreads⟩ := step_rule hstep
      rw [PoolSystem.InCall, hthreads, Function.update_of_ne (by simp)]
      exact .inl hbegins
    | owner =>
      right
      obtain ⟨hne, -⟩ | ⟨-, after, hmove, -⟩ | ⟨hunwinding, -⟩ :=
        PoolSystem.step_above hstep (by simp) hbegins
      · exact absurd rfl hne
      · generalize s'.shared = shared' at hmove ⊢
        cases hmove with
        | finishAllThreads hmove =>
          cases hmove
          rfl
      · cases hunwinding
  · exact .inr (PoolSystem.terminate_step ⟨t, c, hstep⟩ hset)

/-- Once the workers have been notified, none blocks in the idle wait. -/
theorem awake_step (h : DrainCall start resume s) (ht : t.isClient = false)
    (hnot : ¬ s.HasReturned resume) (hstep : step cfg U t c s = some s')
    {rest : List (Fin cfg.maxNumThreads)} (hcall' : s'.InCall resume [] (.join rest)) :
    s'.shared.pool.idleCv = ∅ := by
  obtain ⟨above, pc, hcall, -⟩ := h.stack.resolve_right fun hreturned => hnot hreturned.1
  have hkept : ∀ {rest}, s.InCall resume [] (.join rest) → s'.shared.pool.idleCv = ∅ := by
    intro rest hjoin
    have hset : s.shared.pool.terminate = true := by
      refine h.terminate.resolve_left fun hbegins => ?_
      rw [PoolSystem.InCall, hjoin] at hbegins
      simp at hbegins
    obtain hsubset | ⟨-, hrunning, -⟩ := PoolSystem.idleCv_step ⟨t, c, hstep⟩
    · rw [h.awake _ hjoin] at hsubset
      exact Finset.subset_empty.mp hsubset
    · rw [hset] at hrunning
      cases hrunning
  cases t with
  | client k => cases ht
  | worker w =>
    obtain ⟨_, _, _, _, _, hthreads⟩ := step_rule hstep
    rw [PoolSystem.InCall, hthreads, Function.update_of_ne (by simp)] at hcall'
    exact hkept hcall'
  | owner =>
    obtain ⟨habove, above', hstack'⟩ | ⟨rfl, after, hmove, hstack'⟩ | ⟨rfl, -, after, hunwind, hstack'⟩ :=
      PoolSystem.step_above hstep (by simp) hcall
    · obtain ⟨i, item, rfl⟩ := running_of_above h.reachable.reachable hcall habove
      rw [PoolSystem.InCall, hstack'] at hcall'
      have hlength := congrArg List.length hcall'
      simp only [List.length_append, List.length_cons, List.length_nil] at hlength
      obtain rfl : above' = [] := List.length_eq_zero_iff.mp (by omega)
      simp at hcall'
    · rw [PoolSystem.InCall, hstack'] at hcall'
      have hafter : after = [.finishAllThreads true (.join rest)] := List.append_cancel_right hcall'
      generalize hshared : s'.shared = shared' at hmove ⊢
      cases hmove with
      | finishAllThreads hmove =>
        obtain hnone | ⟨rest', rfl⟩ := finishMove_join hmove hafter
        · exact hnone
        · exact hshared ▸ hkept hcall
    · obtain ⟨i, item, rfl⟩ := running_of_above h.reachable.reachable hcall (List.cons_ne_nil _ _)
      cases hunwind
      rw [PoolSystem.InCall, hstack'] at hcall'
      simp at hcall'

/-! ### The other threads -/

theorem clients_step (h : DrainCall start resume s) (ht : t.isClient = false)
    (hstep : step cfg U t c s = some s') : ∀ k, ∀ f ∈ s'.threads (.client k), f.isCode = true := by
  obtain ⟨_, _, _, _, _, hthreads⟩ := step_rule hstep
  intro k
  rw [hthreads, Function.update_of_ne (by rintro rfl; cases ht)]
  exact h.clients k

end DrainCall

/-- A frame of the call, or of code outside it. -/
def Frame.isOfCall (f : Frame workers Code) : Bool := f.isDraining || f.isCode

namespace PoolSystem

variable {s : PoolSystem cfg U clients} {resume : Outcome → U.Code}

theorem isOfCall_of_draining
    (hstack : (∃ above pc, s.InCall resume above pc) ∨ s.HasReturned resume)
    (hclients : ∀ k, ∀ f ∈ s.threads (.client k), f.isCode = true)
    (hdraining : ∀ t, ∀ f ∈ s.callFrames t, f.isDraining = true) :
    ∀ t, ∀ f ∈ s.threads t, f.isOfCall = true := by
  intro t f hf
  rw [Frame.isOfCall, Bool.or_eq_true]
  cases t with
  | client k => exact .inr (hclients k f hf)
  | worker w => exact .inl (hdraining (.worker w) f hf)
  | owner =>
    obtain ⟨above, pc, hcall⟩ | hreturned := hstack
    · rw [hcall, List.append_cons, List.mem_append] at hf
      obtain hf | hf := hf
      · refine .inl (hdraining .owner f ?_)
        rw [callFrames, hcall, List.append_cons, List.dropLast_concat]
        exact hf
      · rw [List.mem_singleton.mp hf]
        exact .inr rfl
    · rw [hreturned] at hf
      rw [List.mem_singleton.mp hf]
      exact .inr rfl

theorem notAbandoned_of_isOfCall (hframes : ∀ t, ∀ f ∈ s.threads t, f.isOfCall = true) : s.NotAbandoned := by
  intro t f hf
  have hcall := hframes t f hf
  cases f with
  | abandonAllThreads => cases hcall
  | _ => rfl

theorem noneRetired_of_isOfCall (hreach : (poolSystem cfg U clients).Reachable s)
    (hframes : ∀ t, ∀ f ∈ s.threads t, f.isOfCall = true) : s.shared.pool.NoneRetired := by
  intro a node hnode
  rw [Bool.eq_false_iff]
  intro hretired
  obtain ⟨r, hr, -⟩ := Ledger.retiring_of_markedAt (ledger_reachable hreach) a node.tag
    ⟨node, hnode, rfl, hretired⟩
  rw [ledger_retiring] at hr
  obtain ⟨t, f, hf, hmem⟩ := mem_weight.mp hr
  have hcall := hframes t f hf
  cases f with
  | retire => cases hcall
  | enqueue pc | finishAllThreads _ pc => cases pc <;> simp at hmem
  | runWorker own pc =>
    cases pc with
    | tryGetTask pc => cases pc <;> simp at hmem
    | _ => simp at hmem
  | abandonAllThreads => cases hcall
  | _ => simp at hmem

end PoolSystem

theorem Frame.Records.isOfRetire {pool : PoolState workers clients Code} {f : Frame workers Code}
    {e : TaskEvent workers} (hrecords : f.Records pool e) (hnone : pool.NoneRetired)
    (hf : f.isOfCall = true) : e.isOfRetire = false := by
  cases hrecords with
  | @done id fate hfate =>
    cases fate with
    | ran | skipped => rfl
    | _ => cases hfate
  | dropped hretired => exact absurd hnone hretired
  | retired hretire =>
    rw [hretire] at hf
    cases hf
  | removed hretire =>
    rw [hretire] at hf
    cases hf
  | _ => rfl

namespace DrainCall

variable {start s s' : PoolSystem cfg U clients} {resume : Outcome → U.Code}

theorem isOfCall (h : DrainCall start resume s) : ∀ t, ∀ f ∈ s.threads t, f.isOfCall = true := by
  refine PoolSystem.isOfCall_of_draining (h.stack.imp ?_ And.left) h.clients h.draining
  rintro ⟨above, pc, hcall, -⟩
  exact ⟨above, pc, hcall⟩

theorem noneRetired (h : DrainCall start resume s) : s.shared.pool.NoneRetired :=
  PoolSystem.noneRetired_of_isOfCall h.reachable.reachable h.isOfCall

theorem events_step (h : DrainCall start resume s) (hstep : (poolSystem cfg U clients).Step s s') :
    s.shared.pool.history.Adds (fun e => e.isOfRetire = false) s'.shared.pool.history := by
  cases step_move hstep with
  | mk t hstack hrule =>
    cases hrule with
    | unwind => exact .of_eq rfl
    | @frame _ _ f _ _ hmove =>
      have hmem : f ∈ s.threads t := hstack ▸ List.mem_cons_self
      have hadds := hmove.records (PoolSystem.fateOfLoop h.reachable.reachable t f hmem)
        (h.reachable.keeps t f hmem)
      exact hadds.mono fun e he => he.isOfRetire h.noneRetired (h.isOfCall t f hmem)

theorem begin (hreach : (poolSystem cfg U clients).ReachableUnder PoolSystem.NotAbandoned s)
    (hbegins : s.FinishBegins resume) : DrainCall s resume s where
  reachable := hreach
  stack := .inl ⟨[], .setTerminate, hbegins.owner, trivial⟩
  terminate := .inl hbegins.owner
  awake rest hjoin := by
    rw [PoolSystem.InCall, hbegins.owner] at hjoin
    simp at hjoin
  clients := hbegins.clients
  draining t f hf := by
    cases t with
    | client k => cases hf
    | worker w => exact hbegins.draining w f hf
    | owner =>
      rw [PoolSystem.callFrames, hbegins.owner] at hf
      rw [List.mem_singleton.mp hf]
      rfl
  trees := hbegins.trees
  sizes := hbegins.sizes
  calls := rfl
  events := .of_eq rfl

/-- Every step of the call keeps this. -/
theorem step (h : DrainCall start resume s) (hstep : (callSystem cfg U start resume).Step s s') :
    DrainCall start resume s' := by
  obtain ⟨hnot, t, c, ht, hmove⟩ := hstep
  have hpool : (poolSystem cfg U clients).Step s s' := ⟨t, c, hmove⟩
  obtain ⟨hdescends, hcalls, hdraining⟩ := h.descends hnot ht hmove
  have hstack := h.stack_step hnot ht hmove
  have hclients := h.clients_step ht hmove
  have hframes : ∀ u, ∀ f ∈ s'.threads u, f.isOfCall = true := by
    refine PoolSystem.isOfCall_of_draining (hstack.imp ?_ And.left) hclients hdraining
    rintro ⟨above, pc, hcall, -⟩
    exact ⟨above, pc, hcall⟩
  have htrees : ∀ work ∈ s'.callEffort.1, EnqueueTree U s.shared.calls work := by
    obtain hlower | ⟨-, hsame⟩ := hdescends
    · exact hlower.forall_mem (fun hgrows _ => hgrows.enqueueTree) h.trees
    · rw [hsame]
      exact h.trees
  exact {
    reachable := h.reachable.step hpool (PoolSystem.notAbandoned_of_isOfCall hframes)
    stack := hstack
    terminate := h.terminate_step ht hmove
    awake := fun rest hjoin => h.awake_step ht hnot hmove hjoin
    clients := hclients
    draining := hdraining
    trees := by rwa [hcalls]
    sizes := by
      rw [hcalls]
      exact h.sizes
    calls := hcalls.trans h.calls
    events := h.events.trans (h.events_step hpool) }

theorem of_reachable (hreach : (poolSystem cfg U clients).ReachableUnder PoolSystem.NotAbandoned start)
    (hbegins : start.FinishBegins resume) (hcall : (callSystem cfg U start resume).Reachable s) :
    DrainCall start resume s := by
  refine TransitionSystem.Reachable.invariant (DrainCall start resume) ?_ (fun s s' _ hI hstep => hI.step hstep)
    hcall
  rintro s rfl
  exact .begin hreach hbegins

end DrainCall

end CppUtils
