import CppUtils.ExecutionQueue.System

/-!
# What becomes of each task

Every enqueued task is queued, taken by one `exec` call, replaced or cleared, and nothing else; the
queue keeps the order of the `enqueue` calls and holds at most one task of each tag.
-/

namespace CppUtils.ExecutionQueue

variable {ι : Type} {U : UserCode} {Code : Type}

/-! ### The queue as a ledger -/

namespace QueueState

variable {s s' : QueueState Code} {call : ℕ} {task : QueuedTask Code}

theorem ledger_enqueue (hs : s.ledger.Sound) (code : Option Code) (tag : ℤ) :
    (s.enqueue code tag).ledger = s.ledger.push ∨
    ∃ old ∈ s.queue, (s.enqueue code tag).ledger
      = (s.ledger.remove (· = old.id) (.replacedBy s.nextId)).push := by
  rcases s.enqueue_cases code tag with ⟨-, heq⟩ | ⟨front, old, back, hqueue, -, -, heq⟩
  · refine .inl ?_
    rw [heq]
    simp [ledger, FifoLedger.push, Event.fate?]
  · refine .inr ⟨old, by simp [hqueue], ?_⟩
    have hnodup : (s.queue.map QueuedTask.id).Nodup := hs.pairwise_held.imp Nat.ne_of_lt
    rw [hqueue, List.map_append, List.map_cons, List.nodup_append, List.nodup_cons] at hnodup
    obtain ⟨-, ⟨hback, -⟩, hfront⟩ := hnodup
    have hkeepsFront : ∀ id ∈ front.map QueuedTask.id, id ≠ old.id := fun id hid =>
      hfront id hid old.id List.mem_cons_self
    have hkeepsBack : ∀ id ∈ back.map QueuedTask.id, id ≠ old.id := fun id hid h =>
      hback (h ▸ hid)
    have hheld : s.ledger.held.filter (fun id => !decide (id = old.id))
        = (front ++ back).map QueuedTask.id := by
      change (s.queue.map QueuedTask.id).filter _ = _
      rw [hqueue, List.map_append, List.map_cons, List.filter_append,
        List.filter_cons_of_neg (by simp), List.map_append,
        List.filter_eq_self.mpr (by simpa using hkeepsFront),
        List.filter_eq_self.mpr (by simpa using hkeepsBack)]
    have hremoved : s.ledger.held.filter (fun id => decide (id = old.id)) = [old.id] := by
      change (s.queue.map QueuedTask.id).filter _ = _
      rw [hqueue, List.map_append, List.map_cons, List.filter_append,
        List.filter_cons_of_pos (by simp),
        List.filter_eq_nil_iff.mpr (by simpa using hkeepsFront),
        List.filter_eq_nil_iff.mpr (by simpa using hkeepsBack), List.nil_append]
    rw [heq]
    simp only [FifoLedger.push, FifoLedger.remove, hheld, hremoved]
    simp [ledger, Event.fate?]

theorem ledger_clear (s : QueueState Code) :
    s.clear.ledger = s.ledger.remove (fun _ => true) .cleared := by
  simp [ledger, clear, FifoLedger.remove, List.filterMap_map, Function.comp_def, Event.fate?]

theorem ledger_take (htake : s.tryPop call = some (task, s')) :
    s.queue = task :: s'.queue ∧ s'.ledger = s.ledger.pop (.takenBy call) := by
  unfold tryPop at htake
  split at htake
  · cases htake
  · rename_i front queue hqueue
    cases htake
    refine ⟨hqueue, ?_⟩
    simp [ledger, FifoLedger.pop, hqueue, Event.fate?]

theorem ledger_record {e : Event Code} (he : e.fate? = none) : (s.record e).ledger = s.ledger := by
  simp [ledger, record, he]

theorem ledger_enter (s : QueueState Code) (mode : ExecutionMode) :
    (s.enter mode).ledger = s.ledger := by
  cases mode with
  | execFirst => rfl
  | execAll => exact ledger_record (e := .entered s.nextCall s.queue) rfl

theorem ledger_logException (s : QueueState Code) (e : Exception) :
    (s.logException e).ledger = s.ledger := by
  cases e <;> rfl

end QueueState

theorem Change.ledger_sound {s s' : QueueState Code} (hchange : Change s s')
    (hs : s.ledger.Sound) : s'.ledger.Sound := by
  cases hchange with
  | same => exact hs
  | enqueue code tag =>
    rcases QueueState.ledger_enqueue hs code tag with heq | ⟨old, -, heq⟩
    · rw [heq]
      exact hs.push
    · rw [heq]
      exact (hs.remove _ _).push
  | clear =>
    rw [QueueState.ledger_clear]
    exact hs.remove _ _
  | enter mode =>
    rw [QueueState.ledger_enter]
    exact hs
  | take htake =>
    rw [(QueueState.ledger_take htake).2]
    exact hs.pop _
  | called task call =>
    rw [QueueState.ledger_record (by rfl)]
    exact hs
  | returned call n =>
    rw [QueueState.ledger_record (by rfl)]
    exact hs
  | log e =>
    rw [QueueState.ledger_logException]
    exact hs

theorem ledger_sound [DecidableEq ι] {s : QueueSystem ι U}
    (hreach : (queueSystem ι U).Reachable s) : s.shared.ledger.Sound := by
  refine hreach.invariant (fun s => s.shared.ledger.Sound) ?_ ?_
  · rintro _ ⟨main, rfl⟩
    exact FifoLedger.sound_empty
  · exact fun s s' _ hs hstep => (step_change hstep).ledger_sound hs

/-! ### Order and tags -/

/-- The queue against the history: the order of the `enqueue` calls, the tags, and whose events
there are. -/
structure QueueState.Ordered (s : QueueState Code) : Prop where
  enqueuedIds : s.enqueuedTasks.map QueuedTask.id = List.range s.nextId
  sublist : s.queue.Sublist s.enqueuedTasks
  uniqueTags : s.queue.Pairwise fun a b => a.tag = b.tag → a.tag = untagged
  latest : ∀ task ∈ s.queue, task.tag ≠ untagged → ∀ other ∈ s.enqueuedTasks,
    other.tag = task.tag → other.id ≤ task.id
  replaced : ∀ old new, .replaced old new ∈ s.history →
    old ∈ s.enqueuedTasks ∧ new ∈ s.enqueuedTasks ∧ old.tag = new.tag ∧ old.tag ≠ untagged ∧
      old.id < new.id
  taken : ∀ task call, .taken task call ∈ s.history → task ∈ s.enqueuedTasks

namespace QueueState

variable {s : QueueState Code}

theorem Ordered.lt_nextId (hs : s.Ordered) {task : QueuedTask Code} (htask : task ∈ s.enqueuedTasks) :
    task.id < s.nextId := by
  have hid : task.id ∈ s.enqueuedTasks.map QueuedTask.id := List.mem_map_of_mem htask
  rw [hs.enqueuedIds] at hid
  exact List.mem_range.mp hid

theorem Ordered.eq_of_id (hs : s.Ordered) {task task' : QueuedTask Code}
    (htask : task ∈ s.enqueuedTasks) (htask' : task' ∈ s.enqueuedTasks) (hid : task.id = task'.id) :
    task = task' := by
  have hnodup : (s.enqueuedTasks.map QueuedTask.id).Nodup := hs.enqueuedIds ▸ List.nodup_range
  exact List.inj_on_of_nodup_map hnodup htask htask' hid

/-- An `enqueue` of a task that replaces no other, once the tasks of its tag are gone. -/
theorem Ordered.enqueued (hs : s.Ordered) {kept : List (QueuedTask Code)} (hkept : kept.Sublist s.queue)
    (task : QueuedTask Code) (hid : task.id = s.nextId)
    (htag : task.tag = untagged ∨ ∀ other ∈ kept, other.tag ≠ task.tag) {events : List (Event Code)}
    (hevents : events = [] ∨ ∃ old ∈ s.queue, events = [.replaced old task] ∧ old.tag = task.tag ∧
      task.tag ≠ untagged) :
    Ordered { s with
      queue := kept ++ [task]
      nextId := s.nextId + 1
      history := s.history ++ events ++ [.enqueued task] } := by
  have henqueued : ({ s with
      queue := kept ++ [task]
      nextId := s.nextId + 1
      history := s.history ++ events ++ [.enqueued task] } : QueueState Code).enqueuedTasks
      = s.enqueuedTasks ++ [task] := by
    have hnone : events.filterMap Event.enqueued? = [] := by
      rcases hevents with rfl | ⟨old, -, rfl, -⟩ <;> rfl
    rw [enqueuedTasks, List.filterMap_append, List.filterMap_append, hnone, List.append_nil]
    rfl
  have hold : ∀ other ∈ s.enqueuedTasks, other ∈ s.enqueuedTasks ++ [task] := fun _ h =>
    List.mem_append_left _ h
  refine ⟨?_, ?_, ?_, ?_, ?_, ?_⟩
  · rw [henqueued, List.map_append, hs.enqueuedIds, List.range_succ, List.map_singleton, hid]
  · rw [henqueued]
    exact (hkept.trans hs.sublist).append (.refl _)
  · refine List.pairwise_append.mpr ⟨hs.uniqueTags.sublist hkept, List.pairwise_singleton .., ?_⟩
    intro other hother last hlast heq
    rw [List.mem_singleton.mp hlast] at heq
    rcases htag with htag | htag
    · exact heq.trans htag
    · exact absurd heq (htag other hother)
  · rw [henqueued]
    intro entry hentry htagged other hother heq
    rcases List.mem_append.mp hentry with hentry | hentry
    · rcases List.mem_append.mp hother with hother | hother
      · exact hs.latest entry (hkept.subset hentry) htagged other hother heq
      · rw [List.mem_singleton.mp hother] at heq
        rcases htag with htag | htag
        · exact absurd (heq.symm.trans htag) htagged
        · exact absurd heq.symm (htag entry hentry)
    · rw [List.mem_singleton.mp hentry, hid]
      rcases List.mem_append.mp hother with hother | hother
      · exact (hs.lt_nextId hother).le
      · rw [List.mem_singleton.mp hother, hid]
  · rw [henqueued]
    intro old new hmem
    have hmem : .replaced old new ∈ s.history ∨ .replaced old new ∈ events := by
      simpa using hmem
    rcases hmem with hmem | hmem
    · obtain ⟨h₁, h₂, hrest⟩ := hs.replaced old new hmem
      exact ⟨hold _ h₁, hold _ h₂, hrest⟩
    · rcases hevents with rfl | ⟨old', hqueued, rfl, heq, htagged⟩
      · cases hmem
      · obtain ⟨rfl, rfl⟩ : old = old' ∧ new = task := by simpa using hmem
        have hmem : old ∈ s.enqueuedTasks := hs.sublist.subset hqueued
        exact ⟨hold _ hmem, by simp, heq, heq ▸ htagged, hid ▸ hs.lt_nextId hmem⟩
  · rw [henqueued]
    intro entry call hmem
    refine hold _ (hs.taken entry call ?_)
    rcases hevents with rfl | ⟨old, -, rfl, -⟩ <;> simpa using hmem

/-- Changes that enqueue nothing and replace nothing. -/
theorem Ordered.of_sublist (hs : s.Ordered) {s' : QueueState Code} (hnext : s'.nextId = s.nextId)
    (hqueue : s'.queue.Sublist s.queue) (events : List (Event Code))
    (hhistory : s'.history = s.history ++ events) (hevents : ∀ e ∈ events, e.enqueued? = none ∧
      (∀ old new, e ≠ .replaced old new) ∧ ∀ task call, e = .taken task call → task ∈ s.queue) :
    s'.Ordered := by
  have henqueued : s'.enqueuedTasks = s.enqueuedTasks := by
    rw [enqueuedTasks, hhistory, List.filterMap_append,
      List.filterMap_eq_nil_iff.mpr fun e he => (hevents e he).1, List.append_nil]
    rfl
  refine ⟨?_, ?_, ?_, ?_, ?_, ?_⟩
  · rw [henqueued, hnext]
    exact hs.enqueuedIds
  · rw [henqueued]
    exact hqueue.trans hs.sublist
  · exact hs.uniqueTags.sublist hqueue
  · rw [henqueued]
    exact fun task htask => hs.latest task (hqueue.subset htask)
  · rw [henqueued, hhistory]
    intro old new hmem
    rcases List.mem_append.mp hmem with hmem | hmem
    · exact hs.replaced old new hmem
    · exact absurd rfl ((hevents _ hmem).2.1 old new)
  · rw [henqueued, hhistory]
    intro task call hmem
    rcases List.mem_append.mp hmem with hmem | hmem
    · exact hs.taken task call hmem
    · exact hs.sublist.subset ((hevents _ hmem).2.2 task call rfl)

end QueueState

theorem Change.ordered {s s' : QueueState Code} (hchange : Change s s') (hs : s.Ordered) :
    s'.Ordered := by
  cases hchange with
  | same => exact hs
  | enqueue code tag =>
    rcases s.enqueue_cases code tag with ⟨htag, heq⟩ | ⟨front, old, back, hqueue, rfl, htagged, heq⟩
    · rw [heq]
      have h := hs.enqueued (.refl _) ⟨s.nextId, tag, code⟩ rfl htag (.inl rfl)
      rwa [List.append_nil] at h
    · have hkept : (front ++ back).Sublist s.queue := by
        rw [hqueue]
        exact (List.Sublist.refl front).append (List.sublist_cons_self old back)
      have hunique := hs.uniqueTags
      rw [hqueue, List.pairwise_append, List.pairwise_cons] at hunique
      have htag : ∀ other ∈ front ++ back, other.tag ≠ old.tag := by
        intro other hother heq
        rcases List.mem_append.mp hother with hother | hother
        · exact htagged (heq ▸ hunique.2.2 other hother old List.mem_cons_self heq)
        · exact htagged (hunique.2.1.1 other hother heq.symm)
      rw [heq]
      have h := hs.enqueued hkept ⟨s.nextId, old.tag, code⟩ rfl (.inr htag)
        (.inr ⟨old, by simp [hqueue], rfl, rfl, htagged⟩)
      rwa [List.append_assoc s.history] at h
  | clear =>
    refine hs.of_sublist rfl (List.nil_sublist _) (s.queue.map .cleared) rfl ?_
    intro e he
    obtain ⟨task, -, rfl⟩ := List.mem_map.mp he
    exact ⟨rfl, nofun, nofun⟩
  | enter mode =>
    cases mode with
    | execFirst => exact hs.of_sublist rfl (.refl _) [] (List.append_nil _).symm nofun
    | execAll => exact hs.of_sublist rfl (.refl _) _ rfl (by simp [Event.enqueued?])
  | take htake =>
    obtain ⟨hqueue, -⟩ := QueueState.ledger_take htake
    unfold QueueState.tryPop at htake
    split at htake
    · cases htake
    · cases htake
      refine hs.of_sublist rfl ?_ _ rfl (by simp [Event.enqueued?, hqueue])
      rw [hqueue]
      exact List.sublist_cons_self ..
  | called task call => exact hs.of_sublist rfl (.refl _) _ rfl (by simp [Event.enqueued?])
  | returned call n => exact hs.of_sublist rfl (.refl _) _ rfl (by simp [Event.enqueued?])
  | log e =>
    cases e <;> exact hs.of_sublist rfl (.refl _) [] (List.append_nil _).symm nofun

theorem ordered [DecidableEq ι] {s : QueueSystem ι U}
    (hreach : (queueSystem ι U).Reachable s) : s.shared.Ordered := by
  refine hreach.invariant (fun s => s.shared.Ordered) ?_ ?_
  · rintro _ ⟨main, rfl⟩
    exact ⟨rfl, .refl _, .nil, nofun, nofun, nofun⟩
  · exact fun s s' _ hs hstep => (step_change hstep).ordered hs

/-! ### Calls of the tasks -/

theorem Change.history_append {s s' : QueueState Code} (hchange : Change s s') :
    ∃ events, s'.history = s.history ++ events := by
  cases hchange with
  | same => exact ⟨[], (List.append_nil _).symm⟩
  | enqueue code tag =>
    rcases s.enqueue_cases code tag with ⟨-, heq⟩ | ⟨front, old, back, -, -, -, heq⟩ <;>
      exact ⟨_, congrArg QueueState.history heq⟩
  | clear => exact ⟨_, rfl⟩
  | enter mode =>
    cases mode with
    | execFirst => exact ⟨[], (List.append_nil _).symm⟩
    | execAll => exact ⟨_, rfl⟩
  | take htake =>
    unfold QueueState.tryPop at htake
    split at htake
    · cases htake
    · cases htake
      exact ⟨_, rfl⟩
  | called task call => exact ⟨_, rfl⟩
  | returned call n => exact ⟨_, rfl⟩
  | log e => cases e <;> exact ⟨[], (List.append_nil _).symm⟩

theorem Change.mem_history {s s' : QueueState Code} (hchange : Change s s') {e : Event Code}
    (he : e ∈ s.history) : e ∈ s'.history := by
  obtain ⟨events, hevents⟩ := hchange.history_append
  exact hevents ▸ List.mem_append_left _ he

/-- An `exec` call about to execute a task has taken it. -/
def Frame.TookItsTask (s : QueueState Code) (f : Frame Code) : Prop :=
  ∀ call n task, f = .exec (.popped call n task) → .taken task call ∈ s.history

theorem execStep_tookItsTask (s : QueueState Code) (pc : ExecPc Code) :
    ∀ f ∈ (execStep s pc).2, f.TookItsTask (execStep s pc).1 := by
  fun_cases execStep s pc with
  | case4 call n task s' htake =>
    unfold QueueState.tryPop at htake
    split at htake
    · cases htake
    · cases htake
      simp [Frame.TookItsTask]
  | _ => simp [Frame.TookItsTask]

theorem QueueRule.tookItsTask {t : ι} {s s' : QueueState U.Code} {before after : List (Frame U.Code)}
    (hrule : QueueRule ι U t s before s' after) : ∀ f ∈ after, f.TookItsTask s' := by
  cases hrule with
  | @user _ _ code i => cases U.next code i <;> simp [userStep, Frame.TookItsTask]
  | resume => simp [Frame.TookItsTask]
  | exec => exact execStep_tookItsTask _ _
  | @unwind _ _ e f => fun_cases ExecutionQueue.unwind s e f <;> simp [Frame.TookItsTask]

theorem tookItsTask [DecidableEq ι] {s : QueueSystem ι U}
    (hreach : (queueSystem ι U).Reachable s) : ∀ t, ∀ f ∈ s.threads t, f.TookItsTask s.shared := by
  refine hreach.invariant (fun s => ∀ t, ∀ f ∈ s.threads t, f.TookItsTask s.shared) ?_ ?_
  · rintro _ ⟨main, rfl⟩
    simp [initialSystem, Frame.TookItsTask]
  · intro s s' _ hs hstep
    refine (step_move hstep).forall_frames (P := fun s _ f => f.TookItsTask s) ?_ ?_ hs
    · exact fun t before after hrule _ _ => hrule.tookItsTask
    · exact fun t f _ hf call n task heq => (step_change hstep).mem_history (hf call n task heq)

def Event.isTakeOf (id : ℕ) : Event Code → Bool
  | .taken task _ => task.id = id ∧ task.code.isSome
  | _ => false

/-- An `exec` call about to call the code of a task. -/
def Frame.holds (id : ℕ) : Frame Code → ℕ
  | .exec (.popped _ _ task) => if task.id = id ∧ task.code.isSome then 1 else 0
  | _ => 0

def QueueState.timesTaken (s : QueueState Code) (id : ℕ) : ℕ := s.history.countP (Event.isTakeOf id)

open Threaded

/-- A step calls a task when it gives up holding it, and holds a task when it takes it. -/
theorem execStep_calls (s : QueueState Code) (pc : ExecPc Code) (id : ℕ) :
    (execStep s pc).1.timesCalled id + stackWeight (Frame.holds id) (execStep s pc).2
        + s.timesTaken id
      = s.timesCalled id + Frame.holds id (.exec pc) + (execStep s pc).1.timesTaken id := by
  fun_cases execStep s pc with
  | case1 mode =>
    cases mode <;> simp [QueueState.enter, QueueState.timesCalled, QueueState.timesTaken, Frame.holds,
      Event.isCallOf, Event.isTakeOf]
  | case4 call n task s' htake =>
    unfold QueueState.tryPop at htake
    split at htake
    · cases htake
    · cases htake
      simp [QueueState.timesCalled, QueueState.timesTaken, Frame.holds, Event.isCallOf,
        Event.isTakeOf, List.countP_cons]
      omega
  | case5 call n task hcode =>
    simp [Frame.holds, hcode]
  | case6 call n task code hcode =>
    simp [QueueState.record, QueueState.timesCalled, QueueState.timesTaken, Frame.holds,
      Event.isCallOf, Event.isTakeOf, List.countP_cons, hcode]
  | _ =>
    simp [QueueState.record, QueueState.timesCalled, QueueState.timesTaken, Frame.holds,
      Event.isCallOf, Event.isTakeOf]

theorem timesCalled_append (s s' : QueueState Code) {events : List (Event Code)}
    (hhistory : s'.history = s.history ++ events) (id : ℕ)
    (hevents : ∀ e ∈ events, e.isCallOf id = false ∧ e.isTakeOf id = false) :
    s'.timesCalled id = s.timesCalled id ∧ s'.timesTaken id = s.timesTaken id := by
  have hcalls : events.countP (Event.isCallOf id) = 0 :=
    List.countP_eq_zero.mpr fun e he => by simp [(hevents e he).1]
  have htakes : events.countP (Event.isTakeOf id) = 0 :=
    List.countP_eq_zero.mpr fun e he => by simp [(hevents e he).2]
  constructor
  · rw [QueueState.timesCalled, hhistory, List.countP_append, hcalls]
    rfl
  · rw [QueueState.timesTaken, hhistory, List.countP_append, htakes]
    rfl

theorem userStep_calls (s : QueueState Code) (u : UserStep Code) (id : ℕ) :
    (userStep s u).1.timesCalled id + stackWeight (Frame.holds id) (userStep s u).2
      + s.timesTaken id = s.timesCalled id + (userStep s u).1.timesTaken id := by
  cases u with
  | enqueue code tag resume =>
    have hsame : (s.enqueue code tag).timesCalled id = s.timesCalled id ∧
        (s.enqueue code tag).timesTaken id = s.timesTaken id := by
      rcases s.enqueue_cases code tag with ⟨-, heq⟩ | ⟨front, old, back, -, -, -, heq⟩ <;>
        rw [heq] <;>
        exact timesCalled_append s _ rfl id (by simp [Event.isCallOf, Event.isTakeOf])
    simp [userStep, Frame.holds, hsame]
  | clear resume =>
    have hsame := timesCalled_append s s.clear rfl id fun e he => by
      obtain ⟨task, -, rfl⟩ := List.mem_map.mp he
      exact ⟨rfl, rfl⟩
    simp [userStep, Frame.holds, hsame]
  | exec mode resume => simp [userStep, Frame.holds]
  | ret => simp [userStep]
  | throw e => simp [userStep, Frame.holds]

theorem ExecRule.calls {t : ι} {s s' : QueueState U.Code} {before after : List (Frame U.Code)}
    (hrule : ExecRule ι U t s before s' after) (id : ℕ) :
    s'.timesCalled id + stackWeight (Frame.holds id) after + s.timesTaken id
      = s.timesCalled id + stackWeight (Frame.holds id) before + s'.timesTaken id := by
  cases hrule with
  | @user _ _ code i => simpa [Frame.holds] using userStep_calls s (U.next code i) id
  | resume => simp [Frame.holds]
  | @exec _ _ pc => simpa using execStep_calls s pc id
  | @contain _ _ e call n task =>
    have hlog : (s.logException e).timesCalled id = s.timesCalled id ∧
        (s.logException e).timesTaken id = s.timesTaken id := by
      cases e <;> exact ⟨rfl, rfl⟩
    simp [Frame.holds, hlog]

/-- A task that is not empty was called as often as it was taken, but for the calls about to be
made. -/
theorem timesCalled_add_weight [DecidableEq ι] [Fintype ι] {s : QueueSystem ι U}
    (hreach : (queueSystem ι U).Reachable s) (id : ℕ) :
    s.shared.timesCalled id + weight (Frame.holds id) s.threads = s.shared.timesTaken id := by
  refine hreach.invariant (fun s =>
    s.shared.timesCalled id + weight (Frame.holds id) s.threads = s.shared.timesTaken id) ?_ ?_
  · rintro _ ⟨main, rfl⟩
    simp [initialSystem, QueueState.initial, QueueState.timesCalled, QueueState.timesTaken, weight,
      Frame.holds]
  · intro s s' hreach hs hstep
    cases step_execRule hreach hstep with
    | @mk shared' before after rest t hstack hrule =>
      obtain ⟨r, hbefore, hafter⟩ := weight_split (Frame.holds id) hstack after
      have hcalls := hrule.calls id
      rw [hbefore] at hs
      change shared'.timesCalled id + weight (Frame.holds id) _ = shared'.timesTaken id
      rw [hafter]
      omega

theorem execStep_called {s : QueueState Code} {pc : ExecPc Code} {task : QueuedTask Code} {call : ℕ}
    (hcalled : .called task call ∈ (execStep s pc).1.history) :
    .called task call ∈ s.history ∨ ∃ n, pc = .popped call n task := by
  revert hcalled
  fun_cases execStep s pc with
  | case1 mode => cases mode <;> simp [QueueState.enter]
  | case4 call n task s' htake =>
    unfold QueueState.tryPop at htake
    split at htake
    · cases htake
    · cases htake
      simp
  | case5 => exact .inl
  | case6 call' n task' code =>
    intro hcalled
    rcases List.mem_append.mp hcalled with hcalled | hcalled
    · exact .inl hcalled
    · cases List.mem_singleton.mp hcalled
      exact .inr ⟨n, rfl⟩
  | _ => simp [QueueState.record]

theorem ExecRule.called {t : ι} {s s' : QueueState U.Code} {before after : List (Frame U.Code)}
    (hrule : ExecRule ι U t s before s' after) {task : QueuedTask U.Code} {call : ℕ}
    (hcalled : .called task call ∈ s'.history) :
    .called task call ∈ s.history ∨ ∃ n, .exec (.popped call n task) ∈ before := by
  cases hrule with
  | @user _ _ code i =>
    cases hu : U.next code i with
    | enqueue code tag resume =>
      rw [hu] at hcalled
      change .called task call ∈ (s.enqueue code tag).history at hcalled
      rcases s.enqueue_cases code tag with ⟨-, heq⟩ | ⟨front, old, back, -, -, -, heq⟩ <;>
        rw [heq] at hcalled <;> exact .inl (by simpa using hcalled)
    | clear resume =>
      rw [hu] at hcalled
      exact .inl (by simpa [userStep, QueueState.clear] using hcalled)
    | _ =>
      rw [hu] at hcalled
      exact .inl hcalled
  | resume => exact .inl hcalled
  | exec =>
    rcases execStep_called hcalled with hold | ⟨n, rfl⟩
    · exact .inl hold
    · exact .inr ⟨n, List.mem_singleton_self _⟩
  | @contain _ _ e _ _ _ => cases e <;> exact .inl hcalled

theorem taken_of_called [DecidableEq ι] {s : QueueSystem ι U}
    (hreach : (queueSystem ι U).Reachable s) {task : QueuedTask U.Code} {call : ℕ}
    (hcalled : .called task call ∈ s.shared.history) : .taken task call ∈ s.shared.history := by
  refine hreach.invariant (fun s => ∀ task call, .called task call ∈ s.shared.history →
    .taken task call ∈ s.shared.history) ?_ ?_ task call hcalled
  · rintro _ ⟨main, rfl⟩
    exact nofun
  · intro s s' hreach hs hstep task call hcalled
    refine (step_change hstep).mem_history ?_
    cases step_execRule hreach hstep with
    | mk t hstack hrule =>
      rcases hrule.called hcalled with hold | ⟨n, hmem⟩
      · exact hs task call hold
      · have hframe : .exec (.popped call n task) ∈ s.threads t :=
          hstack ▸ List.mem_append_left _ hmem
        exact tookItsTask hreach t _ hframe call n task rfl

/-! ### What became of each task -/

theorem QueueState.eq_of_taken {s : QueueState Code} (hledger : s.ledger.Sound) (hs : s.Ordered)
    {task task' : QueuedTask Code} {call call' : ℕ} (htaken : .taken task call ∈ s.history)
    (htaken' : .taken task' call' ∈ s.history) (hid : task'.id = task.id) :
    task' = task ∧ call' = call := by
  have hfate : (task.id, Fate.takenBy call) ∈ s.ledger.fates := mem_fates.mpr ⟨_, htaken, rfl⟩
  have hfate' : (task.id, Fate.takenBy call') ∈ s.ledger.fates :=
    mem_fates.mpr ⟨_, htaken', by rw [← hid]; rfl⟩
  exact ⟨hs.eq_of_id (hs.taken _ _ htaken') (hs.taken _ _ htaken) hid,
    Fate.takenBy.inj (hledger.fate_unique hfate hfate')⟩

theorem QueueState.timesTaken_le_one {s : QueueState Code} (hledger : s.ledger.Sound) (id : ℕ) :
    s.timesTaken id ≤ 1 := by
  have hnodup : (s.ledger.fates.map Prod.fst).Nodup :=
    (List.nodup_append.mp (hledger.perm.nodup_iff.mpr List.nodup_range)).2.1
  calc s.timesTaken id
    _ ≤ s.ledger.fates.countP fun fate => fate.1 == id := by
      rw [ledger, List.countP_filterMap]
      refine List.countP_mono_left fun e _ he => ?_
      cases e with
      | taken task call =>
        obtain ⟨hid, -⟩ : task.id = id ∧ task.code.isSome = true := by
          simpa [Event.isTakeOf] using he
        simpa [Event.fate?] using hid
      | _ => cases he
    _ = (s.ledger.fates.map Prod.fst).count id := by
      rw [List.count, List.countP_map]
      rfl
    _ ≤ 1 := List.nodup_iff_count_le_one.mp hnodup id

/-- In every reachable state: the queue holds tasks in the order of their `enqueue` calls; no two of
them carry one tag; each task is queued, taken by one `exec` call, replaced by a later task of its
tag or cleared; the call that took it calls it exactly once unless it is empty, which stays to be
done only while the call stands right before it; and the queued task of a tag is its latest. -/
theorem executionQueue_tasks [DecidableEq ι] [Fintype ι] {s : QueueSystem ι U}
    (hreach : (queueSystem ι U).Reachable s) :
    s.shared.queue.Sublist s.shared.enqueuedTasks ∧
    s.shared.enqueuedTasks.map QueuedTask.id = List.range s.shared.nextId ∧
    (s.shared.queue.Pairwise fun a b => a.tag = b.tag → a.tag = untagged) ∧
    (∀ task ∈ s.shared.enqueuedTasks, ∃ situation, s.shared.situations task.id = [situation]) ∧
    (∀ task call, .taken task call ∈ s.shared.history →
      (task.code = none → s.shared.timesCalled task.id = 0) ∧
      (task.code ≠ none → s.shared.timesCalled task.id = 1 ∨
        s.shared.timesCalled task.id = 0 ∧ ∃ t n, .exec (.popped call n task) ∈ s.threads t)) ∧
    (∀ task call, .called task call ∈ s.shared.history → .taken task call ∈ s.shared.history) ∧
    (∀ old new, .replaced old new ∈ s.shared.history →
      old ∈ s.shared.enqueuedTasks ∧ new ∈ s.shared.enqueuedTasks ∧ old.tag = new.tag ∧
        old.tag ≠ untagged ∧ old.id < new.id) ∧
    (∀ task ∈ s.shared.queue, task.tag ≠ untagged → ∀ other ∈ s.shared.enqueuedTasks,
      other.tag = task.tag → other.id ≤ task.id) := by
  have hs := ordered hreach
  have hledger := ledger_sound hreach
  refine ⟨hs.sublist, hs.enqueuedIds, hs.uniqueTags,
    fun task htask => hledger.exists_situation (hs.lt_nextId htask), ?_,
    fun _ _ => taken_of_called hreach, hs.replaced, hs.latest⟩
  intro task call htaken
  have hsum := timesCalled_add_weight hreach task.id
  constructor
  · intro hempty
    have hzero : s.shared.timesTaken task.id = 0 := by
      refine List.countP_eq_zero.mpr fun e he htake => ?_
      cases e with
      | taken task' call' =>
        obtain ⟨hid, hsome⟩ : task'.id = task.id ∧ task'.code.isSome = true := by
          simpa [Event.isTakeOf] using htake
        obtain ⟨rfl, -⟩ := QueueState.eq_of_taken hledger hs htaken he hid
        simp [hempty] at hsome
      | _ => cases htake
    omega
  · intro hsome
    have hone : s.shared.timesTaken task.id = 1 := by
      refine le_antisymm (QueueState.timesTaken_le_one hledger _) ?_
      refine List.countP_pos_iff.mpr ⟨_, htaken, ?_⟩
      simpa [Event.isTakeOf] using Option.ne_none_iff_isSome.mp hsome
    rcases Nat.eq_zero_or_pos (weight (Frame.holds task.id) s.threads) with hnone | hheld
    · exact .inl (by omega)
    · refine .inr ⟨by omega, ?_⟩
      obtain ⟨t, f, hf, hholds⟩ : ∃ t, ∃ f ∈ s.threads t, Frame.holds task.id f ≠ 0 := by
        simpa [weight_eq_zero] using hheld.ne'
      unfold Frame.holds at hholds
      split at hholds
      · rename_i call' n task'
        have hid : task'.id = task.id := by
          by_contra hid
          simp [hid] at hholds
        have htook := tookItsTask hreach t _ hf call' n task' rfl
        obtain ⟨rfl, rfl⟩ := QueueState.eq_of_taken hledger hs htaken htook hid
        exact ⟨t, n, hf⟩
      · exact absurd rfl hholds

/-- Thread `true` enqueues a task and, with one tag, two more of which the second replaces the first;
then thread `false` executes the queue, and stands right before the call of the first task. -/
def replacedThenTaken : Option (QueueSystem Bool scriptCode) :=
  scriptRun
    (fun t => bif t then
        .enqueue (some .ret) untagged (.enqueue (some .ret) 7 (.enqueue none 7 .ret))
      else .exec .execAll .ret)
    [true, true, true, false, false, false]

theorem executionQueue_tasks_replacedThenTaken : ∃ s, replacedThenTaken = some s ∧
    s.shared.situations 0 = [some (.takenBy 0)] ∧ s.shared.situations 1 = [some (.replacedBy 2)] ∧
    s.shared.situations 2 = [none] ∧
    ∀ old new, .replaced old new ∈ s.shared.history →
      old ∈ s.shared.enqueuedTasks ∧ new ∈ s.shared.enqueuedTasks ∧ old.tag = new.tag ∧
        old.tag ≠ untagged ∧ old.id < new.id := by
  have hrun : replacedThenTaken.map (fun s =>
      (s.shared.situations 0, s.shared.situations 1, s.shared.situations 2))
      = some ([some (.takenBy 0)], [some (.replacedBy 2)], [none]) := by decide
  obtain ⟨s, hs, hvalues⟩ := Option.map_eq_some_iff.mp hrun
  simp only [Prod.mk.injEq] at hvalues
  exact ⟨s, hs, hvalues.1, hvalues.2.1, hvalues.2.2,
    (executionQueue_tasks (scriptRun_reachable hs)).2.2.2.2.2.2.1⟩

end CppUtils.ExecutionQueue
