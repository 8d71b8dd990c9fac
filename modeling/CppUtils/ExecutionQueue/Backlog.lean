import CppUtils.ExecutionQueue.Fates

/-!
# What a call of `exec` runs

With `execAll`, a call runs the tasks that were queued when it read their number. Tasks of that
backlog may be replaced, cleared or taken by another call meanwhile; only in their place can the call
run tasks that were added later.
-/

namespace CppUtils.ExecutionQueue

open Threaded

variable {ι : Type} {U : UserCode} {Code : Type} {call : ℕ}

/-! ### One call -/

namespace QueueState

def backlog (s : QueueState Code) : List ℕ := s.queue.map QueuedTask.id

/-- The tasks that a call has taken, in the order it took them. -/
def takenBy (s : QueueState Code) (call : ℕ) : List ℕ := s.ledger.met (· = .takenBy call)

/-- Whether a task was replaced, cleared or taken by another call. -/
def lostTo (s : QueueState Code) (call id : ℕ) : Bool :=
  s.ledger.fates.any fun e => e.1 = id ∧ e.2 ≠ .takenBy call

end QueueState

def ExecPc.call? : ExecPc Code → Option ℕ
  | .start _ => none
  | .loop call _ => some call
  | .popped call _ _ => some call
  | .running call _ _ => some call

def ExecPc.tasksToExecute : ExecPc Code → ℕ
  | .start _ => 0
  | .loop _ n => n
  | .popped _ n _ => n
  | .running _ n _ => n

def Frame.inCall (call : ℕ) : Frame Code → ℕ
  | .exec pc => if pc.call? = some call then 1 else 0
  | _ => 0

/-- The tasks that a call may still take. -/
def Frame.remaining (call : ℕ) : Frame Code → ℕ
  | .exec pc => if pc.call? = some call then pc.tasksToExecute else 0
  | _ => 0

/-- What a step means to one call of `exec`: it takes a task, it returns, or the step leaves it
alone. -/
inductive CallMove (call : ℕ) (s : QueueState Code) :
    List (Frame Code) → QueueState Code → List (Frame Code) → Prop
  | take {n task s'} (htake : s.tryPop call = some (task, s')) :
    CallMove call s [.exec (.loop call (n + 1))] s' [.exec (.popped call n task)]
  | ret {n} (hdone : n = 0 ∨ s.queue = []) :
    CallMove call s [.exec (.loop call n)] (s.record (.returned call n)) []
  | other {before s' after events}
      (hinCall : stackWeight (Frame.inCall call) after = stackWeight (Frame.inCall call) before)
      (hremaining : stackWeight (Frame.remaining call) after
        = stackWeight (Frame.remaining call) before)
      (hhistory : s'.history = s.history ++ events)
      (hevents : ∀ e ∈ events, (∀ task, e ≠ .taken task call) ∧ ∀ n, e ≠ .returned call n) :
    CallMove call s before s' after

theorem CallMove.silent {s s' : QueueState Code} {before after : List (Frame Code)}
    (hinCall : stackWeight (Frame.inCall call) after = stackWeight (Frame.inCall call) before)
    (hremaining : stackWeight (Frame.remaining call) after
      = stackWeight (Frame.remaining call) before)
    (hhistory : s'.history = s.history) : CallMove call s before s' after :=
  .other hinCall hremaining (hhistory.trans (List.append_nil _).symm) (by simp)

theorem QueueState.tryPop_eq_none {s : QueueState Code} (h : s.tryPop call = none) :
    s.queue = [] := by
  unfold tryPop at h
  split at h
  · assumption
  · cases h

theorem execStep_callMove (s : QueueState Code) (pc : ExecPc Code) (hcall : call < s.nextCall) :
    CallMove call s [.exec pc] (execStep s pc).1 (execStep s pc).2 := by
  fun_cases execStep s pc with
  | case1 mode =>
    have hnew : s.nextCall ≠ call := hcall.ne'
    cases mode with
    | execFirst =>
      exact .silent (by simp [Frame.inCall, ExecPc.call?, hnew])
        (by simp [Frame.remaining, ExecPc.call?, hnew]) rfl
    | execAll =>
      exact .other (by simp [Frame.inCall, ExecPc.call?, hnew])
        (by simp [Frame.remaining, ExecPc.call?, hnew]) rfl (by simp)
  | case2 call' =>
    by_cases h : call' = call
    · subst h
      exact .ret (.inl rfl)
    · exact .other (by simp [Frame.inCall, ExecPc.call?, h])
        (by simp [Frame.remaining, ExecPc.call?, h]) rfl (by simp [h])
  | case3 call' n hnone =>
    by_cases h : call' = call
    · subst h
      exact .ret (.inr (QueueState.tryPop_eq_none hnone))
    · exact .other (by simp [Frame.inCall, ExecPc.call?, h])
        (by simp [Frame.remaining, ExecPc.call?, h]) rfl (by simp [h])
  | case4 call' n task s' htake =>
    by_cases h : call' = call
    · subst h
      exact .take htake
    · unfold QueueState.tryPop at htake
      split at htake
      · cases htake
      · cases htake
        exact .other (by simp [Frame.inCall, ExecPc.call?]) (by simp [Frame.remaining, ExecPc.call?, h])
          rfl (by simp [h])
  | case5 call' n task hempty =>
    exact .silent (by simp [Frame.inCall, ExecPc.call?])
      (by simp [Frame.remaining, ExecPc.call?, ExecPc.tasksToExecute]) rfl
  | case6 call' n task code hcode =>
    exact .other (by simp [Frame.inCall, ExecPc.call?])
      (by simp [Frame.remaining, ExecPc.call?, ExecPc.tasksToExecute]) rfl (by simp)
  | case7 call' n task =>
    exact .silent (by simp [Frame.inCall, ExecPc.call?])
      (by simp [Frame.remaining, ExecPc.call?, ExecPc.tasksToExecute]) rfl

theorem userStep_callMove (s : QueueState Code) (code : Code) (u : UserStep Code) :
    CallMove call s [.user code] (userStep s u).1 (userStep s u).2 := by
  cases u with
  | enqueue task tag resume =>
    rcases s.enqueue_cases task tag with ⟨-, heq⟩ | ⟨front, old, back, -, -, -, heq⟩
    · exact .other rfl rfl (congrArg QueueState.history heq) (by simp)
    · exact .other rfl rfl (congrArg QueueState.history heq) (by simp)
  | clear resume => exact .other rfl rfl rfl (by simp)
  | exec mode resume => exact .silent rfl rfl rfl
  | ret => exact .silent rfl rfl rfl
  | throw e => exact .silent rfl rfl rfl

theorem ExecRule.callMove {t : ι} {s s' : QueueState U.Code} {before after : List (Frame U.Code)}
    (hrule : ExecRule ι U t s before s' after) (hcall : call < s.nextCall) :
    CallMove call s before s' after := by
  cases hrule with
  | user => exact userStep_callMove s _ _
  | resume => exact .silent rfl rfl rfl
  | exec => exact execStep_callMove s _ hcall
  | @contain _ _ e call' n task =>
    refine .silent (by simp [Frame.inCall, ExecPc.call?])
      (by simp [Frame.remaining, ExecPc.call?, ExecPc.tasksToExecute]) ?_
    cases e <;> rfl

/-! ### What a change leaves of a backlog -/

variable {s s' : QueueState Code} {bound : ℕ}

theorem takenBy_append {events : List (Event Code)} (hhistory : s'.history = s.history ++ events)
    (hevents : ∀ e ∈ events, ∀ task, e ≠ .taken task call) : s'.takenBy call = s.takenBy call := by
  have hnone : (events.filterMap Event.fate?).filter (fun e => decide (e.2 = .takenBy call)) = [] := by
    refine List.filter_eq_nil_iff.mpr fun fate hfate => ?_
    obtain ⟨e, he, hfate⟩ := List.mem_filterMap.mp hfate
    cases e with
    | taken task call' =>
      cases hfate
      have hne : call' ≠ call := fun h => hevents _ he task (h ▸ rfl)
      simp [hne]
    | replaced | cleared =>
      cases hfate
      simp
    | _ => cases hfate
  simp only [QueueState.takenBy, FifoLedger.met, QueueState.ledger, hhistory, List.filterMap_append,
    List.filter_append, hnone, List.append_nil]

theorem takenBy_take {task : QueuedTask Code} (htake : s.tryPop call = some (task, s')) :
    s'.takenBy call = s.takenBy call ++ [task.id] := by
  unfold QueueState.tryPop at htake
  split at htake
  · cases htake
  · cases htake
    simp [QueueState.takenBy, FifoLedger.met, QueueState.ledger, Event.fate?]

/-- Tasks enter the queue behind every backlog. -/
theorem Change.backlog_sublist (hchange : Change s s') (hbound : bound ≤ s.nextId) :
    (s'.backlog.filter (· < bound)).Sublist (s.backlog.filter (· < bound)) := by
  cases hchange with
  | same => exact .refl _
  | enqueue code tag =>
    rcases s.enqueue_cases code tag with ⟨-, heq⟩ | ⟨front, old, back, hqueue, -, -, heq⟩
    · simp [QueueState.backlog, heq, hbound]
    · have hkept : (front ++ back).Sublist s.queue :=
        hqueue ▸ (List.Sublist.refl front).append (List.sublist_cons_self old back)
      have hbacklog : (s.enqueue code tag).backlog.filter (· < bound)
          = ((front ++ back).map QueuedTask.id).filter (· < bound) := by
        simp [QueueState.backlog, heq, hbound]
      rw [hbacklog]
      exact (hkept.map QueuedTask.id).filter _
  | clear => exact List.nil_sublist _
  | enter mode => cases mode <;> exact .refl _
  | take htake =>
    rw [QueueState.backlog, QueueState.backlog, (QueueState.ledger_take htake).1]
    exact (List.sublist_cons_self _ _).filter _
  | called task call => exact .refl _
  | returned call n => exact .refl _
  | log e => cases e <;> exact .refl _

theorem Change.next_le (hchange : Change s s') : s.nextId ≤ s'.nextId ∧ s.nextCall ≤ s'.nextCall := by
  cases hchange with
  | enqueue code tag =>
    rcases s.enqueue_cases code tag with ⟨-, heq⟩ | ⟨front, old, back, -, -, -, heq⟩ <;> simp [heq]
  | enter mode => cases mode <;> simp [QueueState.enter]
  | take htake =>
    unfold QueueState.tryPop at htake
    split at htake
    · cases htake
    · cases htake
      exact ⟨le_rfl, le_rfl⟩
  | log e => cases e <;> exact ⟨le_rfl, le_rfl⟩
  | _ => exact ⟨le_rfl, le_rfl⟩

/-! ### The budget of a call -/

/-- The tasks of a backlog that are still queued fit in the budget of the call that found them, and
what the call took and may still take is no more than the backlog. -/
structure Backlog [Fintype ι] (call bound : ℕ) (entries : List ℕ) (s : QueueSystem ι U) : Prop where
  call_lt : call < s.shared.nextCall
  bound_le : bound ≤ s.shared.nextId
  sublist : (s.shared.backlog.filter (· < bound)).Sublist entries
  one : weight (Frame.inCall call) s.threads ≤ 1
  budget : (s.shared.takenBy call).length + weight (Frame.remaining call) s.threads ≤ entries.length
  survivors : (s.shared.backlog.filter (· < bound)).length ≤ weight (Frame.remaining call) s.threads
  taken : ∀ id ∈ s.shared.takenBy call, id < bound → id ∈ entries
  returned : ∀ before n after, s.shared.history = before ++ .returned call n :: after →
    ∀ id ∈ entries, ∃ e ∈ before, ∃ fate, e.fate? = some (id, fate)

theorem Frame.remaining_eq_zero {f : Frame Code} (hf : f.inCall call = 0) : f.remaining call = 0 := by
  cases f with
  | exec pc =>
    by_cases h : pc.call? = some call
    · simp [Frame.inCall, h] at hf
    · simp [Frame.remaining, h]
  | _ => rfl

theorem weight_remaining_eq_zero [Fintype ι] {threads : ι → List (Frame Code)}
    (hnone : weight (Frame.inCall call) threads = 0) :
    weight (Frame.remaining call) threads = 0 :=
  weight_eq_zero.mpr fun t f hf => Frame.remaining_eq_zero (weight_eq_zero.mp hnone t f hf)

theorem split_history {history events before after : List (Event Code)} {e : Event Code}
    (he : e ∉ events) (h : history ++ events = before ++ e :: after) :
    ∃ after', history = before ++ e :: after' := by
  rcases List.append_eq_append_iff.mp h with ⟨more, rfl, hevents⟩ | ⟨more, hhistory, hmore⟩
  · exact absurd (hevents ▸ List.mem_append_right _ List.mem_cons_self) he
  · cases more with
    | nil =>
      have hevents : e :: after = events := hmore
      exact absurd (hevents ▸ List.mem_cons_self) he
    | cons e' more =>
      obtain ⟨rfl, -⟩ := List.cons.inj hmore
      exact ⟨more, hhistory⟩

theorem split_last {history before after : List (Event Code)} {e last : Event Code}
    (h : history ++ [last] = before ++ e :: after) :
    before = history ∨ ∃ after', history = before ++ e :: after' := by
  rcases List.eq_nil_or_concat after with rfl | ⟨after', x, rfl⟩
  · exact .inl (List.append_inj' h rfl).1.symm
  · have heq : history ++ [last] = before ++ e :: after' ++ [x] := by simpa using h
    exact .inr ⟨after', (List.append_inj' heq rfl).1⟩

theorem Backlog.move [DecidableEq ι] [Fintype ι] {s s' : QueueSystem ι U} {entries : List ℕ}
    (hreach : (queueSystem ι U).Reachable s) (hstep : (queueSystem ι U).Step s s')
    (hentries : ∀ id ∈ entries, id < bound) (hs : Backlog call bound entries s) :
    Backlog call bound entries s' := by
  have hchange := step_change hstep
  have hkept := hchange.backlog_sublist hs.bound_le
  have hledger := ledger_sound hreach
  cases step_execRule hreach hstep with
  | @mk shared' before after rest t hstack hrule =>
    change Change s.shared shared' at hchange
    change ((shared'.backlog.filter (· < bound)).Sublist _) at hkept
    obtain ⟨r, hin, hin'⟩ := weight_split (Frame.inCall call) hstack after
    obtain ⟨r', hleft, hleft'⟩ := weight_split (Frame.remaining call) hstack after
    have hone := hs.one
    have hbudget := hs.budget
    have hsurvivors := hs.survivors
    rw [hin] at hone
    rw [hleft] at hbudget hsurvivors
    have hcall : call < shared'.nextCall := hs.call_lt.trans_le hchange.next_le.2
    have hbound : bound ≤ shared'.nextId := hs.bound_le.trans hchange.next_le.1
    have hsublist := hkept.trans hs.sublist
    cases hrule.callMove hs.call_lt with
    | @take n task _ htake =>
      have hbacklog : s.shared.backlog = task.id :: shared'.backlog := by
        rw [QueueState.backlog, (QueueState.ledger_take htake).1]
        rfl
      have htaken := takenBy_take htake
      simp only [stackWeight_cons, stackWeight_nil, Frame.inCall, Frame.remaining, ExecPc.call?,
        ExecPc.tasksToExecute, if_true, Nat.add_zero] at hone hbudget hsurvivors hin' hleft'
      refine ⟨hcall, hbound, hsublist, by rw [hin']; exact hone, ?_, ?_, ?_, ?_⟩
      · change (shared'.takenBy call).length + weight _ _ ≤ _
        rw [hleft', htaken, List.length_append, List.length_singleton]
        omega
      · change (shared'.backlog.filter _).length ≤ weight _ _
        rw [hleft']
        rw [hbacklog] at hsurvivors
        by_cases hid : task.id < bound
        · rw [List.filter_cons_of_pos (by simpa using hid), List.length_cons] at hsurvivors
          omega
        · -- the tasks behind the front of the queue are younger still
          have hsorted : s.shared.backlog.Pairwise (· < ·) := hledger.pairwise_held
          rw [hbacklog, List.pairwise_cons] at hsorted
          have hnone : shared'.backlog.filter (· < bound) = [] := by
            refine List.filter_eq_nil_iff.mpr fun id hmem => ?_
            have hlt := hsorted.1 id hmem
            simp only [decide_eq_true_eq]
            omega
          rw [hnone]
          exact Nat.zero_le _
      · change ∀ id ∈ shared'.takenBy call, _
        rw [htaken]
        intro id hid hlt
        rcases List.mem_append.mp hid with hid | hid
        · exact hs.taken id hid hlt
        · rw [List.mem_singleton.mp hid] at hlt ⊢
          refine hs.sublist.subset (List.mem_filter.mpr ⟨?_, by simpa using hlt⟩)
          rw [hbacklog]
          exact List.mem_cons_self
      · intro before n' after hhistory
        obtain ⟨events, hevents⟩ := hchange.history_append
        unfold QueueState.tryPop at htake
        split at htake
        · cases htake
        · cases htake
          obtain ⟨after', hold⟩ := split_history (by simp) hhistory
          exact hs.returned before n' after' hold
    | @ret n hdone =>
      simp only [stackWeight_cons, stackWeight_nil, Frame.inCall, Frame.remaining, ExecPc.call?,
        ExecPc.tasksToExecute, if_true, Nat.add_zero, Nat.zero_add] at hone hbudget hsurvivors hin' hleft'
      have hnone : r' = 0 := by
        rw [← hleft']
        exact weight_remaining_eq_zero (hin'.trans (by omega))
      have hleftNone : s.shared.backlog.filter (· < bound) = [] := by
        rcases hdone with rfl | hempty
        · exact List.eq_nil_of_length_eq_zero (by omega)
        · simp [QueueState.backlog, hempty]
      refine ⟨hcall, hbound, hsublist, by rw [hin']; omega, ?_, ?_, ?_, ?_⟩
      · change ((s.shared.record _).takenBy call).length + weight _ _ ≤ _
        rw [hleft', takenBy_append (s := s.shared) rfl (by simp)]
        omega
      · change (s.shared.backlog.filter _).length ≤ _
        rw [hleftNone]
        exact Nat.zero_le _
      · change ∀ id ∈ (s.shared.record _).takenBy call, _
        rw [takenBy_append (s := s.shared) rfl (by simp)]
        exact hs.taken
      · intro before n' after hhistory
        rcases split_last hhistory with rfl | ⟨after', hold⟩
        · intro id hid
          have hlt : id < s.shared.nextId := (hentries id hid).trans_le hs.bound_le
          have hheld : id ∉ s.shared.ledger.held := fun hheld => by
            have hmem : id ∈ s.shared.backlog.filter (· < bound) :=
              List.mem_filter.mpr ⟨hheld, by simpa using hentries id hid⟩
            rw [hleftNone] at hmem
            cases hmem
          obtain ⟨fate, hfate⟩ := hledger.exists_fate hlt hheld
          obtain ⟨e, he, hfate⟩ := QueueState.mem_fates.mp hfate
          exact ⟨e, he, fate, hfate⟩
        · exact hs.returned before n' after' hold
    | @other _ _ _ events hinCall hremaining hhistory hevents =>
      have htaken := takenBy_append hhistory fun e he => (hevents e he).1
      refine ⟨hcall, hbound, hsublist, by rw [hin', hinCall]; exact hone, ?_, ?_, ?_, ?_⟩
      · change (shared'.takenBy call).length + weight _ _ ≤ _
        rw [hleft', hremaining, htaken]
        exact hbudget
      · change (shared'.backlog.filter _).length ≤ weight _ _
        rw [hleft', hremaining]
        exact hkept.length_le.trans hsurvivors
      · change ∀ id ∈ shared'.takenBy call, _
        rw [htaken]
        exact hs.taken
      · intro before n after hsplit
        change shared'.history = _ at hsplit
        rw [hhistory] at hsplit
        obtain ⟨after', hold⟩ := split_history (fun he => (hevents _ he).2 n rfl) hsplit
        exact hs.returned before n after' hold

/-! ### The numbers of the calls -/

def Frame.call? : Frame Code → Option ℕ
  | .exec pc => pc.call?
  | _ => none

def Event.call? : Event Code → Option ℕ
  | .entered call _ => some call
  | .taken _ call => some call
  | .called _ call => some call
  | .returned call _ => some call
  | _ => none

/-- A step works for a call that one of its frames was in, or for a new one. -/
def WorksFor (s : QueueState Code) (before : List (Frame Code)) (s' : QueueState Code) (call : ℕ) :
    Prop :=
  (∃ f ∈ before, f.call? = some call) ∨ call = s.nextCall ∧ s'.nextCall = s.nextCall + 1

theorem execStep_worksFor (s : QueueState Code) (pc : ExecPc Code) :
    (∀ f ∈ (execStep s pc).2, ∀ call, f.call? = some call →
      WorksFor s [.exec pc] (execStep s pc).1 call) ∧
    ∃ events, (execStep s pc).1.history = s.history ++ events ∧
      ∀ e ∈ events, ∀ call, e.call? = some call → WorksFor s [.exec pc] (execStep s pc).1 call := by
  fun_cases execStep s pc with
  | case1 mode =>
    cases mode with
    | execFirst =>
      exact ⟨by simp [WorksFor, QueueState.enter, Frame.call?, ExecPc.call?],
        [], (List.append_nil _).symm, by simp⟩
    | execAll =>
      exact ⟨by simp [WorksFor, QueueState.enter, Frame.call?, ExecPc.call?],
        _, rfl, by simp [WorksFor, QueueState.enter, Event.call?]⟩
  | case4 call n task s' htake =>
    unfold QueueState.tryPop at htake
    split at htake
    · cases htake
    · cases htake
      exact ⟨by simp [WorksFor, Frame.call?, ExecPc.call?],
        _, rfl, by simp [WorksFor, Frame.call?, ExecPc.call?, Event.call?]⟩
  | case5 | case7 =>
    exact ⟨by simp [WorksFor, Frame.call?, ExecPc.call?], [], (List.append_nil _).symm, by simp⟩
  | _ =>
    exact ⟨by simp [WorksFor, Frame.call?, ExecPc.call?],
      _, rfl, by simp [WorksFor, Frame.call?, ExecPc.call?, Event.call?]⟩

theorem userStep_history (s : QueueState Code) (u : UserStep Code) :
    ∃ events, (userStep s u).1.history = s.history ++ events ∧
      ∀ e ∈ events, e.call? = none := by
  cases u with
  | enqueue task tag resume =>
    rcases s.enqueue_cases task tag with ⟨-, heq⟩ | ⟨front, old, back, -, -, -, heq⟩
    · exact ⟨_, congrArg QueueState.history heq, by simp [Event.call?]⟩
    · exact ⟨_, congrArg QueueState.history heq, by simp [Event.call?]⟩
  | clear resume => exact ⟨_, rfl, by simp [Event.call?]⟩
  | exec mode resume => exact ⟨[], (List.append_nil _).symm, by simp⟩
  | ret => exact ⟨[], (List.append_nil _).symm, by simp⟩
  | throw e => exact ⟨[], (List.append_nil _).symm, by simp⟩

theorem userStep_frames (s : QueueState Code) (u : UserStep Code) :
    ∀ f ∈ (userStep s u).2, f.call? = none := by
  cases u <;> simp [userStep, Frame.call?, ExecPc.call?]

theorem ExecRule.worksFor {t : ι} {s s' : QueueState U.Code} {before after : List (Frame U.Code)}
    (hrule : ExecRule ι U t s before s' after) :
    (∀ f ∈ after, ∀ call, f.call? = some call → WorksFor s before s' call) ∧
    ∃ events, s'.history = s.history ++ events ∧
      ∀ e ∈ events, ∀ call, e.call? = some call → WorksFor s before s' call := by
  cases hrule with
  | @user _ _ code i =>
    obtain ⟨events, hhistory, hnone⟩ := userStep_history s (U.next code i)
    refine ⟨fun f hf call hcall => ?_, events, hhistory, fun e he call hcall => ?_⟩
    · rw [userStep_frames s _ f hf] at hcall
      cases hcall
    · rw [hnone e he] at hcall
      cases hcall
  | resume => exact ⟨by simp [Frame.call?], [], (List.append_nil _).symm, by simp⟩
  | exec => exact execStep_worksFor s _
  | @contain _ _ e call n task =>
    refine ⟨by simp [WorksFor, Frame.call?, ExecPc.call?], [], ?_, nofun⟩
    cases e <;> exact (List.append_nil _).symm

/-- The calls of `exec` in progress and in the history have been given their numbers. -/
theorem call_lt_nextCall [DecidableEq ι] {s : QueueSystem ι U}
    (hreach : (queueSystem ι U).Reachable s) :
    (∀ t, ∀ f ∈ s.threads t, ∀ call, f.call? = some call → call < s.shared.nextCall) ∧
    ∀ e ∈ s.shared.history, ∀ call, e.call? = some call → call < s.shared.nextCall := by
  refine hreach.invariant (fun s =>
    (∀ t, ∀ f ∈ s.threads t, ∀ call, f.call? = some call → call < s.shared.nextCall) ∧
    ∀ e ∈ s.shared.history, ∀ call, e.call? = some call → call < s.shared.nextCall) ?_ ?_
  · rintro _ ⟨main, rfl⟩
    exact ⟨by simp [initialSystem, Frame.call?], by simp [initialSystem, QueueState.initial]⟩
  · intro s s' hreach hs hstep
    obtain ⟨hframes, hevents⟩ := hs
    have hnext := (step_change hstep).next_le.2
    have hmove := step_execRule hreach hstep
    have hworks : ∀ t before call, WorksFor s.shared before s'.shared call →
        (∀ f ∈ before, f ∈ s.threads t) → call < s'.shared.nextCall := by
      intro t before call hworks hbefore
      rcases hworks with ⟨f, hf, hcall⟩ | ⟨rfl, hnew⟩
      · exact (hframes t f (hbefore f hf) call hcall).trans_le hnext
      · omega
    constructor
    · refine hmove.forall_frames
        (P := fun s _ f => ∀ call, f.call? = some call → call < s.nextCall) ?_ ?_ hframes
      · exact fun t before after hrule hbefore _ f hf call hcall =>
          hworks t before call (hrule.worksFor.1 f hf call hcall) hbefore
      · exact fun t f _ hf call hcall => (hf call hcall).trans_le hnext
    · intro e he call hcall
      cases hmove with
      | @mk shared' before after rest t hstack hrule =>
        obtain ⟨events, hhistory, hnew⟩ := hrule.worksFor.2
        rcases List.mem_append.mp (hhistory ▸ he) with hold | he
        · exact (hevents e hold call hcall).trans_le hnext
        · exact hworks t before call (hnew e he call hcall)
            fun f hf => hstack ▸ List.mem_append_left _ hf

/-! ### The order in which a call takes tasks -/

theorem Change.inOrder (hchange : Change s s') (hledger : s.ledger.Sound)
    (hs : s.ledger.InOrder (· = .takenBy call)) : s'.ledger.InOrder (· = .takenBy call) := by
  cases hchange with
  | same => exact hs
  | enqueue code tag =>
    rcases QueueState.ledger_enqueue hledger code tag with heq | ⟨old, -, heq⟩
    · rw [heq]
      exact hs.push hledger
    · rw [heq]
      exact (hs.remove _ (by simp)).push (hledger.remove _ _)
  | clear =>
    rw [QueueState.ledger_clear]
    exact hs.remove _ (by simp)
  | enter mode =>
    rw [QueueState.ledger_enter]
    exact hs
  | take htake =>
    rw [(QueueState.ledger_take htake).2]
    exact hs.pop hledger _
  | called task call =>
    rw [QueueState.ledger_record (by rfl)]
    exact hs
  | returned call n =>
    rw [QueueState.ledger_record (by rfl)]
    exact hs
  | log e =>
    rw [QueueState.ledger_logException]
    exact hs

theorem pairwise_takenBy [DecidableEq ι] {s : QueueSystem ι U}
    (hreach : (queueSystem ι U).Reachable s) (call : ℕ) :
    (s.shared.takenBy call).Pairwise (· < ·) := by
  have horder : s.shared.ledger.InOrder (· = .takenBy call) := by
    refine hreach.invariant (fun s => s.shared.ledger.InOrder (· = .takenBy call)) ?_ ?_
    · rintro _ ⟨main, rfl⟩
      exact FifoLedger.inOrder_empty _
    · exact fun s s' hreach hs hstep => (step_change hstep).inOrder (ledger_sound hreach) hs
  exact horder.pairwise

/-! ### A call of `exec` with `execAll` -/

/-- The call has just read the number of the queued tasks. -/
theorem Backlog.entered [DecidableEq ι] [Fintype ι] {s₀ s₁ : QueueSystem ι U} {t : ι} {i : U.Input}
    {rest : List (Frame U.Code)} (hreach : (queueSystem ι U).Reachable s₀)
    (hstack : s₀.threads t = .exec (.start .execAll) :: rest) (hstep : step t i s₀ = some s₁) :
    Backlog s₀.shared.nextCall s₀.shared.nextId s₀.shared.backlog s₁ := by
  obtain ⟨hframes, hevents⟩ := call_lt_nextCall hreach
  have hs₁ : s₁ = ⟨s₀.shared.enter .execAll, Function.update s₀.threads t
      ([.exec (.loop s₀.shared.nextCall s₀.shared.queue.length)] ++ rest)⟩ := by
    rw [step, hstack] at hstep
    exact (Option.some.inj hstep).symm
  have hnone : weight (Frame.inCall s₀.shared.nextCall) s₀.threads = 0 := by
    refine weight_eq_zero.mpr fun t f hf => ?_
    cases f with
    | exec pc =>
      have hne : pc.call? ≠ some s₀.shared.nextCall := fun h => (hframes t _ hf _ h).false
      simp [Frame.inCall, hne]
    | _ => rfl
  have hnoneLeft := weight_remaining_eq_zero hnone
  have hsplit : s₀.threads t = [.exec (.start .execAll)] ++ rest := hstack
  obtain ⟨r, hin, hin'⟩ := weight_split (Frame.inCall s₀.shared.nextCall) hsplit
    [.exec (.loop s₀.shared.nextCall s₀.shared.queue.length)]
  obtain ⟨r', hleft, hleft'⟩ := weight_split (Frame.remaining s₀.shared.nextCall) hsplit
    [.exec (.loop s₀.shared.nextCall s₀.shared.queue.length)]
  rw [hnone] at hin
  rw [hnoneLeft] at hleft
  have htaken : s₁.shared.takenBy s₀.shared.nextCall = [] := by
    have hold : s₀.shared.takenBy s₀.shared.nextCall = [] := by
      refine List.eq_nil_iff_forall_not_mem.mpr fun id hid => ?_
      obtain ⟨fate, hfate, hkind⟩ := FifoLedger.mem_met.mp hid
      obtain ⟨e, he, hfate⟩ := QueueState.mem_fates.mp hfate
      rw [of_decide_eq_true hkind] at hfate
      cases e with
      | taken task call =>
        cases hfate
        exact (hevents _ he _ rfl).false
      | _ => cases hfate
    rw [hs₁, takenBy_append (s := s₀.shared) rfl (by simp), hold]
  have hinNew : weight (Frame.inCall s₀.shared.nextCall) s₁.threads = 1 := by
    rw [hs₁]
    refine hin'.trans ?_
    simp only [stackWeight_cons, stackWeight_nil, Frame.inCall, ExecPc.call?, if_true]
    omega
  have hleftNew : weight (Frame.remaining s₀.shared.nextCall) s₁.threads
      = s₀.shared.backlog.length := by
    rw [hs₁, QueueState.backlog, List.length_map]
    refine hleft'.trans ?_
    simp only [stackWeight_cons, stackWeight_nil, Frame.remaining, ExecPc.call?,
      ExecPc.tasksToExecute, if_true]
    omega
  have hbacklog : s₁.shared.backlog = s₀.shared.backlog := by
    rw [hs₁]
    rfl
  refine ⟨?_, ?_, ?_, hinNew.le, ?_, ?_, ?_, ?_⟩
  · rw [hs₁]
    exact Nat.lt_succ_self _
  · rw [hs₁]
    exact le_rfl
  · rw [hbacklog]
    exact List.filter_sublist
  · rw [htaken, hleftNew]
    simp
  · rw [hbacklog, hleftNew]
    exact List.length_filter_le _ _
  · rw [htaken]
    simp
  · intro before n after hhistory
    have hmem : .returned s₀.shared.nextCall n ∈ s₁.shared.history := by
      rw [hhistory]
      simp
    rw [hs₁] at hmem
    have hmem : .returned s₀.shared.nextCall n ∈ s₀.shared.history := by
      simpa [QueueState.enter] using hmem
    exact absurd (hevents _ hmem _ rfl) (lt_irrefl _)

theorem Backlog.steps [DecidableEq ι] [Fintype ι] {s₁ s : QueueSystem ι U} {entries : List ℕ}
    (hreach : (queueSystem ι U).Reachable s₁) (hsteps : (queueSystem ι U).Steps s₁ s)
    (hentries : ∀ id ∈ entries, id < bound) (hs₁ : Backlog call bound entries s₁) :
    Backlog call bound entries s :=
  hreach.stable (fun s => Backlog call bound entries s)
    (fun _ _ hreach hs hstep => hs.move hreach hstep hentries) hsteps hs₁

/-- What a call took: first the tasks of the backlog, in its order, then younger ones. -/
theorem Backlog.takenBy_eq [DecidableEq ι] [Fintype ι] {s : QueueSystem ι U} {entries : List ℕ}
    (hreach : (queueSystem ι U).Reachable s) (hentries : ∀ id ∈ entries, id < bound)
    (hsorted : entries.Pairwise (· < ·)) (hs : Backlog call bound entries s) :
    s.shared.takenBy call = entries.filter (· ∈ s.shared.takenBy call)
      ++ (s.shared.takenBy call).filter (· ∉ entries) := by
  have hyounger : ∀ id ∈ (s.shared.takenBy call).filter (· ∉ entries), bound ≤ id := by
    intro id hid
    obtain ⟨htaken, hnew⟩ := List.mem_filter.mp hid
    by_contra hlt
    exact of_decide_eq_true hnew (hs.taken id htaken (by omega))
  have hpairwise := pairwise_takenBy hreach call
  refine hpairwise.eq_of_mem_iff (List.pairwise_append.mpr
    ⟨hsorted.filter _, hpairwise.filter _, fun a ha b hb => ?_⟩) fun id => ?_
  · exact (hentries a (List.mem_of_mem_filter ha)).trans_le (hyounger b hb)
  · by_cases hid : id ∈ entries <;> simp [hid]

theorem Backlog.length_le [DecidableEq ι] [Fintype ι] {s : QueueSystem ι U} {entries : List ℕ}
    (hreach : (queueSystem ι U).Reachable s) (hentries : ∀ id ∈ entries, id < bound)
    (hnodup : entries.Nodup) (hs : Backlog call bound entries s) :
    entries.length ≤ (s.shared.backlog.filter (· < bound)).length
      + (entries.filter (· ∈ s.shared.takenBy call)).length
      + entries.countP (s.shared.lostTo call) := by
  have hledger := ledger_sound hreach
  have hqueued : (entries.filter (· ∈ s.shared.backlog)).length
      ≤ (s.shared.backlog.filter (· < bound)).length := by
    refine (List.subperm_of_subset (hnodup.filter _) fun id hid => ?_).length_le
    obtain ⟨hid, hheld⟩ := List.mem_filter.mp hid
    exact List.mem_filter.mpr ⟨of_decide_eq_true hheld, by simpa using hentries id hid⟩
  have hcases : ∀ id ∈ entries, id ∈ s.shared.backlog ∨ id ∈ s.shared.takenBy call ∨
      s.shared.lostTo call id = true := by
    intro id hid
    by_cases hheld : id ∈ s.shared.backlog
    · exact .inl hheld
    · obtain ⟨fate, hfate⟩ :=
        hledger.exists_fate ((hentries id hid).trans_le hs.bound_le) hheld
      by_cases hkind : fate = .takenBy call
      · exact .inr (.inl (FifoLedger.mem_met.mpr ⟨fate, hfate, by simpa using hkind⟩))
      · exact .inr (.inr (List.any_eq_true.mpr ⟨(id, fate), hfate, by simpa using hkind⟩))
  have hcount : entries.length ≤ (entries.filter (· ∈ s.shared.backlog)).length
      + (entries.filter (· ∈ s.shared.takenBy call)).length
      + entries.countP (s.shared.lostTo call) := by
    rw [← List.countP_eq_length_filter, ← List.countP_eq_length_filter]
    clear hqueued hs hnodup hentries
    induction entries with
    | nil => simp
    | cons id entries ih =>
      have hrest := ih fun id' hid' => hcases id' (List.mem_cons_of_mem _ hid')
      have hid := hcases id List.mem_cons_self
      simp only [List.countP_cons, List.length_cons, decide_eq_true_eq]
      rcases hid with hid | hid | hid <;> simp only [hid, if_true] <;> omega
  omega

theorem step_throwing [DecidableEq ι] {s : QueueSystem ι U} (hreach : (queueSystem ι U).Reachable s)
    {t : ι} {e : Exception} {f : Frame U.Code} {rest : List (Frame U.Code)}
    (hstack : s.threads t = .throwing e :: f :: rest) :
    ∃ call n task, f = .exec (.running call n task) ∧
      ∀ i, step t i s = some ⟨s.shared.logException e,
        Function.update s.threads t (.exec (.loop call n) :: rest)⟩ := by
  have hchain := isChain_threads hreach t
  rw [hstack] at hchain
  obtain ⟨⟨call, n, task, rfl⟩, -⟩ := List.isChain_cons_cons.mp hchain
  refine ⟨call, n, task, rfl, fun i => ?_⟩
  rw [step, hstack]
  rfl

/-- A call of `exec` with `execAll` takes no more tasks than were queued at its entry; those of them
that it takes come first and in their order; it takes no more later ones than it lost; when it
returns none of them is left; and it contains what its tasks throw. -/
theorem execAll_runsBacklog [DecidableEq ι] [Fintype ι] {s₀ s₁ s : QueueSystem ι U} {t : ι}
    {i : U.Input} {rest : List (Frame U.Code)} (hreach : (queueSystem ι U).Reachable s₀)
    (hstack : s₀.threads t = .exec (.start .execAll) :: rest) (hstep : step t i s₀ = some s₁)
    (hsteps : (queueSystem ι U).Steps s₁ s) :
    (s.shared.takenBy s₀.shared.nextCall).length ≤ s₀.shared.queue.length ∧
    s.shared.takenBy s₀.shared.nextCall
      = s₀.shared.backlog.filter (· ∈ s.shared.takenBy s₀.shared.nextCall)
        ++ (s.shared.takenBy s₀.shared.nextCall).filter (· ∉ s₀.shared.backlog) ∧
    (∀ id ∈ s.shared.takenBy s₀.shared.nextCall, id ∉ s₀.shared.backlog → s₀.shared.nextId ≤ id) ∧
    ((s.shared.takenBy s₀.shared.nextCall).filter (· ∉ s₀.shared.backlog)).length
      ≤ s₀.shared.backlog.countP (s.shared.lostTo s₀.shared.nextCall) ∧
    (∀ before n after, s.shared.history = before ++ .returned s₀.shared.nextCall n :: after →
      ∀ id ∈ s₀.shared.backlog, ∃ e ∈ before, ∃ fate, e.fate? = some (id, fate)) ∧
    ∀ t' e f rest', s.threads t' = .throwing e :: f :: rest' →
      ∃ call n task, f = .exec (.running call n task) ∧
        ∀ i, step t' i s = some ⟨s.shared.logException e,
          Function.update s.threads t' (.exec (.loop call n) :: rest')⟩ := by
  have hledger := ledger_sound hreach
  have hentries : ∀ id ∈ s₀.shared.backlog, id < s₀.shared.nextId := fun id hid =>
    hledger.lt_next hid
  have hsorted : s₀.shared.backlog.Pairwise (· < ·) := hledger.pairwise_held
  have hreach₁ := hreach.next ⟨t, i, hstep⟩
  have hreach' := hreach₁.steps hsteps
  have hs := (Backlog.entered hreach hstack hstep).steps hreach₁ hsteps hentries
  have horder := hs.takenBy_eq hreach' hentries hsorted
  have hlength : (s.shared.takenBy s₀.shared.nextCall).length
      = (s₀.shared.backlog.filter (· ∈ s.shared.takenBy s₀.shared.nextCall)).length
        + ((s.shared.takenBy s₀.shared.nextCall).filter (· ∉ s₀.shared.backlog)).length :=
    (congrArg List.length horder).trans List.length_append
  have hbacklog := hs.length_le hreach' hentries (hsorted.imp Nat.ne_of_lt)
  have hbudget := hs.budget
  have hsurvivors := hs.survivors
  refine ⟨?_, horder, ?_, by omega, hs.returned, fun _ _ _ _ => step_throwing hreach'⟩
  · have hqueue : s₀.shared.backlog.length = s₀.shared.queue.length := List.length_map ..
    omega
  · intro id hid hnew
    by_contra hlt
    exact hnew (hs.taken id hid (by omega))

/-- Thread `true` enqueues two tasks and thread `false` is about to read their number; the second task
will be replaced while the first one, which throws, is running. -/
def aboutToEnter : Option (QueueSystem Bool scriptCode) :=
  scriptRun
    (fun t => bif t then .enqueue (some (.throw .unknown)) untagged
        (.enqueue (some .ret) 7 (.enqueue (some .ret) 7 .ret))
      else .exec .execAll .ret)
    [true, true, false]

def replacedMidBatch (s₁ : QueueSystem Bool scriptCode) : Option (QueueSystem Bool scriptCode) :=
  [false, false, true, false, false, false, false, false, false, false].foldlM (fun s t => step t () s) s₁

theorem execAll_runsBacklog_replacedMidBatch : ∃ s₀ s₁ s, aboutToEnter = some s₀ ∧
    step false () s₀ = some s₁ ∧ replacedMidBatch s₁ = some s ∧ s₀.shared.backlog = [0, 1] ∧
    s.shared.takenBy s₀.shared.nextCall = [0, 2] ∧
    s.shared.log = ["Unknown exception in a queued task"] ∧
    ((s.shared.takenBy s₀.shared.nextCall).filter (· ∉ s₀.shared.backlog)).length
      ≤ s₀.shared.backlog.countP (s.shared.lostTo s₀.shared.nextCall) := by
  have hrun : aboutToEnter.bind (fun s₀ => (step false () s₀).bind fun s₁ => (replacedMidBatch s₁).map
      fun s => (s₀.shared.backlog, s.shared.takenBy s₀.shared.nextCall, s.shared.log))
      = some ([0, 1], [0, 2], ["Unknown exception in a queued task"]) := by decide
  have hstack : aboutToEnter.map (fun s => s.threads false)
      = some [.exec (.start .execAll), .calling fun _ => .ret] := rfl
  obtain ⟨s₀, hs₀, hrest⟩ := Option.bind_eq_some_iff.mp hrun
  obtain ⟨s₁, hs₁, hrest⟩ := Option.bind_eq_some_iff.mp hrest
  obtain ⟨s, hs, hvalues⟩ := Option.map_eq_some_iff.mp hrest
  simp only [Prod.mk.injEq] at hvalues
  rw [hs₀, Option.map_some, Option.some.injEq] at hstack
  exact ⟨s₀, s₁, s, hs₀, hs₁, hs, hvalues.1, hvalues.2.1, hvalues.2.2,
    (execAll_runsBacklog (scriptRun_reachable hs₀) hstack hs₁ (foldlM_steps hs)).2.2.2.1⟩

end CppUtils.ExecutionQueue
