import CppUtils.ConsumerBlockingQueue.Wakeups

/-!
# Waits that end early

A thread that a push has notified takes the mutex again only later. When the item is gone by then, it
returns with nothing although its timeout has not elapsed; and so it does when its wait ends
spuriously. Otherwise every call that comes to nothing has waited for its timeout, or was woken by
`wakeAllThreads`.
-/

namespace CppUtils.ConsumerBlockingQueue

variable {ι T : Type} [DecidableEq ι] [Fintype ι] {maxSize : ℕ} {s s' : QueueSystem ι T} {t u : ι}
  {a : Action ι T} {waiter : Waiter} {cause : WakeCause}

/-- A thread that a push has notified and that has not gone on, in a wait that it does not resume. -/
def AwaitsMutex (s : QueueSystem ι T) (t : ι) : Prop :=
  ∃ waiter, waiter ≠ .waitForItemOr ∧ s.threads t = .woken waiter .notified

/-- No wait ends spuriously, and the last item does not leave the queue while another thread that a
push has notified has yet to go on. -/
def KeepsWakeUps (s s' : QueueSystem ι T) : Prop :=
  (∀ t waiter, s.threads t = .blocked waiter → s'.threads t ≠ .woken waiter .spurious) ∧
    (s.state.queue ≠ [] → s'.state.queue = [] → ∀ t, ¬ AwaitsMutex s' t)

def orderlySystem (maxSize : ℕ) : TransitionSystem (QueueSystem ι T) where
  Init := (queueSystem maxSize).Init
  Step s s' := (queueSystem maxSize).Step s s' ∧ KeepsWakeUps s s'

omit [Fintype ι] in
theorem woken_of_update {threads : ι → ThreadPc T} {pc : ThreadPc T}
    (hpc : pc ≠ .woken waiter cause) (h : Function.update threads u pc t = .woken waiter cause) :
    threads t = .woken waiter cause := by
  by_cases ht : t = u
  · subst ht
    rw [Function.update_self] at h
    exact absurd h hpc
  · rwa [Function.update_of_ne ht] at h

theorem woken_of_notifyOne {notified : Option ι} {threads threads' : ι → ThreadPc T}
    (hnotify : notifyOne notified threads = some threads') (h : threads' t = .woken waiter cause) :
    threads t = .woken waiter cause ∨ threads t = .blocked waiter := by
  cases notified with
  | none =>
    simp only [notifyOne] at hnotify
    split at hnotify
    · cases hnotify
    · cases hnotify
      exact .inl h
  | some u =>
    simp only [notifyOne] at hnotify
    split at hnotify
    · rename_i waiter' hu
      cases hnotify
      by_cases ht : t = u
      · subst ht
        rw [Function.update_self] at h
        cases h
        exact .inr hu
      · rw [Function.update_of_ne ht] at h
        exact .inl h
    · cases hnotify

omit [Fintype ι] in
theorem woken_of_wake {threads : ι → ThreadPc T} {waiter' : Waiter} {cause' : WakeCause} {P : Prop}
    (hblocked : threads u = .blocked waiter') (hcause : cause' ≠ .notified)
    (ht : Function.update threads u (.woken waiter' cause') t = .woken waiter cause) :
    threads t = .woken waiter cause ∨ threads t = .blocked waiter ∧ (cause = .notified → P) := by
  by_cases htu : t = u
  · subst htu
    rw [Function.update_self] at ht
    cases ht
    exact .inr ⟨hblocked, fun hnotified => absurd hnotified hcause⟩
  · rw [Function.update_of_ne htu] at ht
    exact .inl ht

theorem woken_of_push {notified : Option ι} {threads : ι → ThreadPc T} {value : T} {returned : Returned T}
    (hnotify : notifyOne notified s.threads = some threads)
    (ht : Function.update threads u (.outside returned) t = .woken waiter cause) :
    s.threads t = .woken waiter cause ∨
      s.threads t = .blocked waiter ∧ (cause = .notified → (s.state.emplaceBack value).queue ≠ []) := by
  obtain h | h := woken_of_notifyOne hnotify (woken_of_update (by simp) ht)
  · exact .inl h
  · exact .inr ⟨h, fun _ => by simp [QueueState.emplaceBack]⟩

/-- How a wake-up comes to be pending: it was, or the thread was blocked; and the notification of a
push leaves an item. -/
theorem woken_of_step (h : step maxSize u a s = some s') (ht : s'.threads t = .woken waiter cause) :
    s.threads t = .woken waiter cause ∨
      s.threads t = .blocked waiter ∧ (cause = .notified → s'.state.queue ≠ []) := by
  unfold step at h
  split at h
  · cases h
    exact .inl (woken_of_update (by simp) ht)
  · rename_i call notified extraWakeCondition hpc
    cases call with
    | push item =>
      simp only [enter] at h
      split at h
      · cases h
        exact .inl ht
      · rename_i state hpush
        simp only [QueueState.pushAttempt] at hpush
        split at hpush
        · cases hpush
        · cases hpush
          obtain ⟨threads, hnotify, rfl⟩ := Option.map_eq_some_iff.mp h
          exact woken_of_push hnotify ht
    | tryPush item =>
      simp only [enter, QueueState.tryPush] at h
      by_cases hfull : s.state.queue.length ≥ maxSize
      · rw [if_pos hfull] at h
        cases h
        exact .inl (woken_of_update (by simp) ht)
      · rw [if_neg hfull] at h
        obtain ⟨threads, hnotify, rfl⟩ := Option.map_eq_some_iff.mp h
        exact woken_of_push hnotify ht
    | tryPop =>
      simp only [enter] at h
      split at h
      · cases h
        exact .inl (woken_of_update (by simp) ht)
      · cases h
        exact .inl (woken_of_update (by simp) ht)
    | removeIf pred =>
      cases h
      exact .inl (woken_of_update (by simp) ht)
    | wait waiter' =>
      -- the thread blocks or returns
      cases waiter' with
      | pop =>
        simp only [enter] at h
        split at h
        · cases h
          exact .inl (woken_of_update (by simp) ht)
        · cases h
          exact .inl (woken_of_update (by simp) ht)
      | waitForItem =>
        simp only [enter] at h
        split at h
        · cases h
          exact .inl (woken_of_update (by simp) ht)
        · cases h
          exact .inl (woken_of_update (by simp) ht)
      | waitForItemOr =>
        simp only [enter] at h
        split at h
        · cases h
          exact .inl (woken_of_update (by simp) ht)
        · cases h
          exact .inl (woken_of_update (by simp) ht)
    | wakeAllThreads =>
      cases h
      have ht := woken_of_update (by simp) ht
      unfold notifyAll at ht
      split at ht
      · rename_i waiter' hblocked
        cases ht
        exact .inr ⟨hblocked, fun hcause => by cases hcause⟩
      · exact .inl ht
  · rename_i waiter' hblocked
    cases h
    exact woken_of_wake hblocked (by simp) ht
  · rename_i waiter' hblocked
    cases h
    exact woken_of_wake hblocked (by simp) ht
  · rename_i waiter' cause' notified extraWakeCondition hpc
    cases h
    refine .inl ?_
    cases waiter' with
    | pop =>
      simp only [leave] at ht
      split at ht
      · exact woken_of_update (by simp) ht
      · exact woken_of_update (by simp) ht
    | waitForItem =>
      simp only [leave] at ht
      split at ht
      · exact woken_of_update (by simp) ht
      · exact woken_of_update (by simp) ht
    | waitForItemOr =>
      simp only [leave] at ht
      split at ht
      · exact woken_of_update (by simp) ht
      · split at ht
        · exact woken_of_update (by simp) ht
        · exact woken_of_update (by simp) ht
  · cases h

theorem gaveUp_of_move (hmove : Move maxSize u s s')
    (hmem : .gaveUp t waiter cause ∈ s'.state.history) :
    .gaveUp t waiter cause ∈ s.state.history ∨
      s.threads t = .woken waiter cause ∧ s.state.queue = [] := by
  cases hmove with
  | pushed =>
    exact .inl (by simpa [QueueState.emplaceBack] using hmem)
  | full => exact .inl hmem
  | delivered hpc hpop =>
    unfold QueueState.popFront at hpop
    split at hpop
    · cases hpop
    · cases hpop
      exact .inl (by simpa [QueueSystem.set] using hmem)
  | removed pred hpc => exact .inl (by simpa [QueueSystem.set, QueueState.removeIf] using hmem)
  | gaveUp returned hpc hempty =>
    simp only [QueueSystem.set, QueueState.record, List.mem_append, List.mem_singleton,
      Event.gaveUp.injEq] at hmem
    obtain hmem | ⟨rfl, rfl, rfl⟩ := hmem
    · exact .inl hmem
    · exact .inr ⟨hpc, hempty⟩
  | wakeAll hpc => exact .inl hmem
  | blocks hempty => exact .inl hmem
  | leaves returned hpc => exact .inl hmem
  | calls call hpc => exact .inl hmem
  | wakes hpc => exact .inl hmem

/-- No wait has ended spuriously, a notified thread finds an item, and only then may a call come to
nothing. -/
structure NoEarlyReturn (s : QueueSystem ι T) : Prop where
  spurious : ∀ t waiter, s.threads t ≠ .woken waiter .spurious
  notified : (∃ t, AwaitsMutex s t) → s.state.queue ≠ []
  gaveUp : ∀ t waiter cause, .gaveUp t waiter cause ∈ s.state.history →
    cause = .timeout ∨ cause = .notifiedAll ∨ waiter = .waitForItemOr

theorem NoEarlyReturn.step (hstep : (queueSystem maxSize).Step s s') (hkeeps : KeepsWakeUps s s')
    (hs : NoEarlyReturn s) : NoEarlyReturn s' := by
  obtain ⟨u, a, h⟩ := id hstep
  constructor
  · intro t waiter ht
    obtain hbefore | ⟨hblocked, _⟩ := woken_of_step h ht
    · exact hs.spurious t waiter hbefore
    · exact hkeeps.1 t waiter hblocked ht
  · rintro ⟨t, hawaits⟩ hempty
    -- the queue was empty before, so nobody was notified before, nor is by a step that leaves it empty
    have hwas : s.state.queue = [] := by
      by_contra hne
      exact hkeeps.2 hne hempty t hawaits
    obtain ⟨waiter, hwaiter, ht⟩ := hawaits
    obtain hbefore | ⟨_, hitem⟩ := woken_of_step h ht
    · exact hs.notified ⟨t, waiter, hwaiter, hbefore⟩ hwas
    · exact hitem rfl hempty
  · intro t waiter cause hmem
    obtain hbefore | ⟨hwoken, hempty⟩ := gaveUp_of_move (step_move h) hmem
    · exact hs.gaveUp t waiter cause hbefore
    · cases cause with
      | timeout => exact .inl rfl
      | notifiedAll => exact .inr (.inl rfl)
      | spurious => exact absurd hwoken (hs.spurious t waiter)
      | notified =>
        by_cases hwaiter : waiter = .waitForItemOr
        · exact .inr (.inr hwaiter)
        · exact absurd hempty (hs.notified ⟨t, waiter, hwaiter, hwoken⟩)

/-- In a run that keeps the wake-ups, a `pop` or `waitForItem` that comes to nothing has waited for its
timeout or was woken by `wakeAllThreads`. -/
theorem noEarlyReturn_of_orderly (hreach : (orderlySystem maxSize).Reachable s) (t : ι)
    (waiter : Waiter) (cause : WakeCause) (hwaiter : waiter ≠ .waitForItemOr)
    (hmem : .gaveUp t waiter cause ∈ s.state.history) : cause = .timeout ∨ cause = .notifiedAll := by
  have hs : NoEarlyReturn s := by
    apply hreach.invariant NoEarlyReturn
    · rintro _ rfl
      constructor
      · intro t waiter ht
        cases ht
      · rintro ⟨t, waiter, _, ht⟩
        cases ht
      · intro t waiter cause hmem
        cases hmem
    · intro s s' _ hs hstep
      exact hs.step hstep.1 hstep.2
  obtain h | h | h := hs.gaveUp t waiter cause hmem
  · exact .inl h
  · exact .inr h
  · exact absurd h hwaiter

/-! ### A wait that ends with its timeout -/

def ThreadPc.unnotified : ThreadPc T → Bool
  | .woken _ cause => cause = .timeout
  | _ => true

omit [DecidableEq ι] [Fintype ι] in
theorem keepsWakeUps_of_unnotified (h : ∀ t, (s'.threads t).unnotified = true) : KeepsWakeUps s s' := by
  constructor
  · intro t waiter _ ht
    have hunnotified := h t
    rw [ht] at hunnotified
    exact absurd hunnotified (by simp [ThreadPc.unnotified])
  · rintro _ _ t ⟨waiter, _, ht⟩
    have hunnotified := h t
    rw [ht] at hunnotified
    exact absurd hunnotified (by simp [ThreadPc.unnotified])

/-- A step after which no thread has a wake-up pending but for a timeout. -/
def stepUnnotified (maxSize : ℕ) (s : QueueSystem ι T) (move : ι × Action ι T) :
    Option (QueueSystem ι T) :=
  (step maxSize move.1 move.2 s).bind fun s' =>
    if ∀ t, (s'.threads t).unnotified = true then some s' else none

def runUnnotified (maxSize : ℕ) (moves : List (ι × Action ι T)) : Option (QueueSystem ι T) :=
  moves.foldlM (stepUnnotified maxSize) ⟨.initial, fun _ => .outside .nothing⟩

theorem runUnnotified_reachable {moves : List (ι × Action ι T)}
    (h : runUnnotified maxSize moves = some s) : (orderlySystem maxSize).Reachable s := by
  apply TransitionSystem.Reachable.steps (.init rfl trivial)
  apply TransitionSystem.steps_of_foldlM (T := orderlySystem maxSize) _ h
  intro s move s' hstep
  obtain ⟨s₁, hstep₁, hcheck⟩ := Option.bind_eq_some_iff.mp hstep
  split at hcheck
  · rename_i hunnotified
    cases hcheck
    exact ⟨⟨move.1, move.2, hstep₁⟩, keepsWakeUps_of_unnotified hunnotified⟩
  · cases hcheck

def timeoutElapsed : Option (QueueSystem Bool ℕ) :=
  runUnnotified 1 [(false, .call (.wait .pop)), (false, .go none false), (false, .timeout),
    (false, .go none false)]

theorem noEarlyReturn_of_orderly_timeoutElapsed : ∃ s, timeoutElapsed = some s ∧
    .gaveUp false .pop .timeout ∈ s.state.history ∧
    (WakeCause.timeout = .timeout ∨ WakeCause.timeout = .notifiedAll) := by
  have hhistory : timeoutElapsed.map (fun s => s.state.history) =
      some [.gaveUp false .pop .timeout] := rfl
  obtain ⟨s, hs, hs'⟩ := Option.map_eq_some_iff.mp hhistory
  have hmem : .gaveUp false .pop .timeout ∈ s.state.history := by
    rw [hs']
    exact List.mem_singleton_self _
  exact ⟨s, hs, hmem, noEarlyReturn_of_orderly (runUnnotified_reachable hs) false .pop .timeout
    (by decide) hmem⟩

/-! ### A wait that ends early -/

/-- A consumer waits, and the push of an item notifies it; another thread takes the item before it goes
on. No timeout elapses, and nobody calls `wakeAllThreads`. -/
def itemTaken : Option (QueueSystem (Option Bool) ℕ) :=
  run 1 [(some false, .call (.wait .pop)), (some false, .go none false), (none, .call (.push 7)),
    (none, .go (some (some false)) false), (some true, .call .tryPop), (some true, .go none false),
    (some false, .go none false)]

theorem earlyReturn_itemTaken :
    ¬ ∀ s : QueueSystem (Option Bool) ℕ, (queueSystem 1).Reachable s →
      ∀ t waiter cause, waiter ≠ .waitForItemOr → .gaveUp t waiter cause ∈ s.state.history →
        cause = .timeout ∨ cause = .notifiedAll := by
  have hlast : itemTaken.map (fun s => s.state.history.getLast?) =
      some (some (.gaveUp (some false) .pop .notified)) := rfl
  obtain ⟨s, hs, hlast⟩ := Option.map_eq_some_iff.mp hlast
  intro hclaim
  have hcause := hclaim s (run_reachable hs) (some false) .pop .notified (by decide)
    (List.mem_of_getLast? hlast)
  revert hcause
  decide

end CppUtils.ConsumerBlockingQueue
