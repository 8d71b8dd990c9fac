import CppUtils.ConsumerBlockingQueue.Fifo
import CppUtils.Lib.Threads

/-!
# Wake-ups of the consumers

A push wakes one waiting thread. A thread in `pop` takes the item when it goes on; a thread in
`waitForItem` only looks, and returns with the item still queued. When it does so while a consumer is
blocked, the consumer sleeps on; otherwise no consumer sleeps through an item.
-/

namespace CppUtils.ConsumerBlockingQueue

open Finset

variable {ι T : Type} [DecidableEq ι] [Fintype ι] {maxSize : ℕ} {s s' : QueueSystem ι T}

def ThreadPc.isWoken : ThreadPc T → Bool
  | .woken _ _ => true
  | _ => false

/-- A thread woken in `pop`, or one that the notification of a push has reached in `waitForItem`. -/
def ThreadPc.answersPush : ThreadPc T → Bool
  | .woken .pop _ => true
  | .woken _ .notified => true
  | _ => false

/-- The threads inside `pop` or `waitForItem` that have a wake-up pending. -/
def QueueSystem.wakeUpsPending (s : QueueSystem ι T) : ℕ := #{t | (s.threads t).isWoken = true}

def answering (threads : ι → ThreadPc T) : ℕ := ∑ t, if (threads t).answersPush then 1 else 0

/-- No `waitForItem` that the notification of a push has reached returns while an item is queued and
a thread is blocked in `pop`. -/
def TakesNoWakeUp (s s' : QueueSystem ι T) : Prop :=
  ∀ t waiter, waiter ≠ .pop → s.threads t = .woken waiter .notified →
    (∃ returned, s'.threads t = .outside returned) → s.state.queue = [] ∨ ∀ t', s.threads t' ≠ .blocked .pop

def considerateSystem (maxSize : ℕ) : TransitionSystem (QueueSystem ι T) where
  Init := (queueSystem maxSize).Init
  Step s s' := (queueSystem maxSize).Step s s' ∧ TakesNoWakeUp s s'

omit [DecidableEq ι] in
theorem answering_le (s : QueueSystem ι T) : answering s.threads ≤ s.wakeUpsPending := by
  rw [answering, QueueSystem.wakeUpsPending, Finset.card_filter]
  refine Finset.sum_le_sum fun t _ => ?_
  cases s.threads t with
  | woken waiter cause =>
    rw [ThreadPc.isWoken, if_pos rfl]
    split <;> simp
  | _ => simp [ThreadPc.answersPush]

theorem answering_update (threads : ι → ThreadPc T) (t : ι) (pc : ThreadPc T) :
    answering (Function.update threads t pc) + (if (threads t).answersPush then 1 else 0)
      = answering threads + if pc.answersPush then 1 else 0 := by
  obtain ⟨r, hbefore, hafter⟩ :=
    sum_split (fun pc : ThreadPc T => if pc.answersPush then 1 else 0) threads t
  rw [answering, answering, hbefore, hafter]
  omega

/-- While a consumer is blocked, each queued item has a woken thread to answer for it. -/
def ItemsAwaited (s : QueueSystem ι T) : Prop :=
  (∃ t, s.threads t = .blocked .pop) → s.state.queue.length ≤ answering s.threads

omit [Fintype ι] in
/-- A thread moves on but not into the wait of `pop`: a consumer blocked after it was blocked before. -/
theorem blocked_of_update {threads : ι → ThreadPc T} {t t' : ι} {pc : ThreadPc T}
    (hpc : pc ≠ .blocked .pop) (h : Function.update threads t pc t' = .blocked .pop) :
    threads t' = .blocked .pop := by
  by_cases ht : t' = t
  · subst ht
    rw [Function.update_self] at h
    exact absurd h hpc
  · rwa [Function.update_of_ne ht] at h

/-- A thread moves on, and no more stop answering for items than items leave. -/
theorem ItemsAwaited.set (hs : ItemsAwaited s) {t : ι} {pc : ThreadPc T} {state : QueueState ι T}
    (hpc : pc ≠ .blocked .pop)
    (hlength : state.queue.length + (if (s.threads t).answersPush then 1 else 0)
      ≤ s.state.queue.length + if pc.answersPush then 1 else 0) :
    ItemsAwaited (s.set t pc state) := by
  rintro ⟨t', ht'⟩
  have hlength' := hs ⟨t', blocked_of_update hpc ht'⟩
  have hupdate := answering_update s.threads t pc
  change state.queue.length ≤ answering (Function.update s.threads t pc)
  omega

theorem ItemsAwaited.push {notified : Option ι} {threads : ι → ThreadPc T} {t : ι} {call : Call T}
    {state : QueueState ι T} {returned : Returned T} (hs : ItemsAwaited s) (hpc : s.threads t = .inside call)
    (hlength : state.queue.length = s.state.queue.length + 1)
    (hnotify : notifyOne notified s.threads = some threads) :
    ItemsAwaited ⟨state, Function.update threads t (.outside returned)⟩ := by
  rintro ⟨t', ht'⟩
  have ht' : threads t' = .blocked .pop := blocked_of_update (by simp) ht'
  cases notified with
  | none =>
    simp only [notifyOne] at hnotify
    split at hnotify
    · cases hnotify
    · rename_i hnone
      cases hnotify
      exact absurd ⟨t', by rw [ht']; rfl⟩ hnone
  | some u =>
    simp only [notifyOne] at hnotify
    split at hnotify
    · rename_i waiter hu
      cases hnotify
      have hne : u ≠ t := by
        rintro rfl
        rw [hpc] at hu
        cases hu
      have hanswers : (ThreadPc.woken waiter .notified : ThreadPc T).answersPush = true := by
        cases waiter <;> rfl
      have hlength' := hs ⟨t', blocked_of_update (by simp) ht'⟩
      have hwakes := answering_update s.threads u (.woken waiter .notified)
      have hleaves :=
        answering_update (Function.update s.threads u (.woken waiter .notified)) t (.outside returned)
      rw [hu, hanswers] at hwakes
      rw [Function.update_of_ne hne.symm, hpc] at hleaves
      simp only [ThreadPc.answersPush, Bool.false_eq_true, if_false, if_true] at hwakes hleaves
      change state.queue.length ≤ answering (Function.update (Function.update s.threads u
        (.woken waiter .notified)) t (.outside returned))
      omega
    · cases hnotify

theorem ItemsAwaited.leaves {t : ι} {waiter : Waiter} {cause : WakeCause} {returned : Returned T} (hs : ItemsAwaited s)
    (hpc : s.threads t = .woken waiter cause) (hwaiter : waiter ≠ .pop)
    (hconsiderate : TakesNoWakeUp s (s.set t (.outside returned) s.state)) :
    ItemsAwaited (s.set t (.outside returned) s.state) := by
  by_cases hcause : cause = .notified
  · subst hcause
    rcases hconsiderate t waiter hwaiter hpc ⟨returned, Function.update_self ..⟩ with hempty | hnone
    · exact fun _ => by simp [QueueSystem.set, hempty]
    · rintro ⟨t', ht'⟩
      exact absurd (blocked_of_update (by simp) ht') (hnone t')
  · refine hs.set (by simp) ?_
    have hanswers : (s.threads t).answersPush = false := by
      rw [hpc]
      cases waiter <;> cases cause <;> simp_all [ThreadPc.answersPush]
    simp [hanswers]

theorem Move.itemsAwaited {t : ι} (hmove : Move maxSize t s s') (hconsiderate : TakesNoWakeUp s s')
    (hs : ItemsAwaited s) : ItemsAwaited s' := by
  cases hmove with
  | pushed value returned hpc hroom hnotify =>
    obtain ⟨hpc, -⟩ | ⟨hpc, -⟩ := hpc
    · exact hs.push hpc (by simp [QueueState.emplaceBack]) hnotify
    · exact hs.push hpc (by simp [QueueState.emplaceBack]) hnotify
  | full => exact hs
  | delivered hpc hpop =>
    obtain ⟨item, -, hqueue, -⟩ := QueueState.popFront_eq_some hpop
    refine hs.set (by simp) ?_
    rw [hqueue, List.length_cons]
    split <;> simp [ThreadPc.answersPush]
  | removed pred hpc =>
    refine hs.set (by simp) ?_
    simpa [hpc, ThreadPc.answersPush, QueueState.removeIf] using List.length_filter_le _ _
  | wakeAll hpc =>
    rintro ⟨t', ht'⟩
    have ht' : notifyAll s.threads t' = .blocked .pop := blocked_of_update (by simp) ht'
    unfold notifyAll at ht'
    split at ht'
    · cases ht'
    · rename_i hnot
      exact absurd ht' (hnot .pop)
  | blocks hempty => exact fun _ => by simp [QueueSystem.set, hempty]
  | leaves returned hpc =>
    obtain ⟨call, hpc⟩ | ⟨waiter, cause, hpc, hwaiter⟩ := hpc
    · exact hs.set (by simp) (by simp [hpc, ThreadPc.answersPush])
    · exact hs.leaves hpc hwaiter hconsiderate
  | gaveUp returned hpc hempty => exact fun _ => by simp [QueueSystem.set, QueueState.record, hempty]
  | calls call hpc => exact hs.set (by simp) (by simp [hpc, ThreadPc.answersPush])
  | wakes hpc => exact hs.set (by simp) (by simp [hpc, ThreadPc.answersPush])

/-- In a run in which `waitForItem` takes no wake-up from a consumer, no consumer sleeps through an
item: the queued items are no more than the threads with a wake-up pending. -/
theorem itemsAwaited_of_considerate (hreach : (considerateSystem maxSize).Reachable s) (t : ι)
    (ht : s.threads t = .blocked .pop) : s.state.queue.length ≤ s.wakeUpsPending := by
  have hawaited : ItemsAwaited s := by
    refine hreach.invariant ItemsAwaited ?_ ?_
    · rintro _ rfl ⟨t, ht⟩
      cases ht
    · exact fun s s' _ hs ⟨⟨t, a, hstep⟩, hconsiderate⟩ => (step_move hstep).itemsAwaited hconsiderate hs
  exact (hawaited ⟨t, ht⟩).trans (answering_le s)

/-! ### Queues whose only waiters are consumers -/

def ThreadPc.onlyPops : ThreadPc T → Bool
  | .blocked waiter => waiter = .pop
  | .woken waiter _ => waiter = .pop
  | _ => true

omit [DecidableEq ι] [Fintype ι] in
theorem takesNoWakeUp_of_onlyPops (h : ∀ t, (s.threads t).onlyPops = true) (s' : QueueSystem ι T) :
    TakesNoWakeUp s s' := by
  intro t waiter hwaiter ht _
  have hpops := h t
  rw [ht] at hpops
  exact absurd (of_decide_eq_true hpops) hwaiter

/-- A step while no thread is in the wait of `waitForItem`. -/
def stepOfPops (maxSize : ℕ) (s : QueueSystem ι T) (move : ι × Action ι T) :
    Option (QueueSystem ι T) :=
  if ∀ t, (s.threads t).onlyPops = true then step maxSize move.1 move.2 s else none

def runOfPops (maxSize : ℕ) (moves : List (ι × Action ι T)) : Option (QueueSystem ι T) :=
  moves.foldlM (stepOfPops maxSize) ⟨.initial, fun _ => .outside .nothing⟩

theorem runOfPops_reachable {moves : List (ι × Action ι T)} (h : runOfPops maxSize moves = some s) :
    (considerateSystem maxSize).Reachable s := by
  refine TransitionSystem.Reachable.steps (.init rfl trivial)
    (TransitionSystem.steps_of_foldlM (T := considerateSystem maxSize)
      (fun s move s' hstep => ?_) h)
  unfold stepOfPops at hstep
  split at hstep
  · exact ⟨⟨move.1, move.2, hstep⟩, takesNoWakeUp_of_onlyPops ‹_› s'⟩
  · cases hstep

/-- Two consumers wait, and the push of an item wakes the second. -/
def secondConsumerWoken : Option (QueueSystem (Option Bool) ℕ) :=
  runOfPops 1 [(some false, .call (.wait .pop)), (some false, .go none false),
    (some true, .call (.wait .pop)), (some true, .go none false), (none, .call (.push 7)),
    (none, .go (some (some true)) false)]

theorem itemsAwaited_of_considerate_secondConsumerWoken : ∃ s, secondConsumerWoken = some s ∧
    s.threads (some false) = .blocked .pop ∧ s.state.queue.length = 1 ∧
    s.state.queue.length ≤ s.wakeUpsPending := by
  have hrun : secondConsumerWoken.map (fun s => s.state.queue.length) = some 1 := by decide
  have hthreads : secondConsumerWoken.map (fun s => s.threads (some false))
      = some (.blocked .pop) := rfl
  obtain ⟨s, hs, hlength⟩ := Option.map_eq_some_iff.mp hrun
  rw [hs, Option.map_some, Option.some.injEq] at hthreads
  exact ⟨s, hs, hthreads, hlength, itemsAwaited_of_considerate (runOfPops_reachable hs) _ hthreads⟩

/-! ### A wake-up that goes to a thread that only looks -/

/-- A consumer waits, then a thread waits in `waitForItem`; the push of an item wakes the latter,
which returns. -/
def lookerWoken : Option (QueueSystem (Option Bool) ℕ) :=
  run 1 [(some false, .call (.wait .pop)), (some false, .go none false),
    (some true, .call (.wait .waitForItem)), (some true, .go none false), (none, .call (.push 7)),
    (none, .go (some (some true)) false), (some true, .go none false)]

theorem consumerSleeps_lookerWoken :
    ¬ ∀ s : QueueSystem (Option Bool) ℕ, (queueSystem 1).Reachable s →
      ∀ t, s.threads t = .blocked .pop → s.state.queue.length ≤ s.wakeUpsPending := by
  have hrun : lookerWoken.map (fun s => (s.state.queue.length, s.wakeUpsPending)) = some (1, 0) := by
    decide
  have hthreads : lookerWoken.map (fun s => s.threads (some false)) = some (.blocked .pop) := rfl
  obtain ⟨s, hs, hvalues⟩ := Option.map_eq_some_iff.mp hrun
  rw [hs, Option.map_some, Option.some.injEq] at hthreads
  simp only [Prod.mk.injEq] at hvalues
  intro hclaim
  have hle := hclaim s (run_reachable hs) _ hthreads
  omega

end CppUtils.ConsumerBlockingQueue
