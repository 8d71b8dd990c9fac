import CppUtils.ConsumerBlockingQueue.State

/-!
# A bounded first-in first-out queue

The queue never holds more than its capacity, each pushed item is queued, delivered or removed, and
the items that are not removed are delivered in the order of their pushes.
-/

namespace CppUtils.ConsumerBlockingQueue

variable {ι T : Type}

/-- The item whose fate an event is. -/
def Event.fate? : Event ι T → Option (ℕ × Fate ι)
  | .delivered item t => some (item.id, .delivered t)
  | .removed item _ => some (item.id, .removed)
  | _ => none

def Event.pushed? : Event ι T → Option (Item T)
  | .pushed item => some item
  | _ => none

def Fate.isDelivery : Fate ι → Bool
  | .delivered _ => true
  | .removed => false

namespace QueueState

variable {s s' : QueueState ι T}

def pushedItems (s : QueueState ι T) : List (Item T) := s.history.filterMap Event.pushed?

/-- Which items are queued and what became of the others. -/
def ledger (s : QueueState ι T) : FifoLedger (Fate ι) :=
  ⟨s.nextId, s.queue.map Item.id, s.history.filterMap Event.fate?⟩

/-- What has become of an item: `none` for each time it is queued, and its fates. -/
def situations (s : QueueState ι T) (id : ℕ) : List (Option (Fate ι)) := s.ledger.situations id

def delivered (s : QueueState ι T) : List ℕ := s.ledger.met Fate.isDelivery

theorem popFront_eq_some {t : ι} {receiver : T} (h : s.popFront t = some (receiver, s')) :
    ∃ item, item.value = receiver ∧ s.queue = item :: s'.queue ∧
      s' = { s with queue := s'.queue, history := s.history ++ [.delivered item t] } := by
  unfold popFront at h
  split at h
  · cases h
  · rename_i item queue hqueue
    cases h
    exact ⟨item, rfl, hqueue, rfl⟩

/-- What the queue owes its users: its bound, the order of its items and the fate of each, and that
what a predicate removed matches it. -/
structure Fifo (maxSize : ℕ) (s : QueueState ι T) : Prop where
  length_le : s.queue.length ≤ maxSize
  pushedIds : s.pushedItems.map Item.id = List.range s.nextId
  sublist : s.queue.Sublist s.pushedItems
  sound : s.ledger.Sound
  inOrder : s.ledger.InOrder Fate.isDelivery
  matched : ∀ item pred, .removed item pred ∈ s.history →
    pred item.value = true ∧ item ∈ s.pushedItems
  deliveredPushed : ∀ item t, .delivered item t ∈ s.history → item ∈ s.pushedItems

variable {maxSize : ℕ}

theorem Fifo.emplaceBack (hs : s.Fifo maxSize) (value : T)
    (hroom : s.queue.length < maxSize) : (s.emplaceBack value).Fifo maxSize := by
  have hpushed : (s.emplaceBack value).pushedItems = s.pushedItems ++ [⟨s.nextId, value⟩] := by
    simp [pushedItems, QueueState.emplaceBack, Event.pushed?]
  have hledger : (s.emplaceBack value).ledger = s.ledger.push := by
    simp [ledger, QueueState.emplaceBack, FifoLedger.push, Event.fate?]
  constructor
  · simpa [QueueState.emplaceBack] using hroom
  · rw [hpushed, List.map_append, hs.pushedIds]
    exact List.range_succ.symm
  · rw [hpushed]
    exact hs.sublist.append (.refl _)
  · rw [hledger]
    exact hs.sound.push
  · rw [hledger]
    exact hs.inOrder.push hs.sound
  · rw [hpushed]
    intro item pred hmem
    obtain ⟨hmatch, hitem⟩ := hs.matched item pred (by simpa [QueueState.emplaceBack] using hmem)
    exact ⟨hmatch, List.mem_append_left _ hitem⟩
  · rw [hpushed]
    intro item t hmem
    exact List.mem_append_left _
      (hs.deliveredPushed item t (by simpa [QueueState.emplaceBack] using hmem))

theorem Fifo.popFront (hs : s.Fifo maxSize) {t : ι} {receiver : T} (hpop : s.popFront t = some (receiver, s')) :
    s'.Fifo maxSize := by
  obtain ⟨item, -, hqueue, heq⟩ := popFront_eq_some hpop
  have hpushed : s'.pushedItems = s.pushedItems := by
    rw [heq]
    simp [pushedItems, Event.pushed?]
  have hledger : s'.ledger = s.ledger.pop (.delivered t) := by
    rw [heq]
    simp [ledger, FifoLedger.pop, hqueue, Event.fate?]
  have htail : s'.queue.Sublist s.queue := hqueue ▸ List.sublist_cons_self item s'.queue
  have hnext : s'.nextId = s.nextId := by rw [heq]
  have hhistory : s'.history = s.history ++ [.delivered item t] := by rw [heq]
  constructor
  · exact htail.length_le.trans hs.length_le
  · rw [hpushed, hnext]
    exact hs.pushedIds
  · rw [hpushed]
    exact htail.trans hs.sublist
  · rw [hledger]
    exact hs.sound.pop _
  · rw [hledger]
    exact hs.inOrder.pop hs.sound _
  · rw [hpushed, hhistory]
    exact fun item' pred hmem => hs.matched item' pred (by simpa using hmem)
  · rw [hpushed, hhistory]
    intro item' t' hmem
    rcases List.mem_append.mp hmem with hmem | hmem
    · exact hs.deliveredPushed item' t' hmem
    · obtain ⟨rfl, -⟩ : item' = item ∧ t' = t := by simpa using hmem
      exact hs.sublist.subset (hqueue ▸ List.mem_cons_self)

theorem Fifo.removeIf (hs : s.Fifo maxSize) (pred : T → Bool) : (s.removeIf pred).2.Fifo maxSize := by
  have hpushed : (s.removeIf pred).2.pushedItems = s.pushedItems := by
    simp [pushedItems, QueueState.removeIf, List.filterMap_map, Function.comp_def, Event.pushed?]
  have hkept : (s.removeIf pred).2.queue.Sublist s.queue := List.filter_sublist
  have hids : ((s.removeIf pred).2.queue.map Item.id).Sublist s.ledger.held := hkept.map Item.id
  have hledger : (s.removeIf pred).2.ledger = ⟨s.ledger.next, (s.removeIf pred).2.queue.map Item.id,
      s.ledger.fates ++ ((s.queue.filter fun item => pred item.value).map Item.id).map
        (·, Fate.removed)⟩ := by
    simp [ledger, QueueState.removeIf, List.filterMap_map, Function.comp_def, Event.fate?]
  have hperm : ((s.removeIf pred).2.queue.map Item.id
      ++ (s.queue.filter fun item => pred item.value).map Item.id).Perm s.ledger.held := by
    rw [← List.map_append]
    exact (List.perm_append_comm.trans (List.filter_append_perm _ _)).map Item.id
  constructor
  · exact hkept.length_le.trans hs.length_le
  · rw [hpushed]
    exact hs.pushedIds
  · rw [hpushed]
    exact hkept.trans hs.sublist
  · rw [hledger]
    exact hs.sound.withdraw hids hperm _
  · rw [hledger]
    exact hs.inOrder.withdraw hids _ rfl
  · rw [hpushed]
    intro item pred' hmem
    rcases List.mem_append.mp hmem with hmem | hmem
    · exact hs.matched item pred' hmem
    · obtain ⟨item', hitem', heq⟩ := List.mem_map.mp hmem
      cases heq
      obtain ⟨hqueued, hmatch⟩ := List.mem_filter.mp hitem'
      exact ⟨hmatch, hs.sublist.subset hqueued⟩
  · rw [hpushed]
    intro item t hmem
    rcases List.mem_append.mp hmem with hmem | hmem
    · exact hs.deliveredPushed item t hmem
    · obtain ⟨item', -, heq⟩ := List.mem_map.mp hmem
      cases heq

theorem Fifo.record (hs : s.Fifo maxSize) {e : Event ι T} (hpushed : e.pushed? = none)
    (hfate : e.fate? = none) : (s.record e).Fifo maxSize := by
  have hpushedItems : (s.record e).pushedItems = s.pushedItems := by
    simp [pushedItems, QueueState.record, hpushed]
  have hledger : (s.record e).ledger = s.ledger := by
    simp [ledger, QueueState.record, hfate]
  constructor
  · exact hs.length_le
  · rw [hpushedItems]
    exact hs.pushedIds
  · rw [hpushedItems]
    exact hs.sublist
  · rw [hledger]
    exact hs.sound
  · rw [hledger]
    exact hs.inOrder
  · rw [hpushedItems]
    intro item pred hmem
    rcases List.mem_append.mp hmem with hmem | hmem
    · exact hs.matched item pred hmem
    · rw [← List.mem_singleton.mp hmem] at hfate
      cases hfate
  · rw [hpushedItems]
    intro item t hmem
    rcases List.mem_append.mp hmem with hmem | hmem
    · exact hs.deliveredPushed item t hmem
    · rw [← List.mem_singleton.mp hmem] at hfate
      cases hfate

end QueueState

variable [DecidableEq ι] [Fintype ι] {maxSize : ℕ} {s s' : QueueSystem ι T}

variable {t : ι} {a : Action ι T}

theorem Move.fifo (hmove : Move maxSize t s s') (hs : s.state.Fifo maxSize) :
    s'.state.Fifo maxSize := by
  cases hmove with
  | pushed value _ _ hroom => exact hs.emplaceBack value hroom
  | delivered _ hpop => exact hs.popFront hpop
  | removed pred => exact hs.removeIf pred
  | gaveUp => exact hs.record rfl rfl
  | _ => exact hs

theorem fifo (hreach : (queueSystem maxSize).Reachable s) : s.state.Fifo maxSize := by
  refine hreach.invariant (fun s => s.state.Fifo maxSize) ?_ ?_
  · rintro _ rfl
    exact ⟨Nat.zero_le _, rfl, .refl _, FifoLedger.sound_empty, FifoLedger.inOrder_empty _, nofun,
      nofun⟩
  · rintro s s' _ hs ⟨t, a, hstep⟩
    exact (step_move hstep).fifo hs

/-! ### What the calls return -/

/-- A push has put a new item at the end. -/
def QueueState.Appends (s : QueueState ι T) (value : T) (s' : QueueState ι T) : Prop :=
  s'.queue = s.queue ++ [⟨s.nextId, value⟩] ∧ s'.pushedItems = s.pushedItems ++ [⟨s.nextId, value⟩]

omit [DecidableEq ι] [Fintype ι] in
theorem QueueState.appends_emplaceBack (s : QueueState ι T) (value : T) : s.Appends value (s.emplaceBack value) :=
  ⟨rfl, by simp [pushedItems, QueueState.emplaceBack, Event.pushed?]⟩

/-- An attempt of `push` finds the queue full and comes back for another one, or it returns. -/
theorem push_returns {value : T} (hpc : s.threads t = .inside (.push value)) (hstep : step maxSize t a s = some s') :
    maxSize ≤ s.state.queue.length ∧ s' = s ∨
      ∃ queueSize, s'.threads t = .outside (.push queueSize) ∧ s.state.Appends value s'.state ∧
        queueSize = s'.state.queue.length := by
  cases a with
  | go notified extraWakeCondition =>
    simp only [step, hpc, enter, QueueState.pushAttempt] at hstep
    by_cases hfull : s.state.queue.length ≥ maxSize
    · rw [if_pos hfull] at hstep
      cases hstep
      exact .inl ⟨hfull, rfl⟩
    · rw [if_neg hfull] at hstep
      obtain ⟨threads, -, rfl⟩ := Option.map_eq_some_iff.mp hstep
      exact .inr ⟨_, Function.update_self .., s.state.appends_emplaceBack value, by simp [QueueState.emplaceBack]⟩
  | _ => simp [step, hpc] at hstep

theorem tryPush_returns {value : T} (hpc : s.threads t = .inside (.tryPush value))
    (hstep : step maxSize t a s = some s') :
    ∃ result, s'.threads t = .outside (.tryPush result) ∧ result.queueSize = s'.state.queue.length ∧
      if result.pushed then s.state.Appends value s'.state
      else maxSize ≤ s.state.queue.length ∧ s'.state = s.state := by
  cases a with
  | go notified extraWakeCondition =>
    simp only [step, hpc, enter, QueueState.tryPush] at hstep
    by_cases hfull : s.state.queue.length ≥ maxSize
    · rw [if_pos hfull] at hstep
      cases hstep
      exact ⟨_, Function.update_self .., rfl, hfull, rfl⟩
    · rw [if_neg hfull] at hstep
      obtain ⟨threads, -, rfl⟩ := Option.map_eq_some_iff.mp hstep
      exact ⟨_, Function.update_self .., by simp [QueueState.emplaceBack], s.state.appends_emplaceBack value⟩
  | _ => simp [step, hpc] at hstep

/-- A `pop` or `try_pop` takes the oldest item, or nothing from an empty queue. -/
def QueueState.Pops (s : QueueState ι T) (t : ι) (s' : QueueState ι T) : Option T → Prop
  | none => s.queue = [] ∧ s'.queue = []
  | some receiver => ∃ item, item.value = receiver ∧ s.queue = item :: s'.queue ∧
      s'.history = s.history ++ [.delivered item t]

theorem pop_returns {receiver : Option T} (hstep : step maxSize t a s = some s')
    (hreturned : s'.threads t = .outside (.pop receiver)) : s.state.Pops t s'.state receiver := by
  cases step_move hstep with
  | pushed value returned hpc =>
    obtain ⟨-, rfl⟩ | ⟨-, rfl⟩ := hpc
    · simp at hreturned
    · simp at hreturned
  | full hpc =>
    rw [hpc] at hreturned
    cases hreturned
  | delivered hpc hpop =>
    obtain ⟨item, hvalue, hqueue, heq⟩ := QueueState.popFront_eq_some hpop
    obtain rfl : some _ = receiver := by simpa [QueueSystem.set] using hreturned
    exact ⟨item, hvalue, hqueue, congrArg QueueState.history heq⟩
  | leaves returned hpc hpop =>
    obtain rfl : returned = .pop receiver := by simpa [QueueSystem.set] using hreturned
    obtain ⟨rfl, hempty⟩ := hpop receiver rfl
    exact ⟨hempty, hempty⟩
  | gaveUp returned hpc hempty hpop =>
    obtain rfl : returned = .pop receiver := by simpa [QueueSystem.set] using hreturned
    obtain rfl := hpop receiver rfl
    exact ⟨hempty, hempty⟩
  | _ => simp [QueueSystem.set] at hreturned

theorem delivered_returns {item : Item T} {u : ι} (hstep : step maxSize t a s = some s')
    (hmem : .delivered item u ∈ s'.state.history) :
    .delivered item u ∈ s.state.history ∨ u = t ∧ s'.threads t = .outside (.pop (some item.value)) := by
  cases step_move hstep with
  | delivered hpc hpop =>
    obtain ⟨item', rfl, -, heq⟩ := QueueState.popFront_eq_some hpop
    rw [QueueSystem.set, congrArg QueueState.history heq, List.mem_append, List.mem_singleton] at hmem
    refine hmem.imp_right fun hnew => ?_
    cases hnew
    exact ⟨rfl, Function.update_self ..⟩
  | pushed => exact .inl (by simpa [QueueState.emplaceBack] using hmem)
  | removed => exact .inl (by simpa [QueueSystem.set, QueueState.removeIf] using hmem)
  | gaveUp => exact .inl (by simpa [QueueSystem.set, QueueState.record] using hmem)
  | _ => exact .inl hmem

/-- In every reachable state the queue holds no more than `maxSize` items, in the order of their
pushes; each pushed item is queued, delivered once or removed by a matching predicate; and the items
delivered so far and then the queued ones are in the order of their pushes. A `push` or `try_push` returns
the size that it leaves, a failed one leaves the queue alone, and an item is delivered to the `pop` or
`try_pop` that returns it. -/
theorem blockingQueue_fifo (hreach : (queueSystem maxSize).Reachable s) :
    s.state.queue.length ≤ maxSize ∧
    s.state.pushedItems.map Item.id = List.range s.state.nextId ∧
    s.state.queue.Sublist s.state.pushedItems ∧
    (∀ item ∈ s.state.pushedItems, ∃ situation, s.state.situations item.id = [situation]) ∧
    (∀ item pred, .removed item pred ∈ s.state.history →
      pred item.value = true ∧ item ∈ s.state.pushedItems) ∧
    (∀ item t, .delivered item t ∈ s.state.history → item ∈ s.state.pushedItems) ∧
    (s.state.delivered ++ s.state.queue.map Item.id).Pairwise (· < ·) ∧
    ∀ t a s', step maxSize t a s = some s' →
      (∀ value, s.threads t = .inside (.push value) → maxSize ≤ s.state.queue.length ∧ s' = s ∨
        ∃ queueSize, s'.threads t = .outside (.push queueSize) ∧ s.state.Appends value s'.state ∧
          queueSize = s'.state.queue.length) ∧
      (∀ value, s.threads t = .inside (.tryPush value) →
        ∃ result, s'.threads t = .outside (.tryPush result) ∧ result.queueSize = s'.state.queue.length ∧
          if result.pushed then s.state.Appends value s'.state
          else maxSize ≤ s.state.queue.length ∧ s'.state = s.state) ∧
      (∀ receiver, s'.threads t = .outside (.pop receiver) → s.state.Pops t s'.state receiver) ∧
      ∀ item u, .delivered item u ∈ s'.state.history →
        .delivered item u ∈ s.state.history ∨ u = t ∧ s'.threads t = .outside (.pop (some item.value)) := by
  have hs := fifo hreach
  refine ⟨hs.length_le, hs.pushedIds, hs.sublist, fun item hitem => ?_, hs.matched, hs.deliveredPushed, ?_,
    fun t a s' hstep => ⟨fun value hpc => push_returns hpc hstep, fun value hpc => tryPush_returns hpc hstep,
      fun receiver => pop_returns hstep, fun item u => delivered_returns hstep⟩⟩
  · refine hs.sound.exists_situation ?_
    have hid : item.id ∈ s.state.pushedItems.map Item.id := List.mem_map_of_mem hitem
    rw [hs.pushedIds] at hid
    exact List.mem_range.mp hid
  · exact List.pairwise_append.mpr ⟨hs.inOrder.pairwise, hs.sound.pairwise_held, hs.inOrder.lt_held⟩

/-- Thread `true` pushes three items and removes the second; thread `false` takes the first. -/
def pushedAndRemoved : Option (QueueSystem Bool ℕ) :=
  run 3 [(true, .call (.push 5)), (true, .go none false), (true, .call (.tryPush 6)),
    (true, .go none false), (true, .call (.push 7)), (true, .go none false),
    (false, .call (.wait .pop)), (false, .go none false), (true, .call (.removeIf (· = 6))),
    (true, .go none false), (true, .call (.tryPush 8))]

theorem blockingQueue_fifo_pushedAndRemoved : ∃ s, pushedAndRemoved = some s ∧
    s.state.situations 0 = [some (.delivered false)] ∧ s.state.situations 1 = [some .removed] ∧
    s.state.situations 2 = [none] ∧
    (s.state.delivered ++ s.state.queue.map Item.id).Pairwise (· < ·) ∧
    ∀ a s', step 3 true a s = some s' →
      ∃ result, s'.threads true = .outside (.tryPush result) ∧ result.queueSize = s'.state.queue.length := by
  have hrun : pushedAndRemoved.map (fun s =>
      (s.state.situations 0, s.state.situations 1, s.state.situations 2))
      = some ([some (.delivered false)], [some .removed], [none]) := by decide
  have hthreads : pushedAndRemoved.map (fun s => s.threads true) = some (.inside (.tryPush 8)) := rfl
  obtain ⟨s, hs, hvalues⟩ := Option.map_eq_some_iff.mp hrun
  rw [hs, Option.map_some, Option.some.injEq] at hthreads
  simp only [Prod.mk.injEq] at hvalues
  obtain ⟨-, -, -, -, -, -, hordered, hsteps⟩ := blockingQueue_fifo (run_reachable hs)
  refine ⟨s, hs, hvalues.1, hvalues.2.1, hvalues.2.2, hordered, fun a s' hstep => ?_⟩
  obtain ⟨result, hresult, hsize, -⟩ := (hsteps true a s' hstep).2.1 8 hthreads
  exact ⟨result, hresult, hsize⟩

end CppUtils.ConsumerBlockingQueue
