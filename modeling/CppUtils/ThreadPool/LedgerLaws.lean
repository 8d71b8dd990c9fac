import CppUtils.ThreadPool.Ledger

/-!
# Laws of the ledger

Each task is in one place, its body begins at most once, and the outstanding count of a tag is what
it should be. None of them needs an assumption on how `retire` is called.
-/

namespace CppUtils

namespace Ledger

variable {workers : ℕ} {Code : Type} {l l' : Ledger workers Code}

/-! ### One place for each task -/

/-- The places of a task: where it is held, and its destructions. -/
def places (l : Ledger workers Code) (id : ℕ) : ℕ :=
  l.held.countP (fun x => x.1.id = id) + l.history.events.countP (fun e => e.ends id)

theorem Step.places (hstep : Step l l') (id : ℕ) :
    l'.places id + (if id < l.history.nextTaskId then 1 else 0)
      = l.places id + (if id < l'.history.nextTaskId then 1 else 0) := by
  cases hstep with
  | create held retiring tagStates tagNodes history item hid hnull =>
    simp only [Ledger.places, Multiset.countP_cons, History.newTask_events, History.newTask_nextTaskId,
      hid]
    split_ifs <;> omega
  | drop | destroy =>
    simp only [Ledger.places, Multiset.countP_cons, History.finish_events, History.finish_nextTaskId,
      List.countP_cons, TaskEvent.ends_finished, decide_eq_true_eq]
    omega
  | sweep =>
    simp only [Ledger.places, Multiset.countP_add, Multiset.coe_countP, List.countP_map,
      List.countP_append, History.finishAll_events, History.finishAll_nextTaskId]
    simp [Function.comp_def]
    omega
  | _ => simp [Ledger.places, Multiset.countP_cons]

theorem places_eq (hreach : (system workers Code).Reachable l) (id : ℕ) :
    l.places id = if id < l.history.nextTaskId then 1 else 0 := by
  refine TransitionSystem.Reachable.invariant
    (fun l : Ledger workers Code => l.places id = if id < l.history.nextTaskId then 1 else 0)
    ?_ (fun l l' _ hI hstep => ?_) hreach
  · rintro l rfl
    simp [Ledger.places, initial]
  · have h := hstep.places id
    omega

/-! ### Beginnings -/

def begins (l : Ledger workers Code) (id : ℕ) : ℕ := l.history.events.countP (fun e => e.begins id)

def begunPlaces (l : Ledger workers Code) (id : ℕ) : ℕ :=
  l.held.countP (fun x => x.1.id = id ∧ x.2.begun = true)
    + l.history.events.countP (fun e => e.endsRan id)

theorem Step.begins (hstep : Step l l') (id : ℕ) :
    l'.begins id + l.begunPlaces id = l.begins id + l'.begunPlaces id := by
  cases hstep with
  | advance held retiring tagStates tagNodes history item hnext =>
    simp [Ledger.begins, begunPlaces, Multiset.countP_cons, hnext.begun_eq]
  | sweep =>
    simp [Ledger.begins, begunPlaces, Multiset.countP_add, Multiset.coe_countP, List.countP_map,
      Function.comp_def]
  | _ =>
    simp [Ledger.begins, begunPlaces, Multiset.countP_cons, List.countP_cons]
    try omega

theorem begins_eq (hreach : (system workers Code).Reachable l) (id : ℕ) :
    l.begins id = l.begunPlaces id := by
  refine TransitionSystem.Reachable.invariant
    (fun l : Ledger workers Code => l.begins id = l.begunPlaces id)
    ?_ (fun l l' _ hI hstep => ?_) hreach
  · rintro l rfl
    simp [Ledger.begins, begunPlaces, initial]
  · have h := hstep.begins id
    omega

theorem begunPlaces_le (l : Ledger workers Code) (id : ℕ) : l.begunPlaces id ≤ l.places id := by
  refine Nat.add_le_add ?_ (List.countP_mono_left ?_)
  · rw [Multiset.countP_eq_card_filter, Multiset.countP_eq_card_filter]
    exact Multiset.card_le_card (Multiset.monotone_filter_right _ fun x h => h.1)
  · intro e he h
    cases e <;> simp_all

theorem begins_le_one (hreach : (system workers Code).Reachable l) (id : ℕ) : l.begins id ≤ 1 := by
  have hplaces := places_eq hreach id
  have hbegins := begins_eq hreach id
  have hle := l.begunPlaces_le id
  split at hplaces <;> omega

theorem not_held_of_finished (hreach : (system workers Code).Reachable l) {id : ℕ} {fate : Fate}
    (hmem : .finished id fate ∈ l.history.events) : ∀ x ∈ l.held, x.1.id ≠ id := by
  intro x hx hid
  have hplaces := places_eq hreach id
  have hheld : 0 < l.held.countP fun x => x.1.id = id := Multiset.countP_pos_of_mem hx hid
  have hended : 0 < l.history.events.countP fun e => e.ends id :=
    List.countP_pos_iff.mpr ⟨_, hmem, by simp⟩
  rw [Ledger.places] at hplaces
  split at hplaces <;> omega

theorem finished_of_not_held (hreach : (system workers Code).Reachable l) {id : ℕ}
    (hid : id < l.history.nextTaskId) (hheld : ∀ x ∈ l.held, x.1.id ≠ id) :
    ∃ fate, .finished id fate ∈ l.history.events := by
  have hplaces := places_eq hreach id
  rw [Ledger.places, if_pos hid, Multiset.countP_eq_zero.mpr hheld, zero_add] at hplaces
  obtain ⟨e, he, hends⟩ := List.countP_pos_iff.mp (hplaces ▸ one_pos)
  cases e with
  | finished id' fate =>
    obtain rfl : id' = id := by simpa using hends
    exact ⟨fate, he⟩
  | _ => simp at hends

/-- A destroyed task is nowhere else, and its body has begun exactly if it ran. -/
theorem begins_of_finished (hreach : (system workers Code).Reachable l) {id : ℕ} {fate : Fate}
    (hmem : .finished id fate ∈ l.history.events) :
    l.begins id = if fate = .ran then 1 else 0 := by
  obtain ⟨later, earlier, hevents⟩ := List.append_of_mem hmem
  have hplaces := places_eq hreach id
  have hends : ∀ e : TaskEvent workers, e.endsRan id = true → e.ends id = true := by
    intro e he
    cases e <;> simp_all
  have hle : ∀ events : List (TaskEvent workers),
      events.countP (fun e => e.endsRan id) ≤ events.countP (fun e => e.ends id) :=
    fun events => List.countP_mono_left fun e _ => hends e
  have hlater := hle later
  have hearlier := hle earlier
  have hheld : l.held.countP (fun x => x.1.id = id ∧ x.2.begun = true)
      ≤ l.held.countP fun x => x.1.id = id := by
    rw [Multiset.countP_eq_card_filter, Multiset.countP_eq_card_filter]
    exact Multiset.card_le_card (Multiset.monotone_filter_right _ fun x h => h.1)
  rw [begins_eq hreach, begunPlaces]
  simp only [Ledger.places, hevents, List.countP_append, List.countP_cons, TaskEvent.ends_finished,
    TaskEvent.endsRan_finished, decide_true, if_true, true_and, decide_eq_true_eq] at hplaces ⊢
  split at hplaces <;> omega

/-! ### The outstanding counts -/

/-- The tasks that hold a counted pointer to this node. -/
def refs (l : Ledger workers Code) (tagState : ℕ) : ℕ :=
  l.held.countP fun x => x.2.counted = true ∧ x.1.tagState = some tagState

/-- The tasks that `retire` calls have removed from the lanes and not subtracted. -/
def pendingRemoved (l : Ledger workers Code) (tagState : ℕ) : ℕ :=
  (l.retiring.map fun r => if r.tagState = tagState then r.removed else 0).sum

/-- The count in a node, zero where there is none. -/
def outstanding (l : Ledger workers Code) (tagState : ℕ) : ℤ :=
  match l.tagNodes tagState with
  | none => 0
  | some node => node.outstandingTaskCount

theorem outstanding_of_node {tagState : ℕ} {node : TagNode} (hnode : l.tagNodes tagState = some node) :
    l.outstanding tagState = node.outstandingTaskCount := by
  rw [outstanding, hnode]

theorem outstanding_of_free {tagState : ℕ} (hfree : l.tagNodes tagState = none) :
    l.outstanding tagState = 0 := by
  rw [outstanding, hfree]

theorem Step.outstanding (hstep : Step l l') (tagState : ℕ) :
    l'.outstanding tagState + (l.refs tagState + l.pendingRemoved tagState)
      = l.outstanding tagState + (l'.refs tagState + l'.pendingRemoved tagState) := by
  cases hstep with
  | advance held retiring tagStates tagNodes history item hnext =>
    simp [Ledger.outstanding, refs, pendingRemoved, Multiset.countP_cons, hnext.counted_eq]
  | emplace held retiring tagStates tagNodes history tag address hnew hfree =>
    by_cases ha : tagState = address <;>
      simp [Ledger.outstanding, refs, pendingRemoved, ha, hfree]
  | register held retiring tagStates tagNodes history item a node hnull hentry hnode hretired =>
    by_cases ha : tagState = a
    · subst ha
      simp [Ledger.outstanding, refs, pendingRemoved, hnode, hnull]
      omega
    · have ha' : a ≠ tagState := fun h => ha h.symm
      simp [Ledger.outstanding, refs, pendingRemoved, ha, ha', hnull]
  | complete held retiring tagStates tagNodes history item fate a node hitem hnode =>
    by_cases ha : tagState = a
    · subst ha
      simp [Ledger.outstanding, refs, pendingRemoved, hnode, hitem]
      omega
    · have ha' : a ≠ tagState := fun h => ha h.symm
      simp [Ledger.outstanding, refs, pendingRemoved, ha, ha', hitem]
  | completeUntagged held retiring tagStates tagNodes history item fate hitem =>
    simp [Ledger.outstanding, refs, pendingRemoved, hitem]
  | retireStart held retiring tagStates tagNodes history tag a node hentry hnode =>
    by_cases ha : tagState = a
    · subst ha
      simp [Ledger.outstanding, refs, pendingRemoved, hnode]
    · simp [Ledger.outstanding, refs, pendingRemoved, ha]
  | sweep held retiring tagStates tagNodes history tag a k items hitems =>
    have hcount : items.countP (fun item => item.tagState = some tagState)
        = if a = tagState then items.length else 0 := by
      split_ifs with ha
      · exact List.countP_eq_length.mpr fun item hitem => by simp [hitems item hitem, ha]
      · exact List.countP_eq_zero.mpr fun item hitem => by simp [hitems item hitem, ha]
    simp [Ledger.outstanding, refs, pendingRemoved, Multiset.countP_add, Multiset.coe_countP,
      List.countP_map, Function.comp_def, hcount]
    split_ifs <;> omega
  | subtract held retiring tagStates tagNodes history tag a k node hnode =>
    by_cases ha : tagState = a
    · subst ha
      simp [Ledger.outstanding, refs, pendingRemoved, hnode]
      omega
    · have ha' : a ≠ tagState := fun h => ha h.symm
      simp [Ledger.outstanding, refs, pendingRemoved, ha, ha']
  | retireEnd held retiring tagStates tagNodes history tag a node hnode hzero hentry =>
    by_cases ha : tagState = a
    · subst ha
      simp [Ledger.outstanding, refs, pendingRemoved, hnode, hzero]
    · simp [Ledger.outstanding, refs, pendingRemoved, ha]
  | retireEndStale => simp [Ledger.outstanding, refs, pendingRemoved]
  | create _ _ _ _ _ item _ hnull | drop _ _ _ _ _ item _ _ hnull =>
    simp [Ledger.outstanding, refs, pendingRemoved, hnull]
  | _ => simp [Ledger.outstanding, refs, pendingRemoved, Multiset.countP_cons]

/-- The count of a node is the number of tasks that point to it and are not accounted yet, those
that a `retire` has removed and not subtracted included. Nothing points to a free address. -/
theorem outstanding_eq (hreach : (system workers Code).Reachable l) (tagState : ℕ) :
    l.outstanding tagState = l.refs tagState + l.pendingRemoved tagState := by
  refine TransitionSystem.Reachable.invariant
    (fun l : Ledger workers Code => l.outstanding tagState = l.refs tagState + l.pendingRemoved tagState)
    ?_ (fun l l' _ hI hstep => ?_) hreach
  · rintro l rfl
    simp [Ledger.outstanding, refs, pendingRemoved, initial]
  · have h := hstep.outstanding tagState
    omega

/-! ### The nodes and their tags -/

def NodeAt (tagNodes : ℕ → Option TagNode) (tagState tag : ℕ) : Prop :=
  ∃ node, tagNodes tagState = some node ∧ node.tag = tag

theorem nodeAt_update {tagNodes : ℕ → Option TagNode} {a : ℕ} {node node' : TagNode}
    (hnode : tagNodes a = some node) (htag : node'.tag = node.tag) (tagState tag : ℕ) :
    NodeAt (Function.update tagNodes a (some node')) tagState tag ↔ NodeAt tagNodes tagState tag := by
  by_cases ha : tagState = a
  · subst ha
    simp [NodeAt, hnode, htag]
  · simp [NodeAt, ha]

theorem NodeAt.tag_eq {tagNodes : ℕ → Option TagNode} {tagState tag : ℕ} {node : TagNode}
    (h : NodeAt tagNodes tagState tag) (hnode : tagNodes tagState = some node) : node.tag = tag := by
  obtain ⟨node', hnode', htag⟩ := h
  rw [hnode] at hnode'
  cases hnode'
  exact htag

theorem nodeAt_free {tagNodes : ℕ → Option TagNode} {address tag : ℕ}
    (hfree : tagNodes address = none) : ¬ NodeAt tagNodes address tag := by
  simp [NodeAt, hfree]

/-- The index of the map and its nodes agree. -/
theorem indexed (hreach : (system workers Code).Reachable l) (tag tagState : ℕ) :
    l.tagStates tag = some tagState ↔ NodeAt l.tagNodes tagState tag := by
  refine TransitionSystem.Reachable.invariant
    (fun l : Ledger workers Code =>
      ∀ tag tagState, l.tagStates tag = some tagState ↔ NodeAt l.tagNodes tagState tag)
    ?_ (fun l l' _ hI hstep => ?_) hreach tag tagState
  · rintro l rfl tag tagState
    simp [initial, NodeAt]
  · intro tag tagState
    cases hstep with
    | emplace held retiring tagStates tagNodes history tag' address hnew hfree =>
      have hold := hI tag tagState
      have htag := hI tag' tagState
      simp only [hnew] at htag
      by_cases ha : tagState = address
      · subst ha
        by_cases ht : tag = tag'
        · subst ht
          simp [NodeAt]
        · have ht' : tag' ≠ tag := fun h => ht h.symm
          simpa [NodeAt, ht, ht', hfree] using hold
      · by_cases ht : tag = tag'
        · subst ht
          have ha' : address ≠ tagState := fun h => ha h.symm
          simpa [NodeAt, ha, ha'] using htag
        · simpa [NodeAt, ha, ht] using hold
    | register held retiring tagStates tagNodes history item a node hnull hentry hnode =>
      exact (hI tag tagState).trans (nodeAt_update hnode (node.add_tag 1) _ _).symm
    | complete held retiring tagStates tagNodes history item fate a node hitem hnode =>
      exact (hI tag tagState).trans (nodeAt_update hnode (node.add_tag (-1)) _ _).symm
    | retireStart held retiring tagStates tagNodes history tag' a node hentry hnode =>
      exact (hI tag tagState).trans (nodeAt_update hnode node.retire_tag _ _).symm
    | subtract held retiring tagStates tagNodes history tag' a k node hnode =>
      exact (hI tag tagState).trans (nodeAt_update hnode (node.add_tag (-k)) _ _).symm
    | retireEnd held retiring tagStates tagNodes history tag' a node hnode hzero hentry =>
      have hold := hI tag tagState
      have htag : node.tag = tag' := ((hI tag' a).mp hentry).tag_eq hnode
      by_cases ha : tagState = a
      · subst ha
        by_cases ht : tag = tag'
        · simp [NodeAt, ht]
        · have ht' : tagStates tag ≠ some tagState := fun h =>
            ht (((hold.mp h).tag_eq hnode).symm.trans htag)
          simp [NodeAt, ht, ht']
      · by_cases ht : tag = tag'
        · subst ht
          have ha' : ¬ NodeAt tagNodes tagState tag := fun h =>
            ha (Option.some.inj ((hold.mpr h).symm.trans hentry))
          simpa [NodeAt, ha] using ha'
        · simpa [NodeAt, ha, ht] using hold
    | _ => exact hI tag tagState

/-- There are finitely many nodes, so the allocator finds a free address. -/
theorem finite_nodes (hreach : (system workers Code).Reachable l) :
    {address | l.tagNodes address ≠ none}.Finite := by
  refine TransitionSystem.Reachable.invariant
    (fun l : Ledger workers Code => {address | l.tagNodes address ≠ none}.Finite)
    ?_ (fun l l' _ hI hstep => ?_) hreach
  · rintro l rfl
    simp [initial]
  · have hupdate : ∀ {tagNodes : ℕ → Option TagNode} (a : ℕ) (node : Option TagNode),
        {address | tagNodes address ≠ none}.Finite →
          {address | Function.update tagNodes a node address ≠ none}.Finite := by
      intro tagNodes a node hfinite
      refine (hfinite.insert a).subset fun address haddress => ?_
      by_cases h : address = a
      · exact .inl h
      · have hold : Function.update tagNodes a node address ≠ none := haddress
        rw [Function.update_of_ne h] at hold
        exact .inr hold
    cases hstep with
    | emplace | register | complete | retireStart | subtract | retireEnd => exact hupdate _ _ hI
    | _ => exact hI

/-- A task that is not accounted yet points to the node of its own tag. -/
theorem nodeAt_of_mem (hreach : (system workers Code).Reachable l) :
    ∀ x ∈ l.held, x.2.counted = true → ∀ tagState, x.1.tagState = some tagState →
      NodeAt l.tagNodes tagState x.1.tag := by
  refine TransitionSystem.Reachable.invariant
    (fun l : Ledger workers Code => ∀ x ∈ l.held, x.2.counted = true → ∀ tagState,
      x.1.tagState = some tagState → NodeAt l.tagNodes tagState x.1.tag)
    ?_ (fun l l' hr hI hstep => ?_) hreach
  · rintro l rfl x hx
    exact absurd hx (Multiset.notMem_zero x)
  · intro x hx hcounted tagState hitem
    cases hstep with
    | create held retiring tagStates tagNodes history item hid hnull =>
      rcases Multiset.mem_cons.mp hx with rfl | hx
      · rw [hnull] at hitem
        cases hitem
      · exact hI x hx hcounted tagState hitem
    | emplace held retiring tagStates tagNodes history tag address hnew hfree =>
      have hnode := hI x hx hcounted tagState hitem
      by_cases ha : tagState = address
      · subst ha
        exact absurd hnode (nodeAt_free hfree)
      · simpa [NodeAt, ha] using hnode
    | drop => exact hI x (Multiset.mem_cons_of_mem hx) hcounted tagState hitem
    | register held retiring tagStates tagNodes history item a node hnull hentry hnode hretired =>
      refine (nodeAt_update hnode (node.add_tag 1) _ _).mpr ?_
      rcases Multiset.mem_cons.mp hx with rfl | hx
      · cases hitem
        exact (indexed hr _ _).mp hentry
      · exact hI x (Multiset.mem_cons_of_mem hx) hcounted tagState hitem
    | advance held retiring tagStates tagNodes history item hnext =>
      rcases Multiset.mem_cons.mp hx with rfl | hx
      · exact hI _ (Multiset.mem_cons_self _ _) (hnext.counted_eq ▸ hcounted) tagState hitem
      · exact hI x (Multiset.mem_cons_of_mem hx) hcounted tagState hitem
    | skip | begin =>
      rcases Multiset.mem_cons.mp hx with rfl | hx
      · exact hI _ (Multiset.mem_cons_self _ _) rfl tagState hitem
      · exact hI x (Multiset.mem_cons_of_mem hx) hcounted tagState hitem
    | completeUntagged =>
      rcases Multiset.mem_cons.mp hx with rfl | hx
      · cases hcounted
      · exact hI x (Multiset.mem_cons_of_mem hx) hcounted tagState hitem
    | complete held retiring tagStates tagNodes history item fate a node hitem' hnode =>
      refine (nodeAt_update hnode (node.add_tag (-1)) _ _).mpr ?_
      rcases Multiset.mem_cons.mp hx with rfl | hx
      · cases hcounted
      · exact hI x (Multiset.mem_cons_of_mem hx) hcounted tagState hitem
    | destroy => exact hI x (Multiset.mem_cons_of_mem hx) hcounted tagState hitem
    | retireStart held retiring tagStates tagNodes history tag a node hentry hnode =>
      exact (nodeAt_update hnode node.retire_tag _ _).mpr (hI x hx hcounted tagState hitem)
    | subtract held retiring tagStates tagNodes history tag a k node hnode =>
      exact (nodeAt_update hnode (node.add_tag (-k)) _ _).mpr (hI x hx hcounted tagState hitem)
    | sweep => exact hI x (Multiset.mem_add.mpr (.inr hx)) hcounted tagState hitem
    | retireEnd held retiring tagStates tagNodes history tag a node hnode hzero hentry =>
      have hold := hI x hx hcounted tagState hitem
      by_cases ha : tagState = a
      · -- The node goes only when no task points to it.
        subst ha
        have hcount := outstanding_eq hr tagState
        have hrefs : 0 < held.countP fun x => x.2.counted = true ∧ x.1.tagState = some tagState :=
          Multiset.countP_pos_of_mem hx ⟨hcounted, hitem⟩
        simp only [Ledger.outstanding, hnode, hzero, refs] at hcount
        omega
      · simpa [NodeAt, ha] using hold
    | retireEndStale => exact hI x hx hcounted tagState hitem

/-! ### Registration -/

theorem registered_of_mem (hreach : (system workers Code).Reachable l) :
    ∀ x ∈ l.held, x.1.tagState ≠ none → .registered x.1.id x.1.tag ∈ l.history.events := by
  refine TransitionSystem.Reachable.invariant
    (fun l : Ledger workers Code => ∀ x ∈ l.held, x.1.tagState ≠ none →
      .registered x.1.id x.1.tag ∈ l.history.events)
    ?_ (fun l l' hr hI hstep => ?_) hreach
  · rintro l rfl x hx
    exact absurd hx (Multiset.notMem_zero x)
  · cases hstep with
    | create _ _ _ _ _ item _ hnull =>
      exact Multiset.forall_mem_cons.mpr ⟨fun hitem => absurd hnull hitem, hI⟩
    | register =>
      obtain ⟨-, hrest⟩ := Multiset.forall_mem_cons.mp hI
      exact Multiset.forall_mem_cons.mpr ⟨fun _ => List.mem_cons_self,
        fun x hx hitem => List.mem_cons_of_mem _ (hrest x hx hitem)⟩
    | advance | skip | complete | completeUntagged =>
      exact Multiset.forall_mem_cons.mpr (Multiset.forall_mem_cons.mp hI)
    | begin =>
      obtain ⟨hfirst, hrest⟩ := Multiset.forall_mem_cons.mp hI
      exact Multiset.forall_mem_cons.mpr ⟨fun hitem => List.mem_cons_of_mem _ (hfirst hitem),
        fun x hx hitem => List.mem_cons_of_mem _ (hrest x hx hitem)⟩
    | drop | destroy =>
      obtain ⟨-, hrest⟩ := Multiset.forall_mem_cons.mp hI
      exact fun x hx hitem => List.mem_cons_of_mem _ (hrest x hx hitem)
    | retireStart => exact fun x hx hitem => List.mem_cons_of_mem _ (hI x hx hitem)
    | sweep =>
      exact fun x hx hitem =>
        List.mem_append_right _ (hI x (Multiset.mem_add.mpr (.inr hx)) hitem)
    | emplace | subtract | retireEnd | retireEndStale => exact hI

/-- A registered task has been created, and wherever it is held it points to a node of the tag it is
registered under. -/
def RegistrationKept (l : Ledger workers Code) : Prop :=
  ∀ id tag, .registered id tag ∈ l.history.events →
    id < l.history.nextTaskId ∧ ∀ x ∈ l.held, x.1.id = id → x.1.tagState ≠ none ∧ x.1.tag = tag

theorem id_ne_of_mem_cons {x y : HeldTask Code} {held : Multiset (HeldTask Code)}
    (hreach : (system workers Code).Reachable l) (hheld : l.held = x ::ₘ held) (hy : y ∈ held) :
    y.1.id ≠ x.1.id := by
  intro hid
  have hplaces := places_eq hreach x.1.id
  have hpos : 0 < held.countP fun z => z.1.id = x.1.id := Multiset.countP_pos_of_mem hy hid
  simp only [Ledger.places, hheld, Multiset.countP_cons_of_pos (p := fun z => z.1.id = x.1.id) held rfl]
    at hplaces
  split_ifs at hplaces <;> omega

theorem lt_nextTaskId_of_mem (hreach : (system workers Code).Reachable l) :
    ∀ x ∈ l.held, x.1.id < l.history.nextTaskId := by
  intro x hx
  by_contra hge
  have hplaces := places_eq hreach x.1.id
  have hpos : 0 < l.held.countP fun z => z.1.id = x.1.id := Multiset.countP_pos_of_mem hx rfl
  rw [if_neg hge, Ledger.places] at hplaces
  omega

theorem registrationKept (hreach : (system workers Code).Reachable l) : l.RegistrationKept := by
  refine TransitionSystem.Reachable.invariant RegistrationKept ?_ (fun l l' hr hI hstep => ?_) hreach
  · rintro l rfl id tag hmem
    exact absurd hmem List.not_mem_nil
  · intro id tag hmem
    cases hstep with
    | create held retiring tagStates tagNodes history item hid hnull =>
      obtain ⟨hlt, hheld⟩ := hI id tag hmem
      refine ⟨Nat.lt_succ_of_lt hlt, fun x hx hxid => ?_⟩
      rcases Multiset.mem_cons.mp hx with rfl | hx
      · exact absurd (hid.symm.trans hxid) (Nat.ne_of_gt hlt)
      · exact hheld x hx hxid
    | register held retiring tagStates tagNodes history item a node hnull hentry hnode hretired =>
      rcases List.mem_cons.mp hmem with heq | hmem
      · cases heq
        refine ⟨?_, fun x hx hxid => ?_⟩
        · exact lt_nextTaskId_of_mem hr (item, .entering) (Multiset.mem_cons_self _ _)
        · rcases Multiset.mem_cons.mp hx with rfl | hx
          · exact ⟨by simp, rfl⟩
          · exact absurd hxid (id_ne_of_mem_cons hr rfl hx)
      · obtain ⟨hlt, hheld⟩ := hI id tag hmem
        refine ⟨hlt, fun x hx hxid => ?_⟩
        rcases Multiset.mem_cons.mp hx with rfl | hx
        · exact absurd hnull (hheld (item, .entering) (Multiset.mem_cons_self _ _) hxid).1
        · exact hheld x (Multiset.mem_cons_of_mem hx) hxid
    | advance | skip | complete | completeUntagged =>
      obtain ⟨hlt, hheld⟩ := hI id tag hmem
      exact ⟨hlt, Multiset.forall_mem_cons.mpr (Multiset.forall_mem_cons.mp hheld)⟩
    | begin =>
      obtain ⟨hlt, hheld⟩ := hI id tag (List.mem_of_ne_of_mem (by simp) hmem)
      exact ⟨hlt, Multiset.forall_mem_cons.mpr (Multiset.forall_mem_cons.mp hheld)⟩
    | drop | destroy =>
      obtain ⟨hlt, hheld⟩ := hI id tag (List.mem_of_ne_of_mem (by simp) hmem)
      exact ⟨hlt, fun x hx => hheld x (Multiset.mem_cons_of_mem hx)⟩
    | retireStart => exact hI id tag (List.mem_of_ne_of_mem (by simp) hmem)
    | sweep held retiring tagStates tagNodes history tag' a k items hitems =>
      have hmem' : .registered id tag ∈ history.events := by
        rcases List.mem_append.mp hmem with h | h
        · simp at h
        · exact h
      obtain ⟨hlt, hheld⟩ := hI id tag hmem'
      exact ⟨hlt, fun x hx => hheld x (Multiset.mem_add.mpr (.inr hx))⟩
    | emplace | subtract | retireEnd | retireEndStale => exact hI id tag hmem

end Ledger

end CppUtils
