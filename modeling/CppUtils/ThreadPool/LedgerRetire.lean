import CppUtils.ThreadPool.LedgerLaws

/-!
# Retired tags in the ledger

A tag is marked as retired while a `retire` call for it is in progress, and a task is skipped only
when its own tag was retired after the task was registered. With one `retire` at a time for a tag,
the pointer of each such call is valid.
-/

namespace CppUtils

namespace Ledger

variable {workers : ℕ} {Code : Type} {l l' : Ledger workers Code}

/-- The node at this address is for this tag and marked as retired. -/
def MarkedAt (tagNodes : ℕ → Option TagNode) (tagState tag : ℕ) : Prop :=
  ∃ node, tagNodes tagState = some node ∧ node.tag = tag ∧ node.retired = true

section Marks

variable {tagNodes : ℕ → Option TagNode} {a tagState tag : ℕ} {node node' : TagNode}

theorem MarkedAt.nodeAt (h : MarkedAt tagNodes tagState tag) : NodeAt tagNodes tagState tag := by
  obtain ⟨node, hnode, htag, -⟩ := h
  exact ⟨node, hnode, htag⟩

theorem markedAt_update (hnode : tagNodes a = some node) (htag : node'.tag = node.tag)
    (hretired : node'.retired = node.retired) :
    MarkedAt (Function.update tagNodes a (some node')) tagState tag
      ↔ MarkedAt tagNodes tagState tag := by
  by_cases ha : tagState = a
  · subst ha
    simp [MarkedAt, hnode, htag, hretired]
  · simp [MarkedAt, ha]

theorem MarkedAt.of_update_unmarked (hretired : node'.retired = false)
    (h : MarkedAt (Function.update tagNodes a (some node')) tagState tag) :
    tagState ≠ a ∧ MarkedAt tagNodes tagState tag := by
  by_cases ha : tagState = a
  · subst ha
    simp [MarkedAt, hretired] at h
  · exact ⟨ha, by simpa [MarkedAt, ha] using h⟩

theorem MarkedAt.of_erase (h : MarkedAt (Function.update tagNodes a none) tagState tag) :
    tagState ≠ a ∧ MarkedAt tagNodes tagState tag := by
  by_cases ha : tagState = a
  · subst ha
    simp [MarkedAt] at h
  · exact ⟨ha, by simpa [MarkedAt, ha] using h⟩

end Marks

/-! ### Marks and calls -/

/-- A tag that is marked as retired has a `retire` in progress. -/
theorem retiring_of_markedAt (hreach : (system workers Code).Reachable l) :
    ∀ tagState tag, MarkedAt l.tagNodes tagState tag →
      ∃ r ∈ l.retiring, r.tag = tag ∧ r.tagState = tagState := by
  refine TransitionSystem.Reachable.invariant
    (fun l : Ledger workers Code => ∀ tagState tag, MarkedAt l.tagNodes tagState tag →
      ∃ r ∈ l.retiring, r.tag = tag ∧ r.tagState = tagState)
    ?_ (fun l l' hr hI hstep => ?_) hreach
  · rintro l rfl tagState tag ⟨node, hnode, -⟩
    cases hnode
  · intro tagState tag hmarked
    cases hstep with
    | emplace => exact hI tagState tag (hmarked.of_update_unmarked rfl).2
    | register _ _ _ _ _ _ _ node _ _ _ hretired =>
      exact hI tagState tag
        (hmarked.of_update_unmarked ((node.add_retired 1).trans hretired)).2
    | complete _ _ _ _ _ _ _ _ node _ hnode =>
      exact hI tagState tag
        ((markedAt_update hnode (node.add_tag (-1)) (node.add_retired (-1))).mp hmarked)
    | retireStart held retiring tagStates tagNodes history tag' a node hentry hnode =>
      by_cases ha : tagState = a
      · subst ha
        obtain ⟨node', hnode', htag, -⟩ := hmarked
        simp only [Function.update_self, Option.some.injEq] at hnode'
        subst hnode'
        have htag' := ((indexed hr tag' tagState).mp hentry).tag_eq hnode
        exact ⟨_, Multiset.mem_cons_self _ _, htag'.symm.trans htag, rfl⟩
      · have hold : MarkedAt tagNodes tagState tag := by simpa [MarkedAt, ha] using hmarked
        obtain ⟨r, hmem, heq⟩ := hI tagState tag hold
        exact ⟨r, Multiset.mem_cons_of_mem hmem, heq⟩
    | sweep =>
      obtain ⟨r, hmem, heq⟩ := hI tagState tag hmarked
      rcases Multiset.mem_cons.mp hmem with rfl | hmem
      · exact ⟨_, Multiset.mem_cons_self _ _, heq⟩
      · exact ⟨r, Multiset.mem_cons_of_mem hmem, heq⟩
    | subtract held retiring tagStates tagNodes history tag' a k node hnode =>
      obtain ⟨r, hmem, heq⟩ :=
        hI tagState tag ((markedAt_update hnode (node.add_tag (-k)) (node.add_retired (-k))).mp hmarked)
      rcases Multiset.mem_cons.mp hmem with rfl | hmem
      · exact ⟨_, Multiset.mem_cons_self _ _, heq⟩
      · exact ⟨r, Multiset.mem_cons_of_mem hmem, heq⟩
    | retireEnd =>
      obtain ⟨ha, hold⟩ := hmarked.of_erase
      obtain ⟨r, hmem, htag, htagState⟩ := hI tagState tag hold
      rcases Multiset.mem_cons.mp hmem with rfl | hmem
      · exact absurd htagState.symm ha
      · exact ⟨r, hmem, htag, htagState⟩
    | retireEndStale held retiring tagStates tagNodes history tag' a node hnode hzero hentry =>
      obtain ⟨r, hmem, htag, htagState⟩ := hI tagState tag hmarked
      rcases Multiset.mem_cons.mp hmem with rfl | hmem
      · -- The entry of the tag is another node, so this call did not mark the node it points to.
        obtain rfl : tag' = tag := htag
        obtain rfl : a = tagState := htagState
        exact absurd ((indexed hr tag' a).mpr hmarked.nodeAt) hentry
      · exact ⟨r, hmem, htag, htagState⟩
    | _ => exact hI tagState tag hmarked

/-- With one `retire` at a time for a tag: each call points to the node of its tag, which it marked. -/
def OneRetirePerTag (l : Ledger workers Code) : Prop :=
  ∀ tag, l.retiring.countP (fun r => r.tag = tag) ≤ 1

theorem markedAt_of_retiring (hreach : (system workers Code).ReachableUnder OneRetirePerTag l) :
    ∀ r ∈ l.retiring, MarkedAt l.tagNodes r.tagState r.tag := by
  refine TransitionSystem.ReachableUnder.invariant
    (fun l : Ledger workers Code => ∀ r ∈ l.retiring, MarkedAt l.tagNodes r.tagState r.tag)
    ?_ (fun l l' hr hI hstep _ => ?_) hreach
  · rintro l rfl - r hmem
    exact absurd hmem (Multiset.notMem_zero r)
  · have hone := hr.keeps
    have hr := hr.reachable
    intro r hmem
    cases hstep with
    | emplace held retiring tagStates tagNodes history tag address hnew hfree =>
      have hold := hI r hmem
      have ha : r.tagState ≠ address := by
        intro ha
        rw [ha] at hold
        exact nodeAt_free hfree hold.nodeAt
      simpa [MarkedAt, ha] using hold
    | register held retiring tagStates tagNodes history item a node hnull hentry hnode hretired =>
      have hold := hI r hmem
      have ha : r.tagState ≠ a := by
        intro ha
        obtain ⟨node', hnode', -, hretired'⟩ := hold
        rw [ha] at hnode'
        cases hnode.symm.trans hnode'
        rw [hretired] at hretired'
        cases hretired'
      simpa [MarkedAt, ha] using hold
    | complete held retiring tagStates tagNodes history item fate a node hitem hnode =>
      exact (markedAt_update hnode (node.add_tag (-1)) (node.add_retired (-1))).mpr (hI r hmem)
    | retireStart held retiring tagStates tagNodes history tag a node hentry hnode =>
      have hnew : ∀ tag', node.tag = tag' →
          MarkedAt (Function.update tagNodes a (some node.retire)) a tag' :=
        fun tag' htag => ⟨_, Function.update_self _ _ _, htag, rfl⟩
      rcases Multiset.mem_cons.mp hmem with rfl | hmem
      · exact hnew tag (((indexed hr tag a).mp hentry).tag_eq hnode)
      · obtain ⟨tag', tagState, removed⟩ := r
        have hold := hI _ hmem
        by_cases ha : tagState = a
        · subst ha
          exact hnew tag' (hold.nodeAt.tag_eq hnode)
        · simpa [MarkedAt, ha] using hold
    | sweep held retiring tagStates tagNodes history tag a k items hitems =>
      rcases Multiset.mem_cons.mp hmem with rfl | hmem
      · exact hI ⟨tag, a, k⟩ (Multiset.mem_cons_self _ _)
      · exact hI r (Multiset.mem_cons_of_mem hmem)
    | subtract held retiring tagStates tagNodes history tag a k node hnode =>
      refine (markedAt_update hnode (node.add_tag (-k)) (node.add_retired (-k))).mpr ?_
      rcases Multiset.mem_cons.mp hmem with rfl | hmem
      · exact hI ⟨tag, a, k⟩ (Multiset.mem_cons_self _ _)
      · exact hI r (Multiset.mem_cons_of_mem hmem)
    | retireEnd held retiring tagStates tagNodes history tag a node hnode hzero hentry =>
      obtain ⟨tag', tagState, removed⟩ := r
      have hold := hI _ (Multiset.mem_cons_of_mem hmem)
      have ha : tagState ≠ a := by
        -- Another call with this pointer would be for the same tag.
        rintro rfl
        have htag : tag' = tag :=
          (hold.nodeAt.tag_eq hnode).symm.trans (((indexed hr tag tagState).mp hentry).tag_eq hnode)
        have hcount := hone tag
        have hpos : 0 < retiring.countP fun r => r.tag = tag :=
          Multiset.countP_pos_of_mem hmem htag
        simp only [Multiset.countP_cons, if_true] at hcount
        omega
      simpa [MarkedAt, ha] using hold
    | retireEndStale => exact hI r (Multiset.mem_cons_of_mem hmem)
    | _ => exact hI r hmem

/-! ### Skipped tasks -/

/-- The tag was retired after the task was registered under it. -/
def RetiredAfter (events : List (TaskEvent workers)) (id tag : ℕ) : Prop :=
  ∃ later between earlier,
    events = later ++ .retired tag :: (between ++ .registered id tag :: earlier)

theorem RetiredAfter.append {events : List (TaskEvent workers)} {id tag : ℕ}
    (h : RetiredAfter events id tag) (later : List (TaskEvent workers)) :
    RetiredAfter (later ++ events) id tag := by
  obtain ⟨later', between, earlier, rfl⟩ := h
  exact ⟨later ++ later', between, earlier, by simp⟩

/-- If the node of a task is marked, the task was registered before its tag was retired. -/
def MarkedLater (l : Ledger workers Code) (x : HeldTask Code) : Prop :=
  x.2.counted = true → ∀ tagState tag, x.1.tagState = some tagState →
    MarkedAt l.tagNodes tagState tag → RetiredAfter l.history.events x.1.id x.1.tag

private theorem MarkedLater.of_marks {x : HeldTask Code} (h : l.MarkedLater x)
    (later : List (TaskEvent workers)) (hevents : l'.history.events = later ++ l.history.events)
    (hmarks : ∀ tagState tag, MarkedAt l'.tagNodes tagState tag → MarkedAt l.tagNodes tagState tag) :
    l'.MarkedLater x := fun hcounted tagState tag hitem hmarked => by
  rw [hevents]
  exact (h hcounted tagState tag hitem (hmarks tagState tag hmarked)).append later

theorem markedLater (hreach : (system workers Code).Reachable l) :
    ∀ x ∈ l.held, l.MarkedLater x := by
  refine TransitionSystem.Reachable.invariant
    (fun l : Ledger workers Code => ∀ x ∈ l.held, l.MarkedLater x)
    ?_ (fun l l' hr hI hstep => ?_) hreach
  · rintro l rfl x hx
    exact absurd hx (Multiset.notMem_zero x)
  · cases hstep with
    | create _ _ _ _ _ item _ hnull =>
      refine Multiset.forall_mem_cons.mpr ⟨fun _ tagState tag hitem => ?_, hI⟩
      rw [hnull] at hitem
      cases hitem
    | emplace =>
      exact fun x hx => (hI x hx).of_marks [] rfl fun _ _ hmarked => (hmarked.of_update_unmarked rfl).2
    | drop =>
      exact fun x hx => ((Multiset.forall_mem_cons.mp hI).2 x hx).of_marks [_] rfl fun _ _ h => h
    | register held retiring tagStates tagNodes history item a node hnull hentry hnode hretired =>
      have hunmarked : (node.add 1).retired = false := (node.add_retired 1).trans hretired
      refine Multiset.forall_mem_cons.mpr ⟨fun _ tagState tag hitem hmarked => ?_, fun x hx => ?_⟩
      · cases hitem
        exact absurd rfl (hmarked.of_update_unmarked hunmarked).1
      · exact ((Multiset.forall_mem_cons.mp hI).2 x hx).of_marks [_] rfl
          fun _ _ hmarked => (hmarked.of_update_unmarked hunmarked).2
    | advance held retiring tagStates tagNodes history item hnext =>
      obtain ⟨hfirst, hrest⟩ := Multiset.forall_mem_cons.mp hI
      exact Multiset.forall_mem_cons.mpr
        ⟨fun hcounted => hfirst (hnext.counted_eq ▸ hcounted), hrest⟩
    | skip =>
      obtain ⟨hfirst, hrest⟩ := Multiset.forall_mem_cons.mp hI
      exact Multiset.forall_mem_cons.mpr ⟨fun _ => hfirst rfl, hrest⟩
    | begin held retiring tagStates tagNodes history item worker =>
      obtain ⟨hfirst, hrest⟩ := Multiset.forall_mem_cons.mp hI
      have hfirst' : Ledger.MarkedLater ⟨(item, .cleared) ::ₘ held, retiring, tagStates, tagNodes,
          history⟩ (item, .running) := fun _ => hfirst rfl
      exact Multiset.forall_mem_cons.mpr ⟨hfirst'.of_marks [_] rfl fun _ _ h => h,
        fun x hx => (hrest x hx).of_marks [_] rfl fun _ _ h => h⟩
    | completeUntagged =>
      exact Multiset.forall_mem_cons.mpr
        ⟨fun hcounted => absurd hcounted (by simp), (Multiset.forall_mem_cons.mp hI).2⟩
    | complete held retiring tagStates tagNodes history item fate a node hitem hnode =>
      refine Multiset.forall_mem_cons.mpr
        ⟨fun hcounted => absurd hcounted (by simp), fun x hx => ?_⟩
      exact ((Multiset.forall_mem_cons.mp hI).2 x hx).of_marks [] rfl fun _ _ =>
        (markedAt_update hnode (node.add_tag (-1)) (node.add_retired (-1))).mp
    | destroy =>
      exact fun x hx => ((Multiset.forall_mem_cons.mp hI).2 x hx).of_marks [_] rfl fun _ _ h => h
    | retireStart held retiring tagStates tagNodes history tag a node hentry hnode =>
      intro x hx hcounted tagState tag' hitem hmarked
      by_cases ha : tagState = a
      · -- This call marks the node: it retires the tag of the task, which is registered.
        subst ha
        have hregistered := registered_of_mem hr x hx (by simp [hitem])
        have htag : tag = x.1.tag :=
          (((indexed hr tag tagState).mp hentry).tag_eq hnode).symm.trans
            ((nodeAt_of_mem hr x hx hcounted tagState hitem).tag_eq hnode)
        obtain ⟨between, earlier, hevents⟩ := List.append_of_mem hregistered
        exact ⟨[], between, earlier, by simp [← hevents, htag]⟩
      · have hold : MarkedAt tagNodes tagState tag' := by simpa [MarkedAt, ha] using hmarked
        exact (hI x hx hcounted tagState tag' hitem hold).append [_]
    | sweep =>
      exact fun x hx => (hI x (Multiset.mem_add.mpr (.inr hx))).of_marks _ rfl fun _ _ h => h
    | subtract held retiring tagStates tagNodes history tag a k node hnode =>
      exact fun x hx => (hI x hx).of_marks [] rfl fun _ _ =>
        (markedAt_update hnode (node.add_tag (-k)) (node.add_retired (-k))).mp
    | retireEnd =>
      exact fun x hx => (hI x hx).of_marks [] rfl fun _ _ hmarked => hmarked.of_erase.2
    | retireEndStale => exact hI

def skipping (x : HeldTask Code) : Prop := x.2 = .ended .skipped ∨ x.2 = .released .skipped

def SkippedRetired (l : Ledger workers Code) : Prop :=
  (∀ x ∈ l.held, skipping x → RetiredAfter l.history.events x.1.id x.1.tag) ∧
    ∀ id, .finished id .skipped ∈ l.history.events → ∃ tag, RetiredAfter l.history.events id tag

private theorem skippedRetired_of_held (later : List (TaskEvent workers)) (h : l.SkippedRetired)
    (hevents : l'.history.events = later ++ l.history.events)
    (hlater : ∀ id, .finished id .skipped ∈ later →
      ∃ tag, RetiredAfter l.history.events id tag)
    (hheld : ∀ x ∈ l'.held, skipping x → RetiredAfter l.history.events x.1.id x.1.tag) :
    l'.SkippedRetired := by
  refine ⟨fun x hx hskip => hevents ▸ (hheld x hx hskip).append later, fun id hmem => ?_⟩
  rw [hevents] at hmem ⊢
  obtain ⟨tag, htag⟩ : ∃ tag, RetiredAfter l.history.events id tag := by
    rcases List.mem_append.mp hmem with hmem | hmem
    · exact hlater id hmem
    · exact h.2 id hmem
  exact ⟨tag, htag.append later⟩

theorem skippedRetired (hreach : (system workers Code).Reachable l) : l.SkippedRetired := by
  refine TransitionSystem.Reachable.invariant SkippedRetired ?_ (fun l l' hr hI hstep => ?_) hreach
  · rintro l rfl
    exact ⟨fun x hx => absurd hx (Multiset.notMem_zero x), fun id hmem => absurd hmem List.not_mem_nil⟩
  · have hheld := hI.1
    cases hstep with
    | create =>
      exact skippedRetired_of_held [] hI rfl (by simp)
        (Multiset.forall_mem_cons.mpr ⟨by simp [skipping], hheld⟩)
    | drop =>
      exact skippedRetired_of_held [_] hI rfl (by simp)
        (Multiset.forall_mem_cons.mp hheld).2
    | register =>
      exact skippedRetired_of_held [_] hI rfl (by simp) (Multiset.forall_mem_cons.mpr
        ⟨by simp [skipping], (Multiset.forall_mem_cons.mp hheld).2⟩)
    | advance held retiring tagStates tagNodes history item hnext =>
      refine skippedRetired_of_held [] hI rfl (by simp) (Multiset.forall_mem_cons.mpr
        ⟨fun hskip => ?_, (Multiset.forall_mem_cons.mp hheld).2⟩)
      cases hnext <;> simp [skipping] at hskip
    | skip held retiring tagStates tagNodes history item a node hitem hnode hretired =>
      refine skippedRetired_of_held [] hI rfl (by simp) (Multiset.forall_mem_cons.mpr
        ⟨fun _ => ?_, (Multiset.forall_mem_cons.mp hheld).2⟩)
      exact markedLater hr (item, .taken) (Multiset.mem_cons_self _ _) rfl a node.tag hitem
        ⟨node, hnode, rfl, hretired⟩
    | begin =>
      exact skippedRetired_of_held [_] hI rfl (by simp) (Multiset.forall_mem_cons.mpr
        ⟨by simp [skipping], (Multiset.forall_mem_cons.mp hheld).2⟩)
    | completeUntagged | complete =>
      obtain ⟨hfirst, hrest⟩ := Multiset.forall_mem_cons.mp hheld
      refine skippedRetired_of_held [] hI rfl (by simp)
        (Multiset.forall_mem_cons.mpr ⟨fun hskip => hfirst ?_, hrest⟩)
      simpa [skipping] using hskip
    | destroy held retiring tagStates tagNodes history item fate =>
      obtain ⟨hfirst, hrest⟩ := Multiset.forall_mem_cons.mp hheld
      refine skippedRetired_of_held [.finished item.id fate] hI rfl (fun id hmem => ?_) hrest
      cases List.mem_singleton.mp hmem
      exact ⟨item.tag, hfirst (.inr rfl)⟩
    | retireStart => exact skippedRetired_of_held [_] hI rfl (by simp) hheld
    | sweep =>
      exact skippedRetired_of_held _ hI rfl (by simp) fun x hx => hheld x (Multiset.mem_add.mpr (.inr hx))
    | emplace | subtract | retireEnd | retireEndStale =>
      exact skippedRetired_of_held [] hI rfl (by simp) hheld

/-! ### Tasks that are over -/

/-- The task has been created and, if it is still held, only its destruction is to come. -/
def Over (l : Ledger workers Code) (id : ℕ) : Prop :=
  id < l.history.nextTaskId ∧ ∀ x ∈ l.held, x.1.id = id → x.2.counted = false

theorem Step.over (hstep : Step l l') {id : ℕ} (hover : l.Over id) :
    l'.Over id ∧ l'.begins id = l.begins id := by
  obtain ⟨hlt, hheld⟩ := hover
  cases hstep with
  | create held retiring tagStates tagNodes history item hid hnull =>
    exact ⟨⟨Nat.lt_succ_of_lt hlt, Multiset.forall_mem_cons.mpr
      ⟨fun h => absurd (hid.symm.trans h) (Nat.ne_of_gt hlt), hheld⟩⟩, rfl⟩
  | drop | destroy =>
    exact ⟨⟨hlt, (Multiset.forall_mem_cons.mp hheld).2⟩, by simp [Ledger.begins]⟩
  | register =>
    obtain ⟨hfirst, hrest⟩ := Multiset.forall_mem_cons.mp hheld
    exact ⟨⟨hlt, Multiset.forall_mem_cons.mpr ⟨hfirst, hrest⟩⟩, by simp [Ledger.begins]⟩
  | advance held retiring tagStates tagNodes history item hnext =>
    obtain ⟨hfirst, hrest⟩ := Multiset.forall_mem_cons.mp hheld
    exact ⟨⟨hlt, Multiset.forall_mem_cons.mpr
      ⟨fun h => hnext.counted_eq.trans (hfirst h), hrest⟩⟩, rfl⟩
  | skip =>
    obtain ⟨hfirst, hrest⟩ := Multiset.forall_mem_cons.mp hheld
    exact ⟨⟨hlt, Multiset.forall_mem_cons.mpr ⟨fun h => hfirst h, hrest⟩⟩, rfl⟩
  | begin held retiring tagStates tagNodes history item worker =>
    obtain ⟨hfirst, hrest⟩ := Multiset.forall_mem_cons.mp hheld
    have hne : item.id ≠ id := fun h => absurd (hfirst h) (by simp)
    exact ⟨⟨hlt, Multiset.forall_mem_cons.mpr ⟨fun h => absurd h hne, hrest⟩⟩,
      by simp [Ledger.begins, hne]⟩
  | complete | completeUntagged =>
    exact ⟨⟨hlt, Multiset.forall_mem_cons.mpr
      ⟨fun _ => rfl, (Multiset.forall_mem_cons.mp hheld).2⟩⟩, rfl⟩
  | retireStart => exact ⟨⟨hlt, hheld⟩, by simp [Ledger.begins]⟩
  | sweep =>
    exact ⟨⟨hlt, fun x hx => hheld x (Multiset.mem_add.mpr (.inr hx))⟩,
      by simp [Ledger.begins, Function.comp_def]⟩
  | emplace | subtract | retireEnd | retireEndStale => exact ⟨⟨hlt, hheld⟩, rfl⟩

/-! ### The end of `retire` -/

theorem entry_of_counted (hreach : (system workers Code).Reachable l) {id tag : ℕ}
    (hregistered : .registered id tag ∈ l.history.events) {x : HeldTask Code} (hx : x ∈ l.held)
    (hid : x.1.id = id) (hcounted : x.2.counted = true) :
    ∃ tagState, x.1.tagState = some tagState ∧ l.tagStates tag = some tagState := by
  obtain ⟨-, hkept⟩ := registrationKept hreach id tag hregistered
  obtain ⟨hpointer, htag⟩ := hkept x hx hid
  obtain ⟨tagState, hitem⟩ := Option.ne_none_iff_exists'.mp hpointer
  have hnode := nodeAt_of_mem hreach x hx hcounted tagState hitem
  exact ⟨tagState, hitem, (indexed hreach tag tagState).mpr (htag ▸ hnode)⟩

/-- Without an entry for a tag, every task registered under it is over. -/
theorem over_of_noEntry (hreach : (system workers Code).Reachable l) {id tag : ℕ}
    (hentry : l.tagStates tag = none) (hregistered : .registered id tag ∈ l.history.events) :
    l.Over id := by
  refine ⟨(registrationKept hreach id tag hregistered).1, fun x hx hid => ?_⟩
  by_contra hcounted
  obtain ⟨tagState, -, hsome⟩ :=
    entry_of_counted hreach hregistered hx hid (Bool.eq_true_of_not_eq_false hcounted)
  rw [hentry] at hsome
  cases hsome

theorem registered_of_pointer (hreach : (system workers Code).ReachableUnder OneRetirePerTag l)
    {r : Retiring} (hr : r ∈ l.retiring) {x : HeldTask Code} (hx : x ∈ l.held)
    (hcounted : x.2.counted = true) (hitem : x.1.tagState = some r.tagState) :
    .registered x.1.id r.tag ∈ l.history.events := by
  obtain ⟨node, hnode, htag, -⟩ := markedAt_of_retiring hreach r hr
  have hsame := (nodeAt_of_mem hreach.reachable x hx hcounted r.tagState hitem).tag_eq hnode
  have hregistered := registered_of_mem hreach.reachable x hx (by simp [hitem])
  rwa [← hsame, htag] at hregistered

/-- When the outstanding count is what the `retire` call itself has removed, every task registered
under its tag is over. -/
theorem over_of_retiring (hreach : (system workers Code).ReachableUnder OneRetirePerTag l)
    {r : Retiring} (hr : r ∈ l.retiring) {node : TagNode} (hnode : l.tagNodes r.tagState = some node)
    (hcount : node.outstandingTaskCount = r.removed) {id : ℕ}
    (hregistered : .registered id r.tag ∈ l.history.events) : l.Over id := by
  have hentry := (indexed hreach.reachable r.tag r.tagState).mpr (markedAt_of_retiring hreach r hr).nodeAt
  have houtstanding := outstanding_eq hreach.reachable r.tagState
  have hremoved : r.removed ≤ l.pendingRemoved r.tagState :=
    Multiset.single_le_sum (fun _ _ => Nat.zero_le _) _
      (Multiset.mem_map.mpr ⟨r, hr, if_pos rfl⟩)
  have hrefs : l.refs r.tagState = 0 := by
    rw [outstanding_of_node hnode, hcount] at houtstanding
    omega
  refine ⟨(registrationKept hreach.reachable id r.tag hregistered).1, fun x hx hid => ?_⟩
  by_contra hcounted
  have hcounted := Bool.eq_true_of_not_eq_false hcounted
  obtain ⟨tagState, hitem, hsome⟩ := entry_of_counted hreach.reachable hregistered hx hid hcounted
  obtain rfl : r.tagState = tagState := Option.some.inj (hentry.symm.trans hsome)
  exact Multiset.countP_eq_zero.mp hrefs x hx ⟨hcounted, hitem⟩

end Ledger

end CppUtils
