import Mathlib.Data.List.Nodup
import Mathlib.Data.List.Perm.Basic

/-!
# Ledgers of numbered entries

Entries are numbered in the order they are taken in. Some are still held, oldest first; every other
one has met a fate. An entry leaves at the front, or from any place when a selection is removed.
-/

open scoped List

namespace CppUtils

/-- The entries still held, and the fates of the others in the order they were met. -/
structure FifoLedger (Fate : Type*) where
  next : ℕ
  held : List ℕ
  fates : List (ℕ × Fate)

namespace FifoLedger

variable {Fate : Type*} {l : FifoLedger Fate} {id bound : ℕ} {fate : Fate} {p : ℕ → Bool}

def empty : FifoLedger Fate := ⟨0, [], []⟩

def push (l : FifoLedger Fate) : FifoLedger Fate := ⟨l.next + 1, l.held ++ [l.next], l.fates⟩

def pop (l : FifoLedger Fate) (fate : Fate) : FifoLedger Fate :=
  match l.held with
  | [] => l
  | id :: rest => ⟨l.next, rest, l.fates ++ [(id, fate)]⟩

/-- The selected entries leave, wherever they are. -/
def remove (l : FifoLedger Fate) (p : ℕ → Bool) (fate : Fate) : FifoLedger Fate :=
  ⟨l.next, l.held.filter fun id => !p id, l.fates ++ (l.held.filter p).map (·, fate)⟩

/-- What has become of an entry: `none` for each time it is held, and its fates. -/
def situations (l : FifoLedger Fate) (id : ℕ) : List (Option Fate) :=
  (l.held.filter (· = id)).map (fun _ => none) ++ (l.fates.filter (·.1 = id)).map fun e => some e.2

/-- The held entries are in the order they were taken in, and each entry is held or has met a fate,
once. -/
structure Sound (l : FifoLedger Fate) : Prop where
  sublist : l.held.Sublist (List.range l.next)
  perm : (l.held ++ l.fates.map Prod.fst).Perm (List.range l.next)

theorem sound_empty : (empty : FifoLedger Fate).Sound := ⟨.refl _, .refl _⟩

theorem Sound.push (hl : l.Sound) : l.push.Sound := by
  constructor
  · change (l.held ++ [l.next]).Sublist (List.range (l.next + 1))
    rw [List.range_succ]
    exact hl.sublist.append (.refl _)
  · change (l.held ++ [l.next] ++ l.fates.map Prod.fst).Perm (List.range (l.next + 1))
    rw [List.range_succ, List.append_assoc]
    calc l.held ++ ([l.next] ++ l.fates.map Prod.fst)
      _ ~ l.held ++ (l.fates.map Prod.fst ++ [l.next]) := List.perm_append_comm.append_left _
      _ = l.held ++ l.fates.map Prod.fst ++ [l.next] := (List.append_assoc ..).symm
      _ ~ List.range l.next ++ [l.next] := hl.perm.append_right _

theorem Sound.pop (hl : l.Sound) (fate : Fate) : (l.pop fate).Sound := by
  unfold FifoLedger.pop
  split
  · exact hl
  · rename_i id rest hheld
    have hsublist := hl.sublist
    have hperm := hl.perm
    rw [hheld] at hsublist hperm
    refine ⟨(List.sublist_cons_self _ _).trans hsublist, ?_⟩
    change (rest ++ (l.fates ++ [(id, fate)]).map Prod.fst).Perm _
    rw [List.map_append, ← List.append_assoc]
    calc rest ++ l.fates.map Prod.fst ++ [id]
      _ ~ [id] ++ (rest ++ l.fates.map Prod.fst) := List.perm_append_comm
      _ ~ List.range l.next := hperm

/-- Entries leave from any places, and the others stay in order. -/
theorem Sound.withdraw (hl : l.Sound) {kept removed : List ℕ} (hkept : kept.Sublist l.held)
    (hperm : (kept ++ removed) ~ l.held) (fate : Fate) :
    (⟨l.next, kept, l.fates ++ removed.map (·, fate)⟩ : FifoLedger Fate).Sound := by
  constructor
  · exact hkept.trans hl.sublist
  · change (kept ++ (l.fates ++ removed.map (·, fate)).map Prod.fst).Perm _
    have hremoved : (removed.map (·, fate)).map Prod.fst = removed := by
      rw [List.map_map]
      exact List.map_id _
    rw [List.map_append, hremoved]
    calc kept ++ (l.fates.map Prod.fst ++ removed)
      _ ~ kept ++ (removed ++ l.fates.map Prod.fst) := List.perm_append_comm.append_left _
      _ = kept ++ removed ++ l.fates.map Prod.fst := (List.append_assoc ..).symm
      _ ~ l.held ++ l.fates.map Prod.fst := hperm.append_right _
      _ ~ List.range l.next := hl.perm

theorem Sound.remove (hl : l.Sound) (p : ℕ → Bool) (fate : Fate) : (l.remove p fate).Sound :=
  hl.withdraw List.filter_sublist
    (List.perm_append_comm.trans (List.filter_append_perm p l.held)) fate

theorem Sound.pairwise_held (hl : l.Sound) : l.held.Pairwise (· < ·) :=
  List.pairwise_lt_range.sublist hl.sublist

theorem Sound.lt_next (hl : l.Sound) (hid : id ∈ l.held) : id < l.next :=
  List.mem_range.mp (hl.sublist.subset hid)

theorem Sound.lt_next_of_fate (hl : l.Sound) (hid : (id, fate) ∈ l.fates) : id < l.next :=
  List.mem_range.mp (hl.perm.subset
    (List.mem_append_right _ (List.mem_map.mpr ⟨(id, fate), hid, rfl⟩)))

theorem length_situations (l : FifoLedger Fate) (id : ℕ) :
    (l.situations id).length = (l.held ++ l.fates.map Prod.fst).count id := by
  rw [situations, List.length_append, List.length_map, List.length_map, List.count_append,
    List.count_eq_length_filter, List.count_eq_length_filter, List.filter_map, List.length_map]
  congr 2

theorem Sound.exists_situation (hl : l.Sound) (hid : id < l.next) :
    ∃ situation, l.situations id = [situation] := by
  have hcount : (l.held ++ l.fates.map Prod.fst).count id = 1 := by
    rw [hl.perm.count_eq]
    exact List.count_eq_one_of_mem List.nodup_range (List.mem_range.mpr hid)
  exact List.length_eq_one_iff.mp ((length_situations l id).trans hcount)

theorem mem_situations_held : none ∈ l.situations id ↔ id ∈ l.held := by
  simp [situations]

theorem mem_situations_fate : some fate ∈ l.situations id ↔ (id, fate) ∈ l.fates := by
  simp [situations]

theorem Sound.fate_unique (hl : l.Sound) (hfate : (id, fate) ∈ l.fates) {fate' : Fate}
    (hfate' : (id, fate') ∈ l.fates) : fate' = fate := by
  obtain ⟨situation, hsituation⟩ := hl.exists_situation (hl.lt_next_of_fate hfate)
  rw [← mem_situations_fate, hsituation, List.mem_singleton] at hfate hfate'
  exact Option.some.inj (hfate'.trans hfate.symm)

theorem Sound.exists_fate (hl : l.Sound) (hid : id < l.next) (hheld : id ∉ l.held) :
    ∃ fate, (id, fate) ∈ l.fates := by
  obtain ⟨situation, hsituation⟩ := hl.exists_situation hid
  cases situation with
  | none =>
    have hmem : none ∈ l.situations id := by simp [hsituation]
    exact absurd (mem_situations_held.mp hmem) hheld
  | some fate =>
    have hmem : some fate ∈ l.situations id := by simp [hsituation]
    exact ⟨fate, mem_situations_fate.mp hmem⟩

/-! ### Entries that leave at the front -/

/-- The entries that met a fate of some kind, in the order they met it. -/
def met (l : FifoLedger Fate) (q : Fate → Bool) : List ℕ :=
  (l.fates.filter fun e => q e.2).map Prod.fst

theorem mem_met {q : Fate → Bool} :
    id ∈ l.met q ↔ ∃ fate, (id, fate) ∈ l.fates ∧ q fate = true := by
  simp [met]

theorem Sound.lt_next_of_met (hl : l.Sound) {q : Fate → Bool} (hid : id ∈ l.met q) :
    id < l.next := by
  obtain ⟨fate, hfate, -⟩ := mem_met.mp hid
  exact hl.lt_next_of_fate hfate

/-- Entries meet fates of a kind in the order they were taken in, before all that are held. -/
structure InOrder (l : FifoLedger Fate) (q : Fate → Bool) : Prop where
  pairwise : (l.met q).Pairwise (· < ·)
  lt_held : ∀ id ∈ l.met q, ∀ id' ∈ l.held, id < id'

theorem inOrder_empty (q : Fate → Bool) : (empty : FifoLedger Fate).InOrder q :=
  ⟨.nil, fun _ h => nomatch h⟩

theorem InOrder.push {q : Fate → Bool} (h : l.InOrder q) (hl : l.Sound) : l.push.InOrder q := by
  refine ⟨h.pairwise, fun id hid id' hid' => ?_⟩
  rcases List.mem_append.mp hid' with hid' | hid'
  · exact h.lt_held id hid id' hid'
  · rw [List.mem_singleton.mp hid']
    exact hl.lt_next_of_met (l := l) hid

theorem met_append (l : FifoLedger Fate) (q : Fate → Bool) (held : List ℕ)
    (fates : List (ℕ × Fate)) : (⟨l.next, held, l.fates ++ fates⟩ : FifoLedger Fate).met q
      = l.met q ++ (fates.filter fun e => q e.2).map Prod.fst := by
  simp [met]

theorem InOrder.pop {q : Fate → Bool} (h : l.InOrder q) (hl : l.Sound) (fate : Fate) :
    (l.pop fate).InOrder q := by
  unfold FifoLedger.pop
  split
  · exact h
  · rename_i id rest hheld
    have hsorted := hl.pairwise_held
    rw [hheld, List.pairwise_cons] at hsorted
    have hid : id ∈ l.held := hheld ▸ List.mem_cons_self
    have hrest : ∀ id' ∈ rest, id' ∈ l.held := fun id' h => hheld ▸ List.mem_cons_of_mem _ h
    constructor
    · rw [met_append]
      have hlast : (([(id, fate)].filter fun e => q e.2).map Prod.fst).Sublist [id] :=
        List.filter_sublist.map Prod.fst
      refine List.pairwise_append.mpr
        ⟨h.pairwise, (List.pairwise_singleton ..).sublist hlast, fun id' hid' last hmem => ?_⟩
      rw [List.mem_singleton.mp (hlast.subset hmem)]
      exact h.lt_held id' hid' id hid
    · rw [met_append]
      intro id' hid' later hlater
      rcases List.mem_append.mp hid' with hid' | hid'
      · exact h.lt_held id' hid' later (hrest later hlater)
      · obtain ⟨e, he, rfl⟩ := List.mem_map.mp hid'
        rw [List.mem_singleton.mp (List.mem_of_mem_filter he)]
        exact hsorted.1 later hlater

theorem InOrder.withdraw {q : Fate → Bool} (h : l.InOrder q) {kept : List ℕ}
    (hkept : kept.Sublist l.held) (removed : List ℕ) (hq : q fate = false) :
    (⟨l.next, kept, l.fates ++ removed.map (·, fate)⟩ : FifoLedger Fate).InOrder q := by
  have hmet : (⟨l.next, kept, l.fates ++ removed.map (·, fate)⟩ : FifoLedger Fate).met q
      = l.met q := by
    rw [met_append, List.filter_map]
    simp [Function.comp_def, hq]
  constructor
  · rw [hmet]
    exact h.pairwise
  · rw [hmet]
    exact fun id hid id' hid' => h.lt_held id hid id' (hkept.subset hid')

theorem InOrder.remove {q : Fate → Bool} (h : l.InOrder q) (p : ℕ → Bool) (hq : q fate = false) :
    (l.remove p fate).InOrder q :=
  h.withdraw List.filter_sublist _ hq

end FifoLedger

end CppUtils
