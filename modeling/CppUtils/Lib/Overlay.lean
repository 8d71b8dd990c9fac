import Mathlib

/-!
# Nodes laid over one another at paths

A tree of nodes, each at a path that begins with its parent's. A walk along a path starts at the root,
and at each place goes down to the child that lies there. A node below the place of one of its siblings
is hidden from every walk, and so is everything under it.
-/

namespace CppUtils

open Relation

/-- Nodes in the order in which they are listed. A child at its parent's own place comes later. -/
structure Overlay (n : ℕ) (α : Type*) where
  parent : Fin n → Option (Fin n)
  point : Fin n → List α
  root : Fin n
  parent_eq_none_iff : ∀ {c}, parent c = none ↔ c = root
  point_root : point root = []
  point_of_parent : ∀ {c i}, parent c = some i → point i <+: point c
  child_unique : ∀ {c d i}, parent c = some i → parent d = some i → point c = point d → c = d
  stacked : ∀ {c i}, parent c = some i → point c = point i → i < c

namespace Overlay

variable {n : ℕ} {α : Type*} {t : Overlay n α} {c d i m v w : Fin n} {q rest : List α}

section Rank

/-- Deeper nodes rank higher; of those equally deep the later one. -/
def rank (t : Overlay n α) (i : Fin n) : ℕ ×ₗ ℕ := toLex ((t.point i).length, i.val)

theorem rank_le_iff : t.rank i ≤ t.rank c ↔ (t.point i).length ≤ (t.point c).length ∧
    ((t.point i).length = (t.point c).length → i ≤ c) := by
  rw [rank, rank, Prod.Lex.toLex_le_toLex']
  rfl

theorem rank_injective (t : Overlay n α) : Function.Injective t.rank := by
  intro i c h
  have hpair := toLex.injective h
  exact Fin.ext (congrArg Prod.snd hpair)

theorem rank_lt_of_parent (hparent : t.parent c = some i) : t.rank i < t.rank c := by
  have hfirst := t.point_of_parent hparent
  have hstacked : (t.point i).length = (t.point c).length → i < c := fun heq =>
    t.stacked hparent (hfirst.eq_of_length heq).symm
  apply lt_of_le_of_ne
  · exact rank_le_iff.mpr ⟨hfirst.length_le, fun heq => (hstacked heq).le⟩
  · intro heq
    obtain rfl := t.rank_injective heq
    exact lt_irrefl _ (hstacked rfl)

/-- `c` is at `i` or somewhere under it. -/
def Under (t : Overlay n α) (i c : Fin n) : Prop := ReflTransGen (fun i c => t.parent c = some i) i c

theorem Under.rank_le (h : t.Under i c) : t.rank i ≤ t.rank c := by
  induction h with
  | refl => exact le_rfl
  | tail _ hparent ih => exact ih.trans (rank_lt_of_parent hparent).le

theorem Under.point_first (h : t.Under i c) : t.point i <+: t.point c := by
  induction h with
  | refl => exact List.prefix_rfl
  | tail _ hparent ih => exact ih.trans (t.point_of_parent hparent)

theorem under_root (t : Overlay n α) (c : Fin n) : t.Under t.root c := by
  induction c using (InvImage.wf t.rank wellFounded_lt).induction with
  | _ c ih =>
    cases hparent : t.parent c with
    | none =>
      rw [t.parent_eq_none_iff.mp hparent]
      exact .refl
    | some i => exact (ih i (rank_lt_of_parent hparent)).tail hparent

end Rank

section Hidden

/-- A walk towards the node turns off to a sibling first, here or further up. -/
inductive Hidden (t : Overlay n α) : Fin n → Prop
  | covered {c d i : Fin n} : t.parent c = some i → t.parent d = some i → t.point d <+: t.point c →
      t.point d ≠ t.point c → Hidden t c
  | under {c i : Fin n} : t.parent c = some i → Hidden t i → Hidden t c

theorem Hidden.of_under (h : t.Under i c) (hhidden : t.Hidden i) : t.Hidden c := by
  induction h with
  | refl => exact hhidden
  | tail _ hparent ih => exact .under hparent ih

/-- Of the children that lie along one path, at most one can be seen. -/
theorem eq_of_visible (hc : t.parent c = some i) (hd : t.parent d = some i) (hcq : t.point c <+: q)
    (hdq : t.point d <+: q) (hcvisible : ¬ t.Hidden c) (hdvisible : ¬ t.Hidden d) : c = d := by
  by_cases heq : t.point c = t.point d
  · exact t.child_unique hc hd heq
  · obtain hcd | hdc := List.prefix_or_prefix_of_prefix hcq hdq
    · exact absurd (.covered hd hc hcd heq) hdvisible
    · exact absurd (.covered hc hd hdc (Ne.symm heq)) hcvisible

theorem not_hidden_root (t : Overlay n α) : ¬ t.Hidden t.root := by
  have hroot : t.parent t.root = none := t.parent_eq_none_iff.mpr rfl
  rintro (⟨hparent, _⟩ | ⟨hparent, _⟩)
  · exact Option.some_ne_none _ (hparent.symm.trans hroot)
  · exact Option.some_ne_none _ (hparent.symm.trans hroot)

end Hidden

section Progress

/-- Before it crosses at `q` a walk has passed no child on its way. -/
structure Arrives (t : Overlay n α) (q : List α) (m : Fin n) : Prop where
  visible : ¬ t.Hidden m
  along : t.point m <+: q
  passed : ∀ {c}, t.parent c = some m → t.point c <+: q → t.point c = q

/-- Behind the crossing no child is left on the way. -/
structure Reaches (t : Overlay n α) (q : List α) (m : Fin n) : Prop where
  visible : ¬ t.Hidden m
  along : t.point m <+: q
  passed : ∀ {c}, t.parent c = some m → ¬ t.point c <+: q

theorem Arrives.child (h : t.Arrives q m) (hparent : t.parent c = some m) (hpoint : t.point c = q) :
    t.Arrives q c where
  visible := by
    rintro (⟨hparent', hsibling, hfirst, hne⟩ | ⟨hparent', hhidden⟩)
    · obtain rfl := Option.some.inj (hparent.symm.trans hparent')
      rw [hpoint] at hfirst hne
      exact hne (h.passed hsibling hfirst)
    · obtain rfl := Option.some.inj (hparent.symm.trans hparent')
      exact h.visible hhidden
  along := by rw [hpoint]
  passed := by
    intro d hd hfirst
    have hbelow := t.point_of_parent hd
    rw [hpoint] at hbelow
    exact hfirst.eq_of_length (le_antisymm hfirst.length_le hbelow.length_le)

theorem Reaches.arrives (h : t.Reaches q m) (a : α) : t.Arrives (q ++ [a]) m where
  visible := h.visible
  along := h.along.trans (List.prefix_append q [a])
  passed := by
    intro c hparent hfirst
    obtain heq | hfirst := List.prefix_concat_iff.mp hfirst
    · exact heq
    · exact absurd hfirst (h.passed hparent)

/-- What can be seen along the path is crossed on the way to where the walk ends. -/
theorem Reaches.under (h : t.Reaches q m) (hvisible : ¬ t.Hidden v) (hfirst : t.point v <+: q) :
    t.Under v m := by
  induction t.under_root v with
  | refl => exact t.under_root m
  | @tail u v _ hparent ih =>
    have huvisible : ¬ t.Hidden u := fun hhidden => hvisible (.under hparent hhidden)
    have hunder := ih huvisible ((t.point_of_parent hparent).trans hfirst)
    obtain rfl | ⟨w, hw, hwm⟩ := hunder.cases_head
    · exact absurd hfirst (h.passed hparent)
    · -- the walk went from `u` to `w`, and `v` is another child of `u` on the way
      have hwvisible : ¬ t.Hidden w := fun hhidden => h.visible (hhidden.of_under hwm)
      have hwfirst : t.point w <+: q := (Under.point_first hwm).trans h.along
      obtain rfl := eq_of_visible hparent hw hfirst hwfirst hvisible hwvisible
      exact hwm

end Progress

section Walk

variable [DecidableEq α]

/-- The child of `i` that lies at `q`. -/
def childAt (t : Overlay n α) (q : List α) (i : Fin n) : Option (Fin n) :=
  (List.finRange n).find? fun c => t.parent c = some i ∧ t.point c = q

/-- Down from child to child for as long as there is one at `q`. -/
def cross (t : Overlay n α) (q : List α) : ℕ → Fin n → Fin n
  | 0, i => i
  | fuel + 1, i =>
    match t.childAt q i with
    | none => i
    | some c => t.cross q fuel c

/-- From `i`, where `q` led, along the rest. No node is crossed twice, so the fuel is enough. -/
def walkFrom (t : Overlay n α) (q : List α) (i : Fin n) : List α → Fin n
  | [] => i
  | a :: rest => t.walkFrom (q ++ [a]) (t.cross (q ++ [a]) (n + 1) i) rest

def walk (t : Overlay n α) (path : List α) : Fin n := t.walkFrom [] (t.cross [] (n + 1) t.root) path

theorem childAt_eq_some (h : t.childAt q i = some c) : t.parent c = some i ∧ t.point c = q := by
  simpa using List.find?_some h

theorem childAt_eq_none (h : t.childAt q i = none) (hparent : t.parent c = some i) : t.point c ≠ q := by
  simpa [hparent] using List.find?_eq_none.mp h c (List.mem_finRange c)

theorem Arrives.reaches (h : t.Arrives q m) (hnone : t.childAt q m = none) : t.Reaches q m where
  visible := h.visible
  along := h.along
  passed hparent hfirst := childAt_eq_none hnone hparent (h.passed hparent hfirst)

/-- At the place itself each crossing goes to a later node. -/
theorem Arrives.cross_of_point (h : t.Arrives q m) (hpoint : t.point m = q) {fuel : ℕ}
    (hfuel : n ≤ fuel + m) : t.Reaches q (t.cross q fuel m) := by
  induction fuel generalizing m with
  | zero => exact absurd m.isLt (by omega)
  | succ fuel ih =>
    rw [cross]
    cases hchild : t.childAt q m with
    | none => exact h.reaches hchild
    | some c =>
      obtain ⟨hparent, hc⟩ := childAt_eq_some hchild
      have hlater : m < c := t.stacked hparent (hc.trans hpoint.symm)
      exact ih (h.child hparent hc) hc (by omega)

theorem Arrives.cross (h : t.Arrives q m) : t.Reaches q (t.cross q (n + 1) m) := by
  rw [Overlay.cross]
  cases hchild : t.childAt q m with
  | none => exact h.reaches hchild
  | some c =>
    obtain ⟨hparent, hc⟩ := childAt_eq_some hchild
    exact (h.child hparent hc).cross_of_point hc (Nat.le_add_right n c)

theorem Reaches.walkFrom (h : t.Reaches q m) (rest : List α) :
    t.Reaches (q ++ rest) (t.walkFrom q m rest) := by
  induction rest generalizing q m with
  | nil =>
    rw [List.append_nil]
    exact h
  | cons a rest ih =>
    have hstep := ih (h.arrives a).cross
    rw [List.append_assoc] at hstep
    exact hstep

theorem walk_reaches (t : Overlay n α) (path : List α) : t.Reaches path (t.walk path) := by
  have hstart : t.Arrives [] t.root :=
    ⟨t.not_hidden_root, by rw [t.point_root], fun _ hfirst => List.prefix_nil.mp hfirst⟩
  exact hstart.cross.walkFrom path

/-- The walk ends at the highest node along the path, unless a hidden one ranks above all that is seen. -/
theorem walk_isHighest_iff {path : List α} :
    (∀ v, t.point v <+: path → t.rank v ≤ t.rank (t.walk path)) ↔
      ∀ h, t.Hidden h → t.point h <+: path →
        ∃ v, ¬ t.Hidden v ∧ t.point v <+: path ∧ t.rank h < t.rank v := by
  have hreaches := t.walk_reaches path
  constructor
  · intro hhighest h hhidden hfirst
    refine ⟨t.walk path, hreaches.visible, hreaches.along, lt_of_le_of_ne (hhighest h hfirst) ?_⟩
    intro heq
    rw [t.rank_injective heq] at hhidden
    exact hreaches.visible hhidden
  · intro hseen v hfirst
    by_cases hhidden : t.Hidden v
    · obtain ⟨w, hvisible, hw, hlt⟩ := hseen v hhidden hfirst
      exact hlt.le.trans (hreaches.under hvisible hw).rank_le
    · exact (hreaches.under hhidden hfirst).rank_le

end Walk

end Overlay

end CppUtils
