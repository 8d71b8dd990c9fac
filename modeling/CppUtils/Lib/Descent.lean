import Mathlib.Logic.Hydra
import Mathlib.Data.Prod.Lex

/-!
# Work that gives rise to further work

What is left to do is a multiset of items and a number. A step takes up an item and puts any number of
items in its place that it gives rise to, or leaves the items and lowers the number. When no item gives
rise to others for ever, this cannot go on for ever, however the items are taken up.
-/

namespace CppUtils

open Relation

variable {α : Type*} {gives : α → α → Prop}

/-- Items of work, and a bound on the steps until the next one is taken up. -/
abbrev Effort (α : Type*) := Multiset α × ℕ

/-- The first effort is what one step leaves of the second; `gives b a` says that `a` gives rise to `b`. -/
def Descends (gives : α → α → Prop) : Effort α → Effort α → Prop :=
  Prod.Lex (CutExpand gives) (· < ·)

namespace Descends

variable {e e' : Effort α}

theorem wellFounded (hgives : WellFounded gives) : WellFounded (Descends gives) :=
  WellFounded.prod_lex hgives.cutExpand Nat.lt_wfRel.wf

theorem of_lt (hitems : e'.1 = e.1) (hlt : e'.2 < e.2) : Descends gives e' e :=
  Prod.lex_def.mpr (.inr ⟨hitems, hlt⟩)

theorem of_cut {m m' : Multiset α} {n n' : ℕ} (h : CutExpand gives m' m) :
    Descends gives (m', n') (m, n) :=
  Prod.lex_def.mpr (.inl h)

theorem of_drop (a : α) (n n' : ℕ) : Descends gives (0, n') ({a}, n) := of_cut cutExpand_zero

theorem add_right (h : Descends gives e' e) (r : Effort α) : Descends gives (e' + r) (e + r) := by
  obtain hcut | ⟨hitems, hlt⟩ := Prod.lex_def.mp h
  · exact of_cut ((cutExpand_add_right r.1).mpr hcut)
  · exact of_lt (congrArg (· + r.1) hitems) (Nat.add_lt_add_right hlt r.2)

theorem add_left (h : Descends gives e' e) (r : Effort α) : Descends gives (r + e') (r + e) := by
  rw [add_comm r, add_comm r]
  exact h.add_right r

/-- What holds of an item and passes to what it gives rise to holds of all the work left. -/
theorem forall_mem [Std.Irrefl gives] {p : α → Prop} (hclosed : ∀ {b a}, gives b a → p a → p b)
    (h : Descends gives e' e) (hp : ∀ a ∈ e.1, p a) : ∀ a ∈ e'.1, p a := by
  obtain hcut | ⟨hitems, -⟩ := Prod.lex_def.mp h
  · exact cutExpand_closed p hclosed hcut hp
  · rw [hitems]
    exact hp

end Descends

end CppUtils
