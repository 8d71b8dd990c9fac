import CppUtils.Lib.TransitionSystem
import Mathlib

/-!
# Threads with call stacks

Finitely many threads share one state. Each has a stack of frames, its innermost call first, and a
step replaces the innermost frames of one thread and changes the shared state. The rule for what a
step does is therefore local: it sees the shared state and those frames only. The lemmas below lift
a local fact about the rule to the whole system: how a sum over all frames changes, a property that
each frame keeps, a relation between the frames of one stack.
-/

namespace CppUtils

open Finset

variable {ι Shared Frame M : Type*}

/-- A shared state and one stack of frames for each thread. -/
structure Threaded (ι Shared Frame : Type*) where
  shared : Shared
  threads : ι → List Frame

/-- A sum over a family is the term at one index and a rest that the term does not touch. -/
theorem sum_split [DecidableEq ι] [Fintype ι] [AddCommMonoid M] {β : Type*} (g : β → M) (f : ι → β)
    (i : ι) :
    ∃ r, ∑ j, g (f j) = g (f i) + r ∧ ∀ b, ∑ j, g (Function.update f i b j) = g b + r := by
  refine ⟨∑ j ∈ univ.erase i, g (f j), (Finset.add_sum_erase univ _ (mem_univ i)).symm, fun b => ?_⟩
  have hrest : ∑ j ∈ univ.erase i, g (Function.update f i b j) = ∑ j ∈ univ.erase i, g (f j) :=
    Finset.sum_congr rfl fun j hj => by rw [Function.update_of_ne (Finset.ne_of_mem_erase hj)]
  rw [← hrest, ← Finset.add_sum_erase univ _ (mem_univ i), Function.update_self]

namespace Threaded

/-! ### Sums over all frames -/

section Sums

variable [AddCommMonoid M]

def stackWeight (w : Frame → M) (frames : List Frame) : M := (frames.map w).sum

@[simp] theorem stackWeight_nil (w : Frame → M) : stackWeight w [] = 0 := rfl

@[simp] theorem stackWeight_cons (w : Frame → M) (f : Frame) (frames : List Frame) :
    stackWeight w (f :: frames) = w f + stackWeight w frames := by
  simp [stackWeight]

@[simp] theorem stackWeight_append (w : Frame → M) (frames frames' : List Frame) :
    stackWeight w (frames ++ frames') = stackWeight w frames + stackWeight w frames' := by
  simp [stackWeight]

theorem stackWeight_add (w w' : Frame → M) (frames : List Frame) :
    stackWeight (fun f => w f + w' f) frames = stackWeight w frames + stackWeight w' frames := by
  simp [stackWeight, List.sum_map_add]

theorem map_stackWeight {N : Type*} [AddCommMonoid N] (φ : M →+ N) (w : Frame → M)
    (frames : List Frame) : φ (stackWeight w frames) = stackWeight (fun f => φ (w f)) frames := by
  induction frames with
  | nil => simp
  | cons f frames ih => simp [ih]

variable [Fintype ι]

def weight (w : Frame → M) (threads : ι → List Frame) : M := ∑ t, stackWeight w (threads t)

theorem weight_add (w w' : Frame → M) (threads : ι → List Frame) :
    weight (fun f => w f + w' f) threads = weight w threads + weight w' threads := by
  simp only [weight, stackWeight_add, Finset.sum_add_distrib]

theorem map_weight {N : Type*} [AddCommMonoid N] (φ : M →+ N) (w : Frame → M)
    (threads : ι → List Frame) : φ (weight w threads) = weight (fun f => φ (w f)) threads := by
  simp only [weight, map_sum, map_stackWeight]

/-- The innermost frames of one thread change: the sum is the weight of those frames, before and
after, and a rest that stays. -/
theorem weight_split [DecidableEq ι] (w : Frame → M) {threads : ι → List Frame} {t : ι}
    {before rest : List Frame} (hstack : threads t = before ++ rest) (after : List Frame) :
    ∃ r, weight w threads = stackWeight w before + r ∧
      weight w (Function.update threads t (after ++ rest)) = stackWeight w after + r := by
  obtain ⟨r, hbefore, hafter⟩ := sum_split (stackWeight w) threads t
  refine ⟨stackWeight w rest + r, ?_, ?_⟩
  · rw [weight, hbefore, hstack, stackWeight_append, add_assoc]
  · rw [weight, hafter, stackWeight_append, add_assoc]

theorem mem_stackWeight {β : Type*} {w : Frame → Multiset β} {frames : List Frame} {x : β} :
    x ∈ stackWeight w frames ↔ ∃ f ∈ frames, x ∈ w f := by
  induction frames with
  | nil => simp
  | cons f frames ih => simp [ih]

theorem mem_weight {β : Type*} {w : Frame → Multiset β} {threads : ι → List Frame} {x : β} :
    x ∈ weight w threads ↔ ∃ t, ∃ f ∈ threads t, x ∈ w f := by
  simp [weight, Multiset.mem_sum, mem_stackWeight]

end Sums

section Counts

theorem le_stackWeight (w : Frame → ℕ) {f : Frame} {frames : List Frame} (hmem : f ∈ frames) :
    w f ≤ stackWeight w frames :=
  List.single_le_sum (fun _ _ => Nat.zero_le _) _ (List.mem_map_of_mem hmem)

theorem stackWeight_eq_zero {w : Frame → ℕ} {frames : List Frame} :
    stackWeight w frames = 0 ↔ ∀ f ∈ frames, w f = 0 := by
  induction frames with
  | nil => simp
  | cons f frames ih => simp [ih]

theorem stackWeight_le_stackWeight {w w' : Frame → ℕ} (hle : ∀ f, w f ≤ w' f)
    (frames : List Frame) : stackWeight w frames ≤ stackWeight w' frames :=
  List.sum_le_sum fun f _ => hle f

variable [Fintype ι]

theorem stackWeight_le_weight (w : Frame → ℕ) (threads : ι → List Frame) (t : ι) :
    stackWeight w (threads t) ≤ weight w threads :=
  Finset.single_le_sum (f := fun t => stackWeight w (threads t)) (fun _ _ => Nat.zero_le _)
    (mem_univ t)

theorem le_weight (w : Frame → ℕ) {threads : ι → List Frame} {t : ι} {f : Frame}
    (hmem : f ∈ threads t) : w f ≤ weight w threads :=
  (le_stackWeight w hmem).trans (stackWeight_le_weight w threads t)

theorem add_le_weight [DecidableEq ι] (w : Frame → ℕ) {threads : ι → List Frame} {t u : ι} {f g : Frame}
    (hne : t ≠ u) (hf : f ∈ threads t) (hg : g ∈ threads u) : w f + w g ≤ weight w threads :=
  calc w f + w g
      ≤ stackWeight w (threads t) + stackWeight w (threads u) :=
        add_le_add (le_stackWeight w hf) (le_stackWeight w hg)
    _ = ∑ v ∈ {t, u}, stackWeight w (threads v) :=
        (Finset.sum_pair (f := fun v => stackWeight w (threads v)) hne).symm
    _ ≤ weight w threads := Finset.sum_le_sum_of_subset (Finset.subset_univ _)

theorem weight_eq_zero {w : Frame → ℕ} {threads : ι → List Frame} :
    weight w threads = 0 ↔ ∀ t, ∀ f ∈ threads t, w f = 0 := by
  simp [weight, stackWeight_eq_zero]

theorem weight_le_weight {w w' : Frame → ℕ} (hle : ∀ f, w f ≤ w' f) (threads : ι → List Frame) :
    weight w threads ≤ weight w' threads :=
  Finset.sum_le_sum fun t _ => stackWeight_le_stackWeight hle (threads t)

end Counts

/-! ### Steps -/

/-- A local rule: thread, shared state and innermost frames before, and both after. -/
abbrev Rule (ι Shared Frame : Type*) := ι → Shared → List Frame → Shared → List Frame → Prop

variable [DecidableEq ι] {R : Rule ι Shared Frame} {c c' : Threaded ι Shared Frame}

/-- One thread applies the rule to its innermost frames. -/
inductive Move (R : Rule ι Shared Frame) : Threaded ι Shared Frame → Threaded ι Shared Frame → Prop
  | mk {c : Threaded ι Shared Frame} {shared' : Shared} {before after rest : List Frame} (t : ι)
      (hstack : c.threads t = before ++ rest) (hrule : R t c.shared before shared' after) :
      Move R c ⟨shared', Function.update c.threads t (after ++ rest)⟩

/-- A property of each stack is kept when the rule keeps it of the stack it changes, and every other
stack keeps it through the change of the shared state. -/
theorem Move.forall_threads {P : Shared → ι → List Frame → Prop} (hmove : Move R c c')
    (hmoved : ∀ t before after rest, c.threads t = before ++ rest →
      R t c.shared before c'.shared after → P c.shared t (before ++ rest) →
        P c'.shared t (after ++ rest))
    (hother : ∀ u before after rest, c.threads u = before ++ rest →
      R u c.shared before c'.shared after → ∀ t ≠ u, P c.shared t (c.threads t) →
        P c'.shared t (c.threads t))
    (hthreads : ∀ t, P c.shared t (c.threads t)) : ∀ t, P c'.shared t (c'.threads t) := by
  cases hmove with
  | @mk shared' before after rest u hstack hrule =>
    intro t
    change P shared' t (Function.update c.threads u (after ++ rest) t)
    by_cases ht : t = u
    · subst ht
      rw [Function.update_self]
      exact hmoved t before after rest hstack hrule (hstack ▸ hthreads t)
    · rw [Function.update_of_ne ht]
      exact hother u before after rest hstack hrule t ht (hthreads t)

/-- A property of each frame is kept when the rule keeps it of the frames it replaces, and of every
other frame through its change of the shared state. -/
theorem Move.forall_frames {P : Shared → ι → Frame → Prop} (hmove : Move R c c')
    (hafter : ∀ t before after, R t c.shared before c'.shared after →
      (∀ f ∈ before, f ∈ c.threads t) → (∀ f ∈ before, P c.shared t f) →
        ∀ f ∈ after, P c'.shared t f)
    (hother : ∀ t f, f ∈ c.threads t → P c.shared t f → P c'.shared t f)
    (hframes : ∀ t, ∀ f ∈ c.threads t, P c.shared t f) :
    ∀ t, ∀ f ∈ c'.threads t, P c'.shared t f := by
  refine hmove.forall_threads (P := fun s t frames => ∀ f ∈ frames, P s t f) ?_
    (fun _ _ _ _ _ _ t _ ht f hf => hother t f hf (ht f hf)) hframes
  intro t before after rest hstack hrule hP f hf
  have hbefore : ∀ g ∈ before, g ∈ c.threads t := fun g hg =>
    hstack ▸ List.mem_append_left _ hg
  rcases List.mem_append.mp hf with hf | hf
  · exact hafter t before after hrule hbefore
      (fun g hg => hP g (List.mem_append_left _ hg)) f hf
  · exact hother t f (hstack ▸ List.mem_append_right _ hf) (hP f (List.mem_append_right _ hf))

/-- Frames put in the place of the innermost one: the stack stays a chain when they are one, and
when the lowest of them may stand where the old frame stood. -/
theorem isChain_replace {rel : Frame → Frame → Prop} {f : Frame} {after rest : List Frame}
    (hchain : (f :: rest).IsChain rel) (hafter : after.IsChain rel)
    (hlast : ∀ l ∈ after.getLast?, ∀ g, rel f g → rel l g) : (after ++ rest).IsChain rel := by
  rw [List.isChain_cons] at hchain
  exact List.isChain_append.mpr
    ⟨hafter, hchain.2, fun l hl g hg => hlast l hl g (hchain.1 g hg)⟩

end Threaded

end CppUtils
