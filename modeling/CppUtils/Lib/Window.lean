import Mathlib.Data.List.Induction

/-!
# Counting events in a window of a history

A window opens at an event of one kind and closes at an event of another. The events counted in it
are counted by a fold over the history, so that an invariant can speak of the open window alone.
-/

namespace CppUtils

/-- Which events open a window, close it and are counted in it. An event that opens a window that is
open lets it be. -/
structure Window (Event : Type*) where
  opens : Event → Bool
  closes : Event → Bool
  counts : Event → Bool
  opens_only : ∀ e, opens e = true → closes e = false ∧ counts e = false

namespace Window

variable {Event : Type*} (w : Window Event) {e : Event} {h : List Event}

/-- The events counted so far in the window, none while it is closed. -/
def next (n : Option ℕ) (e : Event) : Option ℕ :=
  if w.closes e then none else if w.opens e then some (n.getD 0)
  else if w.counts e then n.map (· + 1) else n

def since (h : List Event) : Option ℕ := h.foldl w.next none

@[simp] theorem since_nil : w.since [] = none := rfl

@[simp] theorem since_concat : w.since (h ++ [e]) = w.next (w.since h) e := by
  simp [since]

/-- The window that an event opened holds at least what has been counted since. -/
theorem exists_since (before : List Event) {middle : List Event} (hopens : w.opens e = true)
    (hmiddle : ∀ e' ∈ middle, w.closes e' = false) :
    ∃ n, w.since (before ++ e :: middle) = some n ∧ middle.countP w.counts ≤ n := by
  induction middle using List.reverseRecOn with
  | nil =>
    refine ⟨(w.since before).getD 0, ?_, Nat.zero_le _⟩
    rw [since_concat, next, hopens, (w.opens_only e hopens).1]
    rfl
  | append_singleton middle last ih =>
    obtain ⟨n, hn, hcount⟩ := ih fun e' he' => hmiddle e' (List.mem_append_left _ he')
    have hclosed : w.closes last = false := hmiddle last (by simp)
    have hsplit : before ++ e :: (middle ++ [last]) = before ++ e :: middle ++ [last] := by simp
    rw [hsplit, since_concat, hn, List.countP_append, List.countP_singleton, next, hclosed]
    by_cases hlast : w.opens last = true
    · have hnot := (w.opens_only last hlast).2
      exact ⟨n, by simp [hlast], by simpa [hnot] using hcount⟩
    · by_cases hcounts : w.counts last = true
      · exact ⟨n + 1, by simp [hlast, hcounts], by simpa [hcounts] using hcount⟩
      · exact ⟨n, by simp [hlast, hcounts], by simpa [hcounts] using hcount⟩

end Window

end CppUtils
