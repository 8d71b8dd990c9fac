import Mathlib

/-!
# Loops that work in place

A loop over a store of cells. Where each turn rewrites cells of its own from those cells alone, the
order of the turns does not matter. Where each turn puts what it carries into a cell and carries on what
stood there, every cell on the way gets what stood in the cell before it.
-/

namespace CppUtils

section Regions

variable {Store Cell Turn Value : Type*} [DecidableEq Turn]

/-- Each turn rewrites the cells of its region from the cells of that region. -/
theorem foldl_regions (get : Store → Cell → Value) (region : Cell → Option Turn)
    (step : Store → Turn → Store) (value : Store → Cell → Value)
    (hstep : ∀ s j k, get (step s j) k = if region k = some j then value s k else get s k)
    (hlocal : ∀ s s' k, (∀ k', region k' = region k → get s k' = get s' k') → value s k = value s' k)
    {turns : List Turn} (hnodup : turns.Nodup) (s : Store) (k : Cell) :
    get (turns.foldl step s) k = if region k ∈ turns.map some then value s k else get s k := by
  induction turns generalizing s with
  | nil => rfl
  | cons i turns ih =>
    obtain ⟨hi, hturns⟩ := List.nodup_cons.mp hnodup
    rw [List.foldl_cons, ih hturns, List.map_cons]
    by_cases hk : region k = some i
    · have hnot : region k ∉ turns.map some := by
        rw [hk]
        exact fun hmem => hi ((List.mem_map_of_injective (Option.some_injective Turn)).mp hmem)
      rw [if_neg hnot, hstep, if_pos hk, if_pos (List.mem_cons.mpr (.inl hk))]
    · have hget : ∀ k', region k' = region k → get (step s i) k' = get s k' := by
        intro k' hk'
        rw [hstep, if_neg (hk' ▸ hk)]
      rw [hlocal _ _ k hget, hget k rfl]
      by_cases hmem : region k ∈ turns.map some
      · rw [if_pos hmem, if_pos (List.mem_cons_of_mem _ hmem)]
      · rw [if_neg hmem, if_neg (List.not_mem_cons_of_ne_of_not_mem hk hmem)]

end Regions

section Carry

variable {Store Cell Value : Type*} (get : Store → Cell → Value) (put : Store → Cell → Value → Store)

/-- What is carried goes into a cell, changed, and what stood there is carried on. -/
def carry (state : Store × Value)
    (move : Cell × (Value → Value)) : Store × Value :=
  (put state.1 move.1 (move.2 state.2), get state.1 move.1)

/-- The other cells keep their values, and each cell of the way gets the value of the one before it. -/
theorem foldl_carry [DecidableEq Cell]
    (hput : ∀ s j v k, get (put s j v) k = if k = j then v else get s k)
    {moves : List (Cell × (Value → Value))} (hnodup : (moves.map Prod.fst).Nodup) (s : Store) (v : Value) :
    (∀ k ∉ moves.map Prod.fst, get (moves.foldl (carry get put) (s, v)).1 k = get s k) ∧
      ∀ p ∈ moves.zip (v :: moves.map fun move => get s move.1),
        get (moves.foldl (carry get put) (s, v)).1 p.1.1 = p.1.2 p.2 := by
  induction moves generalizing s v with
  | nil => exact ⟨fun _ _ => rfl, fun p hp => absurd hp List.not_mem_nil⟩
  | cons move moves ih =>
    rw [List.map_cons, List.nodup_cons] at hnodup
    obtain ⟨hmove, hnodup⟩ := hnodup
    obtain ⟨hother, hway⟩ := ih hnodup (put s move.1 (move.2 v)) (get s move.1)
    refine ⟨?_, ?_⟩
    · intro k hk
      rw [List.map_cons, List.mem_cons, not_or] at hk
      rw [List.foldl_cons, carry, hother k hk.2, hput, if_neg hk.1]
    · intro p hp
      rw [List.foldl_cons, carry]
      rw [List.zip_cons_cons] at hp
      obtain rfl | hp := List.mem_cons.mp hp
      · rw [hother _ hmove, hput, if_pos rfl]
      · apply hway
        have hsame : moves.map (fun m => get (put s move.1 (move.2 v)) m.1) =
            moves.map fun m => get s m.1 := by
          apply List.map_congr_left
          intro m hm
          have hne : m.1 ≠ move.1 := by
            intro heq
            exact hmove (heq ▸ List.mem_map_of_mem hm)
          rw [hput, if_neg hne]
        rw [hsame]
        exact hp

end Carry

end CppUtils
