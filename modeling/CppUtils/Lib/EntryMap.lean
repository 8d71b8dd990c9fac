import Mathlib

/-!
# Maps filled entry by entry

A map as the list of its entries, each key once: in any order, or sorted by the keys. Indexing the map by
a key makes the entry if there is none; what that does to a sum over the entries, or to a property of all
of them, is the same for both.
-/

namespace CppUtils

variable {K V : Type*} {key : K} {f : Option V → V} {entries entries' : List (K × V)}

/-- The entry of the key is made or changed by `f`, wherever the map keeps it. -/
inductive Upserted (key : K) (f : Option V → V) : List (K × V) → List (K × V) → Prop
  | made (front back : List (K × V)) (hnew : key ∉ (front ++ back).map Prod.fst) :
      Upserted key f (front ++ back) (front ++ (key, f none) :: back)
  | changed (front : List (K × V)) (v : V) (back : List (K × V)) :
      Upserted key f (front ++ (key, v) :: back) (front ++ (key, f (some v)) :: back)

namespace Upserted

theorem cons {entry : K × V} (hne : entry.1 ≠ key) (h : Upserted key f entries entries') :
    Upserted key f (entry :: entries) (entry :: entries') := by
  cases h with
  | made front back hnew =>
    refine .made (entry :: front) back ?_
    intro hmem
    rcases List.mem_cons.mp hmem with heq | hmem
    · exact hne heq.symm
    · exact hnew hmem
  | changed front v back => exact .changed (entry :: front) v back

theorem sum_map (h : Upserted key f entries entries') (g : K × V → ℕ) {d : ℕ}
    (hmade : g (key, f none) = d)
    (hchanged : ∀ v, (key, v) ∈ entries → g (key, f (some v)) = g (key, v) + d) :
    (entries'.map g).sum = (entries.map g).sum + d := by
  cases h with
  | made front back hnew =>
    simp only [List.map_append, List.map_cons, List.sum_append, List.sum_cons, hmade]
    omega
  | changed front v back =>
    simp only [List.map_append, List.map_cons, List.sum_append, List.sum_cons,
      hchanged v (by simp)]
    omega

theorem forall_mem (h : Upserted key f entries entries') {P : K × V → Prop}
    (hentries : ∀ e ∈ entries, P e) (hmade : P (key, f none))
    (hchanged : ∀ v, (key, v) ∈ entries → P (key, f (some v))) : ∀ e ∈ entries', P e := by
  intro e he
  cases h with
  | made front back hnew =>
    rcases List.mem_append.mp he with hfront | hrest
    · exact hentries e (List.mem_append_left _ hfront)
    · rcases List.mem_cons.mp hrest with rfl | hback
      · exact hmade
      · exact hentries e (List.mem_append_right _ hback)
  | changed front v back =>
    rcases List.mem_append.mp he with hfront | hrest
    · exact hentries e (List.mem_append_left _ hfront)
    · rcases List.mem_cons.mp hrest with rfl | hback
      · exact hchanged v (by simp)
      · exact hentries e (List.mem_append_right _ (List.mem_cons_of_mem _ hback))

end Upserted

/-! ### A map without an order -/

section Unordered

variable [DecidableEq K]

def upsert (key : K) (f : Option V → V) : List (K × V) → List (K × V)
  | [] => [(key, f none)]
  | (k, v) :: rest => if k = key then (k, f (some v)) :: rest else (k, v) :: upsert key f rest

theorem upserted_upsert (key : K) (f : Option V → V) (entries : List (K × V)) :
    Upserted key f entries (upsert key f entries) := by
  induction entries with
  | nil => exact .made [] [] List.not_mem_nil
  | cons entry rest ih =>
    obtain ⟨k, v⟩ := entry
    rw [upsert]
    split
    · rename_i hk
      subst hk
      exact .changed [] v rest
    · rename_i hk
      exact ih.cons hk

end Unordered

/-! ### A sorted map -/

/-- Entries in the ascending order of their keys. -/
structure SortedMap (K V : Type*) [LinearOrder K] where
  entries : List (K × V)
  sorted : entries.Pairwise fun a b => a.1 < b.1

section Sorted

variable [LinearOrder K]

def insertSorted (key : K) (f : Option V → V) : List (K × V) → List (K × V)
  | [] => [(key, f none)]
  | (k, v) :: rest =>
    if key < k then (key, f none) :: (k, v) :: rest
    else if key = k then (k, f (some v)) :: rest
    else (k, v) :: insertSorted key f rest

theorem upserted_insertSorted (hsorted : entries.Pairwise fun a b => a.1 < b.1) :
    Upserted key f entries (insertSorted key f entries) := by
  induction entries with
  | nil => exact .made [] [] List.not_mem_nil
  | cons entry rest ih =>
    obtain ⟨k, v⟩ := entry
    obtain ⟨hfirst, hrest⟩ := List.pairwise_cons.mp hsorted
    rw [insertSorted]
    split_ifs with hlt heq
    · refine .made [] ((k, v) :: rest) ?_
      intro hmem
      obtain ⟨e, he, hkey⟩ := List.mem_map.mp hmem
      rcases List.mem_cons.mp he with rfl | he
      · exact hlt.ne hkey.symm
      · exact (hlt.trans (hfirst e he)).ne hkey.symm
    · subst heq
      exact .changed [] v rest
    · exact (ih hrest).cons (Ne.symm heq)

theorem mem_insertSorted {e : K × V} (he : e ∈ insertSorted key f entries) :
    e.1 = key ∨ ∃ e' ∈ entries, e'.1 = e.1 := by
  induction entries with
  | nil => exact .inl (congrArg Prod.fst (List.mem_singleton.mp he))
  | cons entry rest ih =>
    obtain ⟨k, v⟩ := entry
    rw [insertSorted] at he
    split_ifs at he with hlt heq
    · rcases List.mem_cons.mp he with rfl | he
      · exact .inl rfl
      · exact .inr ⟨e, he, rfl⟩
    · rcases List.mem_cons.mp he with rfl | he
      · exact .inl heq.symm
      · exact .inr ⟨e, List.mem_cons_of_mem _ he, rfl⟩
    · rcases List.mem_cons.mp he with rfl | he
      · exact .inr ⟨_, List.mem_cons_self, rfl⟩
      · rcases ih he with hkey | ⟨e', he', hkey⟩
        · exact .inl hkey
        · exact .inr ⟨e', List.mem_cons_of_mem _ he', hkey⟩

theorem sorted_insertSorted (key : K) (f : Option V → V)
    (hsorted : entries.Pairwise fun a b => a.1 < b.1) :
    (insertSorted key f entries).Pairwise fun a b => a.1 < b.1 := by
  induction entries with
  | nil => exact List.pairwise_singleton _ _
  | cons entry rest ih =>
    obtain ⟨k, v⟩ := entry
    obtain ⟨hfirst, hrest⟩ := List.pairwise_cons.mp hsorted
    rw [insertSorted]
    split_ifs with hlt heq
    · refine List.pairwise_cons.mpr ⟨?_, hsorted⟩
      intro e he
      rcases List.mem_cons.mp he with rfl | he
      · exact hlt
      · exact hlt.trans (hfirst e he)
    · exact List.pairwise_cons.mpr ⟨hfirst, hrest⟩
    · refine List.pairwise_cons.mpr ⟨?_, ih hrest⟩
      intro e he
      rcases mem_insertSorted he with hkey | ⟨e', he', hkey⟩
      · rw [hkey]
        exact lt_of_le_of_ne (not_lt.mp hlt) (Ne.symm heq)
      · rw [← hkey]
        exact hfirst e' he'

namespace SortedMap

variable (m : SortedMap K V)

def empty : SortedMap K V := ⟨[], .nil⟩

/-- `map[key]`, changed by `f`. -/
def upsert (key : K) (f : Option V → V) : SortedMap K V :=
  ⟨insertSorted key f m.entries, sorted_insertSorted key f m.sorted⟩

theorem upserted (key : K) (f : Option V → V) :
    Upserted key f m.entries (m.upsert key f).entries :=
  upserted_insertSorted m.sorted

end SortedMap

end Sorted

end CppUtils
