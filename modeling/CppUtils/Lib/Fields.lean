import Mathlib.Data.List.Basic
import Mathlib.Data.List.Infix

/-!
# Fields between separators

The non-empty runs of a list between its separators, as a stream extracts words from a line and as a
path is read as components. `render` puts one separator before each field.
-/

namespace CppUtils

section Fields

variable {α : Type*} {p : α → Bool} {xs ys field : List α} {sep x : α}

/-- The non-empty runs of `xs` between elements that satisfy `p`. -/
def fields (p : α → Bool) (xs : List α) : List (List α) := (xs.splitOnP p).filter (!·.isEmpty)

@[simp] theorem fields_nil (p : α → Bool) : fields p [] = [] := rfl

theorem fields_append_cons (xs ys : List α) (hsep : p sep) :
    fields p (xs ++ sep :: ys) = fields p xs ++ fields p ys := by
  unfold fields
  rw [List.splitOnP_append_cons xs ys hsep, List.filter_append]

theorem fields_cons_sep (xs : List α) (hsep : p sep) : fields p (sep :: xs) = fields p xs :=
  fields_append_cons [] xs hsep

theorem fields_append_singleton (xs : List α) (hsep : p sep) : fields p (xs ++ [sep]) = fields p xs := by
  rw [fields_append_cons xs [] hsep, fields_nil, List.append_nil]

theorem fields_eq_singleton (hxs : xs ≠ []) (hfree : ∀ x ∈ xs, p x = false) : fields p xs = [xs] := by
  unfold fields
  rw [List.splitOnP_eq_singleton hfree, List.filter_singleton]
  cases xs with
  | nil => exact absurd rfl hxs
  | cons x xs => rfl

/-- The first field ends at the first separator. -/
theorem fields_append_cons_of_free (hxs : xs ≠ []) (hfree : ∀ x ∈ xs, p x = false) (hsep : p sep)
    (ys : List α) : fields p (xs ++ sep :: ys) = xs :: fields p ys := by
  rw [fields_append_cons xs ys hsep, fields_eq_singleton hxs hfree, List.singleton_append]

theorem mem_splitOnP_free (hmem : field ∈ xs.splitOnP p) : ∀ x ∈ field, p x = false := by
  induction xs generalizing field with
  | nil =>
    obtain rfl : field = [] := by simpa using hmem
    intro x hx
    cases hx
  | cons y ys ih =>
    rw [List.splitOnP_cons_eq_if_modifyHead] at hmem
    split at hmem
    · obtain rfl | hmem := List.mem_cons.mp hmem
      · intro x hx
        cases hx
      · exact ih hmem
    · rename_i hy
      cases hsplit : ys.splitOnP p with
      | nil => exact absurd hsplit (List.splitOnP_ne_nil p ys)
      | cons head rest =>
        rw [hsplit, List.modifyHead_cons] at hmem
        obtain rfl | hmem := List.mem_cons.mp hmem
        · intro x hx
          obtain rfl | hx := List.mem_cons.mp hx
          · exact Bool.eq_false_iff.mpr hy
          · exact ih (hsplit ▸ List.mem_cons_self) x hx
        · exact ih (hsplit ▸ List.mem_cons_of_mem _ hmem)

theorem ne_nil_of_mem_fields (hmem : field ∈ fields p xs) : field ≠ [] := by
  rintro rfl
  simpa using (List.mem_filter.mp hmem).2

theorem free_of_mem_fields (hmem : field ∈ fields p xs) : ∀ x ∈ field, p x = false :=
  mem_splitOnP_free (List.mem_filter.mp hmem).1

/-- A list with no separator before `x` and one field at most has the fields of its rest after it. -/
theorem fields_append_of_free (hxs : xs ≠ []) (hfree : ∀ x ∈ xs, p x = false)
    (hys : ∀ y ∈ ys.head?, p y) : fields p (xs ++ ys) = xs :: fields p ys := by
  cases ys with
  | nil => rw [List.append_nil, fields_eq_singleton hxs hfree, fields_nil]
  | cons y ys =>
    have hy : p y := hys y rfl
    rw [fields_append_cons_of_free hxs hfree hy, fields_cons_sep ys hy]

theorem findIdx_append_of_free (hxs : ∀ x ∈ xs, p x = false) (hys : ∀ y ∈ ys.head?, p y) :
    (xs ++ ys).findIdx p = xs.length := by
  rw [List.findIdx_append, List.findIdx_eq_length.mpr hxs, if_neg (lt_irrefl _)]
  cases ys with
  | nil => rw [List.findIdx_nil, Nat.zero_add]
  | cons y ys =>
    have hy : p y = true := hys y rfl
    rw [List.findIdx_cons, hy, cond_true, Nat.zero_add]

theorem fields_intercalate (hsep : p sep) (pieces : List (List α)) :
    fields p ([sep].intercalate pieces) = pieces.flatMap (fields p) := by
  induction pieces with
  | nil => rfl
  | cons piece pieces ih =>
    cases pieces with
    | nil => simp
    | cons next pieces =>
      rw [List.intercalate_cons_cons, List.append_assoc, List.singleton_append,
        fields_append_cons piece _ hsep, ih]
      rfl

theorem notMem_intercalate {pieces : List (List α)} (hx : x ≠ sep) (hpieces : ∀ piece ∈ pieces, x ∉ piece) :
    x ∉ [sep].intercalate pieces := by
  induction pieces with
  | nil => exact List.not_mem_nil
  | cons piece pieces ih =>
    have hrest := ih fun piece hmem => hpieces piece (List.mem_cons_of_mem _ hmem)
    cases pieces with
    | nil =>
      rw [List.intercalate_singleton]
      exact hpieces piece List.mem_cons_self
    | cons next pieces =>
      rw [List.intercalate_cons_cons, List.append_assoc, List.singleton_append]
      intro hmem
      obtain hmem | hmem := List.mem_append.mp hmem
      · exact hpieces piece List.mem_cons_self hmem
      · obtain rfl | hmem := List.mem_cons.mp hmem
        · exact hx rfl
        · exact hrest hmem

theorem splitOnP_append_of_free (hxs : ∀ x ∈ xs, p x = false) (ys : List α) :
    (xs ++ ys).splitOnP p = (ys.splitOnP p).modifyHead (xs ++ ·) := by
  induction xs with
  | nil => exact (congrFun List.modifyHead_id (ys.splitOnP p)).symm
  | cons x xs ih =>
    have hx : ¬ p x = true := Bool.eq_false_iff.mp (hxs x List.mem_cons_self)
    rw [List.cons_append, List.splitOnP_cons_eq_if_modifyHead, if_neg hx,
      ih fun y hy => hxs y (List.mem_cons_of_mem _ hy), List.modifyHead_modifyHead]
    rfl

/-- A code that keeps the separators, and writes everything else without one, codes each field. -/
theorem fields_flatMap {β : Type*} {q : β → Bool} {code : β → List α}
    (hsep : ∀ b, q b = true → ∃ a, code b = [a] ∧ p a = true)
    (hfree : ∀ b, q b = false → ∀ a ∈ code b, p a = false) (hne : ∀ b, code b ≠ [])
    (bs : List β) : fields p (bs.flatMap code) = (fields q bs).map (·.flatMap code) := by
  have hsplit : (bs.flatMap code).splitOnP p = (bs.splitOnP q).map (·.flatMap code) := by
    induction bs with
    | nil => rfl
    | cons b bs ih =>
      rw [List.flatMap_cons, List.splitOnP_cons_eq_if_modifyHead]
      cases hb : q b with
      | true =>
        obtain ⟨a, hcode, ha⟩ := hsep b hb
        rw [hcode, List.singleton_append, List.splitOnP_cons_eq_if_modifyHead, if_pos ha, if_pos rfl, ih]
        rfl
      | false =>
        rw [splitOnP_append_of_free (hfree b hb), ih, if_neg Bool.false_ne_true]
        cases bs.splitOnP q with
        | nil => rfl
        | cons piece pieces => rfl
  unfold fields
  rw [hsplit, List.filter_map]
  congr 1
  apply List.filter_congr
  intro piece _
  cases piece with
  | nil => rfl
  | cons b piece =>
    obtain ⟨a, as, hcode⟩ := List.exists_cons_of_ne_nil (hne b)
    simp [hcode]

end Fields

section Render

variable {α : Type*} {sep : α} {names rest : List (List α)} {name xs : List α}

def render (sep : α) (names : List (List α)) : List α := names.flatMap (sep :: ·)

@[simp] theorem render_nil (sep : α) : render sep [] = [] := rfl

@[simp] theorem render_cons (sep : α) (name : List α) (names : List (List α)) :
    render sep (name :: names) = sep :: (name ++ render sep names) := rfl

@[simp] theorem render_append (sep : α) (names rest : List (List α)) :
    render sep (names ++ rest) = render sep names ++ render sep rest := List.flatMap_append

theorem length_render_lt (hname : name ≠ []) (names : List (List α)) :
    (render sep names).length + 1 < (render sep (names ++ [name])).length := by
  have := List.length_pos_iff.mpr hname
  rw [render_append, List.length_append, render_cons, List.length_cons, List.length_append]
  omega

def IsField (sep : α) (name : List α) : Prop := name ≠ [] ∧ sep ∉ name

variable [DecidableEq α]

theorem isField_of_mem_fields (hmem : name ∈ fields (· == sep) xs) : IsField sep name := by
  refine ⟨ne_nil_of_mem_fields hmem, ?_⟩
  intro hsep
  simpa using free_of_mem_fields hmem sep hsep

theorem IsField.free (hname : IsField sep name) : ∀ x ∈ name, (x == sep) = false := by
  intro x hx
  rw [beq_eq_false_iff_ne]
  rintro rfl
  exact hname.2 hx

theorem fields_append_render (xs : List α) (hnames : ∀ name ∈ names, IsField sep name) :
    fields (· == sep) (xs ++ render sep names) = fields (· == sep) xs ++ names := by
  induction names generalizing xs with
  | nil => rw [render_nil, List.append_nil, List.append_nil]
  | cons name names ih =>
    have hname := hnames name List.mem_cons_self
    have hrest := fun name hmem => hnames name (List.mem_cons_of_mem _ hmem)
    calc fields (· == sep) (xs ++ render sep (name :: names))
      _ = fields (· == sep) ((xs ++ sep :: name) ++ render sep names) := by
        rw [render_cons, List.append_assoc, List.cons_append]
      _ = fields (· == sep) (xs ++ sep :: name) ++ names := ih _ hrest
      _ = fields (· == sep) xs ++ (name :: names) := by
        rw [fields_append_cons xs name (by simp), fields_eq_singleton hname.1 hname.free,
          List.append_assoc, List.singleton_append]

theorem fields_render (hnames : ∀ name ∈ names, IsField sep name) :
    fields (· == sep) (render sep names) = names :=
  fields_append_render [] hnames

end Render

end CppUtils
