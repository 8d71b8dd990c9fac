import Mathlib

/-!
# Searching memory

`memfind` over byte strings. A pointer is an offset into the haystack, and the ranges that `memchr` and
`memcmp` are given are recorded.
-/

namespace CppUtils.MemoryFunctions

section Code

/-- A call that reads memory: where its ranges begin, and how long they are. -/
inductive Access
  | memchr (start size : ℕ)
  | memcmp (haystackStart needleStart size : ℕ)

/-- The first offset from `start` on, among `size` bytes, that holds the byte. -/
def memchr (bytes : List UInt8) (start : ℕ) (byte : UInt8) (size : ℕ) : Option ℕ :=
  (((bytes.drop start).take size).findIdx? (· == byte)).map (start + ·)

theorem memchr_bounds {bytes : List UInt8} {start size found : ℕ} {byte : UInt8}
    (h : memchr bytes start byte size = some found) : start ≤ found ∧ found < start + size := by
  obtain ⟨k, hk, rfl⟩ := Option.map_eq_some_iff.mp h
  have hlt := (List.findIdx?_eq_some_iff_findIdx_eq.mp hk).1
  rw [List.length_take] at hlt
  omega

/-- The loop of `memfind`, for a needle with this first byte and this rest, and the reads made so far. -/
def scan (haystack : List UInt8) (first : UInt8) (rest : List UInt8) (searchEnd candidate : ℕ)
    (accesses : List Access) : Option ℕ × List Access :=
  if candidate < searchEnd then
    let accesses := accesses ++ [.memchr candidate (searchEnd - candidate)]
    match _hfound : memchr haystack candidate first (searchEnd - candidate) with
    | none => (none, accesses)
    | some found =>
      if rest.length + 1 = 1 then (some found, accesses)
      else
        let accesses := accesses ++ [.memcmp (found + 1) 1 rest.length]
        if (haystack.drop (found + 1)).take rest.length = rest then (some found, accesses)
        else scan haystack first rest searchEnd (found + 1) accesses
  else (none, accesses)
termination_by searchEnd - candidate
decreasing_by
  have := memchr_bounds _hfound
  omega

/-- The offset that `memfind` finds, none for null, and its reads. -/
def memfind (haystack needle : List UInt8) : Option ℕ × List Access :=
  match needle with
  | [] => (none, [])
  | first :: rest =>
    if haystack.length = 0 ∨ needle.length > haystack.length then (none, [])
    else scan haystack first rest (haystack.length - needle.length + 1) 0 []

end Code

section FirstOccurrence

variable {haystack needle rest : List UInt8} {first byte : UInt8} {start size i j found : ℕ}

/-- The needle's bytes are the haystack's from offset `i` on. -/
def OccursAt (haystack needle : List UInt8) (i : ℕ) : Prop :=
  i + needle.length ≤ haystack.length ∧ (haystack.drop i).take needle.length = needle

theorem occursAt_cons : OccursAt haystack (first :: rest) i ↔
    i + rest.length + 1 ≤ haystack.length ∧ haystack[i]? = some first ∧
      (haystack.drop (i + 1)).take rest.length = rest := by
  unfold OccursAt
  rw [List.length_cons]
  constructor
  · rintro ⟨hle, htake⟩
    have hi : i < haystack.length := by omega
    rw [List.drop_eq_getElem_cons hi, List.take_succ_cons, List.cons.injEq] at htake
    exact ⟨by omega, by rw [List.getElem?_eq_getElem hi, htake.1], htake.2⟩
  · rintro ⟨hle, hfirst, hrest⟩
    obtain ⟨hi, hget⟩ := List.getElem?_eq_some_iff.mp hfirst
    rw [List.drop_eq_getElem_cons hi, List.take_succ_cons, hget, hrest]
    exact ⟨by omega, rfl⟩

theorem getElem?_of_memchr (h : memchr haystack start byte size = some found) :
    haystack[found]? = some byte ∧ ∀ j, start ≤ j → j < found → haystack[j]? ≠ some byte := by
  obtain ⟨k, hk, rfl⟩ := Option.map_eq_some_iff.mp h
  obtain ⟨hlt, hget, hbefore⟩ := List.findIdx?_eq_some_iff_getElem.mp hk
  have hsize : k < size := by
    rw [List.length_take] at hlt
    omega
  constructor
  · have hk : ((haystack.drop start).take size)[k]? = some byte := by
      rw [List.getElem?_eq_getElem hlt, beq_iff_eq.mp hget]
    rw [List.getElem?_take_of_lt hsize, List.getElem?_drop] at hk
    exact hk
  · intro j hstart hj hbyte
    have hlt' : j - start < k := by omega
    have hj' : ((haystack.drop start).take size)[j - start]? = some byte := by
      rw [List.getElem?_take_of_lt (by omega), List.getElem?_drop, Nat.add_sub_cancel' hstart, hbyte]
    obtain ⟨_, hget'⟩ := List.getElem?_eq_some_iff.mp hj'
    exact hbefore (j - start) hlt' (beq_iff_eq.mpr hget')

theorem getElem?_ne_of_memchr (h : memchr haystack start byte size = none) (hstart : start ≤ j)
    (hj : j < start + size) : haystack[j]? ≠ some byte := by
  have hnone := List.findIdx?_eq_none_iff.mp (Option.map_eq_none_iff.mp h)
  intro hbyte
  have hj' : ((haystack.drop start).take size)[j - start]? = some byte := by
    rw [List.getElem?_take_of_lt (by omega), List.getElem?_drop, Nat.add_sub_cancel' hstart, hbyte]
  simpa using hnone byte (List.mem_of_getElem? hj')

/-- A result that names the first occurrence, or tells that there is none. -/
def IsFirst (haystack needle : List UInt8) : Option ℕ → Prop
  | some i => OccursAt haystack needle i ∧ ∀ j < i, ¬ OccursAt haystack needle j
  | none => ∀ j, ¬ OccursAt haystack needle j

/-- One iteration of the loop. -/
theorem scan_eq (haystack : List UInt8) (first : UInt8) (rest : List UInt8) (searchEnd candidate : ℕ)
    (accesses : List Access) : scan haystack first rest searchEnd candidate accesses =
      if candidate < searchEnd then
        match memchr haystack candidate first (searchEnd - candidate) with
        | none => (none, accesses ++ [.memchr candidate (searchEnd - candidate)])
        | some found =>
          if rest.length + 1 = 1 then
            (some found, accesses ++ [.memchr candidate (searchEnd - candidate)])
          else if (haystack.drop (found + 1)).take rest.length = rest then
            (some found, accesses ++ [.memchr candidate (searchEnd - candidate)] ++
              [.memcmp (found + 1) 1 rest.length])
          else
            scan haystack first rest searchEnd (found + 1)
              (accesses ++ [.memchr candidate (searchEnd - candidate)] ++
                [.memcmp (found + 1) 1 rest.length])
      else (none, accesses) := by
  rw [scan]
  split
  · cases hfound : memchr haystack candidate first (searchEnd - candidate) with
    | none => rfl
    | some found => rfl
  · rfl

theorem not_occursAt_of_end (hj : haystack.length - (rest.length + 1) + 1 ≤ j) :
    ¬ OccursAt haystack (first :: rest) j := by
  intro hoccurs
  have hle := hoccurs.1
  rw [List.length_cons] at hle
  omega

theorem not_occursAt_of_lt_found {candidate searchEnd : ℕ}
    (hfound : memchr haystack candidate first (searchEnd - candidate) = some found)
    (hbefore : ∀ j < candidate, ¬ OccursAt haystack (first :: rest) j) (hj : j < found) :
    ¬ OccursAt haystack (first :: rest) j := by
  obtain hlt | hge := lt_or_ge j candidate
  · exact hbefore j hlt
  · intro hoccurs
    exact (getElem?_of_memchr hfound).2 j hge hj (occursAt_cons.mp hoccurs).2.1

/-- When no offset before the candidate is an occurrence, the rest of the loop finds the first one. -/
theorem scan_isFirst (hfits : rest.length + 1 ≤ haystack.length) (candidate : ℕ)
    (accesses : List Access) (hbefore : ∀ j < candidate, ¬ OccursAt haystack (first :: rest) j) :
    IsFirst haystack (first :: rest)
      (scan haystack first rest (haystack.length - (rest.length + 1) + 1) candidate accesses).1 := by
  induction candidate, accesses using scan.induct haystack first rest
    (haystack.length - (rest.length + 1) + 1) with
  | case1 candidate accesses hlt hfound =>
    rw [scan_eq, if_pos hlt, hfound]
    intro j hoccurs
    obtain hj | hj := lt_or_ge j candidate
    · exact hbefore j hj hoccurs
    · obtain hj' | hj' := lt_or_ge j (haystack.length - (rest.length + 1) + 1)
      · exact getElem?_ne_of_memchr hfound hj (by omega) (occursAt_cons.mp hoccurs).2.1
      · exact not_occursAt_of_end hj' hoccurs
  | case2 candidate accesses hlt found hfound hsingle =>
    rw [scan_eq, if_pos hlt, hfound]
    dsimp only
    rw [if_pos hsingle]
    have hbounds := memchr_bounds hfound
    have hrest : rest = [] := List.length_eq_zero_iff.mp (by omega)
    refine ⟨occursAt_cons.mpr ⟨by omega, (getElem?_of_memchr hfound).1, ?_⟩, ?_⟩
    · rw [hrest]
      rfl
    · exact fun j hj => not_occursAt_of_lt_found hfound hbefore hj
  | case3 candidate accesses hlt found hfound hsingle hequal =>
    rw [scan_eq, if_pos hlt, hfound]
    dsimp only
    rw [if_neg hsingle, if_pos hequal]
    have hbounds := memchr_bounds hfound
    refine ⟨occursAt_cons.mpr ⟨by omega, (getElem?_of_memchr hfound).1, hequal⟩, ?_⟩
    exact fun j hj => not_occursAt_of_lt_found hfound hbefore hj
  | case4 candidate accesses hlt _ found hfound hsingle _ hequal ih =>
    rw [scan_eq, if_pos hlt, hfound]
    dsimp only
    rw [if_neg hsingle, if_neg hequal]
    apply ih
    intro j hj
    obtain hj | rfl := (Nat.lt_succ_iff.mp hj).lt_or_eq
    · exact not_occursAt_of_lt_found hfound hbefore hj
    · exact fun hoccurs => hequal (occursAt_cons.mp hoccurs).2.2
  | case5 candidate accesses hend =>
    rw [scan_eq, if_neg hend]
    intro j hoccurs
    obtain hj | hj := lt_or_ge j candidate
    · exact hbefore j hj hoccurs
    · exact not_occursAt_of_end ((not_lt.mp hend).trans hj) hoccurs

def Access.InRange (haystack needle : List UInt8) : Access → Prop
  | .memchr start size => start + size ≤ haystack.length
  | .memcmp haystackStart needleStart size =>
    haystackStart + size ≤ haystack.length ∧ needleStart + size ≤ needle.length

theorem forall_mem_concat {P : Access → Prop} {accesses : List Access} {access : Access}
    (haccesses : ∀ a ∈ accesses, P a) (haccess : P access) : ∀ a ∈ accesses ++ [access], P a := by
  intro a ha
  obtain ha | ha := List.mem_append.mp ha
  · exact haccesses a ha
  · rw [List.mem_singleton.mp ha]
    exact haccess

theorem scan_inRange (hfits : rest.length + 1 ≤ haystack.length) (candidate : ℕ)
    (accesses : List Access) (haccesses : ∀ a ∈ accesses, a.InRange haystack (first :: rest)) :
    ∀ a ∈ (scan haystack first rest (haystack.length - (rest.length + 1) + 1) candidate accesses).2,
      a.InRange haystack (first :: rest) := by
  have hmemchr : ∀ candidate, candidate < haystack.length - (rest.length + 1) + 1 →
      (Access.memchr candidate (haystack.length - (rest.length + 1) + 1 - candidate)).InRange haystack
        (first :: rest) := by
    intro candidate hlt
    change candidate + (haystack.length - (rest.length + 1) + 1 - candidate) ≤ haystack.length
    omega
  have hmemcmp : ∀ candidate found,
      memchr haystack candidate first (haystack.length - (rest.length + 1) + 1 - candidate) = some found →
        (Access.memcmp (found + 1) 1 rest.length).InRange haystack (first :: rest) := by
    intro candidate found hfound
    have hbounds := memchr_bounds hfound
    change found + 1 + rest.length ≤ haystack.length ∧ 1 + rest.length ≤ (first :: rest).length
    rw [List.length_cons]
    omega
  induction candidate, accesses using scan.induct haystack first rest
    (haystack.length - (rest.length + 1) + 1) with
  | case1 candidate accesses hlt hfound =>
    rw [scan_eq, if_pos hlt, hfound]
    exact forall_mem_concat haccesses (hmemchr candidate hlt)
  | case2 candidate accesses hlt found hfound hsingle =>
    rw [scan_eq, if_pos hlt, hfound]
    dsimp only
    rw [if_pos hsingle]
    exact forall_mem_concat haccesses (hmemchr candidate hlt)
  | case3 candidate accesses hlt found hfound hsingle hequal =>
    rw [scan_eq, if_pos hlt, hfound]
    dsimp only
    rw [if_neg hsingle, if_pos hequal]
    exact forall_mem_concat (forall_mem_concat haccesses (hmemchr candidate hlt))
      (hmemcmp candidate found hfound)
  | case4 candidate accesses hlt _ found hfound hsingle _ hequal ih =>
    rw [scan_eq, if_pos hlt, hfound]
    dsimp only
    rw [if_neg hsingle, if_neg hequal]
    exact ih (forall_mem_concat (forall_mem_concat haccesses (hmemchr candidate hlt))
      (hmemcmp candidate found hfound))
  | case5 candidate accesses hend =>
    rw [scan_eq, if_neg hend]
    exact haccesses

theorem memfind_isFirst (haystack : List UInt8) (first : UInt8) (rest : List UInt8) :
    IsFirst haystack (first :: rest) (memfind haystack (first :: rest)).1 := by
  unfold memfind
  dsimp only
  split
  · rename_i hnone
    intro j hoccurs
    have hle := hoccurs.1
    rw [List.length_cons] at hle hnone
    omega
  · rename_i hsome
    rw [List.length_cons] at hsome
    exact scan_isFirst (by omega) 0 [] fun j hj => absurd hj (Nat.not_lt_zero j)

theorem memfind_inRange (haystack needle : List UInt8) :
    ∀ a ∈ (memfind haystack needle).2, a.InRange haystack needle := by
  unfold memfind
  cases needle with
  | nil => exact fun a ha => absurd ha List.not_mem_nil
  | cons first rest =>
    dsimp only
    split
    · exact fun a ha => absurd ha List.not_mem_nil
    · rename_i hsome
      rw [List.length_cons] at hsome
      exact scan_inRange (by omega) 0 [] fun a ha => absurd ha List.not_mem_nil

/-- The result is the smallest offset at which the needle occurs, null exactly for an empty needle and one
that does not occur; and no read leaves its ranges. -/
theorem memfind_first (haystack needle : List UInt8) :
    (∀ i, (memfind haystack needle).1 = some i ↔
      needle ≠ [] ∧ OccursAt haystack needle i ∧ ∀ j < i, ¬ OccursAt haystack needle j) ∧
    ((memfind haystack needle).1 = none ↔ needle = [] ∨ ∀ i, ¬ OccursAt haystack needle i) ∧
    ∀ a ∈ (memfind haystack needle).2, a.InRange haystack needle := by
  refine ⟨?_, ?_, memfind_inRange haystack needle⟩
  · intro i
    cases needle with
    | nil => simp [memfind]
    | cons first rest =>
      have hfirst := memfind_isFirst haystack first rest
      cases hresult : (memfind haystack (first :: rest)).1 with
      | none =>
        rw [hresult] at hfirst
        constructor
        · intro h
          cases h
        · intro h
          exact absurd h.2.1 (hfirst i)
      | some k =>
        rw [hresult] at hfirst
        constructor
        · intro h
          cases h
          exact ⟨List.cons_ne_nil _ _, hfirst⟩
        · rintro ⟨_, hoccurs, hbefore⟩
          obtain hlt | rfl | hgt := lt_trichotomy i k
          · exact absurd hoccurs (hfirst.2 i hlt)
          · rfl
          · exact absurd hfirst.1 (hbefore k hgt)
  · cases needle with
    | nil => simp [memfind]
    | cons first rest =>
      have hfirst := memfind_isFirst haystack first rest
      cases hresult : (memfind haystack (first :: rest)).1 with
      | none =>
        rw [hresult] at hfirst
        exact ⟨fun _ => .inr hfirst, fun _ => rfl⟩
      | some k =>
        rw [hresult] at hfirst
        constructor
        · intro h
          cases h
        · rintro (h | h)
          · cases h
          · exact absurd hfirst.1 (h k)

end FirstOccurrence

end CppUtils.MemoryFunctions
