import CppUtils.Hash.Keccak

/-!
# The rounds of `keccakf`

The words hold the state array of the standard, one lane in each. Every part of a round does to the words
what the standard's step mappings do to the bits.
-/

namespace CppUtils.Hash

variable {s : Words}

/-! ### Lanes -/

@[simp] theorem lane_inj {x y x' y' : Fin 5} : lane x y = lane x' y' ↔ x = x' ∧ y = y' := by
  unfold lane
  rw [Fin.mk.injEq]
  omega

theorem word_put (s : Words) (k : Fin 25) (v : BitVec 64) (k' : Fin 25) :
    (s.put k v).word k' = if k' = k then v else s.word k' := by
  unfold Words.put Words.word
  rw [Fin.getElem_fin, Vector.getElem_set]
  by_cases h : k' = k
  · rw [if_pos h, if_pos (congrArg Fin.val h.symm)]
  · rw [if_neg h, if_neg fun hval => h (Fin.ext hval.symm)]
    rfl

theorem word_xorAt (s : Words) (k : Fin 25) (t : BitVec 64) (k' : Fin 25) :
    (s.xorAt k t).word k' = if k' = k then s.word k' ^^^ t else s.word k' := by
  unfold Words.xorAt
  rw [word_put]
  by_cases h : k' = k
  · rw [if_pos h, if_pos h, h]
  · rw [if_neg h, if_neg h]

theorem nodup_coordinates : coordinates.Nodup := List.nodup_finRange 5

theorem some_mem_coordinates (x : Fin 5) : some x ∈ coordinates.map some :=
  List.mem_map_of_mem (List.mem_finRange x)

theorem find?_coordinates {place : Fin 5 → Fin 5 × Fin 5} (hplace : place.Injective) {p : Fin 5 × Fin 5}
    {j : Fin 5} : coordinates.find? (place · = p) = some j ↔ place j = p := by
  constructor
  · intro h
    have hj := List.find?_some h
    exact of_decide_eq_true hj
  · intro h
    have hsome : (coordinates.find? (place · = p)).isSome :=
      List.find?_isSome.mpr ⟨j, List.mem_finRange j, decide_eq_true h⟩
    obtain ⟨i, hi⟩ := Option.isSome_iff_exists.mp hsome
    have hplaceI := List.find?_some hi
    rw [hi, hplace ((of_decide_eq_true hplaceI).trans h.symm)]

/-- A loop that xors something into each lane of a line changes those lanes only. -/
theorem foldl_xorAt {place : Fin 5 → Fin 5 × Fin 5} (hplace : place.Injective) (t : Fin 5 → BitVec 64)
    (s : Words) :
    (∀ j, Words.word (coordinates.foldl (fun s j => s.xorAt (lane (place j).1 (place j).2) (t j)) s)
        (lane (place j).1 (place j).2) = s.word (lane (place j).1 (place j).2) ^^^ t j) ∧
      ∀ x y, (∀ j, place j ≠ (x, y)) →
        Words.word (coordinates.foldl (fun s j => s.xorAt (lane (place j).1 (place j).2) (t j)) s)
            (lane x y) =
          s.word (lane x y) := by
  have hloop := foldl_regions (fun (s : Words) (p : Fin 5 × Fin 5) => s.word (lane p.1 p.2))
    (fun p => coordinates.find? (place · = p))
    (fun s j => s.xorAt (lane (place j).1 (place j).2) (t j))
    (fun s p => s.word (lane p.1 p.2) ^^^ ((coordinates.find? (place · = p)).elim 0 t)) ?_ ?_
    nodup_coordinates s
  · refine ⟨?_, ?_⟩
    · intro j
      have hj := hloop (place j)
      rw [(find?_coordinates hplace).mpr rfl, if_pos (some_mem_coordinates j)] at hj
      exact hj
    · intro x y hnone
      have hxy := hloop (x, y)
      rw [if_neg] at hxy
      · exact hxy
      · intro hmem
        obtain ⟨j, _, hj⟩ := List.mem_map.mp hmem
        exact hnone j ((find?_coordinates hplace).mp hj.symm)
  · intro s j p
    rw [word_xorAt]
    by_cases hj : p = place j
    · subst hj
      rw [if_pos rfl, (find?_coordinates hplace).mpr rfl, if_pos rfl]
      rfl
    · have hlane : lane p.1 p.2 ≠ lane (place j).1 (place j).2 :=
        fun h => hj (Prod.ext_iff.mpr (lane_inj.mp h))
      rw [if_neg hlane, if_neg fun h => hj ((find?_coordinates hplace).mp h).symm]
  · intro s s' p hsame
    rw [hsame p rfl]

/-! ### The parts of a round -/

theorem word_theta (s : Words) (x y : Fin 5) :
    (theta s).word (lane x y) =
      s.word (lane x y) ^^^ (columns s (x + 4) ^^^ rotl64 (columns s (x + 1)) 1) := by
  have hloop := foldl_regions (fun (s : Words) (p : Fin 5 × Fin 5) => s.word (lane p.1 p.2))
    (fun p => some p.1)
    (fun s' i => coordinates.foldl (fun s' j =>
      s'.xorAt (lane i j) (columns s (i + 4) ^^^ rotl64 (columns s (i + 1)) 1)) s')
    (fun s' p => s'.word (lane p.1 p.2) ^^^ (columns s (p.1 + 4) ^^^ rotl64 (columns s (p.1 + 1)) 1))
    ?_ ?_ nodup_coordinates s (x, y)
  · rw [if_pos (some_mem_coordinates x)] at hloop
    exact hloop
  · intro s' i p
    have hcolumn : (fun j : Fin 5 => (i, j)).Injective := Prod.mk_right_injective i
    obtain ⟨hin, hout⟩ := foldl_xorAt hcolumn
      (fun _ => columns s (i + 4) ^^^ rotl64 (columns s (i + 1)) 1) s'
    by_cases hi : p.1 = i
    · subst hi
      rw [if_pos rfl]
      exact hin p.2
    · rw [if_neg fun h => hi (Option.some.inj h)]
      exact hout p.1 p.2 fun j h => hi (congrArg Prod.fst h).symm
  · intro s s' p hsame
    rw [hsame p rfl]

theorem word_chi (s : Words) (x y : Fin 5) :
    (chi s).word (lane x y) =
      s.word (lane x y) ^^^ (~~~s.word (lane (x + 1) y) &&& s.word (lane (x + 2) y)) := by
  have hloop := foldl_regions (fun (s : Words) (p : Fin 5 × Fin 5) => s.word (lane p.1 p.2))
    (fun p => some p.2)
    (fun s j => coordinates.foldl (fun s' i =>
      s'.xorAt (lane i j) (~~~s.word (lane (i + 1) j) &&& s.word (lane (i + 2) j))) s)
    (fun s p => s.word (lane p.1 p.2) ^^^ (~~~s.word (lane (p.1 + 1) p.2) &&& s.word (lane (p.1 + 2) p.2)))
    ?_ ?_ nodup_coordinates s (x, y)
  · rw [if_pos (some_mem_coordinates y)] at hloop
    exact hloop
  · intro s j p
    have hrow : (fun i : Fin 5 => (i, j)).Injective := Prod.mk_left_injective j
    obtain ⟨hin, hout⟩ := foldl_xorAt hrow (fun i => ~~~s.word (lane (i + 1) j) &&& s.word (lane (i + 2) j)) s
    by_cases hj : p.2 = j
    · subst hj
      rw [if_pos rfl]
      exact hin p.1
    · rw [if_neg fun h => hj (Option.some.inj h)]
      exact hout p.1 p.2 fun i h => hj (congrArg Prod.snd h).symm
  · intro s s' p hsame
    rw [hsame p rfl, hsame (p.1 + 1, p.2) rfl, hsame (p.1 + 2, p.2) rfl]

theorem word_iota (s : Words) (round : Fin 24) (x y : Fin 5) :
    (iota s round).word (lane x y) =
      if x = 0 ∧ y = 0 then s.word (lane x y) ^^^ keccakf_rndc round else s.word (lane x y) := by
  have hzero : (0 : Fin 25) = lane 0 0 := rfl
  unfold iota
  rw [word_xorAt, hzero]
  simp only [lane_inj]

/-- The lane whose value turn `i` of the loop of the second part carries. The last turn puts its value
where the first one has taken `t` from. -/
def carriedLane (i : Fin 24) : Fin 25 := keccakf_piln (i - 1)

/-- The moves of that loop: where it puts the value it carries, and by how much it rotates it. -/
def rhoPiMoves : List (Fin 25 × (BitVec 64 → BitVec 64)) :=
  (List.finRange 24).map fun i => (keccakf_piln i, (rotl64 · (keccakf_rotc i)))

theorem rhoPi_eq (s : Words) :
    rhoPi s = (rhoPiMoves.foldl (carry (fun (s : Words) k => s.word k) Words.put) (s, s.word 1)).1 := by
  unfold rhoPi rhoPiMoves
  rw [List.foldl_map]
  rfl

theorem nodup_rhoPiMoves : (rhoPiMoves.map Prod.fst).Nodup := by decide

theorem word_rhoPi_zero (s : Words) : (rhoPi s).word 0 = s.word 0 := by
  have hmoves := foldl_carry (fun (s : Words) k => s.word k) Words.put word_put nodup_rhoPiMoves s
    (s.word 1)
  rw [rhoPi_eq]
  exact hmoves.1 0 (by decide)

theorem word_rhoPi (s : Words) (i : Fin 24) :
    (rhoPi s).word (keccakf_piln i) = rotl64 (s.word (carriedLane i)) (keccakf_rotc i) := by
  have hmoves := foldl_carry (fun (s : Words) k => s.word k) Words.put word_put nodup_rhoPiMoves s
    (s.word 1)
  rw [rhoPi_eq]
  refine hmoves.2 ((keccakf_piln i, (rotl64 · (keccakf_rotc i))), s.word (carriedLane i)) ?_
  rw [List.mem_iff_getElem?]
  refine ⟨i, List.getElem?_zip_eq_some.mpr ⟨?_, ?_⟩⟩
  · fin_cases i <;> rfl
  · fin_cases i <;> rfl

/-- The tables of the second part are the lanes and offsets of the standard. -/
theorem keccakf_tables : ∀ x y : Fin 5, (x = 0 ∧ y = 0) ∨ ∃ i : Fin 24, keccakf_piln i = lane x y ∧
    carriedLane i = lane (x + 3 * y) x ∧
    keccakf_rotc i = Standard.rhoOffset (x + 3 * y) x % 64 ∧ 0 < keccakf_rotc i := by
  decide +kernel

theorem keccakf_rndc_eq : ∀ (round : Fin 24) (z : Fin 64),
    (keccakf_rndc round).getLsbD z = Standard.roundConstant round z := by
  decide +kernel

/-! ### Bits -/

def stateArray (s : Words) : Standard.StateArray := fun x y z => (s.word (lane x y)).getLsbD z

theorem getLsbD_rotl64 (x : BitVec 64) {y : ℕ} (hpos : 0 < y) (hlt : y < 64) (z : Fin 64) :
    (rotl64 x y).getLsbD z = x.getLsbD (z - Fin.ofNat 64 y : Fin 64) := by
  unfold rotl64
  rw [BitVec.getLsbD_or, BitVec.getLsbD_shiftLeft, BitVec.getLsbD_ushiftRight]
  have hval : (z - Fin.ofNat 64 y : Fin 64).val = (64 - y + z) % 64 := by
    rw [Fin.sub_def]
    simp [Nat.mod_eq_of_lt hlt]
  rw [hval]
  by_cases hz : z.val < y
  · have hmod : (64 - y + z.val) % 64 = 64 - y + z := Nat.mod_eq_of_lt (by omega)
    simp [hz, hmod]
  · have hmod : (64 - y + z.val) % 64 = z - y := by omega
    have hout : 64 ≤ 64 - y + z.val := by omega
    simp [hz, hmod, BitVec.getLsbD_of_ge x _ hout]

theorem stateArray_theta (s : Words) : stateArray (theta s) = Standard.theta (stateArray s) := by
  funext x y z
  have hcolumns : ∀ (x : Fin 5) (z : Fin 64),
      (columns s x).getLsbD z = (stateArray s x 0 z ^^ stateArray s x 1 z ^^
      stateArray s x 2 z ^^ stateArray s x 3 z ^^ stateArray s x 4 z) := by
    intro x z
    unfold columns stateArray
    simp only [BitVec.getLsbD_xor]
  have hleft : x - 1 = x + 4 := by
    revert x
    decide
  have hlane : stateArray (theta s) x y z = (s.word (lane x y) ^^^
      (columns s (x + 4) ^^^ rotl64 (columns s (x + 1)) 1)).getLsbD z := by
    unfold stateArray
    rw [word_theta]
  rw [hlane, BitVec.getLsbD_xor, BitVec.getLsbD_xor, getLsbD_rotl64 _ Nat.one_pos (by decide),
    hcolumns, hcolumns]
  unfold Standard.theta
  rw [hleft]
  rfl

theorem stateArray_rhoPi (s : Words) :
    stateArray (rhoPi s) = Standard.pi (Standard.rho (stateArray s)) := by
  funext x y z
  have hstandard : Standard.pi (Standard.rho (stateArray s)) x y z =
      (s.word (lane (x + 3 * y) x)).getLsbD (z - Fin.ofNat 64 (Standard.rhoOffset (x + 3 * y) x) : Fin 64) := rfl
  have hwords : stateArray (rhoPi s) x y z = ((rhoPi s).word (lane x y)).getLsbD z := rfl
  rw [hwords, hstandard]
  obtain ⟨rfl, rfl⟩ | ⟨i, hlane, hcarried, hoffset, hpos⟩ := keccakf_tables x y
  · have hzero : Standard.rhoOffset (0 + 3 * 0) 0 = 0 := by decide
    have hz : z - Fin.ofNat 64 0 = z := sub_zero z
    have hlane : (rhoPi s).word (lane 0 0) = s.word (lane 0 0) := word_rhoPi_zero s
    rw [hzero, hz, hlane]
    rfl
  · have hlt : keccakf_rotc i < 64 := hoffset ▸ Nat.mod_lt _ (by decide)
    have hturn : Fin.ofNat 64 (keccakf_rotc i) = Fin.ofNat 64 (Standard.rhoOffset (x + 3 * y) x) := by
      apply Fin.ext
      rw [hoffset]
      exact Nat.mod_mod _ 64
    rw [← hlane, word_rhoPi, getLsbD_rotl64 _ hpos hlt, hcarried, hturn]

theorem stateArray_chi (s : Words) : stateArray (chi s) = Standard.chi (stateArray s) := by
  funext x y z
  unfold stateArray Standard.chi
  rw [word_chi, BitVec.getLsbD_xor, BitVec.getLsbD_and, BitVec.getLsbD_not, Bool.xor_true]
  simp

theorem stateArray_iota (s : Words) (round : Fin 24) :
    stateArray (iota s round) = Standard.iota (stateArray s) round := by
  funext x y z
  unfold stateArray Standard.iota
  rw [word_iota]
  split
  · rw [BitVec.getLsbD_xor, keccakf_rndc_eq]
  · rfl

theorem stateArray_keccakf (s : Words) :
    stateArray (keccakf s) = (List.range 24).foldl Standard.round (stateArray s) := by
  have hrange : List.range 24 = (List.finRange 24).map Fin.val := by decide
  unfold keccakf
  rw [hrange, List.foldl_map]
  induction List.finRange 24 generalizing s with
  | nil => rfl
  | cons round rounds ih =>
    rw [List.foldl_cons, List.foldl_cons, ih, stateArray_iota, stateArray_chi, stateArray_rhoPi,
      stateArray_theta]
    rfl

/-- The bits of the words, each word from its lowest bit on. -/
def bitString (s : Words) : Fin 1600 → Bool := fun i => (s.word ⟨i / 64, by omega⟩).getLsbD (i % 64)

theorem bitString_eq (s : Words) : bitString s = Standard.toString (stateArray s) := by
  funext i
  have hlane : lane ⟨i / 64 % 5, by omega⟩ ⟨i / 320, by omega⟩ = ⟨i / 64, by omega⟩ := by
    apply Fin.ext
    change 5 * (i.val / 320) + i.val / 64 % 5 = i.val / 64
    omega
  unfold bitString Standard.toString stateArray
  rw [hlane]

theorem Standard.ofString_toString (A : StateArray) : ofString (toString A) = A := by
  funext x y z
  unfold ofString toString
  have hx : (64 * (5 * y.val + x) + z) / 64 % 5 = x := by omega
  have hy : (64 * (5 * y.val + x) + z) / 320 = y := by omega
  have hz : (64 * (5 * y.val + x) + z) % 64 = z := by omega
  simp only [hx, hy, hz]

/-- `keccakf` is the permutation of the standard. -/
theorem bitString_keccakf (s : Words) : bitString (keccakf s) = Standard.keccakF (bitString s) := by
  rw [bitString_eq, stateArray_keccakf, bitString_eq]
  unfold Standard.keccakF
  rw [Standard.ofString_toString]

end CppUtils.Hash
