import CppUtils.Hash.Incremental
import CppUtils.Lib.ShiftMixing

/-!
# What hashing does not lose

`keccakf` is a permutation of the states. The step that is hard to undo is the first one, which adds the
parities of two columns to every bit; its power 192 is the identity on the parities.
-/

namespace CppUtils.Hash

open Sponge

namespace Standard

variable {A B : StateArray}

/-! ### The first step -/

def number (b : Bool) : ZMod 2 := cond b 1 0

theorem number_injective : Function.Injective number := by
  decide

theorem number_xor : ∀ a b : Bool, number (a ^^ b) = number a + number b := by
  decide

/-- The bits of a row, with the coordinates `x` and `z`, as numbers modulo 2. -/
def rowBits (A : StateArray) (y : Fin 5) (g : Fin 5 × Fin 64) : ZMod 2 := number (A g.1 y g.2)

theorem rowBits_injective : Function.Injective rowBits := by
  intro A B hAB
  funext x y z
  exact number_injective (congrFun (congrFun hAB y) (x, z))

theorem rowBits_theta (A : StateArray) :
    rowBits (theta A) = addParities ((1, 0) : Fin 5 × Fin 64) (-1, 1) (rowBits A) := by
  funext y ⟨x, z⟩
  have hcolumn : ∀ g, (∑ i, rowBits A i) g = rowBits A 0 g + rowBits A 1 g + rowBits A 2 g + rowBits A 3 g +
      rowBits A 4 g := by
    intro g
    rw [Finset.sum_apply, Fin.sum_univ_five]
  have hleft : ((x, z) : Fin 5 × Fin 64) - (1, 0) = (x - 1, z) := by simp
  have hright : ((x, z) : Fin 5 × Fin 64) - (-1, 1) = (x + 1, z - 1) := by simp
  rw [addParities, Pi.add_apply, LinearMap.add_apply, Pi.add_apply, shift_apply, shift_apply, hleft, hright,
    hcolumn, hcolumn]
  simp only [rowBits, theta, number_xor]

theorem addTwo_pow_192 : addTwo ((1, 0) : Fin 5 × Fin 64) (-1, 1) ^ 192 = 1 := by
  -- After 64 steps only the coordinate `x` is shifted; there the third power is the identity.
  have h64 : addTwo ((1, 0) : Fin 5 × Fin 64) (-1, 1) ^ 64 = addTwo (4, 0) (1, 0) :=
    (addTwo_pow _ _ 6).trans (by congr 1)
  have htwo : addTwo ((4, 0) : Fin 5 × Fin 64) (1, 0) ^ 2 = addTwo (3, 0) (2, 0) :=
    (addTwo_pow _ _ 1).trans (by congr 1)
  have hthree : addTwo ((4, 0) : Fin 5 × Fin 64) (1, 0) ^ 3 = 1 := by
    have hcancel : ∀ a b c d e : ZMod 2,
        a + e + b + (d + c + e) + (c + b + d) = a := by decide
    rw [pow_succ, htwo]
    refine LinearMap.ext fun v => funext fun ⟨x, z⟩ => ?_
    simpa [addTwo, sub_sub] using hcancel (v (x, z)) (v (x - 1, z)) (v (x - 2, z)) (v (x - 3, z)) (v (x - 4, z))
  rw [show 192 = 64 * 3 from rfl, pow_mul, h64, hthree]

theorem theta_injective : Function.Injective theta := by
  intro A B hAB
  have hunit : IsUnit (addTwo ((1, 0) : Fin 5 × Fin 64) (-1, 1)) :=
    IsUnit.of_pow_eq_one addTwo_pow_192 (by decide)
  apply rowBits_injective
  apply addParities_injective (by decide) hunit
  rw [← rowBits_theta, ← rowBits_theta, hAB]

/-! ### The other steps -/

theorem rho_injective : Function.Injective rho := by
  intro A B hAB
  funext x y z
  have hbit := congrFun (congrFun (congrFun hAB x) y) (z + Fin.ofNat 64 (rhoOffset x y))
  simpa only [rho, add_sub_cancel_right] using hbit

theorem pi_injective : Function.Injective pi := by
  intro A B hAB
  funext x y z
  have hplace : y + 3 * (2 * (x - y)) = x := by
    revert x y
    decide
  have hbit := congrFun (congrFun (congrFun hAB y) (2 * (x - y))) z
  simpa only [pi, hplace] using hbit

theorem eq_of_chi (A : StateArray) (x y : Fin 5) (z : Fin 64) :
    A x y z = (chi A x y z ^^ (!chi A (x + 1) y z && (chi A (x + 2) y z ^^
      (!chi A (x + 3) y z && chi A (x + 4) y z)))) := by
  have hrow : ∀ a b c d e : Bool,
      a = ((a ^^ ((b ^^ true) && c)) ^^ (!(b ^^ ((c ^^ true) && d)) && ((c ^^ ((d ^^ true) && e)) ^^
        (!(d ^^ ((e ^^ true) && a)) && (e ^^ ((a ^^ true) && b)))))) := by
    decide
  simp only [chi, add_assoc, Fin.reduceAdd, add_zero]
  exact hrow _ _ _ _ _

theorem chi_injective : Function.Injective chi := by
  intro A B hAB
  funext x y z
  rw [eq_of_chi A, eq_of_chi B, hAB]

theorem iota_injective (ir : ℕ) : Function.Injective (iota · ir) := by
  intro A B hAB
  funext x y z
  have hbit := congrFun (congrFun (congrFun hAB x) y) z
  simp only [iota] at hbit
  split at hbit
  · exact Bool.xor_left_inj.mp hbit
  · exact hbit

theorem round_injective (ir : ℕ) : Function.Injective (round · ir) := by
  intro A B hAB
  apply theta_injective
  apply rho_injective
  apply pi_injective
  apply chi_injective
  exact iota_injective ir hAB

theorem foldl_round_injective (rounds : List ℕ) : Function.Injective (rounds.foldl round) := by
  induction rounds with
  | nil => exact fun _ _ h => h
  | cons ir rounds ih => exact fun A B hAB => round_injective ir (ih hAB)

end Standard

theorem stateArray_injective : Function.Injective stateArray := by
  intro s t hst
  apply Vector.ext
  intro i hi
  apply BitVec.eq_of_getLsbD_eq
  intro z hz
  have hlane : lane ⟨i % 5, Nat.mod_lt _ (by decide)⟩ ⟨i / 5, by omega⟩ = ⟨i, hi⟩ := Fin.ext (Nat.div_add_mod i 5)
  have hbit := congrFun (congrFun (congrFun hst ⟨i % 5, Nat.mod_lt _ (by decide)⟩) ⟨i / 5, by omega⟩) ⟨z, hz⟩
  unfold stateArray at hbit
  rw [hlane] at hbit
  exact hbit

theorem keccakf_injective : Function.Injective keccakf := by
  intro s t hst
  apply stateArray_injective
  apply Standard.foldl_round_injective (List.range 24)
  have harrays := congrArg stateArray hst
  rwa [stateArray_keccakf, stateArray_keccakf] at harrays

theorem bitString_injective : Function.Injective bitString := by
  intro s t hst
  apply stateArray_injective
  rw [← Standard.ofString_toString (stateArray s), ← bitString_eq, hst, bitString_eq, Standard.ofString_toString]

/-- `keccakf` is a bijection of the states: no two states are sent to the same one, and none is missed. -/
theorem keccakf_bijective : Function.Bijective keccakf := by
  have hfinite : Finite Words := Finite.of_injective stateArray stateArray_injective
  exact keccakf_injective.bijective_of_finite

/-! ### The first word of the digest -/

theorem loadWord_storeWord (w : BitVec 64) : loadWord (storeWord w) = w := by
  have hbyte : ∀ k < 8, (storeWord w).getD k 0 = (w >>> (8 * k)).setWidth 8 := by
    intro k hk
    rw [storeWord_eq]
    simp [hk]
  apply BitVec.eq_of_getLsbD_eq
  intro i hi
  simp only [loadWord, hbyte, Nat.reduceLT, BitVec.getLsbD_or, BitVec.getLsbD_shiftLeft, BitVec.getLsbD_setWidth,
    BitVec.getLsbD_ushiftRight]
  grind

/-- Whichever width is used, the short hash is the beginning of the long one. -/
theorem bits_get64BitHash (width : Width) (pieces : List (List Byte)) :
    (List.range 64).map (pieces.foldl Sha3_Hasher.update (Sha3_Hasher.new width)).get64BitHash.getLsbD =
      (Standard.sha3 width.NBits (bytesBits pieces.flatten)).take 64 := by
  have hhasher : (pieces.foldl Sha3_Hasher.update (Sha3_Hasher.new width)).c =
      pieces.flatten.foldl Context.feedByte (sha3_Init width) := (foldl_pieces (wellFormed_init width) width pieces).2
  rw [← bytesBits_digest, Sha3_Hasher.get64BitHash, Sha3_Hasher.getHash, hhasher]
  obtain ⟨w, ws, hwords⟩ : ∃ w ws, (keccakf (padded (pieces.flatten.foldl Context.feedByte
      (sha3_Init width)))).toList = w :: ws :=
    List.exists_cons_of_length_pos (by simp)
  have hfirst : ((sha3_Finalize (pieces.flatten.foldl Context.feedByte (sha3_Init width))).take
      (width.NBits / 8)).take 8 = storeWord w := by
    have hlong : 8 ≤ width.NBits / 8 := by
      cases width <;> decide
    rw [List.take_take, Nat.min_eq_left hlong, sha3_Finalize, hwords, List.flatMap_cons]
    exact List.take_left' rfl
  rw [← Context.loadWord_take, hfirst, loadWord_storeWord, ← bytesBits_storeWord, ← hfirst, bytesBits_take]

theorem bits_sha3_64bit (bufIn : List Byte) : (List.range 64).map (sha3_64bit bufIn).getLsbD =
    (Standard.sha3 256 (bytesBits bufIn)).take 64 := by
  have hpieces := bits_get64BitHash .bits256 [bufIn]
  rwa [List.flatten_singleton] at hpieces

/-! ### The hasher -/

theorem Standard.toString_ofString (S : Fin 1600 → Bool) : toString (ofString S) = S := by
  funext i
  unfold toString ofString
  congr 1
  apply Fin.ext
  dsimp only
  omega

theorem Standard.keccakF_injective : Function.Injective keccakF := by
  intro S S' hS
  apply Function.LeftInverse.injective toString_ofString
  apply foldl_round_injective (List.range 24)
  exact Function.LeftInverse.injective ofString_toString hS

theorem byteBits_injective : Function.Injective byteBits := by
  intro x y hxy
  apply BitVec.eq_of_getLsbD_eq
  intro k _
  rw [← getD_byteBits, ← getD_byteBits, hxy]

theorem bytesBits_injective : Function.Injective bytesBits := by
  intro M
  induction M with
  | nil =>
    rintro (_ | ⟨y, M'⟩) h
    · rfl
    · cases h
  | cons x M ih =>
    rintro (_ | ⟨y, M'⟩) h
    · cases h
    · obtain ⟨hx, hM⟩ := List.append_inj h rfl
      rw [byteBits_injective hx, ih hM]

/-- All that `sha3_Finalize` leaves, of which the digest is the beginning. -/
def wholeState (width : Width) (pieces : List (List Byte)) : List Byte :=
  sha3_Finalize (pieces.foldl Sha3_Hasher.update (Sha3_Hasher.new width)).c

theorem wholeState_eq (width : Width) (pieces : List (List Byte)) :
    wholeState width pieces = sha3_Finalize (pieces.flatten.foldl Context.feedByte (sha3_Init width)) := by
  unfold wholeState Sha3_Hasher.new
  rw [(foldl_pieces (wellFormed_init width) width pieces).2]

theorem Context.finalize_eq_iff {c c' : Context} (h : c.WellFormed) (h' : c'.WellFormed)
    (hrate : c.rateWords = c'.rateWords) (hposition : c.absorbing.position = c'.absorbing.position) :
    sha3_Finalize c = sha3_Finalize c' ↔ c.absorbing = c'.absorbing := by
  have hpadded : padded c = padded c' ↔ c.absorbing.bits = c'.absorbing.bits := by
    rw [← bitString_injective.eq_iff, bitString_padded h, bitString_padded h', hrate, hposition]
    exact (addBlock_injective _).eq_iff
  constructor
  · intro hfinal
    have hstates : padded c = padded c' := by
      apply keccakf_injective
      apply bitString_injective
      apply List.ofFn_injective
      rw [← bytesBits_store, ← bytesBits_store]
      exact congrArg bytesBits hfinal
    exact congrArg₂ Absorbing.mk (hpadded.mp hstates) hposition
  · intro habsorbing
    rw [sha3_Finalize, sha3_Finalize, hpadded.mpr (congrArg Absorbing.bits habsorbing)]

theorem bytesBits_append (M N : List Byte) : bytesBits (M ++ N) = bytesBits M ++ bytesBits N :=
  List.flatMap_append

/-- The state of the sponge after a message. -/
def absorbed (width : Width) (message : List Byte) : Absorbing 1600 :=
  feed Standard.keccakF (1600 - 2 * width.NBits) ⟨fun _ => false, 0⟩ (bytesBits message)

theorem rate_pos (width : Width) : 0 < 1600 - 2 * width.NBits := by
  cases width <;> decide

theorem position_absorbed (width : Width) (message : List Byte) :
    (absorbed width message).position = 8 * message.length % (1600 - 2 * width.NBits) := by
  rw [absorbed, feed_position (rate_pos width), length_bytesBits, Nat.zero_add]

theorem wholeState_eq_iff_absorbed (width : Width) {pieces pieces' : List (List Byte)}
    (hlength : pieces.flatten.length = pieces'.flatten.length) :
    wholeState width pieces = wholeState width pieces' ↔
      absorbed width pieces.flatten = absorbed width pieces'.flatten := by
  obtain ⟨h, hrate, hfed⟩ := Context.foldl_feedByte (wellFormed_init width) pieces.flatten
  obtain ⟨h', hrate', hfed'⟩ := Context.foldl_feedByte (wellFormed_init width) pieces'.flatten
  rw [absorbing_init, rateWords_init] at hfed hfed'
  rw [wholeState_eq, wholeState_eq, Context.finalize_eq_iff h h' (hrate.trans hrate'.symm), hfed, hfed']
  · rfl
  · rw [hfed, hfed']
    exact (position_absorbed width _).trans (hlength ▸ (position_absorbed width _).symm)

/-- Of two messages of the same length, a common continuation neither makes nor breaks a collision of the
whole state, and there is none before the first block is full: what was absorbed is not lost. -/
theorem wholeState_eq_iff (width : Width) {pieces pieces' : List (List Byte)}
    (hlength : pieces.flatten.length = pieces'.flatten.length) (more : List (List Byte)) :
    (wholeState width (pieces ++ more) = wholeState width (pieces' ++ more) ↔
        wholeState width pieces = wholeState width pieces') ∧
      (8 * pieces.flatten.length < 1600 - 2 * width.NBits →
        (wholeState width pieces = wholeState width pieces' ↔ pieces.flatten = pieces'.flatten)) := by
  have hposition : (absorbed width pieces.flatten).position = (absorbed width pieces'.flatten).position := by
    rw [position_absorbed, position_absorbed, hlength]
  have happend : ∀ message, absorbed width (message ++ more.flatten) =
      feed Standard.keccakF (1600 - 2 * width.NBits) (absorbed width message) (bytesBits more.flatten) := by
    intro message
    rw [absorbed, bytesBits_append, feed_append]
    rfl
  constructor
  · rw [wholeState_eq_iff_absorbed width hlength, wholeState_eq_iff_absorbed width (by simp [hlength]),
      List.flatten_append, List.flatten_append, happend, happend]
    exact ⟨fun h => feed_injective Standard.keccakF_injective hposition h, fun h => by rw [h]⟩
  · intro hshort
    rw [wholeState_eq_iff_absorbed width hlength]
    refine ⟨fun h => ?_, fun h => by rw [h]⟩
    have hbits := congrArg Absorbing.bits h
    have hlengths : (bytesBits pieces.flatten).length = (bytesBits pieces'.flatten).length := by
      rw [length_bytesBits, length_bytesBits, hlength]
    have hle : (bytesBits pieces.flatten).length < 1600 - 2 * width.NBits := by
      rwa [length_bytesBits]
    rw [absorbed, absorbed, feed_of_lt ((Nat.zero_add _).trans_lt hle),
      feed_of_lt ((Nat.zero_add _).trans_lt (hlengths ▸ hle))] at hbits
    exact bytesBits_injective (addBlock_right_injective _ hlengths (by omega) hbits)

theorem wholeState_eq_iff_lastByte :
    wholeState .bits256 ([[1], [2]] ++ [[7]]) ≠ wholeState .bits256 ([[1], [3]] ++ [[7]]) := by
  have hlength : ([[1], [2]] : List (List Byte)).flatten.length = ([[1], [3]] : List (List Byte)).flatten.length :=
    rfl
  obtain ⟨hmore, hshort⟩ := wholeState_eq_iff .bits256 hlength [[7]]
  rw [Ne, hmore, hshort (by decide)]
  decide

end CppUtils.Hash
