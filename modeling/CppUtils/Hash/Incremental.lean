import CppUtils.Hash.Sha3

/-!
# Hashing a message in pieces

A context is a sponge that has absorbed the bytes it was given, whatever pieces they came in: the bits of
its words with `saved` added to them, and the place of the next bit.
-/

namespace CppUtils.Hash

open Sponge

def byteBits (x : Byte) : List Bool := (List.range 8).map x.getLsbD

def bytesBits (bytes : List Byte) : List Bool := bytes.flatMap byteBits

def Standard.sha3 (d : ℕ) (M : List Bool) : List Bool :=
  sponge Standard.keccakF (1600 - 2 * d) padTenOne (M ++ [false, true]) d

variable {c : Context} {x : Byte} {buf : List Byte}

@[simp] theorem length_byteBits (x : Byte) : (byteBits x).length = 8 := rfl

theorem length_bytesBits (bytes : List Byte) : (bytesBits bytes).length = 8 * bytes.length := by
  unfold bytesBits
  rw [List.length_flatMap, List.map_congr_left fun x _ => length_byteBits x, List.map_const',
    List.sum_replicate, smul_eq_mul, Nat.mul_comm]

theorem getD_byteBits (x : Byte) (k : ℕ) : (byteBits x).getD k false = x.getLsbD k := by
  unfold byteBits
  by_cases hk : k < 8
  · rw [List.getD_eq_getElem _ _ (by simpa using hk), List.getElem_map, List.getElem_range]
  · rw [List.getD_eq_default _ _ (by simpa using hk), BitVec.getLsbD_of_ge x k (by omega)]

theorem bitString_xorAt (s : Words) (k : Fin 25) (t : BitVec 64) (i : Fin 1600) :
    bitString (s.xorAt k t) i = (bitString s i ^^ (decide (i.val / 64 = k.val) && t.getLsbD (i % 64))) := by
  unfold bitString
  rw [word_xorAt]
  by_cases hk : i.val / 64 = k.val
  · rw [if_pos (Fin.ext hk), BitVec.getLsbD_xor, decide_eq_true hk, Bool.true_and]
  · rw [if_neg fun h => hk (congrArg Fin.val h), decide_eq_false hk, Bool.false_and, Bool.xor_false]

@[simp] theorem xorAt_zero (s : Words) (k : Fin 25) : s.xorAt k 0 = s := by
  have hxor : s.word k ^^^ 0 = s.word k := BitVec.xor_zero
  unfold Words.xorAt Words.put
  rw [hxor]
  exact Vector.set_getElem_self k.isLt

namespace Context

/-- One byte of the input, as the code would take it alone. -/
def feedByte (c : Context) (x : Byte) : Context :=
  if c.byteIndex + 1 = 8 then (c.saveByte x).addSaved else c.saveByte x

/-- The bytes in `saved` are fewer than a word, nothing is above them, and the next word has its place in
the block. -/
structure WellFormed (c : Context) : Prop where
  byteIndex_lt : c.byteIndex < 8
  wordIndex_lt : c.wordIndex < c.rateWords
  saved_clear : ∀ k, 8 * c.byteIndex ≤ k → c.saved.getLsbD k = false

theorem WellFormed.saved_eq_zero (h : c.WellFormed) (hzero : c.byteIndex = 0) : c.saved = 0 := by
  apply BitVec.eq_of_getLsbD_eq
  intro k _
  rw [h.saved_clear k (by omega)]
  exact BitVec.getLsbD_zero.symm

/-! ### Bytes one after the other -/

@[simp] theorem byteIndex_foldl_saveByte (c : Context) (buf : List Byte) :
    (buf.foldl saveByte c).byteIndex = c.byteIndex + buf.length := by
  induction buf generalizing c with
  | nil => rfl
  | cons x buf ih =>
    rw [List.foldl_cons, ih, List.length_cons]
    change c.byteIndex + 1 + buf.length = c.byteIndex + (buf.length + 1)
    omega

theorem foldl_feedByte_of_lt (hlt : c.byteIndex + buf.length < 8) :
    buf.foldl feedByte c = buf.foldl saveByte c := by
  induction buf generalizing c with
  | nil => rfl
  | cons x buf ih =>
    rw [List.length_cons] at hlt
    have hsave : c.feedByte x = c.saveByte x := if_neg (by omega)
    rw [List.foldl_cons, List.foldl_cons, hsave]
    apply ih
    change c.byteIndex + 1 + buf.length < 8
    omega

theorem foldl_feedByte_of_eq (hne : buf ≠ []) (heq : c.byteIndex + buf.length = 8) :
    buf.foldl feedByte c = (buf.foldl saveByte c).addSaved := by
  obtain ⟨front, last, rfl⟩ := (List.eq_nil_or_concat' buf).resolve_left hne
  rw [List.length_append, List.length_singleton] at heq
  have hlast : (front.foldl saveByte c).byteIndex + 1 = 8 := by
    rw [byteIndex_foldl_saveByte]
    omega
  have hfront : front.foldl feedByte c = front.foldl saveByte c := foldl_feedByte_of_lt (by omega)
  rw [List.foldl_concat, List.foldl_concat, hfront]
  exact if_pos hlast

theorem foldl_saveByte_word (hindex : c.byteIndex = 0) (hsaved : c.saved = 0) (hlength : buf.length = 8) :
    buf.foldl saveByte c = { c with saved := loadWord buf, byteIndex := 8 } := by
  match buf, hlength with
  | [_, _, _, _, _, _, _, _], _ =>
    simp [saveByte, loadWord, hindex, hsaved]

/-- The code takes a whole word without `saved`. -/
theorem addWord_loadWord (hindex : c.byteIndex = 0) (hsaved : c.saved = 0) (hlength : buf.length = 8) :
    c.addWord (loadWord buf) = buf.foldl feedByte c := by
  have hne : buf ≠ [] := by
    rintro rfl
    cases hlength
  have hsame : { c with saved := 0, byteIndex := 0 } = c := by
    rw [← hindex, ← hsaved]
  rw [foldl_feedByte_of_eq hne (by omega), foldl_saveByte_word hindex hsaved hlength]
  unfold addSaved
  dsimp only
  rw [hsame]

@[simp] theorem addWord_byteIndex (c : Context) (t : BitVec 64) : (c.addWord t).byteIndex = c.byteIndex := by
  unfold addWord
  dsimp only
  split <;> rfl

@[simp] theorem addWord_saved (c : Context) (t : BitVec 64) : (c.addWord t).saved = c.saved := by
  unfold addWord
  dsimp only
  split <;> rfl

theorem loadWord_take (buf : List Byte) : loadWord (buf.take 8) = loadWord buf := by
  have hbyte : ∀ k < 8, (buf.take 8).getD k 0 = buf.getD k 0 := by
    intro k hk
    rw [List.getD_eq_getElem?_getD, List.getElem?_take_of_lt hk, List.getD_eq_getElem?_getD]
  unfold loadWord
  simp only [hbyte, Nat.reduceLT]

theorem foldl_addWord (hindex : c.byteIndex = 0) (hsaved : c.saved = 0) {words : ℕ}
    (hwords : 8 * words ≤ buf.length) :
    (List.range words).foldl (fun ctx i => ctx.addWord (loadWord (buf.drop (8 * i)))) c =
        (buf.take (8 * words)).foldl feedByte c ∧
      ((buf.take (8 * words)).foldl feedByte c).byteIndex = 0 ∧
      ((buf.take (8 * words)).foldl feedByte c).saved = 0 := by
  induction words with
  | zero => exact ⟨rfl, hindex, hsaved⟩
  | succ words ih =>
    obtain ⟨hloop, hindex', hsaved'⟩ := ih (by omega)
    have htake : buf.take (8 * (words + 1)) = buf.take (8 * words) ++ (buf.drop (8 * words)).take 8 := by
      rw [Nat.mul_succ, List.take_add]
    have hlength : ((buf.drop (8 * words)).take 8).length = 8 := by
      rw [List.length_take, List.length_drop]
      omega
    rw [htake, List.foldl_append, ← addWord_loadWord hindex' hsaved' hlength]
    refine ⟨?_, ?_, ?_⟩
    · rw [List.range_succ, List.foldl_append, hloop, loadWord_take]
      rfl
    · rw [addWord_byteIndex, hindex']
    · rw [addWord_saved, hsaved']

end Context

/-- However long the piece is, the code takes its bytes as if it took them one by one. -/
theorem sha3_Update_eq (h : c.WellFormed) (buf : List Byte) :
    sha3_Update c buf = buf.foldl Context.feedByte c := by
  have hmask : (8 - c.byteIndex) &&& 7 = (8 - c.byteIndex) % 8 := Nat.and_two_pow_sub_one_eq_mod _ 3
  have hbyte := h.byteIndex_lt
  unfold sha3_Update
  rw [hmask]
  dsimp only
  -- after the first bytes no word is begun
  have hstarted : ∀ old_tail, old_tail = (8 - c.byteIndex) % 8 → old_tail ≤ buf.length →
      ∃ started, (if old_tail ≠ 0 then ((buf.take old_tail).foldl Context.saveByte c).addSaved else c) =
          started ∧ started = (buf.take old_tail).foldl Context.feedByte c ∧
        started.byteIndex = 0 ∧ started.saved = 0 := by
    intro old_tail hold hle
    by_cases hzero : old_tail = 0
    · have hindex : c.byteIndex = 0 := by omega
      rw [if_neg (not_not.mpr hzero), hzero]
      exact ⟨c, rfl, rfl, hindex, h.saved_eq_zero hindex⟩
    · rw [if_pos hzero]
      have hlength : (buf.take old_tail).length = old_tail := List.length_take_of_le hle
      have hne : buf.take old_tail ≠ [] := by
        rw [← List.length_pos_iff, hlength]
        omega
      refine ⟨_, rfl, (Context.foldl_feedByte_of_eq hne (by omega)).symm, ?_, ?_⟩
      · exact Context.addWord_byteIndex _ _
      · exact Context.addWord_saved _ _
  split
  · rename_i hlt
    exact (Context.foldl_feedByte_of_lt (by omega)).symm
  · rename_i hle
    obtain ⟨started, hif, hfed, hindex, hsaved⟩ := hstarted _ rfl (by omega)
    rw [hif]
    generalize (8 - c.byteIndex) % 8 = old_tail at *
    have hwords : 8 * ((buf.drop old_tail).length / 8) ≤ (buf.drop old_tail).length := Nat.mul_div_le _ 8
    obtain ⟨hloop, hindex', _⟩ := Context.foldl_addWord hindex hsaved hwords
    have htail : ((buf.drop old_tail).drop (8 * ((buf.drop old_tail).length / 8))).length < 8 := by
      rw [List.length_drop]
      omega
    rw [hloop, ← Context.foldl_feedByte_of_lt (by omega), ← List.foldl_append, List.take_append_drop, hfed,
      ← List.foldl_append, List.take_append_drop]

namespace Context

/-! ### The sponge in a context -/

/-- What a context has absorbed. -/
def absorbing (c : Context) : Absorbing 1600 :=
  ⟨bitString (c.s.xorAt (place c.wordIndex) c.saved), 64 * c.wordIndex + 8 * c.byteIndex⟩

theorem WellFormed.rateWords_le (c : Context) : c.rateWords ≤ 25 := Nat.sub_le _ _

theorem WellFormed.wordIndex_val (h : c.WellFormed) : (place c.wordIndex).val = c.wordIndex :=
  Nat.mod_eq_of_lt (h.wordIndex_lt.trans_le (rateWords_le c))

theorem getLsbD_saveByte (h : c.WellFormed) (x : Byte) {k : ℕ} (hk : k < 64) :
    (c.saveByte x).saved.getLsbD k = (c.saved.getLsbD k ^^
      if k < 8 * c.byteIndex then false else x.getLsbD (k - 8 * c.byteIndex)) := by
  have hsave : (c.saveByte x).saved = c.saved ||| (x.setWidth 64 <<< (c.byteIndex * 8)) := rfl
  rw [hsave, BitVec.getLsbD_or, BitVec.getLsbD_shiftLeft, BitVec.getLsbD_setWidth, Nat.mul_comm]
  by_cases hlt : k < 8 * c.byteIndex
  · simp [hlt]
  · have hrest : k - 8 * c.byteIndex < 64 := by omega
    rw [h.saved_clear k (by omega)]
    simp [hlt, hk, hrest]

/-- A byte put into `saved` is its bits put into the state at the place of the next bit. -/
theorem addBlock_byteBits (h : c.WellFormed) (x : Byte) :
    addBlock c.absorbing.bits (List.replicate c.absorbing.position false ++ byteBits x) =
      bitString (c.s.xorAt (place c.wordIndex) (c.saveByte x).saved) := by
  have hbyte := h.byteIndex_lt
  funext i
  unfold addBlock absorbing
  dsimp only
  rw [getD_shifted, getD_byteBits, bitString_xorAt, bitString_xorAt, h.wordIndex_val,
    getLsbD_saveByte h x (Nat.mod_lt _ (by decide)), Bool.xor_assoc]
  congr 1
  by_cases hword : i.val / 64 = c.wordIndex
  · -- the word of the next bit
    have hplace : i.val % 64 - 8 * c.byteIndex = i - (64 * c.wordIndex + 8 * c.byteIndex) := by omega
    rw [decide_eq_true hword, Bool.true_and, Bool.true_and, hplace]
    congr 1
    by_cases hlt : i.val < 64 * c.wordIndex + 8 * c.byteIndex
    · rw [if_pos hlt, if_pos (by omega)]
    · rw [if_neg hlt, if_neg (by omega)]
  · rw [decide_eq_false hword, Bool.false_and, Bool.false_and, Bool.false_xor]
    split
    · rfl
    · exact BitVec.getLsbD_of_ge _ _ (by omega)

theorem WellFormed.feedByte (h : c.WellFormed) (x : Byte) : (c.feedByte x).WellFormed := by
  have hbyte := h.byteIndex_lt
  have hword := h.wordIndex_lt
  unfold Context.feedByte
  split
  · unfold addSaved addWord
    dsimp only
    split
    · refine ⟨Nat.zero_lt_succ 7, ?_, fun k _ => BitVec.getLsbD_zero⟩
      exact Nat.zero_lt_of_lt hword
    · rename_i hlast
      refine ⟨Nat.zero_lt_succ 7, ?_, fun k _ => BitVec.getLsbD_zero⟩
      change c.wordIndex + 1 < c.rateWords
      change ¬ c.wordIndex + 1 = c.rateWords at hlast
      omega
  · refine ⟨?_, hword, ?_⟩
    · change c.byteIndex + 1 < 8
      omega
    · intro k hk
      change 8 * (c.byteIndex + 1) ≤ k at hk
      by_cases hlt : k < 64
      · rw [getLsbD_saveByte h x hlt, h.saved_clear k (by omega), if_neg (by omega), Bool.false_xor]
        exact BitVec.getLsbD_of_ge _ _ (by omega)
      · exact BitVec.getLsbD_of_ge _ _ (by omega)

theorem rateWords_feedByte (c : Context) (x : Byte) : (c.feedByte x).rateWords = c.rateWords := by
  unfold Context.feedByte
  split
  · unfold addSaved addWord
    dsimp only
    split <;> rfl
  · rfl

/-- To take a byte is to feed its bits to the sponge. -/
theorem absorbing_feedByte (h : c.WellFormed) (x : Byte) :
    (c.feedByte x).absorbing = feed Standard.keccakF (64 * c.rateWords) c.absorbing (byteBits x) := by
  have hbyte := h.byteIndex_lt
  have hword := h.wordIndex_lt
  have hposition : c.absorbing.position + (byteBits x).length = 64 * c.wordIndex + 8 * (c.byteIndex + 1) := by
    rw [length_byteBits]
    change 64 * c.wordIndex + 8 * c.byteIndex + 8 = _
    omega
  have hne : byteBits x ≠ [] := List.cons_ne_nil _ _
  unfold Context.feedByte
  split
  · rename_i hlast
    rw [hlast] at hposition
    unfold addSaved addWord
    dsimp only
    split
    · rename_i hblock
      change c.wordIndex + 1 = c.rateWords at hblock
      rw [feed_of_eq hne (by omega), addBlock_byteBits h, ← bitString_keccakf]
      unfold absorbing
      dsimp only
      rw [xorAt_zero]
      rfl
    · rename_i hblock
      change ¬ c.wordIndex + 1 = c.rateWords at hblock
      rw [feed_of_lt (by omega), addBlock_byteBits h, hposition]
      unfold absorbing
      dsimp only
      rw [xorAt_zero]
      rfl
  · rw [feed_of_lt (by omega), addBlock_byteBits h, hposition]
    rfl

theorem foldl_feedByte (h : c.WellFormed) (buf : List Byte) :
    (buf.foldl Context.feedByte c).WellFormed ∧
      (buf.foldl Context.feedByte c).rateWords = c.rateWords ∧
      (buf.foldl Context.feedByte c).absorbing =
        feed Standard.keccakF (64 * c.rateWords) c.absorbing (bytesBits buf) := by
  induction buf generalizing c with
  | nil => exact ⟨h, rfl, rfl⟩
  | cons x buf ih =>
    obtain ⟨hbuf, hrate, hfed⟩ := ih (h.feedByte x)
    refine ⟨hbuf, hrate.trans (rateWords_feedByte c x), ?_⟩
    have hbits : bytesBits (x :: buf) = byteBits x ++ bytesBits buf := rfl
    rw [List.foldl_cons, hfed, absorbing_feedByte h, rateWords_feedByte, hbits, feed_append]

/-! ### The end of the message -/

/-- The bits after a message: the suffix `01`, and the padding with `n` zero bits. -/
def closing (n : ℕ) : List Bool := false :: true :: true :: (List.replicate n false ++ [true])

theorem getD_closing (n k : ℕ) :
    (closing n).getD k false = decide (k = 1 ∨ k = 2 ∨ k = n + 3) := by
  match k with
  | 0 => simp [closing]
  | 1 => simp [closing]
  | 2 => simp [closing]
  | k + 3 =>
    have hshift : (closing n).getD (k + 3) false = (List.replicate n false ++ [true]).getD k false := rfl
    rw [hshift, getD_shifted]
    obtain hlt | heq | hgt := lt_trichotomy k n
    · simp [hlt, hlt.ne]
    · simp [heq]
    · have hpos : 1 ≤ k - n := by omega
      rw [if_neg hgt.not_gt, List.getD_eq_default _ _ hpos]
      simp [hgt.ne']

theorem getLsbD_suffix {n k : ℕ} (hk : k < 64) :
    (suffix <<< n).getLsbD k = decide (k = n + 1 ∨ k = n + 2) := by
  have hsix : ∀ m < 64, suffix.getLsbD m = decide (m = 1 ∨ m = 2) := by decide
  rw [BitVec.getLsbD_shiftLeft]
  by_cases hlt : k < n
  · have hnot : ¬ (k = n + 1 ∨ k = n + 2) := by omega
    rw [decide_eq_false hnot, decide_eq_true hlt]
    simp
  · have hplace : decide (k - n = 1 ∨ k - n = 2) = decide (k = n + 1 ∨ k = n + 2) := by
      rw [decide_eq_decide]
      omega
    rw [hsix _ (by omega), hplace, decide_eq_true hk, decide_eq_false hlt]
    simp

theorem getLsbD_lastBit : ∀ k < 64, (0x8000000000000000 : BitVec 64).getLsbD k = decide (k = 63) := by
  decide

/-- The code adds the end of the message to the words that hold its bits. -/
theorem bitString_padded (h : c.WellFormed) : bitString (padded c) =
    addBlock c.absorbing.bits (List.replicate c.absorbing.position false ++
      closing (64 * c.rateWords - (c.absorbing.position + 4))) := by
  have hbyte := h.byteIndex_lt
  have hword := h.wordIndex_lt
  have hrate := WellFormed.rateWords_le c
  have hlast : (place (c.rateWords - 1)).val = c.rateWords - 1 := Nat.mod_eq_of_lt (by omega)
  funext i
  have hi : i.val % 64 < 64 := Nat.mod_lt _ (by decide)
  unfold padded addBlock absorbing
  dsimp only
  rw [getD_shifted, getD_closing, bitString_xorAt, bitString_xorAt, bitString_xorAt, h.wordIndex_val, hlast,
    BitVec.getLsbD_xor, getLsbD_suffix hi, getLsbD_lastBit _ hi]
  generalize hp : 64 * c.wordIndex + 8 * c.byteIndex = p
  -- the three bits are in two places
  have hsuffix : (decide (i.val / 64 = c.wordIndex) && decide (i.val % 64 = c.byteIndex * 8 + 1 ∨
      i.val % 64 = c.byteIndex * 8 + 2)) = decide (i.val = p + 1 ∨ i.val = p + 2) := by
    rw [← Bool.decide_and, decide_eq_decide]
    omega
  have hend : (decide (i.val / 64 = c.rateWords - 1) && decide (i.val % 64 = 63)) =
      decide (i.val = 64 * c.rateWords - 1) := by
    rw [← Bool.decide_and, decide_eq_decide]
    omega
  have hclosing : (if i.val < p then false else decide (i.val - p = 1 ∨ i.val - p = 2 ∨
      i.val - p = 64 * c.rateWords - (p + 4) + 3)) =
        (decide (i.val = p + 1 ∨ i.val = p + 2) ^^ decide (i.val = 64 * c.rateWords - 1)) := by
    by_cases htwo : i.val = p + 1 ∨ i.val = p + 2
    · rw [if_neg (by omega), decide_eq_true (by omega), decide_eq_true htwo, decide_eq_false (by omega)]
      rfl
    · rw [decide_eq_false htwo, Bool.false_xor]
      split
      · rw [decide_eq_false (by omega)]
      · rw [decide_eq_decide]
        omega
  rw [hclosing, Bool.and_xor_distrib_left, hsuffix, hend, ← Bool.xor_assoc, ← Bool.xor_assoc]

end Context

/-! ### The digest -/

theorem storeWord_eq (w : BitVec 64) :
    storeWord w = (List.range 8).map fun k => (w >>> (8 * k)).setWidth 8 := by
  have hlow : ∀ n ≤ 24, ((w.setWidth 32) >>> n).setWidth 8 = (w >>> n).setWidth 8 := by
    intro n hn
    apply BitVec.eq_of_getLsbD_eq
    intro j hj
    have hlt : n + j < 32 := by omega
    simp [hj, hlt]
  have hhigh : ∀ n ≤ 24,
      ((((w >>> 16) >>> 16).setWidth 32) >>> n).setWidth 8 = (w >>> (32 + n)).setWidth 8 := by
    intro n hn
    apply BitVec.eq_of_getLsbD_eq
    intro j hj
    have hlt : n + j < 32 := by omega
    simp [hj, hlt, Nat.add_assoc]
  have hlow0 := hlow 0 (by decide)
  have hhigh0 := hhigh 0 (by decide)
  rw [BitVec.ushiftRight_zero] at hlow0 hhigh0
  unfold storeWord
  dsimp only
  rw [hlow0, hlow 8 (by decide), hlow 16 (by decide), hlow 24 (by decide), hhigh0, hhigh 8 (by decide),
    hhigh 16 (by decide), hhigh 24 (by decide)]
  rfl

theorem bytesBits_storeWord (w : BitVec 64) : bytesBits (storeWord w) = (List.range 64).map w.getLsbD := by
  have hbyte : ∀ k, byteBits ((w >>> (8 * k)).setWidth 8) =
      (List.range 8).map fun j => w.getLsbD (8 * k + j) := by
    intro k
    apply List.map_congr_left
    intro j hj
    rw [BitVec.getLsbD_setWidth, BitVec.getLsbD_ushiftRight, decide_eq_true (List.mem_range.mp hj),
      Bool.true_and]
  unfold bytesBits
  rw [storeWord_eq, List.flatMap_map]
  simp only [hbyte]
  rfl

theorem bytesBits_store (s : Words) : bytesBits (s.toList.flatMap storeWord) = List.ofFn (bitString s) := by
  have hwords : s.toList = List.ofFn fun i : Fin 25 => s.word i := by
    rw [← Vector.toList_ofFn]
    exact congrArg Vector.toList Vector.ofFn_getElem.symm
  have hbits : List.ofFn (bitString s) =
      (List.ofFn fun i : Fin 25 => (List.range 64).map (s.word i).getLsbD).flatten := by
    have hsplit := List.ofFn_mul (m := 25) (n := 64) (bitString s)
    refine hsplit.trans (congrArg List.flatten (congrArg List.ofFn (funext fun i => ?_)))
    have hrange : List.range 64 = List.ofFn fun j : Fin 64 => j.val := by decide
    rw [hrange, List.map_ofFn]
    refine congrArg List.ofFn (funext fun j => ?_)
    have hdiv : (i.val * 64 + j.val) / 64 = i := by omega
    have hmod : (i.val * 64 + j.val) % 64 = j := by omega
    unfold bitString
    simp only [hdiv, hmod]
    rfl
  have hstore : ∀ words : List (BitVec 64), bytesBits (words.flatMap storeWord) =
      (words.map fun w => (List.range 64).map w.getLsbD).flatten := by
    intro words
    unfold bytesBits
    rw [List.flatMap_assoc, List.flatMap_def]
    exact congrArg List.flatten (List.map_congr_left fun w _ => bytesBits_storeWord w)
  rw [hstore, hbits, hwords, List.map_ofFn]
  rfl

theorem length_sha3_Finalize (ctx : Context) : (sha3_Finalize ctx).length = 200 := by
  have hword : ∀ w, (storeWord w).length = 8 := fun _ => rfl
  unfold sha3_Finalize
  rw [List.length_flatMap, List.map_congr_left fun w _ => hword w, List.map_const', List.sum_replicate,
    Vector.length_toList]
  rfl

theorem bytesBits_take (bytes : List Byte) (n : ℕ) :
    bytesBits (bytes.take n) = (bytesBits bytes).take (8 * n) := by
  induction bytes generalizing n with
  | nil => rw [List.take_nil, bytesBits, List.flatMap_nil, List.take_nil]
  | cons x bytes ih =>
    cases n with
    | zero => rfl
    | succ n =>
      have hbits : ∀ bytes, bytesBits (x :: bytes) = byteBits x ++ bytesBits bytes := fun _ => rfl
      have hfirst : 8 * (n + 1) - (byteBits x).length = 8 * n := by
        rw [length_byteBits]
        omega
      have hall : (byteBits x).take (8 * (n + 1)) = byteBits x := by
        apply List.take_of_length_le
        rw [length_byteBits]
        omega
      rw [List.take_succ_cons, hbits, hbits, ih, List.take_append, hfirst, hall]

/-! ### The hasher -/

theorem wellFormed_init (width : Width) : (sha3_Init width).WellFormed where
  byteIndex_lt := Nat.zero_lt_succ 7
  wordIndex_lt := by
    cases width <;> decide
  saved_clear := fun _ _ => BitVec.getLsbD_zero

theorem absorbing_init (width : Width) : (sha3_Init width).absorbing = ⟨fun _ => false, 0⟩ := by
  have hzero : bitString (Vector.replicate 25 0) = fun _ => false := by
    funext i
    have hword : Words.word (Vector.replicate 25 0) ⟨i / 64, by omega⟩ = 0 := Vector.getElem_replicate _
    unfold bitString
    rw [hword]
    exact BitVec.getLsbD_zero
  unfold Context.absorbing sha3_Init
  dsimp only
  rw [xorAt_zero, hzero]

theorem rateWords_init (width : Width) : 64 * (sha3_Init width).rateWords = 1600 - 2 * width.NBits := by
  cases width <;> rfl

/-- Only the concatenation of the pieces matters, and empty pieces may reach `sha3_Update` or not. -/
theorem foldl_pieces (h : c.WellFormed) (width : Width) (pieces : List (List Byte)) :
    pieces.foldl sha3_Update c = pieces.flatten.foldl Context.feedByte c ∧
      (pieces.foldl Sha3_Hasher.update (⟨c⟩ : Sha3_Hasher width)).c =
        pieces.flatten.foldl Context.feedByte c := by
  induction pieces generalizing c with
  | nil => exact ⟨rfl, rfl⟩
  | cons piece pieces ih =>
    obtain ⟨hupdates, hhasher⟩ := ih (Context.foldl_feedByte h piece).1
    have hupdate : (⟨c⟩ : Sha3_Hasher width).update piece = ⟨piece.foldl Context.feedByte c⟩ := by
      unfold Sha3_Hasher.update
      split
      · rw [sha3_Update_eq h]
      · rename_i hempty
        rw [List.eq_nil_of_length_eq_zero (by omega : piece.length = 0)]
        rfl
    rw [List.foldl_cons, List.foldl_cons, sha3_Update_eq h, hupdate, List.flatten_cons, List.foldl_append]
    exact ⟨hupdates, hhasher⟩

theorem bytesBits_digest (width : Width) (message : List Byte) :
    bytesBits ((sha3_Finalize (message.foldl Context.feedByte (sha3_Init width))).take (width.NBits / 8)) =
      Standard.sha3 width.NBits (bytesBits message) := by
  obtain ⟨hctx, hrate, hfed⟩ := Context.foldl_feedByte (wellFormed_init width) message
  rw [absorbing_init, rateWords_init] at hfed
  generalize message.foldl Context.feedByte (sha3_Init width) = ctx at hctx hrate hfed ⊢
  generalize hr : 1600 - 2 * width.NBits = r at hfed
  have hrate' : 64 * ctx.rateWords = r := by rw [hrate, rateWords_init, hr]
  obtain ⟨hpos, hle, hwidth, hbytes, hmod⟩ : 0 < r ∧ r ≤ 1600 ∧ width.NBits ≤ r ∧
      8 * (width.NBits / 8) = width.NBits ∧ r % 8 = 0 := by
    subst hr
    cases width <;> decide
  have hposition : ctx.absorbing.position = 8 * message.length % r := by
    rw [hfed, Sponge.feed_position hpos, length_bytesBits, Nat.zero_add]
  have hroom : 8 * message.length % r + 8 ≤ r := by
    obtain ⟨q, rfl⟩ : 8 ∣ r := Nat.dvd_of_mod_eq_zero hmod
    have hlt := Nat.mod_lt message.length (Nat.pos_of_mul_pos_left hpos)
    rw [Nat.mul_mod_mul_left]
    omega
  have hlength : (bytesBits message ++ [false, true]).length % r = ctx.absorbing.position + 2 := by
    have hsum : (bytesBits message ++ [false, true]).length = 8 * message.length + 2 := by
      rw [List.length_append, length_bytesBits]
      rfl
    rw [hsum, hposition, Nat.add_mod, Nat.mod_eq_of_lt (by omega : 2 < r), Nat.mod_eq_of_lt]
    omega
  have hpad : [false, true] ++ padTenOne r (bytesBits message ++ [false, true]).length =
      Context.closing (r - (ctx.absorbing.position + 4)) := by
    rw [padTenOne_eq (by omega), hlength]
    rfl
  have hclosing : ctx.absorbing.position + (Context.closing (r - (ctx.absorbing.position + 4))).length =
      r := by
    unfold Context.closing
    simp only [List.length_cons, List.length_append, List.length_replicate, List.length_nil]
    omega
  calc bytesBits ((sha3_Finalize ctx).take (width.NBits / 8))
    _ = (List.ofFn (bitString (keccakf (padded ctx)))).take width.NBits := by
      rw [bytesBits_take, hbytes, sha3_Finalize, bytesBits_store]
    _ = (List.ofFn (feed Standard.keccakF r ctx.absorbing
          (Context.closing (r - (ctx.absorbing.position + 4)))).bits).take width.NBits := by
      have hne : Context.closing (r - (ctx.absorbing.position + 4)) ≠ [] := List.cons_ne_nil _ _
      rw [bitString_keccakf, Context.bitString_padded hctx, hrate', feed_of_eq hne hclosing]
    _ = Standard.sha3 width.NBits (bytesBits message) := by
      unfold Standard.sha3
      rw [hr, sponge_eq_feed hle hwidth (by omega), List.append_assoc, hpad, feed_append, ← hfed]

/-- However the message is cut, `getHash` gives SHA3-`N` of the whole of it; between the calls the
indices stay in their ranges, and an empty piece changes nothing. -/
theorem getHash_eq_sha3 (width : Width) (pieces : List (List Byte)) :
    bytesBits (pieces.foldl Sha3_Hasher.update (Sha3_Hasher.new width)).getHash =
        Standard.sha3 width.NBits (bytesBits pieces.flatten) ∧
      (pieces.foldl Sha3_Hasher.update (Sha3_Hasher.new width)).getHash.length = width.NBits / 8 ∧
      (pieces.foldl Sha3_Hasher.update (Sha3_Hasher.new width)).c = pieces.foldl sha3_Update (sha3_Init width) ∧
      (pieces.foldl Sha3_Hasher.update (Sha3_Hasher.new width)).c.byteIndex < 8 ∧
      (pieces.foldl Sha3_Hasher.update (Sha3_Hasher.new width)).c.wordIndex < (1600 - 2 * width.NBits) / 64 ∧
      (pieces.foldl Sha3_Hasher.update (Sha3_Hasher.new width)).update [] =
        pieces.foldl Sha3_Hasher.update (Sha3_Hasher.new width) ∧
      sha3_Update (pieces.foldl Sha3_Hasher.update (Sha3_Hasher.new width)).c [] =
        (pieces.foldl Sha3_Hasher.update (Sha3_Hasher.new width)).c := by
  obtain ⟨hupdates, hhasher⟩ := foldl_pieces (wellFormed_init width) width pieces
  obtain ⟨hctx, hrate, _⟩ := Context.foldl_feedByte (wellFormed_init width) pieces.flatten
  have hnew : Sha3_Hasher.new width = ⟨sha3_Init width⟩ := rfl
  rw [hnew]
  refine ⟨?_, ?_, ?_, ?_, ?_, rfl, ?_⟩
  · unfold Sha3_Hasher.getHash
    rw [hhasher]
    exact bytesBits_digest width pieces.flatten
  · unfold Sha3_Hasher.getHash
    rw [List.length_take, length_sha3_Finalize]
    cases width <;> rfl
  · rw [hhasher, hupdates]
  · rw [hhasher]
    exact hctx.byteIndex_lt
  · rw [hhasher]
    have hlt := hctx.wordIndex_lt
    rw [hrate] at hlt
    have := rateWords_init width
    omega
  · rw [hhasher]
    exact sha3_Update_eq hctx []

end CppUtils.Hash
