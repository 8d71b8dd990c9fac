import Mathlib

/-!
# The sponge construction

A message of bits is padded to blocks of `r` bits, each is added to a state of `b` bits, and a function
of the state comes after each. An implementation that takes a message in pieces adds its bits where the
last piece ended; `feedBit` does this one bit at a time.
-/

namespace CppUtils.Sponge

abbrev BitString (b : ℕ) := Fin b → Bool

variable {b : ℕ} (f : BitString b → BitString b) (r : ℕ)

/-- A state with a block added from its first bit on. -/
def addBlock (S : BitString b) (block : List Bool) : BitString b := fun i => S i ^^ block.getD i false

/-- The first `n` blocks of `r` bits. -/
def blocks : ℕ → List Bool → List (List Bool)
  | 0, _ => []
  | n + 1, P => P.take r :: blocks n (P.drop r)

def absorb (S : BitString b) (P : List Bool) : BitString b :=
  (blocks r (P.length / r) P).foldl (fun S block => f (addBlock S block)) S

/-- The first `d` bits of what the state gives, `r` bits between two uses of the function. -/
def squeeze (S : BitString b) (d : ℕ) : List Bool :=
  ((List.range (d / r + 1)).flatMap fun i => (List.ofFn (f^[i] S)).take r).take d

/-- The sponge with a padding that depends on the rate and on the length of the message. -/
def sponge (pad : ℕ → ℕ → List Bool) (N : List Bool) (d : ℕ) : List Bool :=
  squeeze f r (absorb f r (fun _ => false) (N ++ pad r N.length)) d

/-- One bit, as few zero bits as fill the last block, one bit. -/
def padTenOne (x m : ℕ) : List Bool :=
  true :: (List.replicate ((-(m : ℤ) - 2) % x).toNat false ++ [true])

/-- The state with the place of the next bit. -/
structure Absorbing (b : ℕ) where
  bits : BitString b
  position : ℕ

def feedBit (state : Absorbing b) (x : Bool) : Absorbing b :=
  let bits := addBlock state.bits (List.replicate state.position false ++ [x])
  if state.position + 1 = r then ⟨f bits, 0⟩ else ⟨bits, state.position + 1⟩

def feed (state : Absorbing b) (P : List Bool) : Absorbing b := P.foldl (feedBit f r) state

variable {f r} {state : Absorbing b} {P Q : List Bool}

@[simp] theorem feed_nil : feed f r state [] = state := rfl

@[simp] theorem feed_cons (x : Bool) : feed f r state (x :: P) = feed f r (feedBit f r state x) P := rfl

theorem feed_append (P Q : List Bool) : feed f r state (P ++ Q) = feed f r (feed f r state P) Q :=
  List.foldl_append

@[simp] theorem addBlock_nil (S : BitString b) : addBlock S [] = S := by
  funext i
  simp [addBlock]

theorem getD_shifted (n : ℕ) (P : List Bool) (i : ℕ) :
    (List.replicate n false ++ P).getD i false = if i < n then false else P.getD (i - n) false := by
  by_cases hi : i < n
  · rw [if_pos hi, List.getD_append _ _ _ _ (by simpa using hi), List.getD_replicate _ hi]
  · rw [if_neg hi, List.getD_append_right _ _ _ _ (by simpa using hi), List.length_replicate]

theorem addBlock_append (S : BitString b) (n : ℕ) (x : Bool) (P : List Bool) :
    addBlock (addBlock S (List.replicate n false ++ [x])) (List.replicate (n + 1) false ++ P) =
      addBlock S (List.replicate n false ++ x :: P) := by
  funext i
  unfold addBlock
  rw [Bool.xor_assoc, getD_shifted, getD_shifted, getD_shifted]
  congr 1
  obtain hlt | heq | hgt := lt_trichotomy i.val n
  · rw [if_pos hlt, if_pos (Nat.lt_succ_of_lt hlt), if_pos hlt, Bool.xor_false]
  · rw [if_neg heq.not_lt, if_pos (by omega), if_neg heq.not_lt, heq, Nat.sub_self]
    simp
  · obtain ⟨k, hk⟩ := Nat.exists_eq_add_of_lt hgt
    have hn : i.val - n = k + 1 := by omega
    have hn' : i.val - (n + 1) = k := by omega
    rw [if_neg hgt.not_gt, if_neg (by omega), if_neg hgt.not_gt, hn, hn']
    simp

theorem feedBit_of_lt {x : Bool} (hlt : state.position + 1 < r) : feedBit f r state x =
    ⟨addBlock state.bits (List.replicate state.position false ++ [x]), state.position + 1⟩ :=
  if_neg hlt.ne

theorem feed_of_lt (hlt : state.position + P.length < r) : feed f r state P =
    ⟨addBlock state.bits (List.replicate state.position false ++ P), state.position + P.length⟩ := by
  induction P generalizing state with
  | nil =>
    have hzero : addBlock state.bits (List.replicate state.position false ++ []) = state.bits := by
      funext i
      unfold addBlock
      rw [getD_shifted]
      simp
    rw [hzero]
    rfl
  | cons x P ih =>
    rw [List.length_cons] at hlt
    rw [feed_cons, feedBit_of_lt (by omega), ih (by dsimp only; omega), addBlock_append, List.length_cons,
      Nat.add_right_comm, Nat.add_assoc]

theorem feed_of_eq (hne : P ≠ []) (heq : state.position + P.length = r) : feed f r state P =
    ⟨f (addBlock state.bits (List.replicate state.position false ++ P)), 0⟩ := by
  induction P generalizing state with
  | nil => exact absurd rfl hne
  | cons x P ih =>
    rw [List.length_cons] at heq
    rw [feed_cons]
    by_cases hP : P = []
    · obtain rfl := hP
      exact if_pos heq
    · have hpos := List.length_pos_iff.mpr hP
      rw [feedBit_of_lt (by omega), ih hP (by dsimp only; omega), addBlock_append]

theorem feed_position (hr : state.position < r) :
    (feed f r state P).position = (state.position + P.length) % r := by
  induction P generalizing state with
  | nil => exact (Nat.mod_eq_of_lt hr).symm
  | cons x P ih =>
    rw [feed_cons, List.length_cons]
    by_cases hlast : state.position + 1 = r
    · have hfed : (feedBit f r state x).position = 0 := congrArg Absorbing.position (if_pos hlast)
      rw [ih (by omega), hfed, Nat.zero_add]
      have hsum : state.position + (P.length + 1) = P.length + r := by omega
      rw [hsum, Nat.add_mod_right]
    · have hlt : state.position + 1 < r := by omega
      rw [feedBit_of_lt hlt, ih hlt]
      congr 1
      dsimp only
      omega

/-- To feed whole blocks is to absorb them. -/
theorem feed_eq_absorb (S : BitString b) (hr : 0 < r) (hP : r ∣ P.length) :
    feed f r ⟨S, 0⟩ P = ⟨absorb f r S P, 0⟩ := by
  obtain ⟨n, hn⟩ := hP
  have hblocks : P.length / r = n := by
    rw [hn, Nat.mul_div_cancel_left n hr]
  unfold absorb
  rw [hblocks]
  induction n generalizing S P with
  | zero =>
    have hnil : P = [] := List.eq_nil_of_length_eq_zero (by simpa using hn)
    rw [hnil]
    rfl
  | succ n ih =>
    have hlength : (P.take r).length = r := by
      rw [List.length_take, hn]
      exact Nat.min_eq_left (Nat.le_mul_of_pos_right r n.succ_pos)
    have hdrop : (P.drop r).length = r * n := by
      rw [List.length_drop, hn, Nat.mul_succ, Nat.add_sub_cancel]
    have hne : P.take r ≠ [] := by
      rw [← List.length_pos_iff, hlength]
      exact hr
    have hstep : feed f r ⟨S, 0⟩ (P.take r) = ⟨f (addBlock S (P.take r)), 0⟩ :=
      feed_of_eq hne ((Nat.zero_add _).trans hlength)
    calc feed f r ⟨S, 0⟩ P
      _ = feed f r (feed f r ⟨S, 0⟩ (P.take r)) (P.drop r) := by
        rw [← feed_append, List.take_append_drop]
      _ = ⟨((blocks r n (P.drop r)).foldl (fun S block => f (addBlock S block))
          (f (addBlock S (P.take r)))), 0⟩ := by
        rw [hstep]
        apply ih _ hdrop
        rw [hdrop, Nat.mul_div_cancel_left n hr]

/-- Where the output is not longer than a block it is the beginning of the state. -/
theorem squeeze_of_le (S : BitString b) {d : ℕ} (hd : d ≤ r) (hr : r ≤ b) :
    squeeze f r S d = (List.ofFn S).take d := by
  unfold squeeze
  rw [List.range_succ_eq_map, List.flatMap_cons, List.take_append_of_le_length, List.take_take,
    Nat.min_eq_left hd]
  · rfl
  · rw [List.length_take, List.length_ofFn, Nat.min_eq_left hr]
    exact hd

/-- Where two bits have room in the last block, the zero bits fill what remains of it. -/
theorem padTenOne_eq {x m : ℕ} (hroom : m % x + 2 ≤ x) :
    padTenOne x m = true :: (List.replicate (x - (m % x + 2)) false ++ [true]) := by
  have hdiv : -(m : ℤ) - 2 = ((x - (m % x + 2) : ℕ) : ℤ) + x * (-(m / x : ℕ) - 1) := by
    have hm : ((m % x : ℕ) : ℤ) + x * (m / x : ℕ) = m := by
      exact_mod_cast Nat.mod_add_div m x
    rw [Nat.cast_sub hroom]
    push_cast at hm ⊢
    linarith
  have hlt : x - (m % x + 2) < x := by omega
  have hmod : (-(m : ℤ) - 2) % x = ((x - (m % x + 2) : ℕ) : ℤ) := by
    rw [hdiv, Int.add_mul_emod_self_left]
    exact Int.emod_eq_of_lt (Int.natCast_nonneg _) (by exact_mod_cast hlt)
  unfold padTenOne
  rw [hmod, Int.toNat_natCast]

/-- Feeding the message and its padding, and taking the beginning of the state, is the sponge. -/
theorem sponge_eq_feed {N : List Bool} {d : ℕ} (hr : r ≤ b) (hd : d ≤ r) (hroom : N.length % r + 2 ≤ r) :
    sponge f r padTenOne N d =
      (List.ofFn (feed f r ⟨fun _ => false, 0⟩ (N ++ padTenOne r N.length)).bits).take d := by
  have hlength : (N ++ padTenOne r N.length).length = r * (N.length / r + 1) := by
    rw [padTenOne_eq hroom, List.length_append, List.length_cons, List.length_append,
      List.length_replicate, List.length_singleton, Nat.mul_succ]
    have := Nat.mod_add_div N.length r
    omega
  unfold sponge
  rw [squeeze_of_le _ hd hr, feed_eq_absorb _ (by omega) ⟨_, hlength⟩]

/-! ### What is not lost -/

theorem addBlock_injective (block : List Bool) : Function.Injective fun S : BitString b => addBlock S block := by
  intro S S' hS
  funext i
  exact Bool.xor_left_inj.mp (congrFun hS i)

theorem addBlock_right_injective (S : BitString b) (hlength : P.length = Q.length) (hle : P.length ≤ b)
    (h : addBlock S P = addBlock S Q) : P = Q := by
  apply List.ext_getElem hlength
  intro i hi hi'
  have hbit := Bool.xor_right_inj.mp (congrFun h ⟨i, hi.trans_le hle⟩)
  dsimp only at hbit
  rwa [List.getD_eq_getElem _ _ hi, List.getD_eq_getElem _ _ hi'] at hbit

/-- States that differ stay different under the same bits, if the function is injective. -/
theorem feed_injective (hf : Function.Injective f) {state' : Absorbing b}
    (hposition : state.position = state'.position) (h : feed f r state P = feed f r state' P) : state = state' := by
  induction P generalizing state state' with
  | nil => exact h
  | cons x P ih =>
    obtain ⟨S, p⟩ := state
    obtain ⟨S', p'⟩ := state'
    obtain rfl : p = p' := hposition
    have hfed : feedBit f r ⟨S, p⟩ x = feedBit f r ⟨S', p⟩ x := by
      refine ih ?_ h
      simp only [feedBit]
      split <;> rfl
    have hbits : S = S' := by
      apply addBlock_injective (List.replicate p false ++ [x])
      simp only [feedBit] at hfed
      split at hfed
      · exact hf (congrArg Absorbing.bits hfed)
      · exact congrArg Absorbing.bits hfed
    rw [hbits]

end CppUtils.Sponge
