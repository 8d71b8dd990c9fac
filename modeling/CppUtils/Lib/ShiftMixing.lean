import Mathlib

/-!
# Mixing bits by shifts

Bits with places in a commutative group, in several rows. A step adds to every bit two others, or the
parities of two other columns. In characteristic two the powers of such a step are again of its form, so
it can be undone once one of its powers can.
-/

namespace CppUtils

variable {G : Type*} [AddCommGroup G]

def shift (d : G) : Module.End (ZMod 2) (G → ZMod 2) := LinearMap.funLeft (ZMod 2) (ZMod 2) fun g => g - d

@[simp] theorem shift_apply (d : G) (v : G → ZMod 2) (g : G) : shift d v g = v (g - d) := rfl

@[simp] theorem shift_zero : shift (0 : G) = 1 := by
  ext v g
  simp

theorem shift_mul (a b : G) : shift a * shift b = shift (a + b) := by
  ext v g
  simp [sub_sub]

theorem shift_pow (d : G) (n : ℕ) : shift d ^ n = shift (n • d) := by
  induction n with
  | zero => simp
  | succ n ih => rw [pow_succ, ih, shift_mul, succ_nsmul]

theorem commute_shift (a b : G) : Commute (shift a) (shift b) := by
  rw [Commute, SemiconjBy, shift_mul, shift_mul, add_comm]

/-- Every bit with two others added. -/
def addTwo (a b : G) : Module.End (ZMod 2) (G → ZMod 2) := 1 + shift a + shift b

theorem addTwo_pow (a b : G) (n : ℕ) : addTwo a b ^ 2 ^ n = addTwo (2 ^ n • a) (2 ^ n • b) := by
  have hchar : CharP (Module.End (ZMod 2) (G → ZMod 2)) 2 :=
    charP_of_injective_algebraMap (algebraMap (ZMod 2) _).injective 2
  have hcommute : Commute (1 + shift a) (shift b) := (Commute.one_left _).add_left (commute_shift a b)
  rw [addTwo, add_pow_char_pow_of_commute _ _ hcommute,
    add_pow_char_pow_of_commute _ _ (Commute.one_left _), one_pow, shift_pow, shift_pow, addTwo]

variable {R : Type*} [Fintype R]

/-- Every bit with the parities of two columns added. -/
def addParities (a b : G) (A : R → G → ZMod 2) : R → G → ZMod 2 :=
  fun row => A row + (shift a + shift b) (∑ i, A i)

theorem sum_addParities (hodd : Odd (Fintype.card R)) (a b : G) (A : R → G → ZMod 2) :
    ∑ row, addParities a b A row = addTwo a b (∑ i, A i) := by
  have hcard : (Fintype.card R : ZMod 2) = 1 := ZMod.natCast_eq_one_iff_odd.mpr hodd
  have hsum : ∑ _row : R, (shift a + shift b) (∑ i, A i) = (shift a + shift b) (∑ i, A i) := by
    rw [Finset.sum_const, Finset.card_univ, ← Nat.cast_smul_eq_nsmul (ZMod 2), hcard, one_smul]
  calc ∑ row, addParities a b A row
    _ = ∑ row, A row + (shift a + shift b) (∑ i, A i) := by
      simp only [addParities]
      rw [Finset.sum_add_distrib, hsum]
    _ = addTwo a b (∑ i, A i) := by
      rw [addTwo, add_assoc]
      rfl

/-- With an odd number of rows, the bits can be recovered if the parities of the columns can. -/
theorem addParities_injective (hodd : Odd (Fintype.card R)) {a b : G} (hunit : IsUnit (addTwo a b)) :
    Function.Injective (addParities (R := R) a b) := by
  intro A B hAB
  have hparities : ∑ i, A i = ∑ i, B i := by
    have hsums := sum_addParities hodd a b A
    rw [hAB, sum_addParities hodd] at hsums
    exact ((Module.End.isUnit_iff _).mp hunit).injective hsums.symm
  funext row
  have hrow := congrFun hAB row
  simp only [addParities, hparities] at hrow
  exact add_right_cancel hrow

end CppUtils
