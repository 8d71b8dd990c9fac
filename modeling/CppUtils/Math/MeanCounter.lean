import Mathlib

/-!
# `CMeanCounter`

The class template of `math/cmeancounter.h` over a sample type and an exact arithmetic in place of `float`
and `double`. Two defects show: `reset` leaves the accumulator of the smooth mean as it is, and
`arithmeticMean` narrows the number of samples to the sample type before it divides by it.
-/

namespace CppUtils.Math

/-- What the template uses of its sample type `T`, of the conversions between `T` and the floating-point
types, and of the mathematical functions. A division by zero has no value. -/
structure SampleArithmetic (T K : Type) where
  zero : T
  add : T → T → T
  div : T → T → Option T
  ofCount : BitVec 64 → T
  toReal : T → K
  ofReal : K → T
  log : K → K
  exp : K → K

structure CMeanCounter (T K : Type) where
  arithMeanAccumulator : T
  logSumAccumulator : K
  smoothMeanAccumulator : K
  smoothingFactor : K
  counter : BitVec 64

namespace CMeanCounter

variable {T K : Type} [Field K] (A : SampleArithmetic T K)

def new (smoothingFactor : K) : CMeanCounter T K := ⟨A.zero, 0, 0, smoothingFactor, 0⟩

def smoothMean (c : CMeanCounter T K) : T := A.ofReal c.smoothMeanAccumulator

def arithmeticMean (c : CMeanCounter T K) : Option T :=
  if 0 < c.counter then A.div c.arithMeanAccumulator (A.ofCount c.counter) else some A.zero

def geometricMean (c : CMeanCounter T K) : T :=
  if 0 < c.counter then A.ofReal (A.exp (c.logSumAccumulator / (c.counter.toNat : K))) else A.zero

def reset (c : CMeanCounter T K) : CMeanCounter T K :=
  { c with arithMeanAccumulator := A.zero, logSumAccumulator := 0, counter := 0 }

def process (c : CMeanCounter T K) (value : T) : CMeanCounter T K where
  counter := c.counter + 1
  arithMeanAccumulator := A.add c.arithMeanAccumulator value
  logSumAccumulator := c.logSumAccumulator + A.log (A.toReal value)
  smoothMeanAccumulator :=
    if c.counter + 1 = 1 then A.toReal value
    else c.smoothMeanAccumulator + c.smoothingFactor * (A.toReal value - c.smoothMeanAccumulator)
  smoothingFactor := c.smoothingFactor

def processAll (c : CMeanCounter T K) (samples : List T) : CMeanCounter T K := samples.foldl (process A) c

def means (c : CMeanCounter T K) : Option T × T × T :=
  (c.arithmeticMean A, c.geometricMean A, c.smoothMean A)

/-! ### What `reset` forgets -/

section Reset

variable {A} (smoothingFactor : K)

@[simp] theorem processAll_nil (c : CMeanCounter T K) : c.processAll A [] = c := rfl

@[simp] theorem processAll_cons (c : CMeanCounter T K) (value : T) (samples : List T) :
    c.processAll A (value :: samples) = (c.process A value).processAll A samples := rfl

theorem processAll_smoothingFactor (c : CMeanCounter T K) (samples : List T) :
    (c.processAll A samples).smoothingFactor = c.smoothingFactor := by
  induction samples generalizing c with
  | nil => rfl
  | cons value samples ih => exact ih (c.process A value)

/-- The first sample seeds the accumulator of the smooth mean, whatever it was. -/
theorem process_reset (c : CMeanCounter T K) (value : T) :
    (c.reset A).process A value = (new A c.smoothingFactor).process A value := by
  have hfirst : (0 : BitVec 64) + 1 = 1 := rfl
  simp only [process, reset, new, hfirst, if_true]

theorem means_reset (c : CMeanCounter T K) :
    (c.reset A).means A = (new A c.smoothingFactor).means A ↔
      A.ofReal c.smoothMeanAccumulator = A.ofReal 0 := by
  have harith : (c.reset A).arithmeticMean A = (new A c.smoothingFactor).arithmeticMean A := rfl
  have hgeom : (c.reset A).geometricMean A = (new A c.smoothingFactor).geometricMean A := rfl
  rw [means, means, harith, hgeom, Prod.mk.injEq, Prod.mk.injEq]
  constructor
  · rintro ⟨-, -, hsmooth⟩
    exact hsmooth
  · intro hsmooth
    exact ⟨rfl, rfl, hsmooth⟩

/-- After `reset` the means are those of a new counter exactly if a sample follows, or if what the samples
before it left in the accumulator of the smooth mean reads as zero. -/
theorem reset_forgets_iff (A : SampleArithmetic T K) (smoothingFactor : K) (before after : List T) :
    (((((new A smoothingFactor).processAll A before).reset A).processAll A after).means A =
        ((new A smoothingFactor).processAll A after).means A) ↔
      after ≠ [] ∨
        A.ofReal ((new A smoothingFactor).processAll A before).smoothMeanAccumulator = A.ofReal 0 := by
  have hfactor : ((new A smoothingFactor).processAll A before).smoothingFactor = smoothingFactor :=
    processAll_smoothingFactor _ before
  cases after with
  | nil =>
    have hreset := means_reset (A := A) ((new A smoothingFactor).processAll A before)
    rw [hfactor] at hreset
    rw [processAll_nil, processAll_nil, hreset]
    exact (or_iff_right (absurd rfl)).symm
  | cons value after =>
    have hsame := process_reset (A := A) ((new A smoothingFactor).processAll A before) value
    rw [hfactor] at hsame
    rw [processAll_cons, processAll_cons, hsame]
    exact iff_of_true rfl (.inl (List.cons_ne_nil _ _))

noncomputable def realArithmetic : SampleArithmetic ℝ ℝ where
  zero := 0
  add a b := a + b
  div a b := if b = 0 then none else some (a / b)
  ofCount n := n.toNat
  toReal x := x
  ofReal x := x
  log := Real.log
  exp := Real.exp

/-- One sample, `reset`, and no other sample: the smooth mean is still that sample. -/
theorem reset_keepsSmoothMean :
    ((((new realArithmetic (1 / 10)).processAll realArithmetic [1]).reset realArithmetic).smoothMean
        realArithmetic = 1) ∧
      ¬ ∀ smoothingFactor before after,
        ((((new realArithmetic smoothingFactor).processAll realArithmetic before).reset
          realArithmetic).processAll realArithmetic after).means realArithmetic =
            ((new realArithmetic smoothingFactor).processAll realArithmetic after).means realArithmetic := by
  have hkept : ∀ smoothingFactor : ℝ, (((new realArithmetic smoothingFactor).processAll realArithmetic
      [1]).reset realArithmetic).smoothMean realArithmetic = 1 := by
    intro smoothingFactor
    have hfirst : (0 : BitVec 64) + 1 = 1 := rfl
    simp only [processAll_cons, processAll_nil, process, reset, new, smoothMean, realArithmetic, hfirst,
      if_true]
  refine ⟨hkept _, ?_⟩
  intro h
  have hmeans := congrArg (fun m : Option ℝ × ℝ × ℝ => m.2.2) (h (1 / 10) [1] [])
  change _ = (new realArithmetic (1 / 10)).smoothMean realArithmetic at hmeans
  exact one_ne_zero ((hkept (1 / 10)).symm.trans hmeans)

end Reset

/-! ### The arithmetic mean of unsigned samples -/

section Unsigned

variable {w : ℕ}

/-- An unsigned integer type of `w` bits: sums modulo `2 ^ w`, and conversions to it that truncate. -/
noncomputable def unsignedArithmetic (w : ℕ) : SampleArithmetic (BitVec w) ℝ where
  zero := 0
  add a b := a + b
  div a b := if b = 0 then none else some (a / b)
  ofCount n := n.setWidth w
  toReal x := x.toNat
  ofReal x := BitVec.ofNat w ⌊x⌋₊
  log := Real.log
  exp := Real.exp

def trueSum (samples : List (BitVec w)) : ℕ := (samples.map BitVec.toNat).sum

theorem counter_processAll {T K : Type} [Field K] (A : SampleArithmetic T K) (c : CMeanCounter T K)
    (samples : List T) : (c.processAll A samples).counter = c.counter + BitVec.ofNat 64 samples.length := by
  induction samples generalizing c with
  | nil => simp
  | cons value samples ih =>
    rw [processAll_cons, ih, List.length_cons, Nat.add_comm, BitVec.ofNat_add]
    change c.counter + 1 + _ = _
    rw [add_assoc]
    rfl

theorem accumulator_processAll (c : CMeanCounter (BitVec w) ℝ) (samples : List (BitVec w)) :
    (c.processAll (unsignedArithmetic w) samples).arithMeanAccumulator =
      c.arithMeanAccumulator + BitVec.ofNat w (trueSum samples) := by
  induction samples generalizing c with
  | nil => simp [trueSum]
  | cons value samples ih =>
    have hsum : trueSum (value :: samples) = value.toNat + trueSum samples := List.sum_cons
    rw [processAll_cons, ih, hsum, BitVec.ofNat_add, BitVec.ofNat_toNat, BitVec.setWidth_eq, ← add_assoc]
    rfl

theorem arithmeticMean_processAll (smoothingFactor : ℝ) {samples : List (BitVec w)} (hne : samples ≠ [])
    (hlength : samples.length < 2 ^ 64) :
    ((new (unsignedArithmetic w) smoothingFactor).processAll (unsignedArithmetic w)
        samples).arithmeticMean (unsignedArithmetic w) =
      if BitVec.ofNat w samples.length = 0 then none
      else some (BitVec.ofNat w (trueSum samples) / BitVec.ofNat w samples.length) := by
  have hcounter : ((new (unsignedArithmetic w) smoothingFactor).processAll (unsignedArithmetic w)
      samples).counter = BitVec.ofNat 64 samples.length := by
    rw [counter_processAll]
    exact BitVec.zero_add _
  have haccumulator : ((new (unsignedArithmetic w) smoothingFactor).processAll (unsignedArithmetic w)
      samples).arithMeanAccumulator = BitVec.ofNat w (trueSum samples) := by
    rw [accumulator_processAll]
    exact BitVec.zero_add _
  have hpos : 0 < BitVec.ofNat 64 samples.length := by
    rw [BitVec.lt_def, BitVec.toNat_ofNat, Nat.mod_eq_of_lt hlength]
    exact List.length_pos_of_ne_nil hne
  have hnarrow : (BitVec.ofNat 64 samples.length).setWidth w = BitVec.ofNat w samples.length := by
    apply BitVec.eq_of_toNat_eq
    rw [BitVec.toNat_setWidth, BitVec.toNat_ofNat, BitVec.toNat_ofNat, Nat.mod_eq_of_lt hlength]
  rw [arithmeticMean, hcounter, haccumulator, if_pos hpos]
  change (if (BitVec.ofNat 64 samples.length).setWidth w = 0 then none
    else some (_ / (BitVec.ofNat 64 samples.length).setWidth w)) = _
  rw [hnarrow]

/-- `arithmeticMean` divides by no zero and returns the floor of the true sum by the true count. -/
def MeanIsExact (smoothingFactor : ℝ) (samples : List (BitVec w)) : Prop :=
  ∃ q, ((new (unsignedArithmetic w) smoothingFactor).processAll (unsignedArithmetic w)
      samples).arithmeticMean (unsignedArithmetic w) = some q ∧
    q.toNat = trueSum samples / samples.length

theorem meanIsExact_iff_narrowed (smoothingFactor : ℝ) {samples : List (BitVec w)} (hne : samples ≠ [])
    (hlength : samples.length < 2 ^ 64) (hsum : trueSum samples < 2 ^ w) :
    MeanIsExact smoothingFactor samples ↔ samples.length % 2 ^ w ≠ 0 ∧
      trueSum samples / (samples.length % 2 ^ w) = trueSum samples / samples.length := by
  have hzero : BitVec.ofNat w samples.length = 0 ↔ samples.length % 2 ^ w = 0 := by
    rw [← BitVec.toNat_inj, BitVec.toNat_ofNat]
    rfl
  have hquotient : (BitVec.ofNat w (trueSum samples) / BitVec.ofNat w samples.length).toNat =
      trueSum samples / (samples.length % 2 ^ w) := by
    rw [BitVec.toNat_udiv, BitVec.toNat_ofNat, BitVec.toNat_ofNat, Nat.mod_eq_of_lt hsum]
  rw [MeanIsExact, arithmeticMean_processAll smoothingFactor hne hlength]
  by_cases hnarrow : BitVec.ofNat w samples.length = 0
  · rw [if_pos hnarrow]
    constructor
    · rintro ⟨q, hq, -⟩
      cases hq
    · rintro ⟨hne', -⟩
      exact absurd (hzero.mp hnarrow) hne'
  · rw [if_neg hnarrow]
    constructor
    · rintro ⟨q, hq, hvalue⟩
      cases hq
      exact ⟨fun h => hnarrow (hzero.mpr h), hquotient.symm.trans hvalue⟩
    · rintro ⟨-, hvalue⟩
      exact ⟨_, rfl, hquotient.trans hvalue⟩

/-- The mean is exact as long as the sample type can hold the number of samples, and beyond that only where
both means are zero. -/
theorem arithmeticMean_isExact_iff (smoothingFactor : ℝ) {samples : List (BitVec w)} (hne : samples ≠ [])
    (hlength : samples.length < 2 ^ 64) (hsum : trueSum samples < 2 ^ w) :
    MeanIsExact smoothingFactor samples ↔
      samples.length < 2 ^ w ∨ trueSum samples < samples.length % 2 ^ w := by
  rw [meanIsExact_iff_narrowed smoothingFactor hne hlength hsum]
  have hpos : 0 < samples.length := List.length_pos_of_ne_nil hne
  by_cases hfits : samples.length < 2 ^ w
  · rw [Nat.mod_eq_of_lt hfits]
    exact iff_of_true ⟨hpos.ne', rfl⟩ (.inl hfits)
  · have hmean : trueSum samples / samples.length = 0 :=
      Nat.div_eq_of_lt (hsum.trans_le (Nat.le_of_not_lt hfits))
    rw [hmean, or_iff_right hfits]
    constructor
    · rintro ⟨hnarrow, hquotient⟩
      obtain h | h := Nat.div_eq_zero_iff.mp hquotient
      · exact absurd h hnarrow
      · exact h
    · intro hlt
      exact ⟨Nat.ne_of_gt (Nat.zero_lt_of_lt hlt), Nat.div_eq_of_lt hlt⟩

/-- The mean of 3 and 6 in eight bits is 4. -/
theorem arithmeticMean_isExact_iff_pair : MeanIsExact (1 / 10) [(3 : BitVec 8), 6] :=
  (arithmeticMean_isExact_iff (1 / 10) (List.cons_ne_nil _ _) (by decide) (by decide)).mpr (.inl (by decide))

/-- After 256 zero samples of eight bits the count narrows to zero. -/
theorem arithmeticMean_dividesByZero :
    ((new (unsignedArithmetic 8) (1 / 10)).processAll (unsignedArithmetic 8)
        (List.replicate 256 0)).arithmeticMean (unsignedArithmetic 8) = none ∧
      ¬ MeanIsExact (1 / 10) (List.replicate 256 (0 : BitVec 8)) := by
  have hdivides : ((new (unsignedArithmetic 8) (1 / 10)).processAll (unsignedArithmetic 8)
      (List.replicate 256 0)).arithmeticMean (unsignedArithmetic 8) = none := by
    have hlength : (List.replicate 256 (0 : BitVec 8)).length = 256 := List.length_replicate
    have hne : List.replicate 256 (0 : BitVec 8) ≠ [] := List.ne_nil_of_length_eq_add_one hlength
    rw [arithmeticMean_processAll (1 / 10) hne (by rw [hlength]; decide), hlength]
    rfl
  refine ⟨hdivides, ?_⟩
  rintro ⟨q, hq, -⟩
  rw [hdivides] at hq
  cases hq

end Unsigned

end CMeanCounter

end CppUtils.Math
