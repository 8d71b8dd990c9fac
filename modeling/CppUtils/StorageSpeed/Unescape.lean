import CppUtils.StorageSpeed.MountTable

/-!
# The loop of `unescapedMountPoint`

The loop by index, where reading past the end has no value. `unescapeLoop_eq` says that it decodes what is
left of the text; no read is out of range because the last digit is looked for before any digit is read.
-/

namespace CppUtils.StorageSpeed

section Loop

/-- `a && b`, which evaluates `b` only if `a` holds. -/
def shortCircuitAnd (a b : Option Bool) : Option Bool :=
  match a with
  | none => none
  | some false => some false
  | some true => b

/-- `isOctalDigit(escaped[i])`. -/
def octalDigitAt (escaped : Text) (i : ℕ) : Option Bool := escaped[i]?.map isOctalDigit

/-- The condition of the loop's `if`. -/
def isEscapeAt (escaped : Text) (i : ℕ) : Option Bool :=
  shortCircuitAnd (escaped[i]?.map (· == '\\')) <|
  shortCircuitAnd (some (decide (i + 3 < escaped.length))) <|
  shortCircuitAnd (octalDigitAt escaped (i + 1)) <|
  shortCircuitAnd (octalDigitAt escaped (i + 2)) (octalDigitAt escaped (i + 3))

/-- The `char` that the three digits after `i` give. -/
def octalCharAt (escaped : Text) (i : ℕ) : Option Char := do
  let a ← escaped[i + 1]?
  let b ← escaped[i + 2]?
  let d ← escaped[i + 3]?
  return octalChar a b d

/-- One iteration, its `++i` included: the next index and the character pushed. -/
def unescapeStep (escaped : Text) (i : ℕ) : Option (ℕ × Char) := do
  if ← isEscapeAt escaped i then
    return (i + 3 + 1, ← octalCharAt escaped i)
  else
    return (i + 1, ← escaped[i]?)

theorem lt_of_unescapeStep {escaped : Text} {i j : ℕ} {c : Char}
    (h : unescapeStep escaped i = some (j, c)) : i < j := by
  obtain ⟨isEscape, _, hstep⟩ := Option.bind_eq_some_iff.mp h
  cases isEscape with
  | true =>
    obtain ⟨_, _, hpure⟩ := Option.bind_eq_some_iff.mp hstep
    have hj := congrArg Prod.fst (Option.some.inj hpure)
    change i + 3 + 1 = j at hj
    omega
  | false =>
    obtain ⟨_, _, hpure⟩ := Option.bind_eq_some_iff.mp hstep
    have hj := congrArg Prod.fst (Option.some.inj hpure)
    change i + 1 = j at hj
    omega

/-- `for (size_t i = 0; i < escaped.size(); ++i)`; `none` once a read is out of range. -/
def unescapeLoop (escaped : Text) (i : ℕ) (result : Text) : Option Text :=
  if i < escaped.length then
    match _h : unescapeStep escaped i with
    | none => none
    | some (j, c) => unescapeLoop escaped j (result ++ [c])
  else some result
termination_by escaped.length - i
decreasing_by
  have := lt_of_unescapeStep _h
  omega

def unescapedMountPointLoop (escaped : Text) : Option Text := unescapeLoop escaped 0 []

end Loop

section Decode

/-- The digits of an escape, behind its backslash. -/
def startsWithOctal : Text → Bool
  | a :: b :: d :: _ => isOctalDigit a && isOctalDigit b && isOctalDigit d
  | _ => false

variable {front rest : Text} {c : Char}

theorem unescapedMountPoint_of_octal {a b d : Char} (h : startsWithOctal (a :: b :: d :: rest) = true) :
    unescapedMountPoint ('\\' :: a :: b :: d :: rest) = octalChar a b d :: unescapedMountPoint rest := by
  rw [unescapedMountPoint]
  exact if_pos h

theorem unescapedMountPoint_of_not_octal (h : startsWithOctal rest = false) :
    unescapedMountPoint ('\\' :: rest) = '\\' :: unescapedMountPoint rest := by
  match rest, h with
  | [], _ => rfl
  | [_], _ => rfl
  | [_, _], _ => rfl
  | a :: b :: d :: more, h =>
    rw [unescapedMountPoint]
    exact if_neg (Bool.not_eq_true _ ▸ h)

theorem octal_cases (h : startsWithOctal rest = true) :
    ∃ a b d more, rest = a :: b :: d :: more := by
  match rest, h with
  | a :: b :: d :: more, _ => exact ⟨a, b, d, more, rfl⟩

theorem getElem?_behind (front rest : Text) (c : Char) (n : ℕ) :
    (front ++ c :: rest)[front.length + (n + 1)]? = rest[n]? := by
  rw [List.getElem?_append_right (Nat.le_add_right _ _), Nat.add_sub_cancel_left]
  rfl

@[simp] theorem shortCircuitAnd_false (b : Option Bool) : shortCircuitAnd (some false) b = some false := rfl

@[simp] theorem shortCircuitAnd_some (a b : Bool) : shortCircuitAnd (some a) (some b) = some (a && b) := by
  cases a with
  | true => rfl
  | false => rfl

theorem isEscapeAt_append (front rest : Text) (c : Char) :
    isEscapeAt (front ++ c :: rest) front.length = some (c == '\\' && startsWithOctal rest) := by
  have hc : (front ++ c :: rest)[front.length]? = some c := by simp
  unfold isEscapeAt octalDigitAt
  rw [hc, getElem?_behind front rest c 0, getElem?_behind front rest c 1, getElem?_behind front rest c 2]
  match rest with
  | [] => simp [startsWithOctal]
  | [_] => simp [startsWithOctal]
  | [_, _] => simp [startsWithOctal]
  | a :: b :: d :: more => simp [startsWithOctal, Bool.and_assoc]

theorem unescapeStep_of_octal {a b d : Char} (front : Text)
    (h : startsWithOctal (a :: b :: d :: rest) = true) :
    unescapeStep (front ++ '\\' :: a :: b :: d :: rest) front.length =
      some ((front ++ ['\\', a, b, d]).length, octalChar a b d) := by
  have hlength : (front ++ ['\\', a, b, d]).length = front.length + 3 + 1 := by simp
  have hescape : isEscapeAt (front ++ '\\' :: a :: b :: d :: rest) front.length = some true := by
    rw [isEscapeAt_append, h]
    rfl
  have hchar : octalCharAt (front ++ '\\' :: a :: b :: d :: rest) front.length =
      some (octalChar a b d) := by
    unfold octalCharAt
    rw [getElem?_behind front _ _ 0, getElem?_behind front _ _ 1, getElem?_behind front _ _ 2]
    rfl
  unfold unescapeStep
  rw [hescape, hchar, hlength]
  rfl

theorem unescapeStep_of_copied (front : Text) (h : (c == '\\' && startsWithOctal rest) = false) :
    unescapeStep (front ++ c :: rest) front.length = some ((front ++ [c]).length, c) := by
  have hlength : (front ++ [c]).length = front.length + 1 := by simp
  have hread : (front ++ c :: rest)[front.length]? = some c := by simp
  unfold unescapeStep
  rw [isEscapeAt_append, h, hread, hlength]
  rfl

theorem unescapeLoop_of_step {escaped result : Text} {i j : ℕ} (hi : i < escaped.length)
    (hstep : unescapeStep escaped i = some (j, c)) :
    unescapeLoop escaped i result = unescapeLoop escaped j (result ++ [c]) := by
  rw [unescapeLoop, if_pos hi]
  split
  · rename_i hnone
    cases hnone.symm.trans hstep
  · rename_i j' c' hsome
    cases hsome.symm.trans hstep
    rfl

/-- What is left of the text is decoded onto the result. -/
theorem unescapeLoop_eq (front rest result : Text) :
    unescapeLoop (front ++ rest) front.length result = some (result ++ unescapedMountPoint rest) := by
  match rest with
  | [] =>
    have hend : ¬ front.length < (front ++ []).length := by simp
    rw [unescapeLoop, if_neg hend, unescapedMountPoint, List.append_nil]
  | c :: rest =>
    have hlt : front.length < (front ++ c :: rest).length := by simp
    cases h : c == '\\' && startsWithOctal rest with
    | true =>
      obtain ⟨hc, hoctal⟩ := Bool.and_eq_true_iff.mp h
      obtain rfl := eq_of_beq hc
      obtain ⟨a, b, d, more, rfl⟩ := octal_cases hoctal
      have hsplit : front ++ '\\' :: a :: b :: d :: more = (front ++ ['\\', a, b, d]) ++ more := by simp
      rw [unescapeLoop_of_step hlt (unescapeStep_of_octal front hoctal), hsplit, unescapeLoop_eq,
        unescapedMountPoint_of_octal hoctal, List.append_assoc]
      rfl
    | false =>
      have hcopied : unescapedMountPoint (c :: rest) = c :: unescapedMountPoint rest := by
        by_cases hc : c = '\\'
        · subst hc
          exact unescapedMountPoint_of_not_octal h
        · exact unescapedMountPoint_cons hc rest
      have hsplit : front ++ c :: rest = (front ++ [c]) ++ rest := by simp
      rw [unescapeLoop_of_step hlt (unescapeStep_of_copied front h), hsplit, unescapeLoop_eq, hcopied,
        List.append_assoc]
      rfl
termination_by rest.length

/-- Every read of the loop is in range. -/
theorem unescapedMountPointLoop_eq (bytes : Text) :
    unescapedMountPointLoop bytes = some (unescapedMountPoint bytes) :=
  unescapeLoop_eq [] bytes []

theorem startsWithOctal_append_backslash (h : startsWithOctal front = false) (rest : Text) :
    startsWithOctal (front ++ '\\' :: rest) = false := by
  have hbackslash : isOctalDigit '\\' = false := rfl
  match front, h with
  | [], _ => cases rest with
    | nil => rfl
    | cons b rest => cases rest with
      | nil => rfl
      | cons d rest => simp [startsWithOctal, hbackslash]
  | [a], _ => cases rest with
    | nil => rfl
    | cons d rest => simp [startsWithOctal, hbackslash]
  | [a, b], _ => simp [startsWithOctal, hbackslash]
  | a :: b :: d :: more, h => exact h

/-- A backslash that begins no escape splits the text. -/
theorem unescapedMountPoint_append_backslash (front : Text) (h : startsWithOctal rest = false) :
    unescapedMountPoint (front ++ '\\' :: rest) =
      unescapedMountPoint front ++ '\\' :: unescapedMountPoint rest := by
  match front with
  | [] => exact unescapedMountPoint_of_not_octal h
  | c :: front =>
    by_cases hc : c = '\\'
    · subst hc
      cases hoctal : startsWithOctal front with
      | true =>
        obtain ⟨a, b, d, more, rfl⟩ := octal_cases hoctal
        have hlonger : startsWithOctal (a :: b :: d :: (more ++ '\\' :: rest)) = true := hoctal
        change unescapedMountPoint ('\\' :: a :: b :: d :: (more ++ '\\' :: rest)) = _
        rw [unescapedMountPoint_of_octal hlonger, unescapedMountPoint_of_octal hoctal,
          unescapedMountPoint_append_backslash more h]
        rfl
      | false =>
        change unescapedMountPoint ('\\' :: (front ++ '\\' :: rest)) = _
        rw [unescapedMountPoint_of_not_octal (startsWithOctal_append_backslash hoctal rest),
          unescapedMountPoint_of_not_octal hoctal, unescapedMountPoint_append_backslash front h]
        rfl
    · change unescapedMountPoint (c :: (front ++ '\\' :: rest)) = _
      rw [unescapedMountPoint_cons hc, unescapedMountPoint_cons hc,
        unescapedMountPoint_append_backslash front h]
      rfl
termination_by front.length

/-- The loop undoes the kernel's escaping; on any text it ends without a read out of range and copies every
backslash that no three octal digits follow. -/
theorem unescapedMountPointLoop_inverts :
    (∀ text, unescapedMountPointLoop (escaped text) = some text) ∧
    ∀ bytes, ∃ result, unescapedMountPointLoop bytes = some result ∧
      ∀ front rest, bytes = front ++ '\\' :: rest → startsWithOctal rest = false →
        ∃ left right, unescapedMountPointLoop front = some left ∧
          unescapedMountPointLoop rest = some right ∧ result = left ++ '\\' :: right := by
  constructor
  · intro text
    rw [unescapedMountPointLoop_eq, unescapedMountPoint_escaped]
  · intro bytes
    refine ⟨_, unescapedMountPointLoop_eq bytes, ?_⟩
    intro front rest hbytes hrest
    refine ⟨_, _, unescapedMountPointLoop_eq front, unescapedMountPointLoop_eq rest, ?_⟩
    rw [hbytes, unescapedMountPoint_append_backslash front hrest]

end Decode

end CppUtils.StorageSpeed
