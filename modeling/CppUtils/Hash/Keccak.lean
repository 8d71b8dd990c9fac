import CppUtils.Lib.InPlace
import Mathlib

/-!
# The permutation of SHA-3

`keccakf` works on 25 words in place, with tables for the lanes, the rotations and the constants of the
rounds. The standard defines the permutation on an array of bits with coordinates `x`, `y` and `z`.
-/

namespace CppUtils.Hash

/-- The state as 25 words. -/
abbrev Words := Vector (BitVec 64) 25

def lane (x y : Fin 5) : Fin 25 := ⟨5 * y + x, by omega⟩

def keccakf_rndc : Fin 24 → BitVec 64 := Vector.get #v[
  0x0000000000000001, 0x0000000000008082,
  0x800000000000808a, 0x8000000080008000,
  0x000000000000808b, 0x0000000080000001,
  0x8000000080008081, 0x8000000000008009,
  0x000000000000008a, 0x0000000000000088,
  0x0000000080008009, 0x000000008000000a,
  0x000000008000808b, 0x800000000000008b,
  0x8000000000008089, 0x8000000000008003,
  0x8000000000008002, 0x8000000000000080,
  0x000000000000800a, 0x800000008000000a,
  0x8000000080008081, 0x8000000000008080,
  0x0000000080000001, 0x8000000080008008]

def keccakf_rotc : Fin 24 → ℕ :=
  Vector.get #v[1, 3, 6, 10, 15, 21, 28, 36, 45, 55, 2, 14, 27, 41, 56, 8, 25, 43, 62, 18, 39, 61, 20, 44]

def keccakf_piln : Fin 24 → Fin 25 :=
  Vector.get #v[10, 7, 11, 17, 18, 3, 5, 16, 8, 21, 24, 4, 15, 23, 19, 13, 12, 2, 20, 14, 22, 9, 6, 1]

/-- `SHA3_ROTL64`. -/
def rotl64 (x : BitVec 64) (y : ℕ) : BitVec 64 := (x <<< y) ||| (x >>> (64 - y))

def Words.word (s : Words) (k : Fin 25) : BitVec 64 := s[k]

def Words.put (s : Words) (k : Fin 25) (v : BitVec 64) : Words := s.set k v

/-- `s[k] ^= t`. -/
def Words.xorAt (s : Words) (k : Fin 25) (t : BitVec 64) : Words := s.put k (s.word k ^^^ t)

/-- The loops over `i`, and over `j` from 0 to 20 in steps of 5. -/
def coordinates : List (Fin 5) := List.finRange 5

/-- `bc` in the first part of a round. -/
def columns (s : Words) (i : Fin 5) : BitVec 64 :=
  s.word (lane i 0) ^^^ s.word (lane i 1) ^^^ s.word (lane i 2) ^^^ s.word (lane i 3) ^^^ s.word (lane i 4)

/-- The first part of a round; `i + 4` and `i + 1` are modulo 5. -/
def theta (s : Words) : Words :=
  let bc := columns s
  coordinates.foldl (fun s i =>
    let t := bc (i + 4) ^^^ rotl64 (bc (i + 1)) 1
    coordinates.foldl (fun s j => s.xorAt (lane i j) t) s) s

/-- One turn of the loop of the second part, on the state and `t`. -/
def rhoPiStep (state : Words × BitVec 64) (i : Fin 24) : Words × BitVec 64 :=
  (state.1.put (keccakf_piln i) (rotl64 state.2 (keccakf_rotc i)), state.1.word (keccakf_piln i))

def rhoPi (s : Words) : Words := ((List.finRange 24).foldl rhoPiStep (s, s.word 1)).1

def chi (s : Words) : Words :=
  coordinates.foldl (fun s j =>
    let bc := fun i => s.word (lane i j)
    coordinates.foldl (fun s i => s.xorAt (lane i j) (~~~bc (i + 1) &&& bc (i + 2))) s) s

def iota (s : Words) (round : Fin 24) : Words := s.xorAt 0 (keccakf_rndc round)

def keccakf (s : Words) : Words :=
  (List.finRange 24).foldl (fun s round => iota (chi (rhoPi (theta s))) round) s

namespace Standard

/-! ### The standard's permutation -/

/-- Bits with coordinates `x`, `y` and `z`. -/
abbrev StateArray := Fin 5 → Fin 5 → Fin 64 → Bool

variable (A : StateArray)

def theta : StateArray := fun x y z =>
  let C (x : Fin 5) (z : Fin 64) := A x 0 z ^^ A x 1 z ^^ A x 2 z ^^ A x 3 z ^^ A x 4 z
  A x y z ^^ (C (x - 1) z ^^ C (x + 1) (z - 1))

/-- The lane that turn `t` of the loop of `rho` rotates. -/
def rhoPosition : ℕ → Fin 5 × Fin 5
  | 0 => (1, 0)
  | t + 1 => ((rhoPosition t).2, 2 * (rhoPosition t).1 + 3 * (rhoPosition t).2)

def rhoOffset (x y : Fin 5) : ℕ :=
  match (List.range 24).find? (rhoPosition · = (x, y)) with
  | none => 0
  | some t => (t + 1) * (t + 2) / 2

def rho : StateArray := fun x y z => A x y (z - Fin.ofNat 64 (rhoOffset x y))

def pi : StateArray := fun x y z => A (x + 3 * y) x z

def chi : StateArray := fun x y z => A x y z ^^ ((A (x + 1) y z ^^ true) && A (x + 2) y z)

/-- One step of the register that gives the constants of the rounds. -/
def registerStep (R : Vector Bool 8) : Vector Bool 8 :=
  #v[R[7], R[0], R[1], R[2], R[3] ^^ R[7], R[4] ^^ R[7], R[5] ^^ R[7], R[6]]

def rc (t : ℕ) : Bool :=
  (registerStep^[t % 255] #v[true, false, false, false, false, false, false, false])[0]

/-- The constant of a round: bit `2 ^ j - 1` is `rc (j + 7 * ir)` and the other bits are clear. -/
def roundConstant (ir : ℕ) (z : Fin 64) : Bool :=
  (List.range 7).any fun j => z.val = 2 ^ j - 1 && rc (j + 7 * ir)

def iota (ir : ℕ) : StateArray := fun x y z =>
  if x = 0 ∧ y = 0 then A x y z ^^ roundConstant ir z else A x y z

def round (ir : ℕ) : StateArray := iota (chi (pi (rho (theta A)))) ir

def toString : Fin 1600 → Bool := fun i =>
  A ⟨i / 64 % 5, by omega⟩ ⟨i / 320, by omega⟩ ⟨i % 64, by omega⟩

def ofString (S : Fin 1600 → Bool) : StateArray := fun x y z => S ⟨64 * (5 * y + x) + z, by omega⟩

/-- Keccak-f[1600]. -/
def keccakF (S : Fin 1600 → Bool) : Fin 1600 → Bool :=
  toString ((List.range 24).foldl round (ofString S))

end Standard

end CppUtils.Hash
