import Mathlib.Data.Fin.VecNotation
import Nekros.BinaryField
import Nekros.Bytes

/-! The block cipher of FIPS 197 for keys of 256 bits, in the terms of the standard: bytes
are the elements of GF(2^8), the S-box is the affine transformation of the inverse, and a
column is multiplied by a fixed polynomial modulo x^4 + 1. -/
namespace Nekros.Fips197
open Polynomial
open Bytes (Byte Block)
open BinaryField

abbrev Gf8 := Residue (0x1b : Byte)

theorem fieldPolynomial : modulus (0x1b : Byte) = X^8 + X^4 + X^3 + X + 1 := by
  have low : poly (0x1b : Byte) = 1 + X + X^3 + X^4 := by
    simp [poly,Finset.sum_range_succ]
  rw [modulus,low]
  ring

noncomputable abbrev bytes : Byte ≃ Gf8 := elements (0x1b : Byte)

theorem bytesXor (a b : Byte) : bytes (a ^^^ b) = bytes a + bytes b := elementXor 0x1b a b

theorem bytesMul (a b : Byte) : bytes (mul 0x1b a b) = bytes a * bytes b := elementMul 0x1b a b

theorem bytesZero : bytes 0 = 0 := elementZero 0x1b

theorem bytesOne : bytes 1 = 1 := elementOne (n := 7) 0x1b

noncomputable def inverse (b : Byte) : Byte := bytes.symm (Ring.inverse (bytes b))

theorem inverseZero : inverse 0 = 0 := by
  rw [inverse,bytesZero,Ring.inverse_zero,← bytesZero,Equiv.symm_apply_apply]

theorem inverseOfMul {a b : Byte} (product : mul 0x1b a b = 1) : inverse a = b := by
  have unit : bytes a * bytes b = 1 := by rw [← bytesMul,product,bytesOne]
  rw [inverse,Equiv.symm_apply_eq]
  exact Ring.inverse_unit (Units.mkOfMulEqOne _ _ unit)

def affineBit (b : Byte) (i : Nat) : Bool :=
  b.getLsbD i ^^ b.getLsbD ((i+4)%8) ^^ b.getLsbD ((i+5)%8) ^^ b.getLsbD ((i+6)%8) ^^
    b.getLsbD ((i+7)%8) ^^ (0x63 : Byte).getLsbD i

def affine (b : Byte) : Byte := BitVec.ofBoolListLE ([0,1,2,3,4,5,6,7].map (affineBit b))

noncomputable def sBox (b : Byte) : Byte := affine (inverse b)

abbrev State := Fin 4 → Fin 4 → Byte

abbrev Word := Fin 4 → Byte

noncomputable def subBytes (s : State) : State := fun r c => sBox (s r c)

def shiftRows (s : State) : State := fun r c => s r (c + r)

noncomputable def columnPoly (a : Word) : Gf8[X] := ∑ r : Fin 4, C (bytes (a r)) * X^r.val

def mixWord : Word := ![0x02,0x01,0x01,0x03]

noncomputable def mixColumns (s : State) : State := fun r c =>
  bytes.symm (((columnPoly mixWord * columnPoly (fun i => s i c)) %ₘ (X^4 + 1)).coeff r)

def rotWord (w : Word) : Word := fun r => w (r + 1)

noncomputable def subWord (w : Word) : Word := fun r => sBox (w r)

noncomputable def rcon (j : Nat) : Word := ![bytes.symm (bytes 0x02^(j-1)),0,0,0]

def xorWord (v w : Word) : Word := fun r => v r ^^^ w r

abbrev Nk : Nat := 8

abbrev Nr : Nat := 14

noncomputable def keyExpansion (key : Vector Byte (4*Nk)) (i : Nat) : Word :=
  if h : i < Nk then fun r => key[4*i + r.val]
  else
    let temp := keyExpansion key (i-1)
    let temp := if i % Nk = 0 then xorWord (subWord (rotWord temp)) (rcon (i / Nk))
      else if i % Nk = 4 then subWord temp else temp
    xorWord (keyExpansion key (i-Nk)) temp
termination_by i
decreasing_by
  all_goals exact Nat.sub_lt (Nat.lt_of_lt_of_le (by decide : 0 < Nk) (Nat.not_lt.mp h)) (by decide)

def addRoundKey (s : State) (w : Nat → Word) (round : Nat) : State := fun r c => s r c ^^^ w (4*round + c.val) r

def input (block : Block) : State := fun r c => block[r.val + 4*c.val]

def output (s : State) : Block := Vector.ofFn fun i => s ⟨i.val % 4,by omega⟩ ⟨i.val / 4,by omega⟩

noncomputable def round (w : Nat → Word) (s : State) (r : Nat) : State :=
  addRoundKey (mixColumns (shiftRows (subBytes s))) w r

noncomputable def cipher (key : Vector Byte (4*Nk)) (block : Block) : Block :=
  let w := keyExpansion key
  let s := addRoundKey (input block) w 0
  let s := (List.range' 1 (Nr-1)).foldl (round w) s
  output (addRoundKey (shiftRows (subBytes s)) w Nr)

end Nekros.Fips197
