import Nekros.Bytes
import Nekros.Loops

/-! Multiplication in GF(2^128) in the reflected bit order of Galois/Counter
mode, and the hash it gives: the first bit is the most significant one and a
shift to the right multiplies by the indeterminate. -/
namespace Nekros.Gf128
open Bytes (Byte wordOf blockOf)
open Loops (upTo)

def reduction : BitVec 128 := 0xe1#128 <<< 120

def shift (v : BitVec 128) : BitVec 128 :=
  if v.getLsbD 0 then (v >>> 1) ^^^ reduction else v >>> 1

structure Product where
  sum : BitVec 128
  power : BitVec 128

def mulStep (x : BitVec 128) (i : Nat) (s : Product) : Product :=
  ⟨if x.getMsbD i then s.sum ^^^ s.power else s.sum,shift s.power⟩

def mul (x h : BitVec 128) : BitVec 128 := (upTo 128 (mulStep x) ⟨0,h⟩).sum

def absorb (h y x : BitVec 128) : BitVec 128 := mul (y ^^^ x) h

def piece (data : List Byte) (i : Nat) : BitVec 128 := wordOf (blockOf ((data.drop (i*16)).take 16))

def absorbPieces (h : BitVec 128) (data : List Byte) (n : Nat) (y : BitVec 128) : BitVec 128 :=
  upTo n (fun i y => absorb h y (piece data i)) y

def absorbAll (h : BitVec 128) (data : List Byte) (y : BitVec 128) : BitVec 128 :=
  absorbPieces h data ((data.length + 15) / 16) y

theorem getLsbDShift (v : BitVec 128) (i : Nat) :
    (shift v).getLsbD i = (v.getLsbD (1+i) ^^ (v.getLsbD 0 && reduction.getLsbD i)) := by
  rw [shift]
  cases v.getLsbD 0 with
  | false => simp only [Bool.false_eq_true,if_false,BitVec.getLsbD_ushiftRight,Bool.false_and,Bool.xor_false]
  | true => simp only [if_true,BitVec.getLsbD_xor,BitVec.getLsbD_ushiftRight,Bool.true_and]

theorem reductionBits {i : Nat} (h : i < 128) :
    reduction.getLsbD i = (decide (120 ≤ i) && (0xe1#8).getLsbD (i - 120)) := by
  revert i
  decide

end Nekros.Gf128
