import Nekros.BinaryField
import Nekros.GcmAgreement

/-! `gf128_mul` and `ghash` of crypto/aes_gcm.c in the ring of polynomials modulo
x^128 + x^7 + x^2 + x + 1. Bit `i` of a word, counted from the most significant one, is the
coefficient of x^i. -/
namespace Nekros.GhashConforms
open Polynomial
open Bytes
open BinaryField
open AesGcm (U128 gf128Mul ghash)
open GcmAgreement (value)
open Loops (upTo)

noncomputable def gcmPoly (w : BitVec 128) : (ZMod 2)[X] :=
  ∑ i ∈ Finset.range 128, if w.getMsbD i then X^i else 0

theorem gcmPolyReverse (w : BitVec 128) : gcmPoly w = poly w.reverse := by
  rw [gcmPoly,poly]
  refine Finset.sum_congr rfl (fun i _ => ?_)
  rw [BitVec.getLsbD_reverse]

theorem lowPolynomial : poly (0x87 : BitVec 128) = X^7 + X^2 + X + 1 := by
  have bits : ∀ i : Fin 128, (if (0x87 : BitVec 128).getLsbD i then (1 : ZMod 2) else 0) =
      (if i.val = 7 then 1 else 0) + (if i.val = 2 then 1 else 0) + (if 1 = i.val then 1 else 0) +
        if i.val = 0 then 1 else 0 := by decide +kernel
  ext i
  rw [coeffPoly,coeff_add,coeff_add,coeff_add,coeff_X_pow,coeff_X_pow,coeff_X,coeff_one]
  rcases Nat.lt_or_ge i 128 with inside | outside
  · exact bits ⟨i,inside⟩
  · rw [BitVec.getLsbD_of_ge _ i outside,if_neg (show ¬ i = 7 by omega),if_neg (show ¬ i = 2 by omega),
      if_neg (show ¬ 1 = i by omega),if_neg (show ¬ i = 0 by omega)]
    decide

noncomputable abbrev ringModulus : (ZMod 2)[X] := modulus (0x87 : BitVec 128)

theorem ringPolynomial : ringModulus = X^128 + X^7 + X^2 + X + 1 := by
  rw [ringModulus,modulus,lowPolynomial]
  ring

theorem reverseShift (v : BitVec 128) : (Gf128.shift v).reverse = xtime 0x87 v.reverse := by
  have reduction : ∀ i < 128, (0x87 : BitVec 128).getLsbD i = Gf128.reduction.getLsbD (127 - i) := by decide +kernel
  apply BitVec.eq_of_getLsbD_eq
  intro i lt
  rw [BitVec.getLsbD_reverse,BitVec.getMsbD_eq_getLsbD,decide_eq_true lt,Bool.true_and,Gf128.getLsbDShift,
    getLsbDXtime _ _ lt,BitVec.msb_reverse,BitVec.getLsbD_reverse,reduction i lt]
  congr 1
  rcases Nat.eq_zero_or_pos i with rfl | pos
  · exact BitVec.getLsbD_of_ge v _ (by omega)
  · rw [BitVec.getMsbD_eq_getLsbD,decide_eq_true (show i - 1 < 128 by omega),decide_eq_false (show ¬ i < 1 by omega)]
    simp only [Bool.true_and,Bool.not_false]
    congr 1
    omega

theorem reverseXor (x y : BitVec 128) : (x ^^^ y).reverse = x.reverse ^^^ y.reverse := by
  apply BitVec.eq_of_getLsbD_eq
  intro i _
  rw [BitVec.getLsbD_xor,BitVec.getLsbD_reverse,BitVec.getLsbD_reverse,BitVec.getLsbD_reverse,BitVec.getMsbD_xor]

theorem reverseZero : (0 : BitVec 128).reverse = 0 := by
  apply BitVec.eq_of_getLsbD_eq
  intro i _
  rw [BitVec.getLsbD_reverse]
  simp

theorem reverseMul (x h : BitVec 128) : (Gf128.mul x h).reverse = mul 0x87 x.reverse h.reverse := by
  have stay := Loops.upToRelated (Gf128.mulStep x) (mulStep 0x87 x.reverse)
    (fun s t => s.sum.reverse = t.sum ∧ s.power.reverse = t.power)
    (s := ⟨0,h⟩) (t := ⟨0,h.reverse⟩) ⟨reverseZero,rfl⟩ (n := 128)
  refine (stay ?_).1
  rintro i s t _ ⟨sum,power⟩
  rw [Gf128.mulStep,mulStep]
  dsimp only
  rw [BitVec.getLsbD_reverse,reverseShift,power,← sum,← power]
  refine ⟨?_,rfl⟩
  split
  · exact reverseXor _ _
  · rfl

noncomputable def residue (w : BitVec 128) : Residue (0x87 : BitVec 128) := element 0x87 w.reverse

theorem residuePoly (w : BitVec 128) : residue w = AdjoinRoot.mk _ (gcmPoly w) := by
  rw [gcmPolyReverse]
  rfl

theorem polyOfResidue {w : BitVec 128} {p : (ZMod 2)[X]}
    (same : residue w = AdjoinRoot.mk (modulus (0x87 : BitVec 128)) p) :
    gcmPoly w = p %ₘ ringModulus := by
  rw [gcmPolyReverse]
  exact polyOfElement same

theorem residueXor (x y : BitVec 128) : residue (x ^^^ y) = residue x + residue y := by
  rw [residue,reverseXor]
  exact elementXor _ _ _

theorem residueMul (x h : BitVec 128) : residue (Gf128.mul x h) = residue x * residue h := by
  rw [residue,reverseMul]
  exact elementMul _ _ _

theorem residueZero : residue 0 = 0 := by
  rw [residue,reverseZero]
  exact elementZero _

theorem residueInjective : Function.Injective residue := by
  intro x y same
  have reversed := congrArg BitVec.reverse (elementInjective _ same)
  rwa [BitVec.reverse_reverse_eq,BitVec.reverse_reverse_eq] at reversed

def xorU128 (a b : U128) : U128 := ⟨a.hi ^^^ b.hi,a.lo ^^^ b.lo⟩

theorem valueInjective : Function.Injective value := by
  intro x y same
  have bit := fun i => congrArg (fun w => w.getLsbD i) same
  simp only [GcmAgreement.getLsbDValue] at bit
  have lo : x.lo = y.lo := by
    apply BitVec.eq_of_getLsbD_eq
    intro i lt
    simpa [lt] using bit i
  have hi : x.hi = y.hi := by
    apply BitVec.eq_of_getLsbD_eq
    intro i _
    simpa using bit (64 + i)
  cases x
  cases y
  simp_all

theorem residueGf128Mul (x h : U128) : residue (value (gf128Mul x h)) = residue (value x) * residue (value h) := by
  rw [GcmAgreement.valueMul,residueMul]

theorem residueXorU128 (x y : U128) : residue (value (xorU128 x y)) = residue (value x) + residue (value y) := by
  rw [xorU128,GcmAgreement.valueXor,residueXor]

theorem gf128MulExact (x h : U128) : gcmPoly (value (gf128Mul x h)) =
    (gcmPoly (value x) * gcmPoly (value h)) %ₘ ringModulus := by
  refine polyOfResidue ?_
  rw [residueGf128Mul,residuePoly,residuePoly,map_mul]

theorem gf128MulComm (x h : U128) : gf128Mul x h = gf128Mul h x := by
  refine valueInjective (residueInjective ?_)
  rw [residueGf128Mul,residueGf128Mul,mul_comm]

theorem gf128MulXor (x y h : U128) :
    gf128Mul (xorU128 x y) h = xorU128 (gf128Mul x h) (gf128Mul y h) := by
  refine valueInjective (residueInjective ?_)
  rw [residueGf128Mul,residueXorU128,residueXorU128,residueGf128Mul,residueGf128Mul,add_mul]

def pieces (data : List Byte) : List (BitVec 128) :=
  (List.range ((data.length + 15) / 16)).map (Gf128.piece data)

def hashed (aad ct : List Byte) : List (BitVec 128) := pieces aad ++ pieces ct ++ [GcmAgreement.lengths aad ct]

theorem absorbAllFold (h y : BitVec 128) (data : List Byte) :
    Gf128.absorbAll h data y = (pieces data).foldl (Gf128.absorb h) y := by
  rw [Gf128.absorbAll,pieces]
  generalize (data.length + 15) / 16 = n
  induction n with
  | zero => rfl
  | succ n ih =>
      rw [List.range_succ,List.map_append,List.foldl_append,← ih]
      rfl

theorem hashFold (h : BitVec 128) (aad ct : List Byte) :
    GcmAgreement.hashOf h aad ct = (hashed aad ct).foldl (Gf128.absorb h) 0 := by
  rw [GcmAgreement.hashOf,absorbAllFold,absorbAllFold,hashed,List.foldl_append,List.foldl_append]
  rfl

theorem residueFold (h y : BitVec 128) (xs : List (BitVec 128)) :
    residue (xs.foldl (Gf128.absorb h) y) = residue y * residue h^xs.length +
      ∑ i ∈ Finset.range xs.length, residue (xs.getD i 0) * residue h^(xs.length - i) := by
  induction xs generalizing y with
  | nil => simp
  | cons x rest ih =>
      rw [List.foldl_cons,ih,Gf128.absorb,residueMul,residueXor,List.length_cons,Finset.sum_range_succ',
        List.getD_cons_zero,Nat.sub_zero]
      simp only [List.getD_cons_succ,Nat.add_sub_add_right]
      ring

theorem ghashSum (key : Block) {aad ct : List Byte} (aadFits : aad.length + 15 < 2^64)
    (ctFits : ct.length + 15 < 2^64) :
    gcmPoly (wordOf (ghash key aad ct)) =
      (∑ i ∈ Finset.range (hashed aad ct).length,
        gcmPoly ((hashed aad ct).getD i 0) * gcmPoly (wordOf key)^((hashed aad ct).length - i)) %ₘ ringModulus := by
  refine polyOfResidue ?_
  rw [GcmAgreement.wordOfGhash key aadFits ctFits,hashFold,residueFold,residueZero,zero_mul,zero_add,map_sum]
  refine Finset.sum_congr rfl (fun i _ => ?_)
  rw [residuePoly,residuePoly,map_mul,map_pow]

theorem ghashExact : ringModulus = X^128 + X^7 + X^2 + X + 1 ∧
    (∀ x h, gcmPoly (value (gf128Mul x h)) =
      (gcmPoly (value x) * gcmPoly (value h)) %ₘ ringModulus) ∧
    (∀ x h, gf128Mul x h = gf128Mul h x) ∧
    (∀ x y h, gf128Mul (xorU128 x y) h = xorU128 (gf128Mul x h) (gf128Mul y h) ∧
      gf128Mul h (xorU128 x y) = xorU128 (gf128Mul h x) (gf128Mul h y)) ∧
    ∀ (key : Block) (aad ct : List Byte), aad.length + 16 ≤ 2^64 → ct.length + 16 ≤ 2^64 →
      gcmPoly (wordOf (ghash key aad ct)) =
        (∑ i ∈ Finset.range (hashed aad ct).length,
          gcmPoly ((hashed aad ct).getD i 0) * gcmPoly (wordOf key)^((hashed aad ct).length - i)) %ₘ ringModulus := by
  refine ⟨ringPolynomial,gf128MulExact,gf128MulComm,fun x y h => ⟨gf128MulXor x y h,?_⟩,
    fun key aad ct aadFits ctFits => ?_⟩
  · rw [gf128MulComm h,gf128MulXor,gf128MulComm x,gf128MulComm y]
  · exact ghashSum key (by omega) (by omega)

theorem ghashExactTwenty : (hashed [] (List.replicate 20 1)).length = 3 ∧
    gcmPoly (wordOf (ghash (Vector.replicate 16 7) [] (List.replicate 20 1))) =
      (∑ i ∈ Finset.range (hashed [] (List.replicate 20 1)).length,
        gcmPoly ((hashed [] (List.replicate 20 1)).getD i 0) *
          gcmPoly (wordOf (Vector.replicate 16 7))^((hashed [] (List.replicate 20 1)).length - i)) %ₘ ringModulus :=
  ⟨by decide,ghashExact.2.2.2.2 (Vector.replicate 16 7) [] (List.replicate 20 1) (by decide) (by decide)⟩

end Nekros.GhashConforms
