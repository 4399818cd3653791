import Mathlib.Algebra.CharP.Two
import Mathlib.Algebra.Field.ZMod
import Mathlib.Data.BitVec
import Mathlib.Data.List.GetD
import Mathlib.RingTheory.AdjoinRoot
import Nekros.Loops

/-! Bit vectors as polynomials over the field of two elements, and as residues modulo
X^n + r. Addition is exclusive or; multiplication by X is a shift with a reduction, and a
product is a sum of shifted factors. -/
namespace Nekros.BinaryField
open Polynomial
open Loops (upTo)

variable {n : Nat}

noncomputable def poly (x : BitVec n) : (ZMod 2)[X] :=
  ∑ i ∈ Finset.range n, if x.getLsbD i then X^i else 0

theorem coeffPoly (x : BitVec n) (i : Nat) : (poly x).coeff i = if x.getLsbD i then 1 else 0 := by
  have term : ∀ j, (if x.getLsbD j then (X : (ZMod 2)[X])^j else 0).coeff i =
      if i = j then (if x.getLsbD j then 1 else 0) else 0 := by
    intro j
    by_cases here : i = j <;> cases x.getLsbD j <;> simp [coeff_X_pow,here]
  rw [poly,finsetSum_coeff,Finset.sum_congr rfl (fun j _ => term j),Finset.sum_ite_eq]
  split
  · rfl
  · rename_i out
    rw [BitVec.getLsbD_of_ge x i (by simpa using out)]
    rfl

theorem polyXor (x y : BitVec n) : poly (x ^^^ y) = poly x + poly y := by
  ext i
  rw [coeff_add,coeffPoly,coeffPoly,coeffPoly,BitVec.getLsbD_xor]
  cases x.getLsbD i <;> cases y.getLsbD i <;> decide

theorem polyInjective : Function.Injective (poly : BitVec n → (ZMod 2)[X]) := by
  intro x y same
  apply BitVec.eq_of_getLsbD_eq
  intro i _
  have bit := congrArg (fun p => p.coeff i) same
  simp only [coeffPoly] at bit
  revert bit
  cases x.getLsbD i <;> cases y.getLsbD i <;> simp

theorem degreePoly (x : BitVec n) : (poly x).degree < n := by
  rw [degree_lt_iff_coeff_zero]
  intro i out
  rw [coeffPoly,BitVec.getLsbD_of_ge x i out]
  rfl

noncomputable def modulus (r : BitVec n) : (ZMod 2)[X] := X^n + poly r

theorem modulusMonic (r : BitVec n) : (modulus r).Monic := monic_X_pow_add (degreePoly r)

theorem modulusDegree (r : BitVec n) : (modulus r).degree = n := by
  rw [modulus,degree_add_eq_left_of_degree_lt]
  · exact degree_X_pow n
  · rw [degree_X_pow]
    exact degreePoly r

def xtime (r x : BitVec n) : BitVec n := if x.msb then x <<< 1 ^^^ r else x <<< 1

theorem polyShift (x : BitVec n) : poly (x <<< 1) = X * poly x + if x.msb then X^n else 0 := by
  ext i
  rw [coeff_add,coeffPoly,BitVec.getLsbD_shiftLeft]
  cases i with
  | zero =>
      rw [mul_coeff_zero,coeff_X_zero,zero_mul]
      cases n with
      | zero => simp [BitVec.msb,BitVec.getMsbD]
      | succ n => cases x.msb <;> simp
  | succ i =>
      have top : x.msb = x.getLsbD (n - 1) := BitVec.msb_eq_getLsbD_last x
      rw [coeff_X_mul,coeffPoly,top]
      rcases Nat.lt_trichotomy (i + 1) n with below | here | beyond
      · cases x.getLsbD (n - 1) <;> simp [below,coeff_X_pow,Nat.ne_of_lt below]
      · subst here
        rw [Nat.add_sub_cancel,decide_eq_false (Nat.lt_irrefl _)]
        cases x.getLsbD i
        · simp
        · simp only [coeff_X_pow,Bool.false_and,if_true]
          decide
      · have gone : x.getLsbD i = false := BitVec.getLsbD_of_ge x i (by omega)
        have different : i + 1 ≠ n := by omega
        cases x.getLsbD (n - 1) <;> simp [gone,coeff_X_pow,different]

theorem getLsbDXtime (r x : BitVec n) {i : Nat} (lt : i < n) :
    (xtime r x).getLsbD i = ((!decide (i < 1) && x.getLsbD (i-1)) ^^ (x.msb && r.getLsbD i)) := by
  have shifted : (x <<< 1).getLsbD i = (!decide (i < 1) && x.getLsbD (i-1)) := by
    rw [BitVec.getLsbD_shiftLeft,decide_eq_true lt,Bool.true_and]
  rw [xtime]
  cases x.msb with
  | false => rw [if_neg (by decide),shifted,Bool.false_and,Bool.xor_false]
  | true => rw [if_pos rfl,BitVec.getLsbD_xor,shifted,Bool.true_and]

theorem polyXtime (r x : BitVec n) : poly (xtime r x) = X * poly x + if x.msb then modulus r else 0 := by
  rw [xtime]
  split
  · rename_i top
    rw [polyXor,polyShift,if_pos top,modulus,add_assoc]
  · rename_i low
    rw [polyShift,if_neg low]

structure Product (n : Nat) where
  sum : BitVec n
  power : BitVec n

def mulStep (r x : BitVec n) (i : Nat) (s : Product n) : Product n :=
  ⟨if x.getLsbD i then s.sum ^^^ s.power else s.sum,xtime r s.power⟩

def mul (r x y : BitVec n) : BitVec n := (upTo n (mulStep r x) ⟨0,y⟩).sum

abbrev Residue (r : BitVec n) := AdjoinRoot (modulus r)

noncomputable def element (r x : BitVec n) : Residue r := AdjoinRoot.mk (modulus r) (poly x)

theorem elementXor (r x y : BitVec n) : element r (x ^^^ y) = element r x + element r y := by
  rw [element,polyXor,map_add]
  rfl

theorem elementZero (r : BitVec n) : element r 0 = 0 := by
  have zero : poly (0 : BitVec n) = 0 := by
    ext i
    rw [coeffPoly]
    simp
  rw [element,zero,map_zero]

theorem elementBits (r x : BitVec n) : element r x =
    ∑ i ∈ Finset.range n, if x.getLsbD i then AdjoinRoot.root (modulus r)^i else 0 := by
  rw [element,poly,map_sum]
  refine Finset.sum_congr rfl (fun i _ => ?_)
  split
  · rw [map_pow,AdjoinRoot.mk_X]
  · rw [map_zero]

theorem elementXtime (r x : BitVec n) : element r (xtime r x) = AdjoinRoot.root (modulus r) * element r x := by
  rw [element,polyXtime,map_add,map_mul,AdjoinRoot.mk_X]
  split
  · rw [AdjoinRoot.mk_self,add_zero]
    rfl
  · rw [map_zero,add_zero]
    rfl

theorem elementMul (r x y : BitVec n) : element r (mul r x y) = element r x * element r y := by
  have inv : ∀ k, k ≤ n →
      element r (upTo k (mulStep r x) ⟨0,y⟩).power = AdjoinRoot.root (modulus r)^k * element r y ∧
      element r (upTo k (mulStep r x) ⟨0,y⟩).sum =
        (∑ i ∈ Finset.range k, if x.getLsbD i then AdjoinRoot.root (modulus r)^i else 0) * element r y := by
    intro k
    induction k with
    | zero =>
        intro _
        rw [pow_zero,one_mul,Finset.range_zero,Finset.sum_empty,zero_mul]
        exact ⟨rfl,elementZero r⟩
    | succ k ih =>
        intro bound
        obtain ⟨power,sum⟩ := ih (by omega)
        rw [upTo,mulStep]
        dsimp only
        constructor
        · rw [elementXtime,power,pow_succ',mul_assoc]
        · rw [Finset.sum_range_succ,add_mul,← sum]
          split
          · rw [elementXor,power]
          · rw [zero_mul,add_zero]
  rw [mul,(inv n (Nat.le_refl n)).2,← elementBits]

theorem elementInjective (r : BitVec n) : Function.Injective (element r) := by
  intro x y same
  have divides : modulus r ∣ poly x - poly y := AdjoinRoot.mk_eq_mk.mp same
  have small : (poly x - poly y).degree < (modulus r).degree := by
    rw [modulusDegree]
    exact lt_of_le_of_lt (degree_sub_le _ _) (max_lt (degreePoly x) (degreePoly y))
  exact polyInjective (sub_eq_zero.mp (eq_zero_of_dvd_of_degree_lt divides small))

theorem polyOfElement {r x : BitVec n} {p : (ZMod 2)[X]} (same : element r x = AdjoinRoot.mk (modulus r) p) :
    poly x = p %ₘ modulus r := by
  have monic := modulusMonic r
  have small : poly x %ₘ modulus r = poly x := by
    rw [modByMonic_eq_self_iff monic,modulusDegree]
    exact degreePoly x
  rw [← small]
  exact modByMonic_eq_of_dvd_sub monic (AdjoinRoot.mk_eq_mk.mp same)

theorem polyCoeffs {p : (ZMod 2)[X]} (small : p.degree < n) : ∃ x : BitVec n, poly x = p := by
  have length : (List.ofFn fun i : Fin n => decide (p.coeff i = 1)).length = n := List.length_ofFn
  refine ⟨(BitVec.ofBoolListLE (List.ofFn fun i : Fin n => decide (p.coeff i = 1))).cast length,?_⟩
  ext i
  rw [coeffPoly,BitVec.getLsbD_cast,BitVec.getLsbD_ofBoolListLE]
  rcases Nat.lt_or_ge i n with inside | outside
  · rw [List.getD_eq_getElem _ _ (by rw [length]; exact inside),List.getElem_ofFn]
    have binary : ∀ c : ZMod 2, (if decide (c = 1) then (1 : ZMod 2) else 0) = c := by decide
    exact binary _
  · rw [List.getD_eq_default _ _ (by rw [length]; exact outside),
      coeff_eq_zero_of_degree_lt (lt_of_lt_of_le small (by exact_mod_cast outside))]
    rfl

theorem elementSurjective (r : BitVec n) : Function.Surjective (element r) := by
  intro a
  obtain ⟨p,rfl⟩ := AdjoinRoot.mk_surjective a
  have monic := modulusMonic r
  have small : (p %ₘ modulus r).degree < n := by
    rw [← modulusDegree r]
    exact degree_modByMonic_lt p monic
  obtain ⟨x,same⟩ := polyCoeffs small
  refine ⟨x,?_⟩
  rw [element,same,AdjoinRoot.mk_eq_mk]
  have split := modByMonic_add_div p (modulus r)
  exact ⟨-(p /ₘ modulus r),by linear_combination split⟩

theorem elementOne (r : BitVec (n+1)) : element r 1 = 1 := by
  have one : poly (1 : BitVec (n+1)) = 1 := by
    ext i
    rw [coeffPoly,coeff_one]
    cases i <;> simp
  rw [element,one,map_one]

noncomputable def elements (r : BitVec n) : BitVec n ≃ Residue r :=
  Equiv.ofBijective (element r) ⟨elementInjective r,elementSurjective r⟩

theorem irreducibleOfInverses (r : BitVec (n+1)) (inverse : ∀ x, x ≠ 0 → ∃ y, mul r x y = 1) :
    Irreducible (modulus r) := by
  have different : (0 : BitVec (n+1)) ≠ 1 := by
    intro same
    have bit := congrArg (fun x => x.getLsbD 0) same
    simp at bit
  have nontrivial : Nontrivial (Residue r) := by
    refine ⟨element r 0,element r 1,fun same => ?_⟩
    exact different (elementInjective r same)
  have cancel : NoZeroDivisors (Residue r) := by
    refine ⟨fun {a b} product => ?_⟩
    obtain ⟨x,rfl⟩ := elementSurjective r a
    by_cases zero : x = 0
    · exact .inl (by rw [zero,elementZero])
    · obtain ⟨y,one⟩ := inverse x zero
      have unit : element r x * element r y = 1 := by rw [← elementMul,one,elementOne]
      exact .inr (by linear_combination element r y * product - b * unit)
  have domain : IsDomain ((ZMod 2)[X] ⧸ Ideal.span {modulus r}) := @NoZeroDivisors.to_isDomain (Residue r) _ nontrivial cancel
  have prime := (Ideal.Quotient.isDomain_iff_prime _).mp domain
  exact ((Ideal.span_singleton_prime (modulusMonic r).ne_zero).mp prime).irreducible

end Nekros.BinaryField
