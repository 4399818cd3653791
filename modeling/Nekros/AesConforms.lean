import Mathlib.Tactic.FinCases
import Mathlib.Tactic.IntervalCases
import Nekros.AesGcm
import Nekros.Fips197

/-! The block function of crypto/aes_gcm.c is the cipher of FIPS 197, and no two blocks
have the same image under one key. -/
namespace Nekros.AesConforms
open Bytes (Byte Block byteAt)
open Aes
open AesGcm
open BinaryField (mul mulStep xtime element elementXor elementMul)
open Fips197 (bytes)
open Loops (upTo)

theorem gfMulExact (a b : Byte) : gfMul a b = mul 0x1b b a := by
  have doubled : ∀ a : Byte, (if a &&& 0x80 ≠ 0 then a <<< 1 ^^^ 0x1b else a <<< 1) = xtime 0x1b a := by
    decide
  have low : ∀ (x : Byte) (i : Nat), (x >>> i) &&& 1 ≠ 0 ↔ x.getLsbD i = true := by
    intro x i
    have bit : ∀ y : Byte, y &&& 1 ≠ 0 ↔ y.getLsbD 0 = true := by decide
    rw [bit,BitVec.getLsbD_ushiftRight,Nat.add_zero]
  let body := fun (_ : Nat) (s : Multiplying) =>
    let p := if s.b &&& 1 ≠ 0 then s.p ^^^ s.a else s.p
    let hi := s.a &&& 0x80
    let a := s.a <<< 1
    let a := if hi ≠ 0 then a ^^^ 0x1b else a
    (⟨p,a,s.b >>> 1⟩ : Multiplying)
  have inv : ∀ k, (upTo k body ⟨0,a,b⟩).p = (upTo k (mulStep 0x1b b) ⟨0,a⟩).sum ∧
      (upTo k body ⟨0,a,b⟩).a = (upTo k (mulStep 0x1b b) ⟨0,a⟩).power ∧
      (upTo k body ⟨0,a,b⟩).b = b >>> k := by
    intro k
    induction k with
    | zero => exact ⟨rfl,rfl,rfl⟩
    | succ k ih =>
        obtain ⟨p,power,rest⟩ := ih
        refine ⟨?_,?_,?_⟩
        · show (if (upTo k body ⟨0,a,b⟩).b &&& 1 ≠ 0 then _ else _) = _
          rw [rest,p,power]
          exact if_congr (low b k) rfl rfl
        · show (if (upTo k body ⟨0,a,b⟩).a &&& 0x80 ≠ 0 then _ else _) = _
          rw [power]
          exact doubled _
        · show (upTo k body ⟨0,a,b⟩).b >>> 1 = _
          rw [rest,← BitVec.shiftRight_add]
  exact (inv 8).1

theorem bytesGfMul (a b : Byte) : bytes (gfMul a b) = bytes a * bytes b := by
  rw [gfMulExact,mul_comm (bytes a)]
  exact Fips197.bytesMul b a

theorem gfMulComm (a b : Byte) : gfMul a b = gfMul b a :=
  bytes.injective (by rw [bytesGfMul,bytesGfMul,mul_comm])

def unaffine (b : Byte) : Byte := b.rotateLeft 1 ^^^ b.rotateLeft 3 ^^^ b.rotateLeft 6 ^^^ 0x05

theorem affineUnaffine : ∀ b : Byte, Fips197.affine (unaffine b) = b := by decide +kernel

theorem tableInverse : (sboxTable.toList.zipIdx.all fun entry =>
    entry.2 == 0 || mul 0x1b (BitVec.ofNat 8 entry.2) (unaffine entry.1) == 1) = true := by decide +kernel

theorem sboxInverse {b : Byte} (nonzero : b ≠ 0) : mul 0x1b b (unaffine (sbox b)) = 1 := by
  have entry : (sbox b,b.toNat) ∈ sboxTable.toList.zipIdx := by
    rw [List.mem_zipIdx_iff_getElem?,Vector.getElem?_toList,Vector.getElem?_eq_getElem b.isLt]
    rfl
  have checked := List.all_eq_true.mp tableInverse _ entry
  have index : b.toNat ≠ 0 := fun zero => nonzero (BitVec.eq_of_toNat_eq zero)
  simpa [index] using checked

theorem sboxExact (b : Byte) : sbox b = Fips197.sBox b := by
  rw [Fips197.sBox]
  by_cases zero : b = 0
  · rw [zero,Fips197.inverseZero]
    decide
  · rw [Fips197.inverseOfMul (sboxInverse zero),affineUnaffine]

theorem fieldIrreducible : Irreducible (BinaryField.modulus (0x1b : Byte)) :=
  BinaryField.irreducibleOfInverses _ (fun b nonzero => ⟨unaffine (sbox b),sboxInverse nonzero⟩)

instance : Fact (Irreducible (BinaryField.modulus (0x1b : Byte))) := ⟨fieldIrreducible⟩

theorem sboxInjective : Function.Injective sbox := by
  have back : ∀ {b : Byte}, b ≠ 0 → bytes b * bytes (unaffine (sbox b)) = 1 := by
    intro b nonzero
    rw [← Fips197.bytesMul,sboxInverse nonzero,Fips197.bytesOne]
  have start : unaffine (sbox 0) = 0 := by decide
  have alone : ∀ {b : Byte}, sbox b = sbox 0 → b = 0 := by
    intro b same
    by_contra nonzero
    have product := back nonzero
    rw [same,start,Fips197.bytesZero,mul_zero,← Fips197.bytesZero,← Fips197.bytesOne] at product
    exact absurd (bytes.injective product) (by decide)
  intro a b same
  by_cases zero : b = 0
  · rw [zero] at same ⊢
    exact alone same
  by_cases zero' : a = 0
  · rw [zero'] at same ⊢
    exact (alone same.symm).symm
  have left := back zero'
  have right := back zero
  rw [same] at left
  refine bytes.injective ?_
  linear_combination bytes b * left - bytes a * right

def wordBytes (w : Word) : Fips197.Word := fun r => byteAt w (24 - 8*r.val)

theorem wordBytesXor (v w : Word) : wordBytes (v ^^^ w) = Fips197.xorWord (wordBytes v) (wordBytes w) := by
  funext r
  apply BitVec.eq_of_getLsbD_eq
  intro i hi
  simp only [wordBytes,Fips197.xorWord,BitVec.getLsbD_xor,Bytes.getLsbDByteAt,decide_eq_true hi,Bool.true_and]

theorem wordBytesOr (v w : Word) (r : Fin 4) : wordBytes (v ||| w) r = wordBytes v r ||| wordBytes w r := by
  apply BitVec.eq_of_getLsbD_eq
  intro i hi
  simp only [wordBytes,BitVec.getLsbD_or,Bytes.getLsbDByteAt,decide_eq_true hi,Bool.true_and]

theorem byteAtPlaced (x : Byte) {m k : Nat} (whole : m % 8 = 0) (whole' : k % 8 = 0) (inside : k < 32) :
    byteAt ((x.setWidth 32 : Word) <<< m) k = if m = k then x else 0 := by
  apply BitVec.eq_of_getLsbD_eq
  intro i hi
  rw [Bytes.getLsbDByteAt,BitVec.getLsbD_shiftLeft,BitVec.getLsbD_setWidth,decide_eq_true hi,
    decide_eq_true (show k + i < 32 by omega)]
  rcases Nat.lt_trichotomy m k with below | rfl | above
  · rw [if_neg (by omega),BitVec.getLsbD_of_ge x (k + i - m) (by omega)]
    simp
  · simp [show i < 32 by omega]
  · rw [if_neg (by omega),decide_eq_true (show k + i < m by omega)]
    simp

theorem wordBytesPacked (a b c d : Byte) :
    wordBytes (a.setWidth 32 <<< 24 ||| b.setWidth 32 <<< 16 ||| c.setWidth 32 <<< 8 ||| d.setWidth 32) =
      ![a,b,c,d] := by
  have last : d.setWidth 32 = (d.setWidth 32 : Word) <<< 0 := (BitVec.shiftLeft_zero _).symm
  funext r
  rw [wordBytesOr,wordBytesOr,wordBytesOr,last]
  simp only [wordBytes]
  rw [byteAtPlaced a (by decide) (by omega) (by omega),byteAtPlaced b (by decide) (by omega) (by omega),
    byteAtPlaced c (by decide) (by omega) (by omega),byteAtPlaced d (by decide) (by omega) (by omega)]
  fin_cases r <;> simp

theorem rconExact {j : Nat} (low : 1 ≤ j) (high : j ≤ 7) : ![rcon j,0,0,0] = Fips197.rcon j := by
  have first : ∀ k, k ≤ 6 → bytes (rcon (k+1)) = bytes 0x02^k := by
    intro k
    induction k with
    | zero => exact fun _ => by rw [pow_zero,← Fips197.bytesOne]; rfl
    | succ k ih =>
        intro bound
        have next : ∀ k < 6, rcon (k+1+1) = gfMul 0x02 (rcon (k+1)) := by decide
        rw [next k (by omega),bytesGfMul,ih (by omega),pow_succ']
  rw [Fips197.rcon,← first (j-1) (by omega),Equiv.symm_apply_apply,Nat.sub_add_cancel low]

theorem keyNextExact {i : Nat} (w : Word) (low : 8 ≤ i) (high : i < 60) : wordBytes (keyNext i w) =
    if i % 8 = 0 then Fips197.xorWord (Fips197.subWord (Fips197.rotWord (wordBytes w))) (Fips197.rcon (i/8))
    else if i % 8 = 4 then Fips197.subWord (wordBytes w) else wordBytes w := by
  rw [keyNext]
  split
  · rw [wordBytesPacked,← rconExact (by omega) (by omega)]
    funext r
    fin_cases r <;> simp [Fips197.xorWord,Fips197.subWord,Fips197.rotWord,wordBytes,sboxExact]
  · split
    · rw [wordBytesPacked]
      funext r
      fin_cases r <;> simp [Fips197.subWord,wordBytes,sboxExact]
    · rfl

theorem keyWordExact (key : Key) {i : Nat} (lt : i < 8) (r : Fin 4) :
    wordBytes (keyWord key i) r = key[4*i + r.val] := by
  have entry : (![key.getD (i*4) 0,key.getD (i*4+1) 0,key.getD (i*4+2) 0,key.getD (i*4+3) 0] : Fips197.Word) r =
      key.getD (i*4 + r.val) 0 := by fin_cases r <;> rfl
  rw [keyWord,wordBytesPacked,entry,Bytes.getDOfLt key (by omega)]
  simp only [Nat.mul_comm]

def Filled (key : Key) (n : Nat) (rk : RoundKeys) : Prop :=
  ∀ i < n, wordBytes (rk.getD i 0) = Fips197.keyExpansion key i

theorem filledSet {key : Key} {n : Nat} {rk : RoundKeys} {w : Word} (room : n < 60) (filled : Filled key n rk)
    (next : wordBytes w = Fips197.keyExpansion key n) : Filled key (n+1) (rk.setIfInBounds n w) := by
  intro i lt
  rw [Bytes.getDSet rk (by omega)]
  rcases Nat.lt_succ_iff_lt_or_eq.mp lt with old | rfl
  · rw [if_neg (by omega)]
    exact filled i old
  · rw [if_pos rfl]
    exact next

theorem loadExact (key : Key) (rk : RoundKeys) :
    Filled key 8 (upTo 8 (fun i rk => rk.setIfInBounds i (keyWord key i)) rk) := by
  have none : Filled key 0 rk := fun i lt => absurd lt (Nat.not_lt_zero i)
  have all := Loops.upToInvariant (n := 8) (fun i (rk : RoundKeys) => rk.setIfInBounds i (keyWord key i))
    (Filled key) none
  refine all (fun i rk lt filled => filledSet (by omega) filled ?_)
  rw [Fips197.keyExpansion,dif_pos lt]
  exact funext (keyWordExact key lt)

theorem expandExact (key : Key) {rk : RoundKeys} (loaded : Filled key 8 rk) :
    Filled key 60 (upTo 52 (fun k rk => rk.setIfInBounds (k+8) (rk.getD (k+8-8) 0 ^^^
      keyNext (k+8) (rk.getD (k+8-1) 0))) rk) := by
  have all := Loops.upToInvariant (n := 52) (fun k (rk : RoundKeys) => rk.setIfInBounds (k+8)
    (rk.getD (k+8-8) 0 ^^^ keyNext (k+8) (rk.getD (k+8-1) 0))) (fun k => Filled key (k+8)) loaded
  refine all (fun k rk lt filled => ?_)
  have beyond : ¬ k+8 < Fips197.Nk := Nat.not_lt.mpr (Nat.le_add_left 8 k)
  rw [Nat.add_right_comm]
  refine filledSet (by omega) filled ?_
  rw [wordBytesXor,keyNextExact _ (by omega) (by omega),filled _ (by omega),filled _ (by omega)]
  conv_rhs => rw [Fips197.keyExpansion,dif_neg beyond]

theorem keyExpandExact (key : Key) : Filled key 60 (aes256KeyExpand key) := by
  rw [aes256KeyExpand,keyExpand]
  exact expandExact key (loadExact key _)

theorem inputInjective {s t : Block} (same : Fips197.input s = Fips197.input t) : s = t := by
  apply Vector.ext
  intro i lt
  have entry := congrFun (congrFun same ⟨i % 4,by omega⟩) ⟨i / 4,by omega⟩
  simpa only [Fips197.input,show i % 4 + 4 * (i / 4) = i by omega] using entry

theorem outputInput (s : Block) : Fips197.output (Fips197.input s) = s := by
  apply Vector.ext
  intro i lt
  simp only [Fips197.output,Fips197.input,Vector.getElem_ofFn,show i % 4 + 4 * (i / 4) = i by omega]

theorem subBytesExact (s : Block) :
    Fips197.input (aesSubBytes s) = Fips197.subBytes (Fips197.input s) := by
  funext r c
  simp only [Fips197.input,Fips197.subBytes,aesSubBytes,Vector.getElem_map,sboxExact]

theorem shiftRowsExact (s : Block) :
    Fips197.input (aesShiftRows s) = Fips197.shiftRows (Fips197.input s) := by
  have entry : ∀ (i : Nat) (lt : i < 16), (aesShiftRows s)[i] = s[(i + 4*(i%4)) % 16] := by
    intro i lt
    simp only [aesShiftRows,Vector.getElem_set]
    interval_cases i <;> rfl
  funext r c
  rw [Fips197.input,entry,Fips197.shiftRows,Fips197.input]
  congr 1
  rw [Fin.val_add]
  omega

theorem inputSet (s : Block) (k c : Fin 4) (b : Byte) : Fips197.input (s.setIfInBounds (c.val*4 + k.val) b) =
    fun r c' => if c' = c ∧ r = k then b else Fips197.input s r c' := by
  funext r c'
  rw [Fips197.input,Vector.getElem_setIfInBounds]
  refine if_congr ?_ rfl rfl
  rw [Fin.ext_iff,Fin.ext_iff]
  omega

theorem inputGet (s : Block) (k c : Fin 4) : s.getD (c.val*4 + k.val) 0 = Fips197.input s k c := by
  rw [Bytes.getDOfLt s (by omega),Fips197.input]
  congr 1
  omega

theorem columnWise {body : Nat → Block → Block} {g : Fin 4 → Fips197.Word → Fips197.Word}
    (acts : ∀ (c : Fin 4) (t : Block), Fips197.input (body c t) = fun r c' =>
      if c' = c then g c (fun i => Fips197.input t i c) r else Fips197.input t r c') (s : Block) :
    Fips197.input (upTo 4 body s) = fun r c => g c (fun i => Fips197.input s i c) r := by
  show Fips197.input (body (3 : Fin 4) (body (2 : Fin 4) (body (1 : Fin 4) (body (0 : Fin 4) s)))) = _
  rw [acts,acts,acts,acts]
  funext r c
  fin_cases c <;> simp

theorem inputXorAt (s : Block) (k c : Fin 4) (b : Byte) : Fips197.input (xorAt s (c.val*4 + k.val) b) =
    fun r c' => if c' = c ∧ r = k then Fips197.input s r c' ^^^ b else Fips197.input s r c' := by
  rw [xorAt,inputSet,inputGet]
  funext r c'
  split
  · rename_i here
    rw [here.1,here.2]
  · rfl

theorem columnXor (s : Block) (c : Fin 4) (w : Word) :
    Fips197.input (xorAt (xorAt (xorAt (xorAt s (c.val*4) (byteAt w 24)) (c.val*4+1) (byteAt w 16)) (c.val*4+2)
        (byteAt w 8)) (c.val*4+3) (byteAt w 0)) =
      fun r c' => if c' = c then Fips197.xorWord (fun i => Fips197.input s i c) (wordBytes w) r
        else Fips197.input s r c' := by
  show Fips197.input (xorAt (xorAt (xorAt (xorAt s (c.val*4 + (0 : Fin 4).val) _) (c.val*4 + (1 : Fin 4).val) _)
    (c.val*4 + (2 : Fin 4).val) _) (c.val*4 + (3 : Fin 4).val) _) = _
  rw [inputXorAt,inputXorAt,inputXorAt,inputXorAt]
  funext r c'
  by_cases here : c' = c
  · subst here
    fin_cases r <;> simp [Fips197.xorWord,wordBytes]
  · simp [here]

theorem addedRoundKey (s : Block) (rk : RoundKeys) (first : Nat) : Fips197.input (aesAddRoundKey s rk first) =
    fun r c => Fips197.input s r c ^^^ wordBytes (rk.getD (first + c.val) 0) r := by
  rw [aesAddRoundKey,columnWise (g := fun c a => Fips197.xorWord a (wordBytes (rk.getD (first + c.val) 0)))]
  · rfl
  · exact fun c t => columnXor t c _

theorem addRoundKeyExact (s : Block) {key : Key} {rk : RoundKeys} (filled : Filled key 60 rk) {round first : Nat}
    (place : first = 4*round) (last : round ≤ 14) : Fips197.input (aesAddRoundKey s rk first) =
      Fips197.addRoundKey (Fips197.input s) (Fips197.keyExpansion key) round := by
  rw [addedRoundKey,place]
  funext r c
  rw [filled (4*round + c.val) (by omega)]
  rfl

section Column
local instance rowsNonzero : NeZero 4 := ⟨by decide⟩

def mixed (a : Fips197.Word) : Fips197.Word :=
  ![gfMul 2 (a 0) ^^^ gfMul 3 (a 1) ^^^ a 2 ^^^ a 3,a 0 ^^^ gfMul 2 (a 1) ^^^ gfMul 3 (a 2) ^^^ a 3,
    a 0 ^^^ a 1 ^^^ gfMul 2 (a 2) ^^^ gfMul 3 (a 3),gfMul 3 (a 0) ^^^ a 1 ^^^ a 2 ^^^ gfMul 2 (a 3)]

end Column

theorem columnSet (s : Block) (c : Fin 4) (a : Fips197.Word) :
    Fips197.input ((((s.setIfInBounds (c.val*4) (a 0)).setIfInBounds (c.val*4+1) (a 1)).setIfInBounds (c.val*4+2)
        (a 2)).setIfInBounds (c.val*4+3) (a 3)) =
      fun r c' => if c' = c then a r else Fips197.input s r c' := by
  show Fips197.input ((((s.setIfInBounds (c.val*4 + (0 : Fin 4).val) _).setIfInBounds (c.val*4 + (1 : Fin 4).val)
    _).setIfInBounds (c.val*4 + (2 : Fin 4).val) _).setIfInBounds (c.val*4 + (3 : Fin 4).val) _) = _
  rw [inputSet,inputSet,inputSet,inputSet]
  funext r c'
  by_cases here : c' = c
  · fin_cases r <;> simp [here]
  · simp [here]

theorem mixedColumns (s : Block) :
    Fips197.input (aesMixColumns s) = fun r c => mixed (fun i => Fips197.input s i c) r := by
  rw [aesMixColumns,columnWise (g := fun _ => mixed)]
  intro c t
  have same : (fun i : Fin 4 => t.getD (c.val*4 + i.val) 0) = fun i => Fips197.input t i c :=
    funext fun i => inputGet t i c
  rw [← same]
  exact columnSet t c (mixed (fun i : Fin 4 => t.getD (c.val*4 + i.val) 0))

open Polynomial in
theorem columnPolyFour (a : Fips197.Word) : Fips197.columnPoly a =
    C (bytes (a 0)) + C (bytes (a 1)) * X + C (bytes (a 2)) * X^2 + C (bytes (a 3)) * X^3 := by
  rw [Fips197.columnPoly,Fin.sum_univ_four]
  simp

open Polynomial in
theorem columnPolyCoeff (a : Fips197.Word) (r : Fin 4) : (Fips197.columnPoly a).coeff r = bytes (a r) := by
  rw [columnPolyFour]
  fin_cases r <;> simp [coeff_X,coeff_C]

open Polynomial in
theorem columnPolyDegree (a : Fips197.Word) : (Fips197.columnPoly a).degree < 4 := by
  rw [Fips197.columnPoly]
  refine lt_of_le_of_lt (degree_sum_le _ _) ((Finset.sup_lt_iff (by decide)).mpr (fun r _ => ?_))
  exact lt_of_le_of_lt (degree_C_mul_X_pow_le _ _) (by exact_mod_cast r.isLt)

open Polynomial in
theorem twoZero : (2 : Fips197.Gf8[X]) = 0 := by
  have base : (2 : ZMod 2) = 0 := rfl
  have field := congrArg (AdjoinRoot.of (BinaryField.modulus (0x1b : Byte))) base
  rw [map_ofNat,map_zero] at field
  have lifted := congrArg (C : Fips197.Gf8 → Fips197.Gf8[X]) field
  rwa [map_ofNat,map_zero] at lifted

open Polynomial in
theorem ringMonic : (X^4 + 1 : Fips197.Gf8[X]).Monic := monic_X_pow_add_C 1 (by decide)

theorem bytesMixed (a : Fips197.Word) :
    bytes (mixed a 0) = bytes 2 * bytes (a 0) + bytes 3 * bytes (a 1) + bytes (a 2) + bytes (a 3) ∧
    bytes (mixed a 1) = bytes (a 0) + bytes 2 * bytes (a 1) + bytes 3 * bytes (a 2) + bytes (a 3) ∧
    bytes (mixed a 2) = bytes (a 0) + bytes (a 1) + bytes 2 * bytes (a 2) + bytes 3 * bytes (a 3) ∧
    bytes (mixed a 3) = bytes 3 * bytes (a 0) + bytes (a 1) + bytes (a 2) + bytes 2 * bytes (a 3) := by
  have sum : ∀ w x y z : Byte, bytes (w ^^^ x ^^^ y ^^^ z) = bytes w + bytes x + bytes y + bytes z := by
    intro w x y z
    rw [Fips197.bytesXor,Fips197.bytesXor,Fips197.bytesXor]
  simp only [← bytesGfMul]
  exact ⟨sum _ _ _ _,sum _ _ _ _,sum _ _ _ _,sum _ _ _ _⟩

open Polynomial in
theorem mixedExact (a : Fips197.Word) :
    (Fips197.columnPoly Fips197.mixWord * Fips197.columnPoly a) %ₘ (X^4 + 1) = Fips197.columnPoly (mixed a) := by
  let quotient : Fips197.Gf8[X] := C (bytes 3) * C (bytes (a 1)) + C (bytes (a 2)) + C (bytes (a 3)) +
    (C (bytes 3) * C (bytes (a 2)) + C (bytes (a 3))) * X + C (bytes 3) * C (bytes (a 3)) * X^2
  obtain ⟨m0,m1,m2,m3⟩ := bytesMixed a
  have fixed : Fips197.columnPoly Fips197.mixWord = C (bytes 2) + X + X^2 + C (bytes 3) * X^3 := by
    rw [columnPolyFour]
    show C (bytes 2) + C (bytes 1) * X + C (bytes 1) * X^2 + C (bytes 3) * X^3 = _
    rw [Fips197.bytesOne,map_one,one_mul,one_mul]
  refine (div_modByMonic_unique quotient _ ringMonic ⟨?_,?_⟩).2
  · rw [fixed,columnPolyFour,columnPolyFour,m0,m1,m2,m3]
    simp only [map_add,map_mul]
    linear_combination quotient * twoZero
  · refine lt_of_lt_of_eq (columnPolyDegree _) ?_
    exact (degree_X_pow_add_C (by decide) 1).symm

theorem mixColumnsExact (s : Block) :
    Fips197.input (aesMixColumns s) = Fips197.mixColumns (Fips197.input s) := by
  rw [mixedColumns]
  funext r c
  rw [Fips197.mixColumns,mixedExact,columnPolyCoeff,Equiv.symm_apply_apply]

open Polynomial in
theorem mixedInjective : Function.Injective mixed := by
  intro a b same
  let back : Fips197.Word := ![0x0e,0x09,0x0d,0x0b]
  have unit : (X^4 + 1 : Fips197.Gf8[X]) ∣ Fips197.columnPoly Fips197.mixWord * Fips197.columnPoly back - 1 := by
    have one : Fips197.columnPoly (mixed back) = 1 := by
      have value : mixed back = ![1,0,0,0] := by decide
      rw [value,columnPolyFour]
      show C (bytes 1) + C (bytes 0) * X + C (bytes 0) * X^2 + C (bytes 0) * X^3 = _
      rw [Fips197.bytesOne,Fips197.bytesZero]
      simp
    have split := modByMonic_add_div (Fips197.columnPoly Fips197.mixWord * Fips197.columnPoly back) (X^4 + 1)
    rw [mixedExact,one] at split
    exact ⟨_,(sub_eq_iff_eq_add'.mpr split.symm)⟩
  have product : (X^4 + 1 : Fips197.Gf8[X]) ∣ Fips197.columnPoly Fips197.mixWord * Fips197.columnPoly a -
      Fips197.columnPoly Fips197.mixWord * Fips197.columnPoly b := by
    rw [← modByMonic_eq_zero_iff_dvd ringMonic,sub_modByMonic,mixedExact,mixedExact,same,sub_self]
  have equal : Fips197.columnPoly a - Fips197.columnPoly b = 0 := by
    refine eq_zero_of_dvd_of_degree_lt (p := X^4 + 1) ?_ ?_
    · have both := dvd_sub (Dvd.dvd.mul_left product (Fips197.columnPoly back))
        (Dvd.dvd.mul_right unit (Fips197.columnPoly a - Fips197.columnPoly b))
      refine both.trans (dvd_of_eq ?_)
      ring
    · refine lt_of_le_of_lt (degree_sub_le _ _) (lt_of_lt_of_eq (max_lt (columnPolyDegree a) (columnPolyDegree b)) ?_)
      exact (degree_X_pow_add_C (by decide) 1).symm
  funext r
  have coefficient := congrArg (fun p => p.coeff r.val) (sub_eq_zero.mp equal)
  rw [columnPolyCoeff,columnPolyCoeff] at coefficient
  exact bytes.injective coefficient

theorem roundExact (s : Block) {key : Key} {rk : RoundKeys} (filled : Filled key 60 rk) {r : Nat} (last : r ≤ 14) :
    Fips197.input (aesAddRoundKey (aesMixColumns (aesShiftRows (aesSubBytes s))) rk (r*4)) =
      Fips197.round (Fips197.keyExpansion key) (Fips197.input s) r := by
  rw [addRoundKeyExact _ filled (Nat.mul_comm r 4) last,mixColumnsExact,shiftRowsExact,subBytesExact]
  rfl

theorem roundsExact (s : Block) {key : Key} {rk : RoundKeys} (filled : Filled key 60 rk) {n : Nat} (last : n ≤ 13) :
    Fips197.input (upTo n (fun k state =>
        aesAddRoundKey (aesMixColumns (aesShiftRows (aesSubBytes state))) rk ((k+1)*4)) s) =
      (List.range' 1 n).foldl (Fips197.round (Fips197.keyExpansion key)) (Fips197.input s) := by
  induction n with
  | zero => rfl
  | succ n ih =>
      rw [upTo,roundExact _ filled (by omega),ih (by omega),List.range'_1_concat,List.foldl_append,Nat.add_comm n 1]
      rfl

theorem subBytesInjective : Function.Injective aesSubBytes := by
  intro s t same
  apply Vector.ext
  intro i lt
  have entry := congrArg (fun v : Block => v[i]) same
  simp only [aesSubBytes,Vector.getElem_map] at entry
  exact sboxInjective entry

theorem shiftRowsInjective : Function.Injective aesShiftRows := by
  intro s t same
  refine inputInjective (funext fun r => funext fun c => ?_)
  have states := congrArg Fips197.input same
  rw [shiftRowsExact,shiftRowsExact] at states
  have entry := congrFun (congrFun states r) (c - r)
  simpa [Fips197.shiftRows] using entry

theorem mixColumnsInjective : Function.Injective aesMixColumns := by
  intro s t same
  have states := congrArg Fips197.input same
  rw [mixedColumns,mixedColumns] at states
  refine inputInjective (funext fun r => funext fun c => ?_)
  have column := mixedInjective (funext fun i => congrFun (congrFun states i) c)
  exact congrFun column r

theorem addRoundKeyInjective (rk : RoundKeys) (first : Nat) :
    Function.Injective fun s => aesAddRoundKey s rk first := by
  intro s t same
  have states := congrArg Fips197.input same
  rw [addedRoundKey,addedRoundKey] at states
  refine inputInjective (funext fun r => funext fun c => ?_)
  exact (BitVec.xor_left_inj _).mp (congrFun (congrFun states r) c)

theorem encryptInjective (key : Key) : Function.Injective (aes256EncryptBlock key) := by
  have layers : ∀ first, Function.Injective fun s =>
      aesAddRoundKey (aesMixColumns (aesShiftRows (aesSubBytes s))) (aes256KeyExpand key) first :=
    fun first => (addRoundKeyInjective _ first).comp
      (mixColumnsInjective.comp (shiftRowsInjective.comp subBytesInjective))
  have rounds : ∀ n, Function.Injective (upTo n fun k state =>
      aesAddRoundKey (aesMixColumns (aesShiftRows (aesSubBytes state))) (aes256KeyExpand key) ((k+1)*4)) := by
    intro n
    induction n with
    | zero => exact Function.injective_id
    | succ n ih => exact (layers ((n+1)*4)).comp ih
  have last := (addRoundKeyInjective (aes256KeyExpand key) 56).comp (shiftRowsInjective.comp subBytesInjective)
  exact last.comp ((rounds 13).comp (addRoundKeyInjective _ 0))

open Polynomial in
theorem cipherExact (key : Key) :
    (BinaryField.modulus (0x1b : Byte) = X^8 + X^4 + X^3 + X + 1 ∧
      Irreducible (BinaryField.modulus (0x1b : Byte))) ∧
      (∀ block, aes256EncryptBlock key block = Fips197.cipher key block) ∧
      Function.Injective (aes256EncryptBlock key) := by
  refine ⟨⟨Fips197.fieldPolynomial,fieldIrreducible⟩,fun block => ?_,encryptInjective key⟩
  have filled := keyExpandExact key
  rw [← outputInput (aes256EncryptBlock key block),aes256EncryptBlock,encryptRounds]
  dsimp only
  rw [addRoundKeyExact _ filled (show 56 = 4*14 from rfl) (Nat.le_refl 14),shiftRowsExact,subBytesExact,
    roundsExact _ filled (Nat.le_refl 13),addRoundKeyExact _ filled (show 0 = 4*0 from rfl) (by decide)]
  rfl

end Nekros.AesConforms
