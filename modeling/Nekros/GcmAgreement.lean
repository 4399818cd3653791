import Nekros.Aes256Gcm
import Nekros.AesConforms
import Nekros.Gf128

/-! The two AES-256-GCM implementations of the kernel compute the same function.
The block functions are equal; both hashes are the hash of `Gf128`, one over a
pair of 64-bit words and the other over an array of bytes. -/
namespace Nekros.GcmAgreement
open Bytes Errno
open Aes (Key Nonce Word sbox rcon gfMul)
open AesGcm (U128 ctrCrypt)
open Loops (upTo)

theorem byteAtRotword (w : Word) {k : Nat} (low : 8 ≤ k) (high : k ≤ 24) :
    byteAt (Aes256Gcm.rotword w) k = byteAt w (k - 8) := by
  apply BitVec.eq_of_getLsbD_eq
  intro i hi
  have gone : w.getLsbD (24 + (k + i)) = false := BitVec.getLsbD_of_ge w _ (by omega)
  have back : k + i - 8 = k - 8 + i := by omega
  rw [getLsbDByteAt,getLsbDByteAt,Aes256Gcm.rotword,BitVec.getLsbD_or,BitVec.getLsbD_shiftLeft,
    BitVec.getLsbD_ushiftRight,gone,back,decide_eq_true (show k + i < 32 by omega),
    decide_eq_false (show ¬ k + i < 8 by omega)]
  simp

theorem byteAtRotwordLow (w : Word) : byteAt (Aes256Gcm.rotword w) 0 = byteAt w 24 := by
  apply BitVec.eq_of_getLsbD_eq
  intro i hi
  rw [getLsbDByteAt,getLsbDByteAt,Aes256Gcm.rotword,BitVec.getLsbD_or,BitVec.getLsbD_shiftLeft,
    BitVec.getLsbD_ushiftRight,decide_eq_true (show 0 + i < 8 by omega)]
  simp

theorem xorTopByte (s r b c d : Byte) :
    (s ^^^ r).setWidth 32 <<< 24 ||| b.setWidth 32 <<< 16 ||| c.setWidth 32 <<< 8 ||| d.setWidth 32 =
    (s.setWidth 32 <<< 24 ||| b.setWidth 32 <<< 16 ||| c.setWidth 32 <<< 8 ||| d.setWidth 32) ^^^
      r.setWidth 32 <<< 24 := by
  apply BitVec.eq_of_getLsbD_eq
  intro i hi
  simp only [BitVec.getLsbD_or,BitVec.getLsbD_xor,BitVec.getLsbD_shiftLeft,BitVec.getLsbD_setWidth,
    decide_eq_true hi,Bool.true_and]
  rcases Nat.lt_or_ge i 24 with below | above
  · simp only [below,decide_true,Bool.not_true,Bool.false_and,Bool.xor_false]
  · have goneB : b.getLsbD (i - 16) = false := BitVec.getLsbD_of_ge b _ (by omega)
    have goneC : c.getLsbD (i - 8) = false := BitVec.getLsbD_of_ge c _ (by omega)
    have goneD : d.getLsbD i = false := BitVec.getLsbD_of_ge d _ (by omega)
    have small : i - 24 < 32 := by omega
    simp only [goneB,goneC,goneD,decide_eq_true small,Bool.and_false,Bool.or_false,Bool.true_and,
      decide_eq_false (Nat.not_lt.mpr above),Bool.not_false]

theorem keyNextSame (i : Nat) (w : Word) : Aes256Gcm.keyNext i w = AesGcm.keyNext i w := by
  rw [Aes256Gcm.keyNext,AesGcm.keyNext]
  by_cases first : i % 8 = 0
  · rw [if_pos first,if_pos first,Aes256Gcm.subword,byteAtRotword w (by decide) (by decide),
      byteAtRotword w (by decide) (by decide),byteAtRotword w (by decide) (by decide),
      byteAtRotwordLow,xorTopByte]
  · rw [if_neg first,if_neg first,Aes256Gcm.subword]

theorem mixColumnsSame (s : Block) : Aes256Gcm.mixColumns s = AesGcm.aesMixColumns s := by
  rw [Aes256Gcm.mixColumns,AesGcm.aesMixColumns]
  apply Loops.upToCongr
  intro i s _
  simp only [AesConforms.gfMulComm _ 2,AesConforms.gfMulComm _ 3]

theorem blockEncryptSame (key : Key) :
    Aes256Gcm.aes256BlockEncrypt (Aes256Gcm.aes256KeyExpand key) = AesGcm.aes256EncryptBlock key := by
  have next : Aes256Gcm.keyNext = AesGcm.keyNext := funext fun i => funext fun w => keyNextSame i w
  have mix : Aes256Gcm.mixColumns = AesGcm.aesMixColumns := funext mixColumnsSame
  funext input
  rw [Aes256Gcm.aes256BlockEncrypt,Aes256Gcm.aes256KeyExpand,AesGcm.aes256EncryptBlock,
    AesGcm.aes256KeyExpand,next,mix]

theorem takeChunk (data : List Byte) (i : Nat) :
    (data.drop i).take (min 16 (data.length - i)) = (data.drop i).take 16 := by
  have left : (data.drop i).length = data.length - i := List.length_drop
  rw [← left,List.take_eq_take_iff]
  omega

/- The output so far, followed by what counter mode makes of the rest, is what it
makes of the whole input. -/
def CtrSoFar (encrypt : Block → Block) (nonce : Nonce) (ctr : Word) (input : List Byte)
    (s : Aes256Gcm.Crypting) : Prop :=
  s.done ≤ input.length ∧
    s.out ++ ctrCrypt encrypt nonce s.ctr (input.drop s.done) = ctrCrypt encrypt nonce ctr input

theorem ctrStepKeeps {encrypt : Block → Block} {nonce : Nonce} {ctr : Word} {input : List Byte}
    {s : Aes256Gcm.Crypting} (small : input.length < 2^32) (before : s.done < input.length)
    (held : CtrSoFar encrypt nonce ctr input s) :
    CtrSoFar encrypt nonce ctr input (Aes256Gcm.ctrStep encrypt nonce input s) ∧
      (Aes256Gcm.ctrStep encrypt nonce input s).done = s.done + min 16 (input.length - s.done) := by
  have moved : (Aes256Gcm.ctrStep encrypt nonce input s).done =
      s.done + min 16 (input.length - s.done) := by
    rw [Aes256Gcm.ctrStep]
    exact Nat.mod_eq_of_lt (by omega)
  have left : (input.drop s.done).length = input.length - s.done := List.length_drop
  have rest : input.drop (s.done + min 16 (input.length - s.done)) = (input.drop s.done).drop 16 := by
    rw [← List.drop_drop,← left]
    rcases Nat.lt_or_ge (input.drop s.done).length 16 with short | long
    · rw [List.drop_of_length_le (show (input.drop s.done).length ≤ 16 by omega),
        List.drop_of_length_le (by omega)]
    · rw [Nat.min_eq_left long]
  have remains : input.drop s.done ≠ [] := by
    intro none
    rw [none,List.length_nil] at left
    omega
  refine ⟨⟨by omega,?_⟩,moved⟩
  have whole := held.2
  rw [AesGcm.ctrCryptNonempty encrypt nonce remains,← List.append_assoc] at whole
  rw [moved,rest,Aes256Gcm.ctrStep,takeChunk]
  exact whole

theorem ctrLoopSame (encrypt : Block → Block) (nonce : Nonce) (ctr : Word) {input : List Byte}
    {fuel : Nat} (small : input.length < 2^32) (enough : 2^28 ≤ fuel) :
    (Loops.whileLoop (fun s => s.done < input.length) (Aes256Gcm.ctrStep encrypt nonce input) fuel
      ⟨0,ctr,[]⟩).map Aes256Gcm.Crypting.out = some (ctrCrypt encrypt nonce ctr input) := by
  have start : CtrSoFar encrypt nonce ctr input ⟨0,ctr,[]⟩ := ⟨Nat.zero_le _,rfl⟩
  obtain ⟨s,ran,⟨_,whole⟩,ended⟩ := Loops.whileEnds (fun s => s.done < input.length)
    (Aes256Gcm.ctrStep encrypt nonce input) (CtrSoFar encrypt nonce ctr input)
    (fun s => (input.length - s.done + 15) / 16)
    (fun s held going => by
      have before : s.done < input.length := of_decide_eq_true going
      obtain ⟨kept,moved⟩ := ctrStepKeeps small before held
      exact ⟨kept,by rw [moved]; omega⟩)
    start (show (input.length - 0 + 15) / 16 ≤ fuel by omega)
  have done : input.drop s.done = [] := List.drop_of_length_le (Nat.not_lt.mp (of_decide_eq_false ended))
  rw [done,ctrCrypt,List.append_nil] at whole
  rw [ran,Option.map_some,whole]

def value (x : U128) : BitVec 128 := x.hi ++ x.lo

theorem getLsbDValue (x : U128) (i : Nat) :
    (value x).getLsbD i = if i < 64 then x.lo.getLsbD i else x.hi.getLsbD (i - 64) :=
  BitVec.getLsbD_append

theorem maskedBit {w : Nat} (x : BitVec (w+1)) (k : Nat) : (x >>> k) &&& 1#(w+1) ≠ 0#(w+1) ↔ x.getLsbD k = true := by
  constructor
  · intro set
    by_contra unset
    apply set
    apply BitVec.eq_of_getLsbD_eq
    intro i _
    rw [BitVec.getLsbD_and,BitVec.getLsbD_ushiftRight,BitVec.getLsbD_one,BitVec.getLsbD_zero]
    rcases Nat.eq_zero_or_pos i with rfl | later
    · rw [Nat.add_zero k,Bool.not_eq_true _ |>.mp unset,Bool.false_and]
    · rw [decide_eq_false (show ¬ i = 0 by omega),Bool.and_false,Bool.and_false]
  · intro set none
    have bit := congrArg (fun w => w.getLsbD 0) none
    simp [set] at bit

theorem valueBit (x : U128) {i : Nat} (h : i < 128) :
    (if i < 64 then (x.hi >>> (63 - i)) &&& 1 else (x.lo >>> (127 - i)) &&& 1) ≠ 0 ↔
      (value x).getMsbD i = true := by
  have low : 128 - 1 - i < 128 := by omega
  rw [BitVec.getMsbD_eq_getLsbD,decide_eq_true h,Bool.true_and,getLsbDValue]
  rcases Nat.lt_or_ge i 64 with first | second
  · have place : 128 - 1 - i - 64 = 63 - i := by omega
    rw [if_pos first,if_neg (show ¬ 128 - 1 - i < 64 by omega),place]
    exact maskedBit x.hi (63 - i)
  · rw [if_neg (Nat.not_lt.mpr second),if_pos (show 128 - 1 - i < 64 by omega)]
    exact maskedBit x.lo (127 - i)

theorem valueZero : value ⟨0,0⟩ = 0 := by decide

theorem valueXor (a b : U128) : value ⟨a.hi ^^^ b.hi,a.lo ^^^ b.lo⟩ = value a ^^^ value b :=
  BitVec.xor_append.symm

theorem highReduction {i : Nat} (h : i < 64) :
    (0xe100000000000000#64).getLsbD i = Gf128.reduction.getLsbD (64 + i) := by
  revert i
  decide

theorem lowReduction {i : Nat} (h : i < 64) : Gf128.reduction.getLsbD i = false := by
  revert i
  decide

theorem valueShift (v : U128) :
    value ⟨if v.lo &&& 1 ≠ 0 then (v.hi >>> 1) ^^^ 0xe100000000000000 else v.hi >>> 1,
      (v.lo >>> 1) ||| (v.hi <<< 63)⟩ = Gf128.shift (value v) := by
  have out : v.lo &&& 1 ≠ 0 ↔ (value v).getLsbD 0 = true := by
    have masked := maskedBit v.lo 0
    rw [BitVec.ushiftRight_zero] at masked
    rw [getLsbDValue,if_pos (by decide)]
    exact masked
  apply BitVec.eq_of_getLsbD_eq
  intro i hi
  rw [Gf128.getLsbDShift,getLsbDValue]
  rcases Nat.lt_or_ge i 64 with low | high
  · rw [if_pos low,lowReduction low,Bool.and_false,Bool.xor_false,getLsbDValue,BitVec.getLsbD_or,
      BitVec.getLsbD_ushiftRight,BitVec.getLsbD_shiftLeft,decide_eq_true low]
    rcases Nat.lt_or_ge i 63 with inner | last
    · rw [if_pos (show 1 + i < 64 by omega),decide_eq_true inner]
      simp
    · have edge : v.lo.getLsbD (1 + i) = false := BitVec.getLsbD_of_ge v.lo _ (by omega)
      have place : 1 + i - 64 = i - 63 := by omega
      rw [if_neg (show ¬ 1 + i < 64 by omega),edge,place,decide_eq_false (Nat.not_lt.mpr last)]
      simp
  · have place : 1 + i - 64 = 1 + (i - 64) := by omega
    have poly := highReduction (show i - 64 < 64 by omega)
    rw [show 64 + (i - 64) = i by omega] at poly
    rw [if_neg (Nat.not_lt.mpr high),getLsbDValue (i := 1 + i),if_neg (show ¬ 1 + i < 64 by omega),
      place,← poly]
    by_cases set : (value v).getLsbD 0 = true
    · rw [if_pos (out.mpr set),set,BitVec.getLsbD_xor,BitVec.getLsbD_ushiftRight,Bool.true_and]
      rfl
    · rw [if_neg (fun masked => set (out.mp masked)),BitVec.getLsbD_ushiftRight,
        Bool.not_eq_true _ |>.mp set,Bool.false_and,Bool.xor_false]

theorem valueMul (x h : U128) : value (AesGcm.gf128Mul x h) = Gf128.mul (value x) (value h) := by
  have stay := Loops.upToRelated (AesGcm.gf128Step x) (Gf128.mulStep (value x))
    (fun s t => value s.z = t.sum ∧ value s.v = t.power)
    (s := ⟨⟨0,0⟩,h⟩) (t := ⟨0,value h⟩) ⟨valueZero,rfl⟩ (n := 128)
    (by
      rintro i s t lt ⟨sum,power⟩
      refine ⟨?_,?_⟩
      · rw [AesGcm.gf128Step,Gf128.mulStep]
        dsimp only
        by_cases bit : (value x).getMsbD i = true
        · rw [if_pos bit,if_pos ((valueBit x lt).mpr bit),valueXor,sum,power]
        · rw [if_neg bit,if_neg (fun masked => bit ((valueBit x lt).mp masked)),sum]
      · rw [AesGcm.gf128Step,Gf128.mulStep,← power]
        exact valueShift s.v)
  exact stay.1

theorem xorBytesBits (f : Nat → Byte) (x : BitVec 64) {i n : Nat} (hi : i < 64) (hn : n ≤ 8) :
    (upTo n (fun j x => x ^^^ (f j).setWidth 64 <<< (56 - j*8)) x).getLsbD i =
      (x.getLsbD i ^^ (decide (7 - i/8 < n) && (f (7 - i/8)).getLsbD (i % 8))) := by
  induction n with
  | zero => simp [upTo]
  | succ n ih =>
      rw [upTo,BitVec.getLsbD_xor,ih (by omega),BitVec.getLsbD_shiftLeft,BitVec.getLsbD_setWidth,
        decide_eq_true hi,Bool.true_and]
      rcases Nat.lt_trichotomy (7 - i/8) n with before | here | after
      · have gone : (f n).getLsbD (i - (56 - n*8)) = false := BitVec.getLsbD_of_ge _ _ (by omega)
        rw [gone,decide_eq_true before,decide_eq_true (show 7 - i/8 < n + 1 by omega)]
        simp
      · have place : i - (56 - n*8) = i % 8 := by omega
        rw [place,here,decide_eq_false (show ¬ n < n by omega),decide_eq_true (show n < n + 1 by omega),
          decide_eq_false (show ¬ i < 56 - n*8 by omega),decide_eq_true (show i % 8 < 64 by omega)]
        simp
      · rw [decide_eq_true (show i < 56 - n*8 by omega),decide_eq_false (show ¬ 7 - i/8 < n by omega),
          decide_eq_false (show ¬ 7 - i/8 < n + 1 by omega)]
        simp

theorem valueXorIn (x : U128) (block : Block) : value (AesGcm.xorIn x block) = value x ^^^ wordOf block := by
  apply BitVec.eq_of_getLsbD_eq
  intro i hi
  rw [BitVec.getLsbD_xor,getLsbDValue,getLsbDValue,getLsbDWordOf block hi,AesGcm.xorIn]
  rcases Nat.lt_or_ge i 64 with low | high
  · have place : 8 + (7 - i/8) = 15 - i/8 := by omega
    rw [if_pos low,if_pos low,xorBytesBits (fun j => block.getD (8+j) 0) x.lo low (Nat.le_refl 8),place,
      decide_eq_true (show 7 - i/8 < 8 by omega),Bool.true_and,
      getDOfLt block (show 15 - i/8 < 16 by omega)]
  · have place : 7 - (i - 64)/8 = 15 - i/8 := by omega
    have bit : (i - 64) % 8 = i % 8 := by omega
    rw [if_neg (Nat.not_lt.mpr high),if_neg (Nat.not_lt.mpr high),
      xorBytesBits (fun j => block.getD j 0) x.hi (show i - 64 < 64 by omega) (Nat.le_refl 8),place,bit,
      decide_eq_true (show 15 - i/8 < 8 by omega),Bool.true_and,
      getDOfLt block (show 15 - i/8 < 16 by omega)]

theorem valueLoad (b : Block) : value (AesGcm.loadU128 b) = wordOf b := by
  have size : b.toList.length = 16 := b.length_toList
  apply BitVec.eq_of_getLsbD_eq
  intro i hi
  rw [getLsbDValue,getLsbDWordOf b hi,AesGcm.loadU128]
  rcases Nat.lt_or_ge i 64 with low | high
  · have length : (b.toList.drop 8).length = 8 := by rw [List.length_drop,size]
    have place : 8 + (8 - 1 - i/8) = 15 - i/8 := by omega
    rw [if_pos low,getLsbDBigEndian _ low,length,decide_eq_true (show i < 8*8 by omega),Bool.true_and,
      List.getD_eq_getElem _ _ (show 8 - 1 - i/8 < (b.toList.drop 8).length by omega),List.getElem_drop,
      Vector.getElem_toList]
    simp only [place]
  · have length : (b.toList.take 8).length = 8 := by rw [List.length_take,size]; rfl
    have place : 8 - 1 - (i - 64)/8 = 15 - i/8 := by omega
    have bit : (i - 64) % 8 = i % 8 := by omega
    rw [if_neg (Nat.not_lt.mpr high),getLsbDBigEndian _ (show i - 64 < 64 by omega),length,
      decide_eq_true (show i - 64 < 8*8 by omega),Bool.true_and,
      List.getD_eq_getElem _ _ (show 8 - 1 - (i - 64)/8 < (b.toList.take 8).length by omega),
      List.getElem_take,Vector.getElem_toList,bit]
    simp only [place]

theorem wordOfStore (x : U128) : wordOf (AesGcm.storeU128 x) = value x := by
  apply BitVec.eq_of_getLsbD_eq
  intro i hi
  rw [getLsbDValue,getLsbDWordOf _ hi,AesGcm.storeU128,Vector.getElem_ofFn]
  rcases Nat.lt_or_ge i 64 with low | high
  · have place : 56 - (15 - i/8 - 8)*8 + i % 8 = i := by omega
    rw [if_pos low,if_neg (show ¬ 15 - i/8 < 8 by omega),getLsbDByteAt,place,
      decide_eq_true (show i % 8 < 8 by omega),Bool.true_and]
  · have place : 56 - (15 - i/8)*8 + i % 8 = i - 64 := by omega
    rw [if_neg (Nat.not_lt.mpr high),if_pos (show 15 - i/8 < 8 by omega),getLsbDByteAt,place,
      decide_eq_true (show i % 8 < 8 by omega),Bool.true_and]

theorem valueAbsorb (h : U128) {data : List Byte} (x : U128) (small : data.length + 15 < 2^64) :
    value (AesGcm.absorbData h data x) = Gf128.absorbAll (value h) data (value x) := by
  have count : Words.wrap (data.length + 15) = data.length + 15 := Words.wrapOfLt small
  rw [AesGcm.absorbData,Gf128.absorbAll,Gf128.absorbPieces,count]
  refine Loops.upToRelated _ _ (fun a b => value a = b) rfl ?_
  rintro i a b _ rfl
  dsimp only
  rw [valueMul,valueXorIn,takeChunk,Gf128.absorb,Gf128.piece]

def lengths (aad ct : List Byte) : BitVec 128 :=
  BitVec.ofNat 64 (aad.length * 8) ++ BitVec.ofNat 64 (ct.length * 8)

def hashOf (h : BitVec 128) (aad ct : List Byte) : BitVec 128 :=
  Gf128.absorb h (Gf128.absorbAll h ct (Gf128.absorbAll h aad 0)) (lengths aad ct)

theorem wordOfGhash (key : Block) {aad ct : List Byte} (aadSmall : aad.length + 15 < 2^64)
    (ctSmall : ct.length + 15 < 2^64) : wordOf (AesGcm.ghash key aad ct) = hashOf (wordOf key) aad ct := by
  have last := valueXor (AesGcm.absorbData (AesGcm.loadU128 key) ct
    (AesGcm.absorbData (AesGcm.loadU128 key) aad ⟨0,0⟩))
    ⟨BitVec.ofNat 64 (aad.length * 8),BitVec.ofNat 64 (ct.length * 8)⟩
  rw [AesGcm.ghash,wordOfStore,valueMul,last,valueAbsorb _ _ ctSmall,valueAbsorb _ _ aadSmall,valueLoad,valueZero]
  rfl

def carryInto (v : Block) (j : Nat) : Byte := if j = 0 then 0 else v.getD (j-1) 0 &&& 1

theorem shiftRightExact (v : Block) :
    (Aes256Gcm.shiftRight v).carry = v.getD 15 0 &&& 1 ∧
    ∀ j, (lt : j < 16) → (Aes256Gcm.shiftRight v).v[j] = (v.getD j 0 >>> 1) ||| (carryInto v j <<< 7) := by
  have ends := Loops.upToInvariant
    (fun j (s : Aes256Gcm.Shifting) =>
      let newCarry := s.v.getD j 0 &&& 1
      (⟨s.v.setIfInBounds j ((s.v.getD j 0 >>> 1) ||| (s.carry <<< 7)),newCarry⟩ : Aes256Gcm.Shifting))
    (fun n s => s.carry = carryInto v n ∧ ∀ j, j < 16 → s.v.getD j 0 =
      if j < n then (v.getD j 0 >>> 1) ||| (carryInto v j <<< 7) else v.getD j 0)
    (s := ⟨v,0⟩) ⟨rfl,fun j _ => rfl⟩ (n := 16)
    (by
      rintro n s lt ⟨carry,bytes⟩
      have here := bytes n lt
      rw [if_neg (Nat.lt_irrefl n)] at here
      refine ⟨by rw [here]; rfl,fun j hj => ?_⟩
      rw [getDSet _ hj,here,carry]
      by_cases same : n = j
      · rw [if_pos same,if_pos (show j < n + 1 by omega),same]
      · rw [if_neg same,bytes j hj]
        by_cases less : j < n
        · rw [if_pos less,if_pos (show j < n + 1 by omega)]
        · rw [if_neg less,if_neg (show ¬ j < n + 1 by omega)])
  refine ⟨?_,fun j lt => ?_⟩
  · have carry := ends.1
    rw [carryInto,if_neg (by decide)] at carry
    exact carry
  · have byte := ends.2 j lt
    rw [if_pos lt,getDOfLt _ lt] at byte
    exact byte

theorem lowBit {w : Nat} (x : BitVec (w+1)) : (x &&& 1#(w+1)).getLsbD 0 = x.getLsbD 0 := by
  rw [BitVec.getLsbD_and,BitVec.getLsbD_one]
  simp

theorem wordOfShiftRight (v : Block) {i : Nat} (h : i < 128) :
    (wordOf (Aes256Gcm.shiftRight v).v).getLsbD i = (wordOf v).getLsbD (1 + i) := by
  have byte := (shiftRightExact v).2 (15 - i/8) (by omega)
  rw [getDOfLt v (show 15 - i/8 < 16 by omega)] at byte
  rw [getLsbDWordOf _ h,byte,BitVec.getLsbD_or,BitVec.getLsbD_ushiftRight,BitVec.getLsbD_shiftLeft,
    decide_eq_true (show i % 8 < 8 by omega),Bool.true_and]
  rcases Nat.lt_or_ge (i % 8) 7 with inner | last
  · have place : 15 - (1 + i)/8 = 15 - i/8 := by omega
    have bit : (1 + i) % 8 = 1 + i % 8 := by omega
    rw [getLsbDWordOf v (show 1 + i < 128 by omega),bit,decide_eq_true inner]
    simp only [place,Bool.not_true,Bool.false_and,Bool.or_false]
  · have seven : i % 8 = 7 := by omega
    have gone : (v[15 - i/8]).getLsbD (1 + 7) = false := BitVec.getLsbD_of_ge _ _ (by decide)
    rw [seven,gone,decide_eq_false (by decide),Bool.not_false,Bool.true_and,Bool.false_or,carryInto]
    by_cases top : 15 - i/8 = 0
    · have past : (wordOf v).getLsbD (1 + i) = false := BitVec.getLsbD_of_ge _ _ (by omega)
      rw [if_pos top,past]
      rfl
    · have place : 15 - (1 + i)/8 = 15 - i/8 - 1 := by omega
      have bit : (1 + i) % 8 = 0 := by omega
      rw [if_neg top,getLsbDWordOf v (show 1 + i < 128 by omega),bit,
        getDOfLt v (show 15 - i/8 - 1 < 16 by omega)]
      simp only [place]
      exact lowBit _

theorem carryBit (v : Block) : (Aes256Gcm.shiftRight v).carry ≠ 0 ↔ (wordOf v).getLsbD 0 = true := by
  have masked := maskedBit v[15] 0
  rw [BitVec.ushiftRight_zero] at masked
  rw [(shiftRightExact v).1,getDOfLt v (by decide),getLsbDWordOf v (by decide)]
  exact masked

theorem wordOfReduced (v : Block) (first : 0 < 16) :
    wordOf (if (Aes256Gcm.shiftRight v).carry ≠ 0 then
      (Aes256Gcm.shiftRight v).v.set 0 ((Aes256Gcm.shiftRight v).v[0] ^^^ 0xE1)
      else (Aes256Gcm.shiftRight v).v) = Gf128.shift (wordOf v) := by
  apply BitVec.eq_of_getLsbD_eq
  intro i hi
  rw [Gf128.getLsbDShift,← wordOfShiftRight v hi,Gf128.reductionBits hi]
  by_cases carry : (wordOf v).getLsbD 0 = true
  · rw [if_pos ((carryBit v).mpr carry),carry,Bool.true_and,getLsbDWordOf _ hi,getLsbDWordOf _ hi,
      Vector.getElem_set]
    by_cases top : 0 = 15 - i/8
    · have bit : i - 120 = i % 8 := by omega
      rw [if_pos top,BitVec.getLsbD_xor,decide_eq_true (show 120 ≤ i by omega),Bool.true_and,bit]
      simp only [← top]
      rfl
    · rw [if_neg top,decide_eq_false (show ¬ 120 ≤ i by omega),Bool.false_and,Bool.xor_false]
  · rw [if_neg (fun out => carry ((carryBit v).mp out)),Bool.not_eq_true _ |>.mp carry,Bool.false_and,
      Bool.xor_false]

theorem blockBit (tmp : Block) {i : Nat} (h : i < 128) :
    (tmp.getD (i/8) 0 >>> (7 - i%8)) &&& 1 ≠ 0 ↔ (wordOf tmp).getMsbD i = true := by
  rw [getMsbDWordOf tmp h,getDOfLt tmp (show i/8 < 16 by omega)]
  exact maskedBit _ _

theorem wordOfZero : wordOf (Vector.replicate 16 0) = 0 := by decide

theorem wordOfGhashBlock (y x h : Block) :
    wordOf (Aes256Gcm.ghashBlock y x h) = Gf128.absorb (wordOf h) (wordOf y) (wordOf x) := by
  have stay := Loops.upToRelated (Aes256Gcm.mulStep (xorBlock y x)) (Gf128.mulStep (wordOf y ^^^ wordOf x))
    (fun s t => wordOf s.z = t.sum ∧ wordOf s.v = t.power)
    (s := ⟨Vector.replicate 16 0,h⟩) (t := ⟨0,wordOf h⟩) ⟨wordOfZero,rfl⟩ (n := 128)
    (by
      rintro i s t lt ⟨sum,power⟩
      refine ⟨?_,?_⟩
      · rw [Aes256Gcm.mulStep,Gf128.mulStep,← wordOfXor]
        dsimp only
        by_cases bit : (wordOf (xorBlock y x)).getMsbD i = true
        · rw [if_pos bit,if_pos ((blockBit _ lt).mpr bit),wordOfXor,sum,power]
        · rw [if_neg bit,if_neg (fun masked => bit ((blockBit _ lt).mp masked)),sum]
      · rw [Aes256Gcm.mulStep,Gf128.mulStep,← power]
        exact wordOfReduced s.v (by decide))
  exact stay.1

theorem lengthBlockExact (a c : Nat) :
    Aes256Gcm.lengthBlock a c = AesGcm.storeU128 ⟨BitVec.ofNat 64 (a*8),BitVec.ofNat 64 (c*8)⟩ := by
  have ends := Loops.upToInvariant Aes256Gcm.lengthStep
    (fun n s => s.aadBits = BitVec.ofNat 64 (a*8) >>> (8*n) ∧ s.ctBits = BitVec.ofNat 64 (c*8) >>> (8*n) ∧
      ∀ j, j < 8 → 7 - j < n → s.block.getD j 0 = byteAt (BitVec.ofNat 64 (a*8)) (8*(7-j)) ∧
        s.block.getD (j+8) 0 = byteAt (BitVec.ofNat 64 (c*8)) (8*(7-j)))
    (s := ⟨Vector.replicate 16 0,BitVec.ofNat 64 (a*8),BitVec.ofNat 64 (c*8)⟩)
    ⟨rfl,rfl,fun j _ none => absurd none (Nat.not_lt_zero _)⟩ (n := 8)
    (by
      rintro n s lt ⟨aadBits,ctBits,bytes⟩
      rw [Aes256Gcm.lengthStep]
      refine ⟨by rw [aadBits,← BitVec.shiftRight_add]; rfl,by rw [ctBits,← BitVec.shiftRight_add]; rfl,?_⟩
      intro j hj upper
      dsimp only
      rw [getDSet _ (show j < 16 by omega),getDSet _ (show j < 16 by omega),
        getDSet _ (show j + 8 < 16 by omega),getDSet _ (show j + 8 < 16 by omega),
        if_neg (show ¬ 7 - n + 8 = j by omega),if_neg (show ¬ 7 - n = j + 8 by omega)]
      by_cases here : 7 - n = j
      · have place : 8*(7-j) = 8*n := by omega
        rw [if_pos here,if_pos (show 7 - n + 8 = j + 8 by omega),place,aadBits,ctBits]
        exact ⟨rfl,rfl⟩
      · rw [if_neg here,if_neg (show ¬ 7 - n + 8 = j + 8 by omega)]
        exact bytes j hj (by omega))
  apply Vector.ext
  intro j hj
  rw [Aes256Gcm.lengthBlock,AesGcm.storeU128,Vector.getElem_ofFn]
  rcases Nat.lt_or_ge j 8 with first | second
  · have byte := (ends.2.2 j first (by omega)).1
    rw [getDOfLt _ hj,show 8*(7-j) = 56 - j*8 by omega] at byte
    rw [if_pos first]
    exact byte
  · have byte := (ends.2.2 (j-8) (by omega) (by omega)).2
    rw [getDOfLt _ (show j - 8 + 8 < 16 by omega),show 8*(7-(j-8)) = 56 - (j-8)*8 by omega] at byte
    rw [if_neg (Nat.not_lt.mpr second)]
    simpa only [Nat.sub_add_cancel second] using byte

def HashSoFar (h y : Block) (data : List Byte) (s : Aes256Gcm.Hashing) : Prop :=
  ∃ k, s.i = 16 * k ∧ k ≤ (data.length + 15) / 16 ∧
    wordOf s.y = Gf128.absorbPieces (wordOf h) data k (wordOf y)

theorem hashStepKeeps {h y : Block} {data : List Byte} {s : Aes256Gcm.Hashing}
    (small : data.length < 2^32 - 16) (before : s.i < data.length) (held : HashSoFar h y data s) :
    HashSoFar h y data (Aes256Gcm.hashStep h data s) ∧ (Aes256Gcm.hashStep h data s).i = s.i + 16 := by
  obtain ⟨k,index,bound,hash⟩ := held
  have moved : (Aes256Gcm.hashStep h data s).i = s.i + 16 := by
    rw [Aes256Gcm.hashStep]
    exact Nat.mod_eq_of_lt (by omega)
  refine ⟨⟨k+1,by omega,by omega,?_⟩,moved⟩
  rw [Aes256Gcm.hashStep,wordOfGhashBlock,takeChunk,hash,index,Nat.mul_comm 16 k]
  rfl

theorem hashDataSame (h y : Block) {data : List Byte} {fuel : Nat} (small : data.length < 2^32 - 16)
    (enough : 2^28 ≤ fuel) : ∃ y', Aes256Gcm.hashData fuel h data y = some y' ∧
      wordOf y' = Gf128.absorbAll (wordOf h) data (wordOf y) := by
  have start : HashSoFar h y data ⟨0,y⟩ := ⟨0,rfl,Nat.zero_le _,rfl⟩
  obtain ⟨s,ran,⟨k,index,bound,hash⟩,ended⟩ := Loops.whileEnds (fun s => s.i < data.length)
    (Aes256Gcm.hashStep h data) (HashSoFar h y data) (fun s => (data.length - s.i + 15) / 16)
    (fun s held going => by
      have before : s.i < data.length := of_decide_eq_true going
      obtain ⟨kept,moved⟩ := hashStepKeeps small before held
      exact ⟨kept,by rw [moved]; omega⟩)
    start (show (data.length - 0 + 15) / 16 ≤ fuel by omega)
  have past : data.length ≤ s.i := Nat.not_lt.mp (of_decide_eq_false ended)
  have all : k = (data.length + 15) / 16 := by omega
  refine ⟨s.y,by rw [Aes256Gcm.hashData,ran,Option.map_some],?_⟩
  rw [hash,all,Gf128.absorbAll]

/- The bound is exact: past it the index wraps to zero before it reaches the
length, and the loop never ends. -/
theorem hashDataNever (h y : Block) {data : List Byte} (fuel : Nat) (long : 2^32 - 16 < data.length) :
    Aes256Gcm.hashData fuel h data y = none := by
  have never := Loops.whileNever (fun s => s.i < data.length) (Aes256Gcm.hashStep h data)
    (fun s => s.i % 16 = 0 ∧ s.i < 2^32)
    (by
      rintro s ⟨aligned,small⟩
      have next : (Aes256Gcm.hashStep h data s).i = (s.i + 16) % 2^32 := rfl
      exact ⟨decide_eq_true (by omega),by omega,by omega⟩)
    fuel (s := ⟨0,y⟩) ⟨rfl,Nat.two_pow_pos 32⟩
  rw [Aes256Gcm.hashData,never,Option.map_none]

theorem ghashSame (h : Block) {aad ct : List Byte} {fuel : Nat} (aadSmall : aad.length < 2^32 - 16)
    (ctSmall : ct.length < 2^32 - 16) (enough : 2^28 ≤ fuel) :
    Aes256Gcm.ghash fuel h aad ct = some (AesGcm.ghash h aad ct) := by
  obtain ⟨first,ranAad,hashAad⟩ := hashDataSame h (Vector.replicate 16 0) aadSmall enough
  obtain ⟨second,ranCt,hashCt⟩ := hashDataSame h first ctSmall enough
  have same : Aes256Gcm.ghashBlock second (Aes256Gcm.lengthBlock aad.length ct.length) h =
      AesGcm.ghash h aad ct := by
    apply wordOfInjective
    rw [wordOfGhashBlock,wordOfGhash h (by omega) (by omega),lengthBlockExact,wordOfStore,hashCt,hashAad,
      wordOfZero]
    rfl
  rw [Aes256Gcm.ghash,ranAad]
  dsimp only [bind,Option.bind]
  rw [ranCt]
  dsimp only
  rw [same]

theorem computedTagSame (key : Key) (nonce : Nonce) {aad ct : List Byte} {fuel : Nat}
    (aadSmall : aad.length < 2^32 - 16) (ctSmall : ct.length < 2^32 - 16) (enough : 2^28 ≤ fuel) :
    Aes256Gcm.computedTag fuel (Aes256Gcm.aes256KeyExpand key) nonce aad ct =
      some (AesGcm.computedTag key nonce aad ct) := by
  rw [Aes256Gcm.computedTag,blockEncryptSame,ghashSame _ aadSmall ctSmall enough,AesGcm.computedTag]
  rfl

theorem ctrCryptSame (key : Key) (nonce : Nonce) (ctr : Word) {input : List Byte} {fuel : Nat}
    (small : input.length < 2^32 - 16) (enough : 2^28 ≤ fuel) :
    Aes256Gcm.aes256CtrCrypt fuel (Aes256Gcm.aes256KeyExpand key) nonce ctr input =
      some (AesGcm.aes256CtrCrypt key nonce ctr input) := by
  rw [Aes256Gcm.aes256CtrCrypt,blockEncryptSame,ctrLoopSame _ nonce ctr (by omega) enough]
  rfl

theorem implementationsAgree (key : Key) (nonce : Nonce) (aad text : List Byte) (tag : Block)
    (buf : List Byte) (fuel : Nat) (aadSmall : aad.length < 2^32 - 16)
    (textSmall : text.length < 2^32 - 16) (enough : 2^28 ≤ fuel) :
    Aes256Gcm.aes256gcmEncrypt fuel key nonce text aad =
      some (AesGcm.aes256GcmEncrypt key nonce aad text) ∧
    ∃ opened, Aes256Gcm.aes256gcmDecrypt fuel key nonce text tag aad buf = some opened ∧
      (opened.rc = 0 ↔ (AesGcm.aes256GcmDecrypt key nonce aad text tag buf).rc = 0) ∧
      opened.pt = (AesGcm.aes256GcmDecrypt key nonce aad text tag buf).pt := by
  have length : (AesGcm.aes256CtrCrypt key nonce 2 text).length = text.length :=
    AesGcm.ctrCryptLength _ nonce 2 text
  refine ⟨?_,?_⟩
  · rw [Aes256Gcm.aes256gcmEncrypt]
    dsimp only [bind,Option.bind]
    rw [ctrCryptSame key nonce 2 textSmall enough]
    dsimp only
    rw [computedTagSame key nonce aadSmall (by omega) enough]
    rfl
  · rw [Aes256Gcm.aes256gcmDecrypt]
    dsimp only [bind,Option.bind]
    rw [computedTagSame key nonce aadSmall textSmall enough]
    dsimp only
    rw [AesGcm.aes256GcmDecrypt]
    by_cases differ : AesGcm.tagDiff (AesGcm.computedTag key nonce aad text) tag ≠ 0#8
    · rw [if_pos differ,if_pos differ]
      have codes : ((-1 : Int) = 0 ↔ -(ebadmsg : Int) = 0) := by decide
      exact ⟨⟨-1,buf⟩,rfl,codes,rfl⟩
    · rw [if_neg differ,if_neg differ,ctrCryptSame key nonce 2 textSmall enough]
      exact ⟨_,rfl,Iff.rfl,rfl⟩

theorem implementationsAgreeShort :
    Aes256Gcm.aes256gcmEncrypt (2^28) (Vector.replicate 32 7) (Vector.replicate 12 9) [1,2,3] [4] =
      some (AesGcm.aes256GcmEncrypt (Vector.replicate 32 7) (Vector.replicate 12 9) [4] [1,2,3]) :=
  (implementationsAgree (Vector.replicate 32 7) (Vector.replicate 12 9) [4] [1,2,3]
    (Vector.replicate 16 0) [] (2^28) (by decide) (by decide) (Nat.le_refl _)).1

end Nekros.GcmAgreement
