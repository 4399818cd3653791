import Mathlib.Data.List.GetD
import Mathlib.Data.BitVec

/-! Bytes, sixteen-byte blocks and their reading as one word, most significant
byte first. -/
namespace Nekros.Bytes

abbrev Byte := BitVec 8

abbrev Block := Vector Byte 16

/- `(u8)(x >> k)`; masking with 0xff before the conversion changes nothing. -/
def byteAt {w : Nat} (x : BitVec w) (k : Nat) : Byte := (x >>> k).setWidth 8

def bigEndian (w : Nat) (l : List Byte) : BitVec w := l.foldl (fun x b => x <<< 8 ||| b.setWidth w) 0

def littleEndian {w : Nat} (n : Nat) (x : BitVec w) : List Byte := (List.range n).map fun i => byteAt x (8*i)

def blockOf (l : List Byte) : Block := Vector.ofFn fun j => l.getD j 0

def xorBlock (a b : Block) : Block := Vector.zipWith (· ^^^ ·) a b

def wordOf (b : Block) : BitVec 128 := bigEndian 128 b.toList

theorem getDOfLt {α : Type} {n i : Nat} {default : α} (v : Vector α n) (h : i < n) : v.getD i default = v[i] := by
  have inside : i < v.toArray.size := by rw [v.size_toArray]; exact h
  rw [Vector.getD,Array.getD,dif_pos inside]
  rfl

theorem getDSet {α : Type} {n i j : Nat} {default b : α} (v : Vector α n) (h : j < n) :
    (v.setIfInBounds i b).getD j default = if i = j then b else v.getD j default := by
  rw [getDOfLt _ h,getDOfLt _ h,Vector.getElem_setIfInBounds]

theorem getLsbDByteAt {w : Nat} (x : BitVec w) (k i : Nat) :
    (byteAt x k).getLsbD i = (decide (i < 8) && x.getLsbD (k + i)) := by
  simp only [byteAt,BitVec.getLsbD_setWidth,BitVec.getLsbD_ushiftRight]

theorem littleEndianInjective {w n : Nat} {x y : BitVec w} (whole : w ≤ 8*n)
    (same : littleEndian n x = littleEndian n y) : x = y := by
  apply BitVec.eq_of_getLsbD_eq
  intro i low
  have byte : byteAt x (8*(i/8)) = byteAt y (8*(i/8)) :=
    List.map_inj_left.mp same (i/8) (List.mem_range.mpr (by omega))
  have bit := congrArg (fun b => b.getLsbD (i % 8)) byte
  simp only [getLsbDByteAt,Nat.div_add_mod] at bit
  rwa [decide_eq_true (Nat.mod_lt i (by decide)),Bool.true_and,Bool.true_and] at bit

theorem littleEndianSplit {w n : Nat} {x y : BitVec w} {l l' : List Byte} (whole : w ≤ 8*n)
    (same : littleEndian n x ++ l = littleEndian n y ++ l') : x = y ∧ l = l' := by
  obtain ⟨words,rest⟩ := List.append_inj same (by rw [littleEndian,littleEndian,List.length_map,List.length_map])
  exact ⟨littleEndianInjective whole words,rest⟩

theorem bigEndianSnoc (w : Nat) (l : List Byte) (b : Byte) :
    bigEndian w (l ++ [b]) = bigEndian w l <<< 8 ||| b.setWidth w := by
  simp only [bigEndian,List.foldl_append,List.foldl_cons,List.foldl_nil]

theorem getLsbDBigEndian {w : Nat} (l : List Byte) {i : Nat} (h : i < w) :
    (bigEndian w l).getLsbD i =
      (decide (i < 8 * l.length) && (l.getD (l.length - 1 - i / 8) 0).getLsbD (i % 8)) := by
  induction l using List.reverseRecOn generalizing i with
  | nil => simp [bigEndian]
  | append_singleton l b ih =>
      rw [bigEndianSnoc,BitVec.getLsbD_or,BitVec.getLsbD_shiftLeft,BitVec.getLsbD_setWidth,
        decide_eq_true h,List.length_append,List.length_singleton]
      rcases Nat.lt_or_ge i 8 with low | high
      · have last : l.length + 1 - 1 - i / 8 = l.length := by omega
        rw [last,List.getD_append_right _ _ _ _ (Nat.le_refl _),Nat.sub_self,Nat.mod_eq_of_lt low,
          decide_eq_true low,decide_eq_true (show i < 8 * (l.length + 1) by omega)]
        simp
      · have rest := ih (show i - 8 < w by omega)
        have gone : b.getLsbD i = false := BitVec.getLsbD_of_ge b i high
        have bit : (i - 8) % 8 = i % 8 := by omega
        have back : decide (i - 8 < 8 * l.length) = decide (i < 8 * (l.length + 1)) :=
          decide_eq_decide.mpr (by omega)
        rw [rest,gone,bit,back]
        by_cases inside : i < 8 * (l.length + 1)
        · have byte : l.length + 1 - 1 - i / 8 = l.length - 1 - (i - 8) / 8 := by omega
          rw [byte,List.getD_append _ _ _ _ (show l.length - 1 - (i - 8) / 8 < l.length by omega),
            decide_eq_false (Nat.not_lt.mpr high)]
          simp
        · simp [inside]

theorem getLsbDWordOf (b : Block) {i : Nat} (h : i < 128) :
    (wordOf b).getLsbD i = (b[15 - i / 8]).getLsbD (i % 8) := by
  have size : b.toList.length = 16 := b.length_toList
  rw [wordOf,getLsbDBigEndian b.toList h,size,decide_eq_true h,Bool.true_and,
    List.getD_eq_getElem _ _ (show 16 - 1 - i / 8 < b.toList.length by omega),Vector.getElem_toList]

theorem getMsbDWordOf (b : Block) {i : Nat} (h : i < 128) :
    (wordOf b).getMsbD i = (b[i / 8]).getLsbD (7 - i % 8) := by
  have low : 128 - 1 - i < 128 := by omega
  have byte : 15 - (128 - 1 - i) / 8 = i / 8 := by omega
  have bit : (128 - 1 - i) % 8 = 7 - i % 8 := by omega
  rw [BitVec.getMsbD_eq_getLsbD,decide_eq_true h,Bool.true_and,getLsbDWordOf b low]
  simp only [byte,bit]

theorem wordOfInjective {a b : Block} (same : wordOf a = wordOf b) : a = b := by
  apply Vector.ext
  intro j hj
  apply BitVec.eq_of_getLsbD_eq
  intro k hk
  have bits := congrArg (fun w => w.getLsbD (8 * (15 - j) + k)) same
  have byte : 15 - (8 * (15 - j) + k) / 8 = j := by omega
  have bit : (8 * (15 - j) + k) % 8 = k := by omega
  simpa only [getLsbDWordOf a (show 8 * (15 - j) + k < 128 by omega),
    getLsbDWordOf b (show 8 * (15 - j) + k < 128 by omega),byte,bit] using bits

theorem wordOfXor (a b : Block) : wordOf (xorBlock a b) = wordOf a ^^^ wordOf b := by
  apply BitVec.eq_of_getLsbD_eq
  intro i hi
  rw [BitVec.getLsbD_xor,getLsbDWordOf _ hi,getLsbDWordOf _ hi,getLsbDWordOf _ hi,xorBlock,
    Vector.getElem_zipWith,BitVec.getLsbD_xor]

end Nekros.Bytes
