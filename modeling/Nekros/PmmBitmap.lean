import Nekros.DyadicBlocks
import Nekros.PmmShape

/-! The bitmap of mm/pmm.c by addresses: which ones it has a bit for, and which of those
look free. -/
namespace Nekros.PmmBitmap
open Words Pmm PmmShape
open DyadicBlocks (In Doubling)

theorem blocksDouble : Doubling blockSize := ⟨blockSizePos,blockSizeSucc⟩

def Known (b : Bitmap) (x : Nat) : Prop := bitmapIgnores b (x / pageSize) = false
instance (b x) : Decidable (Known b x) := by unfold Known; infer_instance

def Clear (b : Bitmap) (x : Nat) : Prop := bitmapTest b (x / pageSize) = false
instance (b x) : Decidable (Clear b x) := by unfold Clear; infer_instance

theorem clearExact (b : Bitmap) (x : Nat) : Clear b x ↔ Known b x ∧ b.bits (x / pageSize) = false := by
  unfold Clear Known bitmapTest
  cases bitmapIgnores b (x / pageSize) <;> simp

theorem clearKnown {b : Bitmap} {x : Nat} (h : Clear b x) : Known b x := ((clearExact b x).mp h).1

theorem knownUniform {b : Bitmap} {pa x y : Nat} (aligned : blockSize maxOrder ∣ pa)
    (hx : In blockSize maxOrder pa x) (hy : In blockSize maxOrder pa y) : Known b x ↔ Known b y := by
  have size : blockSize maxOrder = 2^22 := by decide
  unfold In at hx hy
  rw [size] at hx hy aligned
  unfold Known bitmapIgnores wrap pageSize
  simp only [Bool.or_eq_false_iff,decide_eq_false_iff_not]
  refine and_congr_right fun _ => ?_
  omega

theorem memBlockPfns {pa ord x : Nat} (aligned : pa % pageSize = 0) :
    x / pageSize ∈ blockPfns pa ord ↔ In blockSize ord pa x := by
  have bytes := blockSizeEq ord
  simp only [blockPfns,List.mem_map,List.mem_range,Nat.one_shiftLeft]
  unfold In
  rw [bytes]
  unfold pageSize at *
  generalize 2^ord = n
  constructor
  · rintro ⟨k,small,same⟩
    omega
  · intro inside
    exact ⟨x / 4096 - pa / 4096,by omega,by omega⟩

theorem buddyFreeClear {b : Bitmap} {pa ord : Nat} (aligned : pa % pageSize = 0) :
    buddyFree b pa ord = true ↔ ∀ x, In blockSize ord pa x → Clear b x := by
  rw [buddyFree,List.all_eq_true]
  constructor
  · intro all x inside
    have free := all _ ((memBlockPfns aligned).mpr inside)
    rwa [Bool.not_eq_true'] at free
  · intro all pfn mem
    rw [Bool.not_eq_true']
    have whole : pfn * pageSize / pageSize = pfn := Nat.mul_div_cancel _ (by decide)
    have inside := (memBlockPfns (x := pfn * pageSize) aligned).mp (by rw [whole]; exact mem)
    have clear := all _ inside
    rwa [Clear,whole] at clear

structure Rewritten (b b' : Bitmap) (pfns : List Nat) (v : Bool) : Prop where
  ptr : b'.ptr = b.ptr
  pages : b'.pages = b.pages
  bits : ∀ pfn, bitmapIgnores b pfn = false → b'.bits pfn = if pfn ∈ pfns then v else b.bits pfn

theorem rewrittenIgnores {b b' : Bitmap} {pfns : List Nat} {v : Bool} (h : Rewritten b b' pfns v) (pfn : Nat) :
    bitmapIgnores b' pfn = bitmapIgnores b pfn := by
  rw [bitmapIgnores,bitmapIgnores,h.ptr,h.pages]

theorem rewrittenFold {write : Bitmap → Nat → Bitmap} {v : Bool}
    (one : ∀ b pfn, Rewritten b (write b pfn) [pfn] v) (b : Bitmap) (pfns : List Nat) :
    Rewritten b (pfns.foldl write b) pfns v := by
  induction pfns generalizing b with
  | nil => exact ⟨rfl,rfl,fun _ _ => by simp⟩
  | cons p rest ih =>
      have head := one b p
      have tail := ih (write b p)
      refine ⟨tail.ptr.trans head.ptr,tail.pages.trans head.pages,fun pfn known => ?_⟩
      rw [List.foldl_cons,tail.bits pfn (by rw [rewrittenIgnores head,known]),head.bits pfn known]
      by_cases later : pfn ∈ rest
      · simp [later]
      · by_cases here : pfn = p
        · simp [here]
        · simp [later,here]

theorem setRewrites (b : Bitmap) (pfn : Nat) : Rewritten b (bitmapSet b pfn) [pfn] true := by
  unfold bitmapSet
  split
  · rename_i ignored
    refine ⟨rfl,rfl,fun p known => ?_⟩
    have other : p ≠ pfn := by
      rintro rfl
      rw [ignored] at known
      cases known
    simp [other]
  · exact ⟨rfl,rfl,fun p _ => by simp [Function.update_apply]⟩

theorem clearRewrites (b : Bitmap) (pfn : Nat) : Rewritten b (bitmapClear b pfn) [pfn] false := by
  unfold bitmapClear
  split
  · rename_i ignored
    refine ⟨rfl,rfl,fun p known => ?_⟩
    have other : p ≠ pfn := by
      rintro rfl
      rw [ignored] at known
      cases known
    simp [other]
  · exact ⟨rfl,rfl,fun p _ => by simp [Function.update_apply]⟩

theorem setBlockKnown (b : Bitmap) (pa ord x : Nat) : Known (bitmapSetBlock b pa ord) x ↔ Known b x := by
  rw [Known,Known,bitmapSetBlock,rewrittenIgnores (rewrittenFold setRewrites b _)]

theorem clearBlockKnown (b : Bitmap) (pa ord x : Nat) : Known (bitmapClearBlock b pa ord) x ↔ Known b x := by
  rw [Known,Known,bitmapClearBlock,rewrittenIgnores (rewrittenFold clearRewrites b _)]

theorem setBlockClear {pa ord : Nat} (aligned : pa % pageSize = 0) (b : Bitmap) (x : Nat) :
    Clear (bitmapSetBlock b pa ord) x ↔ ¬ In blockSize ord pa x ∧ Clear b x := by
  rw [clearExact,setBlockKnown,clearExact,← memBlockPfns aligned]
  by_cases known : Known b x
  · rw [bitmapSetBlock,(rewrittenFold setRewrites b _).bits _ known]
    split <;> simp_all
  · simp [known]

theorem clearBlockClear {pa ord : Nat} (aligned : pa % pageSize = 0) (b : Bitmap) (x : Nat) :
    Clear (bitmapClearBlock b pa ord) x ↔ Clear b x ∨ (In blockSize ord pa x ∧ Known b x) := by
  rw [clearExact,clearBlockKnown,clearExact,← memBlockPfns aligned]
  by_cases known : Known b x
  · rw [bitmapClearBlock,(rewrittenFold clearRewrites b _).bits _ known]
    split <;> simp_all
  · simp [known]

end Nekros.PmmBitmap
