import Mathlib.Algebra.BigOperators.Intervals
import Mathlib.Logic.Function.Basic

/-! A ring of `n` slots written in turn: entry `i` goes to slot `i % n` and stays there
until entry `i + n` is written. `Holds n good slots first count` says that, of the
`count` entries written so far, those from `first` on that are still in their slot are
good there. -/
namespace Nekros.SlotRing
open Function (update)

variable {α : Type} {n first count i : Nat} {good : Nat → α → Prop} {slots : Nat → α}

def Holds (n : Nat) (good : Nat → α → Prop) (slots : Nat → α) (first count : Nat) : Prop :=
  ∀ i, first ≤ i → i < count → count ≤ i + n → good i (slots (i % n))

def latest (n count i : Nat) : Nat := i + n * ((count - 1 - i) / n)

theorem latestGe (n count i : Nat) : i ≤ latest n count i := Nat.le_add_right _ _

theorem latestSlot (n count i : Nat) : latest n count i % n = i % n := Nat.add_mul_mod_self_left _ _ _

theorem latestLt (n : Nat) (written : i < count) : latest n count i < count := by
  have whole : n * ((count - 1 - i) / n) ≤ count - 1 - i := Nat.mul_div_le _ _
  unfold latest
  omega

theorem latestStays (pos : 0 < n) (written : i < count) : count ≤ latest n count i + n := by
  have parts := Nat.div_add_mod (count - 1 - i) n
  have small := Nat.mod_lt (count - 1 - i) pos
  unfold latest
  omega

theorem latestSelf (lap : count ≤ i + n) : latest n count i = i := by
  have none : (count - 1 - i) / n = 0 := by
    rcases Nat.eq_zero_or_pos n with rfl | pos
    · exact Nat.div_zero _
    · exact Nat.div_eq_of_lt (by omega)
  rw [latest,none,Nat.mul_zero,Nat.add_zero]

theorem slotsApart (before : i < count) (lap : count < i + n) : i % n ≠ count % n := by
  intro same
  have whole := Nat.sub_mod_eq_zero_of_mod_eq same.symm
  rw [Nat.mod_eq_of_lt (by omega)] at whole
  omega

theorem holdsNone (n : Nat) (good : Nat → α → Prop) (slots : Nat → α) (count : Nat) :
    Holds n good slots count count := fun _ low high => absurd high (Nat.not_lt.mpr low)

theorem holdsImp {good' : Nat → α → Prop} (imp : ∀ i x, i < count → good i x → good' i x)
    (h : Holds n good slots first count) : Holds n good' slots first count :=
  fun i low high lap => imp i _ high (h i low high lap)

theorem holdsLater {first' : Nat} (later : first ≤ first') (h : Holds n good slots first count) :
    Holds n good slots first' count :=
  fun i low high lap => h i (Nat.le_trans later low) high lap

theorem holdsLatest (pos : 0 < n) (low : first ≤ i) (written : i < count)
    (h : Holds n good slots first count) : good (latest n count i) (slots (i % n)) := by
  rw [← latestSlot n count i]
  exact h _ (Nat.le_trans low (latestGe n count i)) (latestLt n written) (latestStays pos written)

theorem holdsTouch {x : α} (lap : count < first + n) (h : Holds n good slots first count) :
    Holds n good (update slots (count % n) x) first count := by
  intro i low high stays
  rw [Function.update_of_ne (slotsApart high (by omega))]
  exact h i low high stays

theorem holdsPush {x : α} (new : good count x) (h : Holds n good slots first count) :
    Holds n good (update slots (count % n) x) first (count+1) := by
  intro i low high stays
  rcases Nat.lt_succ_iff_lt_or_eq.mp high with before | rfl
  · rw [Function.update_of_ne (slotsApart before stays)]
    exact h i low before (by omega)
  · rw [Function.update_self]
    exact new

theorem sumSlots {entry : Nat → α} (value : α → Nat)
    (h : Holds n (fun i x => x = entry i) slots 0 count) :
    ∑ i ∈ Finset.range (min count n), value (slots i) =
      ∑ i ∈ Finset.Ico (count - n) count, value (entry i) := by
  rcases Nat.le_total count n with few | full
  · rw [Nat.min_eq_left few,Nat.sub_eq_zero_of_le few,← Finset.range_eq_Ico]
    refine Finset.sum_congr rfl fun i mem => ?_
    have low : i < count := Finset.mem_range.mp mem
    rw [← h i (Nat.zero_le i) low (by omega),Nat.mod_eq_of_lt (by omega)]
  · have lap : count - n + n = count := Nat.sub_add_cancel full
    rw [Nat.min_eq_right full,← Nat.image_Ico_mod (count - n) n,
      Finset.sum_image (Nat.mod_injOn_Ico (count - n) n),lap]
    refine Finset.sum_congr rfl fun i mem => ?_
    obtain ⟨low,high⟩ := Finset.mem_Ico.mp mem
    rw [← h i (Nat.zero_le i) high (by omega)]

end Nekros.SlotRing
