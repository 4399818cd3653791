import Mathlib.Algebra.Order.Ring.Nat
import Mathlib.Tactic.Common

/-! Blocks whose sizes double from one order to the next and which start at multiples of
their size. Two of them that meet are nested. Where a pool of such blocks never holds both
halves of a block whose addresses are all marked, every marked block that the pool covers
lies in a single block of the pool. -/
namespace Nekros.DyadicBlocks

structure Doubling (size : Nat → Nat) : Prop where
  positive : ∀ o, 0 < size o
  double : ∀ o, size (o+1) = size o + size o

def In (size : Nat → Nat) (o pa x : Nat) : Prop := pa ≤ x ∧ x < pa + size o
instance (size o pa x) : Decidable (In size o pa x) := by unfold In; infer_instance

section
variable {size : Nat → Nat} (d : Doubling size)
include d

theorem sizeDvd {o o' : Nat} (le : o ≤ o') : size o ∣ size o' := by
  induction o' with
  | zero =>
      obtain rfl : o = 0 := by omega
      exact Nat.dvd_refl _
  | succ n ih =>
      rcases Nat.lt_or_eq_of_le le with less | rfl
      · have below := ih (by omega)
        rw [d.double]
        exact Nat.dvd_add below below
      · exact Nat.dvd_refl _

theorem inStart (o pa : Nat) : In size o pa pa := ⟨Nat.le_refl _,Nat.lt_add_of_pos_right (d.positive o)⟩

theorem nested {o o' pa pa' x : Nat} (le : o ≤ o') (here : size o ∣ pa) (there : size o' ∣ pa')
    (inside : In size o pa x) (inside' : In size o' pa' x) :
    pa' ≤ pa ∧ pa + size o ≤ pa' + size o' := by
  have step := sizeDvd d le
  obtain ⟨a,rfl⟩ := here
  obtain ⟨c,hc⟩ := step
  obtain ⟨b,hb⟩ := Nat.dvd_trans ⟨c,hc⟩ there
  obtain ⟨first,last⟩ := inside
  obtain ⟨first',last'⟩ := inside'
  rw [hb] at first'
  rw [hb,hc] at last'
  rw [hb,hc]
  have low : b < a + 1 := by
    refine Nat.lt_of_mul_lt_mul_left (a := size o) ?_
    rw [Nat.mul_succ]
    omega
  have high : a < b + c := by
    refine Nat.lt_of_mul_lt_mul_left (a := size o) ?_
    rw [Nat.mul_add]
    omega
  have start : size o * b ≤ size o * a := Nat.mul_le_mul_left _ (by omega)
  have stop : size o * (a + 1) ≤ size o * (b + c) := Nat.mul_le_mul_left _ high
  rw [Nat.mul_succ,Nat.mul_add] at stop
  exact ⟨start,stop⟩

theorem sameOrder {o pa pa' x : Nat} (here : size o ∣ pa) (there : size o ∣ pa') (inside : In size o pa x)
    (inside' : In size o pa' x) : pa = pa' := by
  have first := nested d (Nat.le_refl o) here there inside inside'
  have second := nested d (Nat.le_refl o) there here inside' inside
  omega

theorem halves {o pa : Nat} (here : size (o+1) ∣ pa) : size o ∣ pa ∧ size o ∣ pa + size o := by
  have low := Nat.dvd_trans (sizeDvd d (Nat.le_succ o)) here
  exact ⟨low,Nat.dvd_add low (Nat.dvd_refl _)⟩

theorem lowerOrUpper {o pa : Nat} (here : size o ∣ pa) :
    size (o+1) ∣ pa ∨ (size o ≤ pa ∧ size (o+1) ∣ pa - size o) := by
  obtain ⟨a,rfl⟩ := here
  have two : size (o+1) = size o * 2 := by rw [d.double,Nat.mul_two]
  rcases Nat.even_or_odd' a with ⟨k,even | odd⟩
  · exact .inl ⟨k,by rw [even,two,Nat.mul_assoc]⟩
  · refine .inr ⟨?_,k,?_⟩
    · rw [odd,Nat.mul_succ]
      exact Nat.le_add_left _ _
    · rw [odd,Nat.mul_succ,Nat.add_sub_cancel,two,Nat.mul_assoc]

theorem inHalves {o pa x : Nat} : In size (o+1) pa x ↔ In size o pa x ∨ In size o (pa + size o) x := by
  have double := d.double o
  unfold In
  omega

/- By induction on the order: each half lies in one block of the pool, and the pool does not
hold both halves. -/
theorem gathered {pool : Nat → Nat → Prop} {marked : Nat → Prop} {top : Nat}
    (aligned : ∀ o pa, pool o pa → size o ∣ pa)
    (merged : ∀ o pa, o < top → size (o+1) ∣ pa → pool o pa → pool o (pa + size o) →
      ¬ ∀ x, In size (o+1) pa x → marked x)
    {o pa : Nat} (below : o ≤ top) (here : size o ∣ pa)
    (covered : ∀ x, In size o pa x → ∃ o' pa', pool o' pa' ∧ In size o' pa' x)
    (all : ∀ x, In size o pa x → marked x) :
    ∃ o' pa', o ≤ o' ∧ pool o' pa' ∧ ∀ x, In size o pa x → In size o' pa' x := by
  induction o generalizing pa with
  | zero =>
      obtain ⟨o',pa',held,inside⟩ := covered pa (inStart d 0 pa)
      obtain ⟨low,high⟩ := nested d (Nat.zero_le o') here (aligned o' pa' held) (inStart d 0 pa) inside
      exact ⟨o',pa',Nat.zero_le _,held,fun x near => ⟨Nat.le_trans low near.1,Nat.lt_of_lt_of_le near.2 high⟩⟩
  | succ o ih =>
      obtain ⟨lower,upper⟩ := halves d here
      obtain ⟨o1,pa1,le1,held1,in1⟩ := ih (by omega) lower
        (fun x near => covered x ((inHalves d).mpr (.inl near))) (fun x near => all x ((inHalves d).mpr (.inl near)))
      obtain ⟨o2,pa2,le2,held2,in2⟩ := ih (by omega) upper
        (fun x near => covered x ((inHalves d).mpr (.inr near))) (fun x near => all x ((inHalves d).mpr (.inr near)))
      -- a block of the pool that is larger than a half contains the whole
      have whole : ∀ {o' pa' y : Nat}, o + 1 ≤ o' → pool o' pa' → In size o' pa' y → In size (o+1) pa y →
          ∀ x, In size (o+1) pa x → In size o' pa' x := by
        intro o' pa' y larger held inside near x mem
        obtain ⟨low,high⟩ := nested d larger here (aligned o' pa' held) near inside
        exact ⟨Nat.le_trans low mem.1,Nat.lt_of_lt_of_le mem.2 high⟩
      have atLow := inStart d o pa
      have atHigh := inStart d o (pa + size o)
      rcases Nat.lt_or_eq_of_le le1 with larger | rfl
      · exact ⟨o1,pa1,larger,held1,whole larger held1 (in1 pa atLow) ((inHalves d).mpr (.inl atLow))⟩
      rcases Nat.lt_or_eq_of_le le2 with larger | rfl
      · exact ⟨o2,pa2,larger,held2,whole larger held2 (in2 _ atHigh) ((inHalves d).mpr (.inr atHigh))⟩
      have same1 := sameOrder d lower (aligned _ _ held1) atLow (in1 pa atLow)
      have same2 := sameOrder d upper (aligned _ _ held2) atHigh (in2 _ atHigh)
      rw [← same1] at held1
      rw [← same2] at held2
      exact absurd all (merged o pa (by omega) here held1 held2)

end

end Nekros.DyadicBlocks
