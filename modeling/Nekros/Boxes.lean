import Mathlib.Algebra.Order.Ring.Int
import Mathlib.Data.List.Forall2
import Mathlib.Tactic.Linarith

/-! Bounds for integer functions of many variables. A box gives an interval for each variable;
weighted sums and monotone functions carry intervals to intervals. A test that is sound on a box
and too coarse there is made again on its halves. -/
namespace Nekros.Boxes

structure Interval where
  lo : Int
  hi : Int
  deriving DecidableEq, Repr

def Has (i : Interval) (x : Int) : Prop := i.lo ≤ x ∧ x ≤ i.hi

abbrev Box := List Interval

def Inside : Box → List Int → Prop := List.Forall₂ Has

def dot (weights xs : List Int) : Int := (List.zipWith (· * ·) weights xs).sum

def scaled (w : Int) (i : Interval) : Interval :=
  if 0 ≤ w then ⟨w * i.lo,w * i.hi⟩ else ⟨w * i.hi,w * i.lo⟩

def plus (i j : Interval) : Interval := ⟨i.lo + j.lo,i.hi + j.hi⟩

def dotBounds : List Int → Box → Interval
  | w::ws,i::is => plus (scaled w i) (dotBounds ws is)
  | _,_ => ⟨0,0⟩

theorem scaledHas {i : Interval} {x : Int} (w : Int) (h : Has i x) : Has (scaled w i) (w * x) := by
  unfold scaled
  split
  · next pos => exact ⟨mul_le_mul_of_nonneg_left h.1 pos,mul_le_mul_of_nonneg_left h.2 pos⟩
  · next neg =>
      have nonpos : w ≤ 0 := by omega
      exact ⟨mul_le_mul_of_nonpos_left h.2 nonpos,mul_le_mul_of_nonpos_left h.1 nonpos⟩

theorem plusHas {i j : Interval} {x y : Int} (hx : Has i x) (hy : Has j y) : Has (plus i j) (x + y) :=
  ⟨add_le_add hx.1 hy.1,add_le_add hx.2 hy.2⟩

theorem dotHas {box : Box} {xs : List Int} (h : Inside box xs) (ws : List Int) :
    Has (dotBounds ws box) (dot ws xs) := by
  induction h generalizing ws with
  | nil => cases ws <;> exact ⟨le_refl 0,le_refl 0⟩
  | cons first rest ih =>
      cases ws with
      | nil => exact ⟨le_refl 0,le_refl 0⟩
      | cons w ws => exact plusHas (scaledHas w first) (ih ws)

def image (f : Int → Int) (i : Interval) : Interval := ⟨f i.lo,f i.hi⟩

theorem imageHas {f : Int → Int} (mono : ∀ {x y}, x ≤ y → f x ≤ f y) {i : Interval} {x : Int} (h : Has i x) :
    Has (image f i) (f x) :=
  ⟨mono h.1,mono h.2⟩

def halve : Nat → Box → Box × Box
  | _,[] => ([],[])
  | 0,i::rest => (⟨i.lo,(i.lo + i.hi) / 2⟩::rest,⟨(i.lo + i.hi) / 2 + 1,i.hi⟩::rest)
  | n+1,i::rest => (i::(halve n rest).1,i::(halve n rest).2)

theorem halveInside {box : Box} {xs : List Int} (h : Inside box xs) (n : Nat) :
    Inside (halve n box).1 xs ∨ Inside (halve n box).2 xs := by
  induction h generalizing n with
  | nil => cases n <;> exact .inl .nil
  | @cons i x box xs first rest ih =>
      cases n with
      | zero =>
          rcases le_or_gt x ((i.lo + i.hi) / 2) with low | high
          · exact .inl (.cons ⟨first.1,low⟩ rest)
          · exact .inr (.cons ⟨high,first.2⟩ rest)
      | succ n =>
          rcases ih n with left | right
          · exact .inl (.cons first left)
          · exact .inr (.cons first right)

def longest : Box → Nat × Int
  | [] => (0,0)
  | i::rest => if (longest rest).2 ≤ i.hi - i.lo then (0,i.hi - i.lo) else ((longest rest).1 + 1,(longest rest).2)

def covered (test : Box → Bool) : Nat → Box → Bool
  | 0,box => test box
  | depth+1,box => test box ||
      (covered test depth (halve (longest box).1 box).1 && covered test depth (halve (longest box).1 box).2)

theorem coveredSound {test : Box → Bool} {holds : List Int → Prop}
    (sound : ∀ box xs, test box = true → Inside box xs → holds xs) {depth : Nat} {box : Box} {xs : List Int}
    (ok : covered test depth box = true) (h : Inside box xs) : holds xs := by
  induction depth generalizing box with
  | zero => exact sound box xs ok h
  | succ depth ih =>
      rw [covered,Bool.or_eq_true,Bool.and_eq_true] at ok
      rcases ok with here | ⟨left,right⟩
      · exact sound box xs here h
      · rcases halveInside h (longest box).1 with low | high
        · exact ih left low
        · exact ih right high

end Nekros.Boxes
