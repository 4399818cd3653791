import Mathlib.Tactic.Ring
import Nekros.Words

/-! Fixed-point words. A product of two scaled numbers that is cut down to an integer
twice, and the division instruction; then the Q16 numbers of include/nekros/types.h. -/
namespace Nekros.Fixed
open Words

/- `none` is the fault a zero divisor raises. -/
def divide (x d : Nat) : Option Nat := if d = 0 then none else some (x / d)

theorem divideSome {x d q : Nat} : divide x d = some q ↔ d ≠ 0 ∧ x / d = q := by
  unfold divide
  split
  · next zero => simp [zero]
  · next pos => simp [pos]

theorem divideFaults {x d : Nat} : divide x d = none ↔ d = 0 := by
  unfold divide
  split
  · next zero => simp [zero]
  · next pos => simp [pos]

def truncated (scale a e : Nat) : Nat := a * (e / scale) / scale

/- More than `n` multiples of the scale lie above `x` and not above `y`. -/
def Crossed (scale n x y : Nat) : Prop := ∃ k, x < scale * k ∧ scale * (k + n) ≤ y

theorem crossedExact {scale n x y : Nat} (pos : 0 < scale) :
    Crossed scale n x y ↔ x / scale + n < y / scale := by
  constructor
  · rintro ⟨k,above,reached⟩
    have below : x / scale < k := Nat.div_lt_of_lt_mul above
    have fits : k + n ≤ y / scale := (Nat.le_div_iff_mul_le pos).mpr (by rwa [Nat.mul_comm])
    omega
  · intro more
    refine ⟨x / scale + 1,Nat.lt_mul_div_succ x pos,?_⟩
    have fits : x / scale + 1 + n ≤ y / scale := by omega
    exact (Nat.mul_le_mul_left scale fits).trans (Nat.mul_div_le y scale)

def q16 (n : Nat) : Nat := wrap (n <<< 16)

def q16ToInt (x : Nat) : Nat := x >>> 16

theorem q16OfLt {n : Nat} (small : n < 2^48) : q16 n = 65536 * n := by
  rw [q16,Nat.shiftLeft_eq,wrapOfLt (by omega),Nat.mul_comm]

theorem q16ToIntEq (x : Nat) : q16ToInt x = x / 65536 := Nat.shiftRight_eq_div_pow x 16

end Nekros.Fixed
