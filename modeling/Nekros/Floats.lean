import Mathlib.Algebra.Order.Field.Power
import Mathlib.Data.NNRat.Floor

/-! Floating-point numbers without a sign, as the rationals they stand for. An operation is exact
and its result is rounded; what a proof may use of a rounding is that it is monotone and leaves
zero and the powers of two that single precision has, which is so in every mode of IEEE 754. -/
namespace Nekros.Floats

structure Rounding where
  round : ℚ≥0 → ℚ≥0
  mono : Monotone round
  zero : round 0 = 0
  power : ∀ k : ℤ, -126 ≤ k ∧ k ≤ 127 → round (2^k) = 2^k

theorem roundLe (r : Rounding) {q : ℚ≥0} {k : ℤ} (range : -126 ≤ k ∧ k ≤ 127) (le : q ≤ 2^k) : r.round q ≤ 2^k := by
  rw [← r.power k range]
  exact r.mono le

def unrounded : Rounding := ⟨id,monotone_id,rfl,fun _ _ => rfl⟩

end Nekros.Floats
