import Mathlib.Data.Nat.Bitwise

/-! 64-bit words and the page constants of include/nekros/types.h. A `u64` is a
`Nat` below 2^64; every operation that can leave that range wraps explicitly. -/
namespace Nekros.Words

def wrap (x : Nat) : Nat := x % 2^64

def sub64 (x y : Nat) : Nat := wrap (x + 2^64 - y)

def pageSize : Nat := 4096

/- `ALIGN` and `ALIGN_DOWN` at `PAGE_SIZE`: masking with `~(PAGE_SIZE - 1)` is
rounding down to a multiple. The addition in `ALIGN` is the wrapping one. -/
def alignDown (x : Nat) : Nat := x / pageSize * pageSize

def align (x : Nat) : Nat := alignDown (wrap (x + pageSize - 1))

@[irreducible] def kernelBase : Nat := 0xFFFFFFFF80000000

def physToVirt (p : Nat) : Nat := wrap (p + kernelBase)

def virtToPhys (v : Nat) : Nat := sub64 v kernelBase

theorem wrapOfLt {x : Nat} (h : x < 2^64) : wrap x = x := Nat.mod_eq_of_lt h

theorem wrapLt (x : Nat) : wrap x < 2^64 := Nat.mod_lt _ (by decide)

theorem sub64OfLe {x y : Nat} (le : y ≤ x) (small : x < 2^64) : sub64 x y = x - y := by
  unfold sub64 wrap
  omega

theorem virtToPhysToVirt {p : Nat} (h : p < 2^64) : virtToPhys (physToVirt p) = p := by
  unfold virtToPhys physToVirt sub64 wrap kernelBase
  omega

theorem physToVirtInjective {p q : Nat} (hp : p < 2^64) (hq : q < 2^64)
    (same : physToVirt p = physToVirt q) : p = q := by
  rw [← virtToPhysToVirt hp,same,virtToPhysToVirt hq]

theorem physToVirtAligned {p : Nat} (h : p % pageSize = 0) : physToVirt p % pageSize = 0 := by
  unfold physToVirt wrap kernelBase
  unfold pageSize at *
  omega

theorem physToVirtNull {p : Nat} (h : p < 2^64) : physToVirt p = 0 ↔ p = 0x80000000 := by
  unfold physToVirt wrap kernelBase
  omega

theorem alignDownLe (x : Nat) : alignDown x ≤ x := Nat.div_mul_le_self _ _

theorem alignDownAligned (x : Nat) : alignDown x % pageSize = 0 := Nat.mul_mod_left _ _

theorem alignAligned (x : Nat) : align x % pageSize = 0 := alignDownAligned _

theorem alignGe {x : Nat} (h : x + pageSize - 1 < 2^64) : x ≤ align x := by
  unfold align
  rw [wrapOfLt h]
  unfold alignDown pageSize
  omega

theorem xorTwoPow (x k : Nat) :
    x ^^^ 2^k = x + 2^k ∨ (2^k ≤ x ∧ x ^^^ 2^k = x - 2^k) := by
  induction k generalizing x with
  | zero =>
      rcases Nat.even_or_odd x with even | odd
      · exact .inl (Nat.xor_one_of_even even)
      · obtain ⟨m,hm⟩ := odd
        exact .inr ⟨by omega,Nat.xor_one_of_odd ⟨m,hm⟩⟩
  | succ k ih =>
      have half : (x ^^^ 2^(k+1)) / 2 = x / 2 ^^^ 2^k := by
        rw [Nat.xor_div_two,Nat.pow_succ,Nat.mul_div_cancel _ (by decide)]
      have low : (x ^^^ 2^(k+1)) % 2 = x % 2 := by
        rw [Nat.xor_mod_two_eq,Nat.pow_succ]
        omega
      have double : 2^(k+1) = 2 * 2^k := by rw [Nat.pow_succ,Nat.mul_comm]
      rcases ih (x / 2) with up | ⟨le,down⟩
      · left
        omega
      · right
        omega

end Nekros.Words
