import Mathlib.Algebra.Order.Field.Rat
import Mathlib.Algebra.Order.Field.Basic
import Mathlib.Data.Rat.Cast.Order
import Mathlib.Tactic.NormNum
import Mathlib.Tactic.Ring
import Nekros.Utb

/-! The package power a sample reports, against the energy the counter stands for. The energy unit
is 1/2^e joule; the code keeps it as a whole number of millijoules, never less than 100. -/
namespace Nekros.Utb
open Words
open Hal (nekrosTscToNs)

def energyUnitExp (r : Reading) : Nat := r.raplPowerUnit / 2^8 % 2^5

def unitsUsed (raw last : Nat) : Nat := (raw + 2^32 - last) % 2^32

def averagePower (d e ns : Nat) : ℚ := (d * 10^12 : ℕ) / (2^e * ns : ℕ)

def WithinOne (power : Nat) (average : ℚ) : Prop := |(power : ℚ) - average| ≤ 1

theorem withinOneExact {power x w : Nat} (pos : 0 < w) :
    WithinOne power ((x : ℚ) / w) ↔ power * w ≤ x + w ∧ x ≤ (power + 1) * w := by
  have positive : (0 : ℚ) < w := Nat.cast_pos.mpr pos
  have below : (power : ℚ) - x / w ≤ 1 ↔ power * w ≤ x + w := by
    rw [sub_le_iff_le_add,← sub_le_iff_le_add',le_div_iff₀ positive,sub_mul,one_mul,sub_le_iff_le_add]
    exact_mod_cast Iff.rfl
  have above : (x : ℚ) / w - power ≤ 1 ↔ x ≤ (power + 1) * w := by
    rw [sub_le_iff_le_add',div_le_iff₀ positive]
    exact_mod_cast Iff.rfl
  rw [WithinOne,abs_sub_le_iff,below,above]

/- `g_rapl_unit_mw` after the two clamps; the upper one never acts. -/
def unitMw (e : Nat) : Nat := max 100 (1000 / 2^e)

theorem unitMwBounds (e : Nat) : 100 ≤ unitMw e ∧ unitMw e ≤ 1000 := by
  have le : 1000 / 2^e ≤ 1000 := Nat.div_le_self _ _
  unfold unitMw
  omega

theorem unitMwShort {e : Nat} (coarse : e ≤ 22) : 2000 * unitMw e * 2^e < 10^12 := by
  have all : ∀ e : Fin 23, 2000 * unitMw e.val * 2^e.val < 10^12 := by decide
  exact all ⟨e,Nat.lt_succ_of_le coarse⟩

theorem initUnit (s : State) (r : Reading) :
    (neriUtbInit s r).raplUnitMw = unitMw (energyUnitExp r) := by
  have le : 1000 / 2^energyUnitExp r ≤ 1000 := Nat.div_le_self _ _
  unfold neriUtbInit unitMw utbMinRaplUnitMw utbMaxRaplUnitMw
  unfold energyUnitExp at le ⊢
  dsimp only
  split <;> split <;> omega

structure Metered (unit : Nat) (s : State) : Prop where
  ready : s.ready = true
  unitKept : s.raplUnitMw = unit
  narrow : s.lastPkgRaw < 2^32

theorem readNarrow (msr : Nat) : readRaplEnergyMj msr < 2^32 := Nat.mod_lt _ (by decide)

theorem initMetered (s : State) (r : Reading) :
    Metered (unitMw (energyUnitExp r)) (neriUtbInit s r) :=
  ⟨rfl,initUnit s r,readNarrow _⟩

theorem sampleMetered {m : Machine} {unit : Nat} {s : State} (h : Metered unit s) (r : Reading) :
    Metered unit (neriUtbSample m s r) where
  ready := sampleReady m h.ready r
  unitKept := by
    rw [neriUtbSample,if_pos h.ready]
    simp only [samplePower,h.unitKept]
  narrow := by
    rw [neriUtbSample,if_pos h.ready]
    simp only [samplePower]
    exact readNarrow r.pkgEnergyStatus

theorem runMetered (m : Machine) {unit : Nat} (readings : List Reading) {s : State}
    (h : Metered unit s) : Metered unit (readings.foldl (neriUtbSample m) s) := by
  induction readings generalizing s with
  | nil => exact h
  | cons r rest ih => exact ih (sampleMetered h r)

theorem deltaExact {raw last : Nat} (low : raw < 2^32) (lastLow : last < 2^32) :
    counterDelta raw last = unitsUsed raw last := by
  unfold counterDelta unitsUsed wrap
  split <;> omega

theorem powerProducts {d unit : Nat} (narrow : d < 2^32) (unitLe : unit ≤ 1000) :
    d * unit < 2^64 ∧ d * unit / 1000 * 1000000 < 2^64 := by
  have product : d * unit ≤ d * 1000 := Nat.mul_le_mul_left d unitLe
  omega

theorem reportedPower {s : State} {d ns : Nat} (narrow : d < 2^32) (unitLe : s.raplUnitMw ≤ 1000)
    (late : 1 ≤ ns) : raplDeltaToMw s d ns = d * s.raplUnitMw / 1000 * 1000000 / ns := by
  obtain ⟨energy,scaled⟩ := powerProducts narrow unitLe
  rw [raplDeltaToMw,if_neg (by omega)]
  dsimp only
  rw [wrapOfLt energy,wrapOfLt scaled]

theorem reportedShort {d e ns : Nat} (coarse : e ≤ 22) (used : 0 < d) :
    2 * (d * unitMw e / 1000 * 1000000 / ns) * (2^e * ns) < d * 10^12 := by
  generalize energyEq : d * unitMw e / 1000 = energy
  have energyLe : energy * 1000 ≤ d * unitMw e := by
    rw [← energyEq]
    exact Nat.div_mul_le_self _ _
  have short : d * (2000 * unitMw e * 2^e) < d * 10^12 :=
    Nat.mul_lt_mul_of_pos_left (unitMwShort coarse) used
  calc 2 * (energy * 1000000 / ns) * (2^e * ns)
      = energy * 1000000 / ns * ns * (2 * 2^e) := by ring
    _ ≤ energy * 1000000 * (2 * 2^e) := Nat.mul_le_mul_right _ (Nat.div_mul_le_self _ _)
    _ = energy * 1000 * (2000 * 2^e) := by ring
    _ ≤ d * unitMw e * (2000 * 2^e) := Nat.mul_le_mul_right _ energyLe
    _ = d * (2000 * unitMw e * 2^e) := by ring
    _ < d * 10^12 := short

theorem withinOfShort {power x w : Nat} (short : 2 * power * w < x) :
    power * w ≤ x + w ∧ x ≤ (power + 1) * w ↔ x ≤ w := by
  rw [Nat.mul_assoc] at short
  rw [Nat.succ_mul]
  constructor
  · rintro ⟨_,above⟩
    -- Twice `power` fits below one more than `power`, so nothing was reported.
    have none : power = 0 := by
      by_contra some
      have one : 1 * w ≤ power * w := Nat.mul_le_mul_right w (Nat.one_le_iff_ne_zero.mpr some)
      omega
    rw [none,Nat.zero_mul,Nat.zero_add] at above
    exact above
  · intro low
    omega

theorem withinOneWhen {d e ns : Nat} (coarse : e ≤ 22) (late : 1 ≤ ns) :
    WithinOne (d * unitMw e / 1000 * 1000000 / ns) (averagePower d e ns) ↔
      averagePower d e ns ≤ 1 := by
  have pos : 0 < 2^e * ns := Nat.mul_pos (Nat.two_pow_pos e) late
  have small : averagePower d e ns ≤ 1 ↔ d * 10^12 ≤ 2^e * ns := by
    rw [averagePower,div_le_one (Nat.cast_pos.mpr pos),Nat.cast_le]
  rw [small,averagePower,withinOneExact pos]
  by_cases used : 0 < d
  · exact withinOfShort (reportedShort coarse used)
  · have zero : d = 0 := by omega
    rw [zero]
    simp

/-! From an exponent of 23 on the code counts 0.1 mJ for a unit, whatever it is. Energies here are in
picojoules, which are milliwatts times nanoseconds: `k * ns` is the energy of `k` milliwatts over
the interval. -/

def energyKept (d : Nat) : Nat := d / 10 * 10^6

def NoneBetween (d e ns : Nat) : Prop :=
  ∀ k, energyKept d < k * ns → d * 10^12 ≤ 2^e * (k * ns)

def OneBetween (d e ns : Nat) : Prop :=
  ∀ k, d * 10^12 < 2^e * (k * ns) → energyKept d < (k + 1) * ns

theorem unitMwFine {e : Nat} (fine : 23 ≤ e) : unitMw e = 100 := by
  have large : 2^23 ≤ 2^e := Nat.pow_le_pow_right (by decide) fine
  have none : 1000 / 2^e = 0 := Nat.div_eq_of_lt (by omega)
  rw [unitMw,none]
  rfl

theorem keptFine (d : Nat) : d * 100 / 1000 * 1000000 = energyKept d := by
  unfold energyKept
  omega

theorem noneBetweenExact {d e ns : Nat} (late : 1 ≤ ns) :
    d * 10^12 ≤ (energyKept d / ns + 1) * (2^e * ns) ↔ NoneBetween d e ns := by
  rw [Nat.mul_left_comm]
  constructor
  · intro above k beyond
    have more : energyKept d / ns + 1 ≤ k := Nat.div_lt_of_lt_mul (by rwa [Nat.mul_comm] at beyond)
    exact above.trans (Nat.mul_le_mul_left _ (Nat.mul_le_mul_right ns more))
  · intro none
    apply none
    rw [Nat.mul_comm]
    exact Nat.lt_mul_div_succ _ late

theorem oneBetweenExact {d e ns : Nat} (late : 1 ≤ ns) :
    energyKept d / ns * (2^e * ns) ≤ d * 10^12 + 2^e * ns ↔ OneBetween d e ns := by
  rw [Nat.mul_left_comm]
  constructor
  · intro below k beyond
    by_contra reaches
    have fits : k + 1 ≤ energyKept d / ns := (Nat.le_div_iff_mul_le late).mpr (Nat.le_of_not_lt reaches)
    have two : 2^e * ((k + 1) * ns) ≤ 2^e * (energyKept d / ns * ns) :=
      Nat.mul_le_mul_left _ (Nat.mul_le_mul_right ns fits)
    rw [Nat.succ_mul,Nat.mul_add] at two
    omega
  · intro one
    generalize quotient : energyKept d / ns = q
    cases q with
    | zero => omega
    | succ k =>
        rw [Nat.succ_mul,Nat.mul_add]
        -- Were `k` milliwatts still above the average, the next would not fit into what was kept.
        have reaches : ¬ energyKept d < (k + 1) * ns := by
          rw [← quotient]
          exact Nat.not_lt.mpr (Nat.div_mul_le_self _ _)
        have low : ¬ d * 10^12 < 2^e * (k * ns) := fun beyond => reaches (one k beyond)
        omega

theorem withinOneFine {d e ns : Nat} (fine : 23 ≤ e) (late : 1 ≤ ns) :
    WithinOne (d * unitMw e / 1000 * 1000000 / ns) (averagePower d e ns) ↔
      NoneBetween d e ns ∧ OneBetween d e ns := by
  have pos : 0 < 2^e * ns := Nat.mul_pos (Nat.two_pow_pos e) late
  rw [averagePower,withinOneExact pos,unitMwFine fine,keptFine,noneBetweenExact late,
    oneBetweenExact late]
  exact and_comm

theorem gigahertzClocked : 1000000 ≠ 0 := by decide

def gigahertz : Machine := ⟨false,1000000,1,gigahertzClocked,oneCpu⟩

def energyReading (e units tsc : Nat) : Reading := ⟨tsc,e * 2^8,units,0,0,0,0,fun _ => 0,1⟩

end Nekros.Utb
