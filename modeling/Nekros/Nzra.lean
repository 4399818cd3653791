import Nekros.Fixed
import Nekros.NeriAdo
import Nekros.NeriPool

/-! drivers/neri/core/neri_nzra.c: what a placement of a process costs. Words are 64-bit and
every product may wrap; a division by zero is a fault and the call does not return. -/
namespace Nekros.Nzra
open Words Fixed
open NeriPool (Proc Pool)
open NeriAdo (Decision)

def neriMemTierDram : Nat := 0

def neriMemTierCxl : Nat := 1

structure Weights where
  alpha : Nat
  beta : Nat
  gamma : Nat
  deriving DecidableEq, Repr

def neriNzraInit : Weights := ⟨q16 1,q16 1,q16 1⟩

def neriNzraUpdateWeights (_ : Weights) (alpha beta gamma : Nat) : Weights := ⟨alpha,beta,gamma⟩

structure Record extends Proc where
  lastCpu : Nat
  deriving DecidableEq, Repr

/- What a decision reads besides the record: `g_utb_ready`, the package power of
`g_utb_snapshot`, `g_neri_pool` and `g_ncpus`. -/
structure Machine where
  weights : Weights
  utbReady : Bool
  pkgPowerMw : Nat
  pool : Pool
  ncpus : Nat
  deriving DecidableEq, Repr

def energyPenalty (m : Machine) (p : Record) (pcore : Bool) : Nat :=
  if m.utbReady then
    let pkgMw := if m.pkgPowerMw = 0 then 15000 else m.pkgPowerMw
    let eMj := wrap (pkgMw * (p.cpuDemandNs / 1000000)) / 1000000
    let eMj := if eMj = 0 then 1 else eMj
    let eMj := if pcore then wrap (eMj * 2) else eMj
    q16 eMj / 100
  else q16 1

def spare (cap alloc : Nat) : Nat := if alloc < cap then cap - alloc else 0

def gap (demand free : Nat) : Nat := if free < demand then demand - free else 0

def gapQ (gap cap : Nat) : Option Nat := if gap ≠ 0 then divide (q16 gap) (cap / 64) else some 0

def cpuGap (m : Machine) (p : Record) : Nat :=
  gap p.cpuDemandNs (spare m.pool.cpuTotalNs m.pool.cpuAllocNs)

def ramGap (m : Machine) (p : Record) : Nat :=
  gap p.ramDemandPages (spare m.pool.ramTotalPages m.pool.ramAllocPages)

def resourceGap (m : Machine) (p : Record) : Option Nat :=
  if m.pool.cpuTotalNs = 0 ∨ m.pool.ramTotalPages = 0 then some (q16 1)
  else do
    let cpuGapQ ← gapQ (cpuGap m p) m.pool.cpuTotalNs
    let ramGapQ ← gapQ (ramGap m p) m.pool.ramTotalPages
    some (wrap (cpuGapQ + ramGapQ) / 2)

def coherencyLatency (m : Machine) (p : Record) (targetCpu : Nat) : Nat :=
  if m.ncpus ≤ 4 then 0
  else
    let half := m.ncpus / 2
    let nodeA := if p.lastCpu < half then 0 else 1
    let nodeB := if targetCpu < half then 0 else 1
    if nodeA = nodeB then 0 else q16 2

def cost (w : Weights) (ep arg lc : Nat) : Nat :=
  wrap (wrap (q16ToInt (wrap (w.alpha * q16ToInt ep)) + q16ToInt (wrap (w.beta * q16ToInt arg))) +
    q16ToInt (wrap (w.gamma * q16ToInt lc)))

def latencyPcore (m : Machine) (p : Record) : Nat := coherencyLatency m p 0

def latencyEcore (m : Machine) (p : Record) : Nat :=
  if 1 < m.ncpus then coherencyLatency m p (m.ncpus - 1) else 0

def neriNzraDecide (m : Machine) (p : Record) : Option Decision := do
  let arg ← resourceGap m p
  let costPcore := cost m.weights (energyPenalty m p true) arg (latencyPcore m p)
  let costEcore := cost m.weights (energyPenalty m p false) arg (latencyEcore m p)
  let preferPcore := decide (costPcore ≤ costEcore)
  let ts := p.cpuDemandNs / 4
  let ts := if ts < 1000000 then 1000000 else ts
  let ts := if 20000000 < ts then 20000000 else ts
  some
    { preferPcore
      preferNumaNode := 0
      cpuTimesliceNs := ts
      ramTier := if 256 < p.ramDemandPages ∧ 4096 < m.pool.ramTotalPages then neriMemTierCxl
        else neriMemTierDram
      assignGpu := decide (0 < p.gpuDemandSlots ∧ m.pool.gpuAllocSlots < m.pool.gpuTotalSlots)
      cost := (if preferPcore then costPcore else costEcore : Nat) }

/- A gap is divided by a sixty-fourth of the capacity, and only the capacity is tested. -/
def GapFaults (gap cap : Nat) : Prop := gap ≠ 0 ∧ cap < 64
instance (gap cap) : Decidable (GapFaults gap cap) := by unfold GapFaults; infer_instance

theorem gapQFaults {gap cap : Nat} : gapQ gap cap = none ↔ GapFaults gap cap := by
  unfold gapQ GapFaults
  split
  · next some =>
      rw [divideFaults]
      simp [some]
  · next none => simp [none]

def ResourceFaults (m : Machine) (p : Record) : Prop :=
  m.pool.cpuTotalNs ≠ 0 ∧ m.pool.ramTotalPages ≠ 0 ∧
    (GapFaults (cpuGap m p) m.pool.cpuTotalNs ∨ GapFaults (ramGap m p) m.pool.ramTotalPages)
instance (m p) : Decidable (ResourceFaults m p) := by unfold ResourceFaults; infer_instance

theorem resourceGapFaults {m : Machine} {p : Record} : resourceGap m p = none ↔ ResourceFaults m p := by
  unfold resourceGap ResourceFaults
  split
  · next unset =>
      refine iff_of_false (by simp) fun faults => ?_
      rcases unset with cpu | ram
      · exact faults.1 cpu
      · exact faults.2.1 ram
  · next set =>
      rw [not_or] at set
      rw [← gapQFaults,← gapQFaults]
      cases gapQ (cpuGap m p) m.pool.cpuTotalNs with
      | none => simp [set]
      | some cpu => cases gapQ (ramGap m p) m.pool.ramTotalPages <;> simp [set]

theorem decideFaults {m : Machine} {p : Record} : neriNzraDecide m p = none ↔ ResourceFaults m p := by
  rw [← resourceGapFaults]
  unfold neriNzraDecide
  cases resourceGap m p <;> simp

def exactCost (w : Weights) (ep arg lc : Nat) : Nat := w.alpha * ep + w.beta * arg + w.gamma * lc

def NoOverflow (w : Weights) (ep arg lc : Nat) : Prop :=
  w.alpha * q16ToInt ep < 2^64 ∧ w.beta * q16ToInt arg < 2^64 ∧ w.gamma * q16ToInt lc < 2^64
instance (w ep arg lc) : Decidable (NoOverflow w ep arg lc) := by unfold NoOverflow; infer_instance

theorem termTruncated {a e : Nat} (small : a * q16ToInt e < 2^64) :
    q16ToInt (wrap (a * q16ToInt e)) = truncated 65536 a e ∧ truncated 65536 a e < 2^48 := by
  rw [q16ToIntEq] at small
  rw [wrapOfLt (by rwa [q16ToIntEq]),q16ToIntEq,q16ToIntEq]
  exact ⟨rfl,Nat.div_lt_of_lt_mul (Nat.lt_of_lt_of_le small (by decide))⟩

theorem costTruncated {w : Weights} {ep arg lc : Nat} (small : NoOverflow w ep arg lc) :
    cost w ep arg lc = truncated 65536 w.alpha ep + truncated 65536 w.beta arg +
      truncated 65536 w.gamma lc := by
  obtain ⟨energy,energySmall⟩ := termTruncated small.1
  obtain ⟨gaps,gapsSmall⟩ := termTruncated small.2.1
  obtain ⟨latency,latencySmall⟩ := termTruncated small.2.2
  have first : truncated 65536 w.alpha ep + truncated 65536 w.beta arg < 2^64 := by omega
  rw [cost,energy,gaps,latency,wrapOfLt first,wrapOfLt (by omega)]

theorem latenciesExact (m : Machine) (p : Record) :
    (m.ncpus ≤ 4 → latencyPcore m p = 0 ∧ latencyEcore m p = 0) ∧
      (4 < m.ncpus → p.lastCpu < m.ncpus / 2 → latencyPcore m p = 0 ∧ latencyEcore m p = q16 2) ∧
      (4 < m.ncpus → m.ncpus / 2 ≤ p.lastCpu → latencyPcore m p = q16 2 ∧ latencyEcore m p = 0) := by
  unfold latencyPcore latencyEcore coherencyLatency
  dsimp only
  refine ⟨fun few => ?_,fun many near => ?_,fun many far => ?_⟩
  · rw [if_pos few,if_pos few,ite_self]
    exact ⟨rfl,rfl⟩
  all_goals
    have first : 0 < m.ncpus / 2 := by omega
    have last : ¬ m.ncpus - 1 < m.ncpus / 2 := by omega
    rw [if_neg (by omega : ¬ m.ncpus ≤ 4),if_pos (by omega : 1 < m.ncpus),if_pos first,if_neg last,
      if_neg (by omega : ¬ m.ncpus ≤ 4)]
  · rw [if_pos near]
    exact ⟨rfl,rfl⟩
  · rw [if_neg (by omega : ¬ p.lastCpu < m.ncpus / 2)]
    exact ⟨rfl,rfl⟩

def pcoreCost (m : Machine) (p : Record) (arg : Nat) : Nat :=
  exactCost m.weights (energyPenalty m p true) arg (latencyPcore m p)

def ecoreCost (m : Machine) (p : Record) (arg : Nat) : Nat :=
  exactCost m.weights (energyPenalty m p false) arg (latencyEcore m p)

def powerMw (m : Machine) : Nat := if m.pkgPowerMw = 0 then 15000 else m.pkgPowerMw

def energyMj (m : Machine) (p : Record) : Nat := max 1 (powerMw m * (p.cpuDemandNs / 1000000) / 1000000)

def EnergyFits (m : Machine) (p : Record) : Prop :=
  powerMw m * (p.cpuDemandNs / 1000000) < 2^64 ∧ 2 * energyMj m p < 2^48
instance (m p) : Decidable (EnergyFits m p) := by unfold EnergyFits; infer_instance

theorem energyExact {m : Machine} {p : Record} (ready : m.utbReady = true) (fits : EnergyFits m p) :
    energyPenalty m p true = 65536 * (2 * energyMj m p) / 100 ∧
      energyPenalty m p false = 65536 * energyMj m p / 100 := by
  obtain ⟨product,scaled⟩ := fits
  have estimate : (if wrap (powerMw m * (p.cpuDemandNs / 1000000)) / 1000000 = 0 then 1
      else wrap (powerMw m * (p.cpuDemandNs / 1000000)) / 1000000) = energyMj m p := by
    rw [wrapOfLt product,energyMj]
    split <;> omega
  unfold energyPenalty
  rw [if_pos ready,if_pos ready]
  change q16 (wrap ((if wrap (powerMw m * (p.cpuDemandNs / 1000000)) / 1000000 = 0 then 1
      else wrap (powerMw m * (p.cpuDemandNs / 1000000)) / 1000000) * 2)) / 100 = _ ∧
    q16 (if wrap (powerMw m * (p.cpuDemandNs / 1000000)) / 1000000 = 0 then 1
      else wrap (powerMw m * (p.cpuDemandNs / 1000000)) / 1000000) / 100 = _
  rw [estimate,wrapOfLt (by omega),Nat.mul_comm _ 2,q16OfLt scaled,q16OfLt (by omega)]
  exact ⟨rfl,rfl⟩

theorem energyWhole (x : Nat) : 65536 * x / 100 / 65536 = x / 100 := by
  rw [Nat.div_div_eq_div_mul,Nat.mul_comm 100,Nat.mul_div_mul_left _ _ (by decide)]

/- The P-core takes twice the energy `e`, cut to whole hundreds of millijoules on either core. Its
cost goes up by more than `n` when more than `n` multiples of 65536 lie in between. -/
def EnergyTells (m : Machine) (n e : Nat) : Prop :=
  Crossed 65536 n (m.weights.alpha * (e / 100)) (m.weights.alpha * (2 * e / 100))

/- With up to four CPUs only the energy differs. With more the latency counts against the core the
process did not run near, by `2 * gamma` cut to a multiple of 65536. -/
def Resolved (m : Machine) (p : Record) : Prop :=
  let e := energyMj m p
  if m.ncpus ≤ 4 then m.utbReady = false ∨ m.weights.alpha = 0 ∨ EnergyTells m 0 e
  else if p.lastCpu < m.ncpus / 2 then
    m.utbReady = false ∨
      (m.weights.alpha * (65536 * (2 * e) / 100 - 65536 * e / 100) ≤ 2^17 * m.weights.gamma ↔
        ¬ EnergyTells m (m.weights.gamma / 2^15) e)
  else 2^15 ≤ m.weights.gamma ∨ (m.utbReady = true ∧ EnergyTells m 0 e) ∨
    (m.weights.gamma = 0 ∧ (m.utbReady = false ∨ m.weights.alpha = 0))

theorem latencyCut (gamma : Nat) : truncated 65536 gamma 0 = 0 ∧ truncated 65536 gamma (q16 2) = gamma / 2^15 := by
  have two : q16 2 / 65536 = 2 := rfl
  unfold truncated
  rw [two]
  omega

/- Both comparisons by what differs: the products with `alpha`, whole and cut, and the latency. -/
def Agree (m : Machine) (p : Record) (pcore ecore cutPcore cutEcore : Nat) : Prop :=
  if m.ncpus ≤ 4 then cutPcore ≤ cutEcore ↔ pcore ≤ ecore
  else if p.lastCpu < m.ncpus / 2 then
    cutPcore ≤ cutEcore + m.weights.gamma / 2^15 ↔ pcore ≤ ecore + 2^17 * m.weights.gamma
  else cutPcore + m.weights.gamma / 2^15 ≤ cutEcore ↔ pcore + 2^17 * m.weights.gamma ≤ ecore

theorem costsAgree {m : Machine} {p : Record} {arg : Nat}
    (pcoreSmall : NoOverflow m.weights (energyPenalty m p true) arg (latencyPcore m p))
    (ecoreSmall : NoOverflow m.weights (energyPenalty m p false) arg (latencyEcore m p)) :
    (cost m.weights (energyPenalty m p true) arg (latencyPcore m p) ≤
        cost m.weights (energyPenalty m p false) arg (latencyEcore m p) ↔
      pcoreCost m p arg ≤ ecoreCost m p arg) ↔
    Agree m p (m.weights.alpha * energyPenalty m p true) (m.weights.alpha * energyPenalty m p false)
      (truncated 65536 m.weights.alpha (energyPenalty m p true))
      (truncated 65536 m.weights.alpha (energyPenalty m p false)) := by
  obtain ⟨few,near,far⟩ := latenciesExact m p
  obtain ⟨zero,two⟩ := latencyCut m.weights.gamma
  have scaled : q16 2 = 2^17 := rfl
  rw [costTruncated pcoreSmall,costTruncated ecoreSmall]
  unfold pcoreCost ecoreCost exactCost Agree
  split
  · next le =>
      rw [(few le).1,(few le).2]
      omega
  · next many =>
      split
      · next side =>
          rw [(near (by omega) side).1,(near (by omega) side).2,zero,two,scaled]
          omega
      · next side =>
          rw [(far (by omega) (by omega)).1,(far (by omega) (by omega)).2,zero,two,scaled]
          omega

theorem agreeUnready {m : Machine} {p : Record} (unready : m.utbReady = false) (x c : Nat) :
    Agree m p x x c c ↔ Resolved m p := by
  unfold Agree Resolved
  split
  · exact iff_of_true (by omega) (Or.inl unready)
  split
  · exact iff_of_true (by omega) (Or.inl unready)
  · simp only [unready,Bool.false_eq_true,false_and,true_or,and_true,false_or]
    omega

theorem agreeReady {m : Machine} {p : Record} (ready : m.utbReady = true) (fits : EnergyFits m p) :
    Agree m p (m.weights.alpha * energyPenalty m p true) (m.weights.alpha * energyPenalty m p false)
      (truncated 65536 m.weights.alpha (energyPenalty m p true))
      (truncated 65536 m.weights.alpha (energyPenalty m p false)) ↔ Resolved m p := by
  obtain ⟨pcore,ecore⟩ := energyExact ready fits
  rw [pcore,ecore,truncated,truncated,energyWhole,energyWhole]
  have tells (n : Nat) : EnergyTells m n (energyMj m p) ↔
      m.weights.alpha * (energyMj m p / 100) / 65536 + n <
        m.weights.alpha * (2 * energyMj m p / 100) / 65536 := crossedExact (by decide)
  have some : 1 ≤ energyMj m p := le_max_left _ _
  have more : 65536 * energyMj m p / 100 < 65536 * (2 * energyMj m p) / 100 := by omega
  have dearer : m.weights.alpha * (65536 * energyMj m p / 100) ≤
        m.weights.alpha * (65536 * (2 * energyMj m p) / 100) ∧
      (m.weights.alpha * (65536 * (2 * energyMj m p) / 100) ≤
        m.weights.alpha * (65536 * energyMj m p / 100) ↔ m.weights.alpha = 0) := by
    refine ⟨Nat.mul_le_mul_left _ (Nat.le_of_lt more),fun le => ?_,fun zero => by simp [zero]⟩
    by_contra pos
    exact absurd (Nat.mul_lt_mul_of_pos_left more (Nat.pos_of_ne_zero pos)) (Nat.not_lt.mpr le)
  unfold Agree Resolved
  simp only [tells,ready,Bool.true_eq_false,false_or,true_and,Nat.mul_sub]
  have cut : m.weights.alpha = 0 → m.weights.alpha * (2 * energyMj m p / 100) / 65536 = 0 := by
    intro zero
    simp [zero]
  have cutDearer : m.weights.alpha * (energyMj m p / 100) / 65536 ≤
      m.weights.alpha * (2 * energyMj m p / 100) / 65536 :=
    Nat.div_le_div_right (Nat.mul_le_mul_left _ (by omega))
  generalize m.weights.alpha * (65536 * (2 * energyMj m p) / 100) = x at dearer ⊢
  generalize m.weights.alpha * (65536 * energyMj m p / 100) = y at dearer ⊢
  generalize m.weights.alpha * (2 * energyMj m p / 100) / 65536 = cutX at cut cutDearer ⊢
  generalize m.weights.alpha * (energyMj m p / 100) / 65536 = cutY at cutDearer ⊢
  split
  · omega
  split
  · omega
  · omega

def laptop : Machine := ⟨neriNzraInit,true,15000,⟨40000000,0,262144,0,0,0,1,0⟩,4⟩

def asking (cpuDemandNs : Nat) : Record := ⟨⟨cpuDemandNs,1,0,0,0,0,0⟩,0⟩

end Nekros.Nzra
