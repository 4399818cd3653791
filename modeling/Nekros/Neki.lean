import Mathlib.Algebra.BigOperators.Intervals
import Nekros.GuardedRun
import Nekros.Loops
import Nekros.Nzra
import Nekros.SlotRing

/-! drivers/neri/neki/neki_loop.c: the window of samples and the weights tuned from it. A
division by zero is a fault and the call does not return. -/
namespace Nekros.Neki
open Words Fixed Loops
open NeriPool (Pool)
open Nzra (Weights neriNzraUpdateWeights neriNzraInit)
open GuardedRun (run)
open Function (update)

def emaAlphaNum : Nat := 3

def emaAlphaDen : Nat := 64

def nekiWindow : Nat := 64

structure Sample where
  cpuDemandNs : Nat
  cpuGrantedNs : Nat
  ramDemandPages : Nat
  ramGrantedPages : Nat
  gpuDemandSlots : Nat
  gpuGrantedSlots : Nat
  epoch : Nat
  deriving DecidableEq, Repr

def Sample.zeroed : Sample := ⟨0,0,0,0,0,0,0⟩

/- `nzra` is what neri_nzra_update_weights was last given. -/
structure State where
  window : Nat → Sample
  windowIdx : Nat
  windowFilled : Nat
  wAlpha : Nat
  wBeta : Nat
  wGamma : Nat
  cpuBiasPct : Nat
  gpuBurst : Nat
  ramPrefetch : Nat
  reclaimAggr : Nat
  nzra : Weights

def loaded : State :=
  ⟨fun _ => Sample.zeroed,0,0,q16 1,q16 1,q16 1,50,0,4,64,neriNzraInit⟩

def nekiCalibInit (s : State) : State :=
  {s with window := fun _ => Sample.zeroed,windowIdx := 0,windowFilled := 0,
          wAlpha := q16 1,wBeta := q16 1,wGamma := q16 1}

def emaStep (oldVal signal : Nat) : Nat :=
  let diff := if oldVal < signal then signal - oldVal else oldVal - signal
  let delta := wrap (diff * emaAlphaNum) / emaAlphaDen
  if oldVal < signal then wrap (oldVal + delta)
  else if delta < oldVal then oldVal - delta else q16 0 + 1

structure Usage where
  demand : Nat
  waste : Nat
  deriving DecidableEq, Repr

def wasted (demand granted : Nat) : Nat := if granted < demand then demand - granted else 0

def Usage.add (u : Usage) (demand granted : Nat) : Usage :=
  ⟨wrap (u.demand + demand),wrap (u.waste + wasted demand granted)⟩

structure Totals where
  cpu : Usage
  ram : Usage
  gpu : Usage
  deriving DecidableEq, Repr

def Totals.add (t : Totals) (s : Sample) : Totals :=
  ⟨t.cpu.add s.cpuDemandNs s.cpuGrantedNs,t.ram.add s.ramDemandPages s.ramGrantedPages,
    t.gpu.add s.gpuDemandSlots s.gpuGrantedSlots⟩

def tally (window : Nat → Sample) (n : Nat) : Totals :=
  upTo n (fun i t => t.add (window i)) ⟨⟨0,0⟩,⟨0,0⟩,⟨0,0⟩⟩

def wasteSignal (u : Usage) : Option Nat :=
  if u.demand ≠ 0 then (divide (q16 u.waste) (u.demand / 64)).map (fun ratio => min (q16 2) ratio)
  else some (q16 1)

/- The CPU signal is turned around one; the other two are taken as they are. -/
def reflected (signal : Nat) : Nat :=
  if q16 1 < signal then sub64 (q16 1) (signal - q16 1) else q16 1

def clampWeight (w : Nat) : Nat := max (q16 0 + q16 1 / 4) (min (q16 4) w)

def burstSlots (demand n : Nat) : Option Nat := if demand ≠ 0 then divide demand n else some 0

def analyseSamples (s : State) (n : Nat) : Option State := do
  let t := tally s.window n
  let cpuSignal ← wasteSignal t.cpu
  let ramSignal ← wasteSignal t.ram
  let gpuSignal ← wasteSignal t.gpu
  let wAlpha := clampWeight (emaStep s.wAlpha (reflected cpuSignal))
  let wBeta := clampWeight (emaStep s.wBeta ramSignal)
  let wGamma := clampWeight (emaStep s.wGamma gpuSignal)
  let gpuBurst ← burstSlots t.gpu.demand n
  some {s with
    wAlpha,wBeta,wGamma
    nzra := neriNzraUpdateWeights s.nzra wAlpha wBeta wGamma
    cpuBiasPct := min 90 (max 10 (wrap (50 + q16ToInt wAlpha * 10) % 2^32))
    gpuBurst := gpuBurst % 2^32
    ramPrefetch := wrap (4 + q16ToInt wBeta) % 2^32
    reclaimAggr := min 255 ((64 + wrap (q16ToInt wBeta * 16) % 2^32) % 2^32) % 2^8}

def nekiAnalyse (s : State) : Option State :=
  let n := if s.windowFilled < nekiWindow then s.windowFilled else nekiWindow
  if n = 0 then some s else analyseSamples s n

def sampleOf (pool : Pool) (epoch : Nat) : Sample :=
  ⟨pool.cpuAllocNs,pool.cpuAllocNs,pool.ramAllocPages,pool.ramAllocPages,
    pool.gpuAllocSlots,pool.gpuAllocSlots,epoch⟩

def record (s : State) (x : Sample) : State :=
  {s with
    window := update s.window (s.windowIdx % nekiWindow) x
    windowIdx := (s.windowIdx + 1) % 2^32
    windowFilled := min (s.windowFilled + 1) nekiWindow}

def nekiTick (s : State) (pool : Option Pool) (epoch : Nat) : Option State :=
  match pool with
  | none => some s
  | some pool =>
      let s := record s (sampleOf pool epoch)
      if 8 ≤ s.windowFilled then nekiAnalyse s else some s

inductive Dimension where
  | cpu
  | ram
  | gpu
  deriving DecidableEq, Repr

def Dimension.demand : Dimension → Sample → Nat
  | .cpu => Sample.cpuDemandNs
  | .ram => Sample.ramDemandPages
  | .gpu => Sample.gpuDemandSlots

def Dimension.granted : Dimension → Sample → Nat
  | .cpu => Sample.cpuGrantedNs
  | .ram => Sample.ramGrantedPages
  | .gpu => Sample.gpuGrantedSlots

def Dimension.usage : Dimension → Totals → Usage
  | .cpu => Totals.cpu
  | .ram => Totals.ram
  | .gpu => Totals.gpu

def Dimension.weight : Dimension → State → Nat
  | .cpu => State.wAlpha
  | .ram => State.wBeta
  | .gpu => State.wGamma

def demanded (d : Dimension) (window : Nat → Sample) (n : Nat) : Nat :=
  ∑ i ∈ Finset.range n, d.demand (window i)

def wastedIn (d : Dimension) (window : Nat → Sample) (n : Nat) : Nat :=
  ∑ i ∈ Finset.range n, wasted (d.demand (window i)) (d.granted (window i))

theorem usageAdd (d : Dimension) (t : Totals) (s : Sample) :
    d.usage (t.add s) = (d.usage t).add (d.demand s) (d.granted s) := by
  cases d <;> rfl

theorem wrapAdd (x y : Nat) : wrap (wrap x + y) = wrap (x + y) := Nat.mod_add_mod _ _ _

theorem tallySums (d : Dimension) (window : Nat → Sample) (n : Nat) :
    d.usage (tally window n) = ⟨wrap (demanded d window n),wrap (wastedIn d window n)⟩ := by
  induction n with
  | zero => cases d <;> rfl
  | succ n ih =>
      have last : tally window (n+1) = (tally window n).add (window n) := rfl
      have more : demanded d window (n+1) = demanded d window n + d.demand (window n) :=
        Finset.sum_range_succ _ _
      have lost : wastedIn d window (n+1) =
          wastedIn d window n + wasted (d.demand (window n)) (d.granted (window n)) :=
        Finset.sum_range_succ _ _
      rw [last,usageAdd,ih,Usage.add,wrapAdd,wrapAdd,more,lost]

/- The sum is tested and its sixty-fourth is divided by. -/
def SumFaults (demand : Nat) : Prop := demand ≠ 0 ∧ demand < 64
instance (demand) : Decidable (SumFaults demand) := by unfold SumFaults; infer_instance

theorem wasteSignalFaults {u : Usage} : wasteSignal u = none ↔ SumFaults u.demand := by
  unfold wasteSignal SumFaults
  split
  · next some =>
      rw [Option.map_eq_none_iff,divideFaults]
      simp [some]
  · next none => simp [none]

theorem analyseSome {s : State} (some : 0 < s.windowFilled) (le : s.windowFilled ≤ nekiWindow) :
    nekiAnalyse s = analyseSamples s s.windowFilled := by
  have count : (if s.windowFilled < nekiWindow then s.windowFilled else nekiWindow) = s.windowFilled := by
    split <;> omega
  rw [nekiAnalyse,count]
  exact if_neg (by omega)

theorem burstReturns (demand : Nat) {n : Nat} (pos : 0 < n) : ∃ burst, burstSlots demand n = some burst := by
  unfold burstSlots
  split
  · exact ⟨_,divideSome.mpr ⟨by omega,rfl⟩⟩
  · exact ⟨_,rfl⟩

structure Analysed (s : State) (n : Nat) (t : State) (cpuSignal ramSignal gpuSignal : Nat) : Prop where
  cpu : wasteSignal (tally s.window n).cpu = some cpuSignal
  ram : wasteSignal (tally s.window n).ram = some ramSignal
  gpu : wasteSignal (tally s.window n).gpu = some gpuSignal
  alpha : t.wAlpha = clampWeight (emaStep s.wAlpha (reflected cpuSignal))
  beta : t.wBeta = clampWeight (emaStep s.wBeta ramSignal)
  gamma : t.wGamma = clampWeight (emaStep s.wGamma gpuSignal)
  window : t.window = s.window ∧ t.windowIdx = s.windowIdx ∧ t.windowFilled = s.windowFilled

theorem analyseSource {s t : State} {n : Nat} (ran : analyseSamples s n = some t) :
    ∃ cpuSignal ramSignal gpuSignal, Analysed s n t cpuSignal ramSignal gpuSignal := by
  simp only [analyseSamples,bind,Option.bind_eq_some_iff] at ran
  obtain ⟨cpuSignal,cpu,ramSignal,ram,gpuSignal,gpu,_,_,last⟩ := ran
  cases last
  exact ⟨cpuSignal,ramSignal,gpuSignal,cpu,ram,gpu,rfl,rfl,rfl,rfl,rfl,rfl⟩

theorem analyseFaults (s : State) {n : Nat} (pos : 0 < n) :
    analyseSamples s n = none ↔ ∃ d : Dimension, SumFaults (wrap (demanded d s.window n)) := by
  have sums (d : Dimension) : SumFaults (wrap (demanded d s.window n)) ↔
      wasteSignal (d.usage (tally s.window n)) = none := by
    rw [wasteSignalFaults,tallySums]
  simp only [sums]
  constructor
  · intro faults
    cases cpu : wasteSignal (tally s.window n).cpu with
    | none => exact ⟨.cpu,cpu⟩
    | some _ =>
        cases ram : wasteSignal (tally s.window n).ram with
        | none => exact ⟨.ram,ram⟩
        | some _ =>
            cases gpu : wasteSignal (tally s.window n).gpu with
            | none => exact ⟨.gpu,gpu⟩
            | some _ =>
                obtain ⟨burst,returned⟩ := burstReturns (tally s.window n).gpu.demand pos
                simp [analyseSamples,cpu,ram,gpu,returned] at faults
  · rintro ⟨d,faults⟩
    cases ran : analyseSamples s n with
    | none => rfl
    | some t =>
        obtain ⟨_,_,_,source⟩ := analyseSource ran
        cases d with
        | cpu => cases faults.symm.trans source.cpu
        | ram => cases faults.symm.trans source.ram
        | gpu => cases faults.symm.trans source.gpu

def tick (s : State) (e : Option Pool × Nat) : Option State := nekiTick s e.1 e.2

def samples (ticks : List (Option Pool × Nat)) : List Sample :=
  ticks.filterMap fun e => e.1.map fun pool => sampleOf pool e.2

def recent (taken : List Sample) : List Sample := taken.drop (taken.length - nekiWindow)

def recentDemand (d : Dimension) (taken : List Sample) : Nat := ((recent taken).map d.demand).sum

structure Recorded (s : State) (taken : List Sample) : Prop where
  idx : s.windowIdx = taken.length % 2^32
  filled : s.windowFilled = min taken.length nekiWindow
  holds : SlotRing.Holds nekiWindow (fun i x => x = taken.getD i Sample.zeroed) s.window 0 taken.length

theorem sumDrop (value : Sample → Nat) (taken : List Sample) (m : Nat) :
    ((taken.drop m).map value).sum =
      ∑ i ∈ Finset.Ico m taken.length, value (taken.getD i Sample.zeroed) := by
  induction taken generalizing m with
  | nil => simp
  | cons x rest ih =>
      cases m with
      | zero =>
          have all := ih 0
          rw [List.drop_zero,← Finset.range_eq_Ico] at all
          rw [List.drop_zero,← Finset.range_eq_Ico,List.length_cons,Finset.sum_range_succ',
            List.map_cons,List.sum_cons,all,Nat.add_comm]
          rfl
      | succ m =>
          rw [List.drop_succ_cons,ih m,List.length_cons,← Finset.sum_Ico_add']
          rfl

theorem recordedDemand {s : State} {taken : List Sample} (h : Recorded s taken) (d : Dimension) :
    demanded d s.window s.windowFilled = recentDemand d taken := by
  rw [demanded,h.filled,SlotRing.sumSlots d.demand h.holds,recentDemand,recent,sumDrop]

theorem recordSample {s : State} {taken : List Sample} (h : Recorded s taken) (x : Sample) :
    Recorded (record s x) (taken ++ [x]) where
  idx := by
    rw [List.length_append,List.length_singleton,record,h.idx]
    exact Nat.mod_add_mod _ _ _
  filled := by
    rw [List.length_append,List.length_singleton,record,h.filled]
    dsimp only
    omega
  holds := by
    have slot : s.windowIdx % nekiWindow = taken.length % nekiWindow := by
      rw [h.idx,Nat.mod_mod_of_dvd _ (by decide)]
    rw [List.length_append,List.length_singleton,record,slot]
    refine SlotRing.holdsPush (by simp) (SlotRing.holdsImp (fun i y before same => ?_) h.holds)
    rw [same,List.getD_append _ _ _ _ before]

def Safe (taken : List Sample) : Prop :=
  8 ≤ taken.length → ∀ d : Dimension, ¬ SumFaults (wrap (recentDemand d taken))

theorem tickRecords {s : State} {taken : List Sample} (h : Recorded s taken) (pool : Pool) (epoch : Nat) :
    (¬ Safe (taken ++ [sampleOf pool epoch]) ∧ nekiTick s (some pool) epoch = none) ∨
      (Safe (taken ++ [sampleOf pool epoch]) ∧
        ∃ t, nekiTick s (some pool) epoch = some t ∧ Recorded t (taken ++ [sampleOf pool epoch])) := by
  have next := recordSample h (sampleOf pool epoch)
  have began : nekiTick s (some pool) epoch =
      (if 8 ≤ (record s (sampleOf pool epoch)).windowFilled then nekiAnalyse (record s (sampleOf pool epoch))
        else some (record s (sampleOf pool epoch))) := rfl
  rw [began]
  generalize record s (sampleOf pool epoch) = s' at next ⊢
  generalize taken ++ [sampleOf pool epoch] = taken' at next ⊢
  have filled := next.filled
  have window : nekiWindow = 64 := rfl
  split
  · next enough =>
      have pos : 0 < s'.windowFilled := by omega
      have faults := analyseFaults s' pos
      simp only [recordedDemand next] at faults
      rw [analyseSome pos (by omega)]
      cases ran : analyseSamples s' s'.windowFilled with
      | none =>
          obtain ⟨d,fault⟩ := faults.mp ran
          exact .inl ⟨fun safe => safe (by omega) d fault,rfl⟩
      | some t =>
          obtain ⟨_,_,_,source⟩ := analyseSource ran
          obtain ⟨sameWindow,sameIdx,sameFilled⟩ := source.window
          refine .inr ⟨fun _ d fault => ?_,t,rfl,?_⟩
          · rw [faults.mpr ⟨d,fault⟩] at ran
            cases ran
          · exact ⟨sameIdx.trans next.idx,sameFilled.trans next.filled,sameWindow ▸ next.holds⟩
  · next few => exact .inr ⟨fun eight => absurd eight (by omega),s',rfl,next⟩

theorem ticksReturnExact (ticks : List (Option Pool × Nat)) {s : State} {taken : List Sample}
    (h : Recorded s taken) (safe : Safe taken) :
    (run tick s ticks).isSome ↔ ∀ n, Safe (taken ++ samples (ticks.take n)) := by
  induction ticks generalizing s taken with
  | nil =>
      refine iff_of_true rfl fun n => ?_
      rwa [List.take_nil,samples,List.filterMap_nil,List.append_nil]
  | cons e rest ih =>
      obtain ⟨pool,epoch⟩ := e
      have first : Safe (taken ++ samples (((pool,epoch)::rest).take 0)) := by
        rwa [List.take_zero,samples,List.filterMap_nil,List.append_nil]
      have split : (∀ n, Safe (taken ++ samples (((pool,epoch)::rest).take n))) ↔
          ∀ n, Safe (taken ++ samples ((pool,epoch)::rest.take n)) := by
        constructor
        · exact fun all n => all (n+1)
        · intro all n
          cases n with
          | zero => exact first
          | succ n => exact all n
      rw [split]
      cases pool with
      | none => exact ih h safe
      | some pool =>
          have more (n : Nat) : taken ++ samples ((some pool,epoch)::rest.take n) =
              taken ++ [sampleOf pool epoch] ++ samples (rest.take n) := by
            rw [List.append_assoc]
            rfl
          simp only [more]
          rcases tickRecords h pool epoch with ⟨broken,faulted⟩ | ⟨safe',t,ticked,kept⟩
          · have stopped : tick s (some pool,epoch) = none := faulted
            rw [run,stopped]
            refine iff_of_false (by simp) fun all => broken ?_
            have one := all 0
            rwa [List.take_zero,samples,List.filterMap_nil,List.append_nil] at one
          · have went : tick s (some pool,epoch) = some t := ticked
            rw [run,went,Option.bind_some]
            exact ih kept safe'

theorem startRecorded : Recorded (nekiCalibInit loaded) [] := ⟨rfl,rfl,SlotRing.holdsNone _ _ _ 0⟩

theorem divisionFaultsExact (ticks : List (Option Pool × Nat)) (m : Nzra.Machine) (p : Nzra.Record) :
    ((run tick (nekiCalibInit loaded) ticks).isSome ↔ ∀ n, Safe (samples (ticks.take n))) ∧
      ((Nzra.neriNzraDecide m p).isSome ↔ ¬ Nzra.ResourceFaults m p) := by
  constructor
  · exact ticksReturnExact ticks startRecorded fun eight => absurd eight (by decide)
  · rw [← Nzra.decideFaults,Option.isSome_iff_ne_none]

def oneSlot : Pool := ⟨40000000,0,262144,0,4,1,1,0⟩

theorem oneSlotFaults :
    (run tick (nekiCalibInit loaded) (List.replicate 8 (some oneSlot,0))).isNone ∧
    Nzra.neriNzraDecide {Nzra.laptop with pool := {oneSlot with ramTotalPages := 10}}
      {Nzra.asking 0 with ramDemandPages := 11} = none := by
  constructor
  · decide +kernel
  · decide +kernel

end Nekros.Neki
