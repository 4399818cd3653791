import Nekros.Hal
import Nekros.Loops
import Nekros.NeriAdo

/-! drivers/neri/core/neri_utb.c: the telemetry snapshot. What a call reads from the MSRs, the
clock and the HFI table is an argument; warnings that are printed are left out. -/
namespace Nekros.Utb
open Words Loops
open Hal (nekrosTscToNs)
open NeriAdo (ipcClassCompute ipcClassMemory)
open Sched (ncpusMax)
open Function (update)

def ipcClassMixed : Nat := 2

def ipcClassIdle : Nat := 3

def utbMinRaplUnitMw : Nat := 100

def utbMaxRaplUnitMw : Nat := 100000

def utbMaxPkgPowerMw : Nat := 300000

def utbMaxDramPowerMw : Nat := 50000

def utbMaxPp0PowerMw : Nat := 280000

structure Snapshot where
  pkgPowerMw : Nat
  pp0PowerMw : Nat
  dramPowerMw : Nat
  ipcClass : Nat → Nat
  aperf : Nat → Nat
  mperf : Nat → Nat
  tscSnapshot : Nat
  sampleEpoch : Nat

def Snapshot.zeroed : Snapshot := ⟨0,0,0,fun _ => 0,fun _ => 0,fun _ => 0,0,0⟩

structure Machine where
  hasHfi : Bool
  tscKhz : Nat
  ncpus : Nat
  clocked : tscKhz ≠ 0
  counted : 0 < ncpus ∧ ncpus ≤ ncpusMax

structure State where
  snapshot : Snapshot
  ready : Bool
  raplUnitMw : Nat
  lastPkgRaw : Nat
  lastDramRaw : Nat
  lastTsc : Nat

structure Reading where
  tsc : Nat
  raplPowerUnit : Nat
  pkgEnergyStatus : Nat
  dramEnergyStatus : Nat
  ia32Aperf : Nat
  ia32Mperf : Nat
  hfiTablePtr : Nat
  memory : Nat → Nat
  epoch : Nat

def loaded : State := ⟨Snapshot.zeroed,false,1000,0,0,0⟩

def readRaplEnergyMj (msr : Nat) : Nat := msr % 2^32

def raplDeltaToMw (s : State) (rawDelta elapsedNs : Nat) : Nat :=
  if elapsedNs = 0 then 0
  else
    let energyMj := wrap (rawDelta * s.raplUnitMw) / 1000
    wrap (energyMj * 1000000) / elapsedNs

def classifyCpuIpc (s : Snapshot) (cpu : Nat) : Nat :=
  if ncpusMax ≤ cpu then ipcClassIdle
  else if s.mperf cpu = 0 then ipcClassIdle
  else
    let ratio := wrap (s.aperf cpu * 100) / s.mperf cpu
    if 85 < ratio then ipcClassCompute
    else if ratio < 40 then ipcClassMemory
    else ipcClassMixed

def neriUtbInit (_ : State) (r : Reading) : State :=
  let energyUnitExp := r.raplPowerUnit / 2^8 % 2^5
  let unit := 1000 / 2^energyUnitExp
  let unit := if unit < utbMinRaplUnitMw then utbMinRaplUnitMw else unit
  let unit := if utbMaxRaplUnitMw < unit then utbMaxRaplUnitMw else unit
  { snapshot := {Snapshot.zeroed with
      aperf := update Snapshot.zeroed.aperf 0 r.ia32Aperf
      mperf := update Snapshot.zeroed.mperf 0 r.ia32Mperf}
    ready := true
    raplUnitMw := unit
    lastPkgRaw := readRaplEnergyMj r.pkgEnergyStatus
    lastDramRaw := readRaplEnergyMj r.dramEnergyStatus
    lastTsc := r.tsc }

def clampPower (s : Snapshot) : Snapshot :=
  let pkg := if utbMaxPkgPowerMw < s.pkgPowerMw then utbMaxPkgPowerMw else s.pkgPowerMw
  let dram := if utbMaxDramPowerMw < s.dramPowerMw then utbMaxDramPowerMw else s.dramPowerMw
  let pp0 := if utbMaxPp0PowerMw < s.pp0PowerMw then utbMaxPp0PowerMw else s.pp0PowerMw
  {s with pkgPowerMw := pkg,dramPowerMw := dram,pp0PowerMw := if pkg < pp0 then pkg else pp0}

def sanitizeCounters (i : Nat) (s : Snapshot) : Snapshot :=
  if s.mperf i = 0 then
    {s with ipcClass := update s.ipcClass i ipcClassIdle,aperf := update s.aperf i 0}
  else if s.mperf i < s.aperf i then {s with aperf := update s.aperf i (s.mperf i)}
  else s

def sanitizeClass (i : Nat) (s : Snapshot) : Snapshot :=
  let cls := s.ipcClass i
  if cls ≠ ipcClassIdle ∧ cls ≠ ipcClassCompute ∧ cls ≠ ipcClassMemory ∧ cls ≠ ipcClassMixed then
    {s with ipcClass := update s.ipcClass i ipcClassIdle}
  else s

def utbSanitizeSnapshot (s : Snapshot) : Snapshot :=
  upTo ncpusMax sanitizeClass (upTo ncpusMax sanitizeCounters (clampPower s))

def counterDelta (raw last : Nat) : Nat := if last ≤ raw then raw - last else wrap (2^32 - last + raw)

def perfOf (r : Reading) (i : Nat) : Nat := r.memory (wrap (r.hfiTablePtr / 16 * 16 + i * 2))

def tableClass (perf : Nat) : Nat :=
  if 200 ≤ perf then ipcClassCompute else if 100 ≤ perf then ipcClassMixed else ipcClassMemory

def readHfi (r : Reading) (i : Nat) (s : Snapshot) : Snapshot :=
  {s with ipcClass := update s.ipcClass i (tableClass (perfOf r i))}

/- PP0 is taken to be what DRAM leaves of the package. -/
def setPower (s : Snapshot) (pkg dram : Nat) : Snapshot :=
  {s with pkgPowerMw := pkg,dramPowerMw := dram,pp0PowerMw := if dram < pkg then pkg - dram else 0}

def samplePower (m : Machine) (s : State) (r : Reading) : State :=
  let elapsedNs := nekrosTscToNs m.tscKhz (sub64 r.tsc s.lastTsc)
  let pkgRaw := readRaplEnergyMj r.pkgEnergyStatus
  let dramRaw := readRaplEnergyMj r.dramEnergyStatus
  let pkg := raplDeltaToMw s (counterDelta pkgRaw s.lastPkgRaw) elapsedNs
  let dram := raplDeltaToMw s (counterDelta dramRaw s.lastDramRaw) elapsedNs
  {s with
    lastTsc := r.tsc
    lastPkgRaw := pkgRaw
    lastDramRaw := dramRaw
    snapshot := setPower s.snapshot pkg dram}

def sampleCounters (s : Snapshot) (r : Reading) : Snapshot :=
  let s := {s with aperf := update s.aperf 0 r.ia32Aperf,mperf := update s.mperf 0 r.ia32Mperf}
  {s with ipcClass := update s.ipcClass 0 (classifyCpuIpc s 0)}

def sampleHfi (m : Machine) (s : Snapshot) (r : Reading) : Snapshot :=
  if m.hasHfi ∧ r.hfiTablePtr ≠ 0 then upTo (min m.ncpus ncpusMax) (readHfi r) s else s

def gathered (m : Machine) (s : Snapshot) (r : Reading) : Snapshot :=
  {sampleHfi m (sampleCounters s r) r with tscSnapshot := r.tsc,sampleEpoch := r.epoch}

def neriUtbSample (m : Machine) (s : State) (r : Reading) : State :=
  if s.ready then
    let s := samplePower m s r
    {s with snapshot := utbSanitizeSnapshot (gathered m s.snapshot r)}
  else s

theorem countersTurn (n : Nat) (s : Snapshot) :
    (sanitizeCounters n s).mperf = s.mperf ∧
      ∀ i, (sanitizeCounters n s).ipcClass i =
        if i = n ∧ s.mperf i = 0 then ipcClassIdle else s.ipcClass i := by
  unfold sanitizeCounters
  split
  · next idle =>
      refine ⟨rfl,fun i => ?_⟩
      by_cases here : i = n
      · subst here
        exact (Function.update_self _ _ _).trans (if_pos ⟨rfl,idle⟩).symm
      · exact (Function.update_of_ne here _ _).trans (if_neg (fun both => here both.1)).symm
  · next counts =>
      have same (i : Nat) : s.ipcClass i = if i = n ∧ s.mperf i = 0 then ipcClassIdle else s.ipcClass i := by
        rw [if_neg]
        rintro ⟨rfl,zero⟩
        exact counts zero
      split
      · exact ⟨rfl,same⟩
      · exact ⟨rfl,same⟩

theorem countersKept (n : Nat) (s : Snapshot) :
    (upTo n sanitizeCounters s).mperf = s.mperf ∧
      ∀ i, (upTo n sanitizeCounters s).ipcClass i =
        if i < n ∧ s.mperf i = 0 then ipcClassIdle else s.ipcClass i := by
  induction n with
  | zero => exact ⟨rfl,fun i => (if_neg (fun both => absurd both.1 (Nat.not_lt_zero i))).symm⟩
  | succ n ih =>
      obtain ⟨mperf,classes⟩ := countersTurn n (upTo n sanitizeCounters s)
      refine ⟨mperf.trans ih.1,fun i => ?_⟩
      rw [upTo,classes i,ih.1,ih.2 i]
      by_cases zero : s.mperf i = 0
      · simp only [zero,and_true]
        by_cases here : i = n
        · rw [if_pos here,if_pos (by omega)]
        · rw [if_neg here]
          exact if_congr (by omega) rfl rfl
      · simp only [zero,and_false,if_false]

def Defined (cls : Nat) : Prop :=
  cls = ipcClassIdle ∨ cls = ipcClassCompute ∨ cls = ipcClassMemory ∨ cls = ipcClassMixed

theorem classKept (n : Nat) (s : Snapshot) {i : Nat} (known : Defined (s.ipcClass i)) :
    (upTo n sanitizeClass s).ipcClass i = s.ipcClass i := by
  induction n with
  | zero => rfl
  | succ n ih =>
      rw [upTo]
      generalize upTo n sanitizeClass s = t at ih ⊢
      unfold sanitizeClass
      dsimp only
      split
      · next unknown =>
          have other : i ≠ n := by
            rintro rfl
            rw [ih] at unknown
            rcases known with idle | compute | memory | mixed
            · exact unknown.1 idle
            · exact unknown.2.1 compute
            · exact unknown.2.2.1 memory
            · exact unknown.2.2.2 mixed
          exact (Function.update_of_ne other _ _).trans ih
      · exact ih

theorem sanitizedClass (s : Snapshot) {i : Nat} (low : i < ncpusMax) (known : Defined (s.ipcClass i)) :
    (utbSanitizeSnapshot s).ipcClass i = if s.mperf i = 0 then ipcClassIdle else s.ipcClass i := by
  have counters : (upTo ncpusMax sanitizeCounters (clampPower s)).ipcClass i =
      if s.mperf i = 0 then ipcClassIdle else s.ipcClass i := by
    rw [(countersKept ncpusMax (clampPower s)).2 i]
    simp only [low,true_and]
    rfl
  rw [utbSanitizeSnapshot,classKept,counters]
  rw [counters]
  split
  · exact .inl rfl
  · exact known

theorem sanitizedMperf (s : Snapshot) : (utbSanitizeSnapshot s).mperf = s.mperf := by
  have classes (n : Nat) (t : Snapshot) : (upTo n sanitizeClass t).mperf = t.mperf := by
    induction n with
    | zero => rfl
    | succ n ih =>
        rw [upTo,← ih]
        unfold sanitizeClass
        dsimp only
        split <;> rfl
  rw [utbSanitizeSnapshot,classes]
  exact (countersKept ncpusMax (clampPower s)).1

theorem hfiRead (r : Reading) (n : Nat) (s : Snapshot) :
    (upTo n (readHfi r) s).mperf = s.mperf ∧
      ∀ i < n, (upTo n (readHfi r) s).ipcClass i = tableClass (perfOf r i) := by
  induction n with
  | zero => exact ⟨rfl,fun i low => absurd low (Nat.not_lt_zero i)⟩
  | succ n ih =>
      refine ⟨ih.1,fun i low => ?_⟩
      by_cases here : i = n
      · subst here
        exact Function.update_self _ _ _
      · exact (Function.update_of_ne here _ _).trans (ih.2 i (by omega))

theorem tableClassDefined (perf : Nat) : Defined (tableClass perf) ∧ tableClass perf ≠ ipcClassIdle := by
  unfold tableClass
  split
  · exact ⟨.inr (.inl rfl),by decide⟩
  split
  · exact ⟨.inr (.inr (.inr rfl)),by decide⟩
  · exact ⟨.inr (.inr (.inl rfl)),by decide⟩

/- Only the counters of CPU 0 are ever read. -/
structure Sampled (s : State) : Prop where
  ready : s.ready = true
  others : ∀ i, i ≠ 0 → s.snapshot.mperf i = 0

theorem initSampled (s : State) (r : Reading) : Sampled (neriUtbInit s r) :=
  ⟨rfl,fun _ other => Function.update_of_ne other _ _⟩

theorem gatheredMperf (m : Machine) (s : Snapshot) (r : Reading) :
    (gathered m s r).mperf = update s.mperf 0 r.ia32Mperf := by
  unfold gathered sampleHfi
  dsimp only
  split
  · exact (hfiRead r _ _).1
  · rfl

theorem gatheredClass {m : Machine} (s : Snapshot) {r : Reading} (hfi : m.hasHfi = true)
    (table : r.hfiTablePtr ≠ 0) {i : Nat} (low : i < m.ncpus) :
    (gathered m s r).ipcClass i = tableClass (perfOf r i) := by
  unfold gathered sampleHfi
  dsimp only
  rw [if_pos ⟨hfi,table⟩,Nat.min_eq_left m.counted.2]
  exact (hfiRead r m.ncpus _).2 i low

theorem sampledSnapshot {m : Machine} {s : State} (ready : s.ready = true) (r : Reading) :
    (neriUtbSample m s r).snapshot = utbSanitizeSnapshot (gathered m (samplePower m s r).snapshot r) := by
  rw [neriUtbSample,if_pos ready]

theorem setPowerMperf (s : Snapshot) (pkg dram : Nat) : (setPower s pkg dram).mperf = s.mperf := rfl

theorem powerMperf (m : Machine) (s : State) (r : Reading) :
    (samplePower m s r).snapshot.mperf = s.snapshot.mperf := by
  unfold samplePower
  dsimp only
  rw [setPowerMperf]

theorem sampleReady (m : Machine) {s : State} (ready : s.ready = true) (r : Reading) :
    (neriUtbSample m s r).ready = true := by
  rw [neriUtbSample,if_pos ready]
  simp only [samplePower,ready]

theorem sampleSampled {m : Machine} {s : State} (h : Sampled s) (r : Reading) :
    Sampled (neriUtbSample m s r) where
  ready := sampleReady m h.ready r
  others := fun i other => by
    rw [sampledSnapshot h.ready,sanitizedMperf,gatheredMperf,Function.update_of_ne other,powerMperf]
    exact h.others i other

theorem runSampled (m : Machine) (readings : List Reading) {s : State} (h : Sampled s) :
    Sampled (readings.foldl (neriUtbSample m) s) := by
  induction readings generalizing s with
  | nil => exact h
  | cons r rest ih => exact ih (sampleSampled h r)

theorem publishedClass {m : Machine} {s : State} {r : Reading} (hfi : m.hasHfi = true) (h : Sampled s)
    (table : r.hfiTablePtr ≠ 0) {i : Nat} (low : i < m.ncpus) :
    (neriUtbSample m s r).snapshot.ipcClass i =
      if update s.snapshot.mperf 0 r.ia32Mperf i = 0 then ipcClassIdle else tableClass (perfOf r i) := by
  have low' : i < ncpusMax := Nat.lt_of_lt_of_le low m.counted.2
  have read := gatheredClass (samplePower m s r).snapshot hfi table low
  rw [sampledSnapshot h.ready,sanitizedClass _ low',gatheredMperf,read,powerMperf]
  · rw [read]
    exact (tableClassDefined _).1

theorem tableClassPublished {m : Machine} (hfi : m.hasHfi = true) (s : State) (first : Reading)
    (readings : List Reading) {r : Reading} (table : r.hfiTablePtr ≠ 0) (counting : r.ia32Mperf ≠ 0)
    {i : Nat} (low : i < m.ncpus) :
    (neriUtbSample m (readings.foldl (neriUtbSample m) (neriUtbInit s first)) r).snapshot.ipcClass i =
      tableClass (perfOf r i) ↔ i = 0 := by
  have before := runSampled m readings (initSampled s first)
  rw [publishedClass hfi before table low]
  by_cases zero : i = 0
  · subst zero
    rw [Function.update_self,if_neg counting]
    exact iff_of_true rfl rfl
  · rw [Function.update_of_ne zero,before.others i zero,if_pos rfl]
    exact iff_of_false (tableClassDefined _).2.symm zero

theorem oneCpu : 0 < 1 ∧ 1 ≤ ncpusMax := by decide

def twoCpus : Machine := ⟨true,2000000,2,by decide,by decide⟩

def fullSpeed : Reading := ⟨0,0,0,0,1000,1000,0x1000,fun _ => 255,1⟩

theorem tableClassPublishedFirst :
    (neriUtbSample twoCpus ([fullSpeed].foldl (neriUtbSample twoCpus) (neriUtbInit loaded fullSpeed))
      fullSpeed).snapshot.ipcClass 0 = tableClass (perfOf fullSpeed 0) :=
  (tableClassPublished (m := twoCpus) rfl loaded fullSpeed [fullSpeed] (by decide) (by decide)
    (by decide)).mpr rfl

theorem secondCpuPublishedIdle :
    (neriUtbSample twoCpus (neriUtbInit loaded fullSpeed) fullSpeed).snapshot.ipcClass 1 = ipcClassIdle ∧
      tableClass (perfOf fullSpeed 1) = ipcClassCompute := by
  constructor
  · rw [publishedClass rfl (initSampled loaded fullSpeed) (by decide) (by decide)]
    exact if_pos rfl
  · rfl

end Nekros.Utb
