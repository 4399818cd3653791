import Nekros.Neki
import Nekros.NeriScore
import Nekros.NeriSched

/-! neri_sched_tick of drivers/neri/core/neri_pool.c with everything it calls: a new epoch takes the
page counts and a telemetry sample, every 64th feeds the optimiser and every 32nd the anomaly
detector. Between epochs tasks are created and leave, and their records are written. -/
namespace Nekros.NeriEpoch
open Words Errno
open NeriPool (Proc Clock neriEpochNs neriPoolInit neriSchedRelease)
open NeriSched (Demand admission newProc enrolled)
open NeriScore (Fpu exactFpu neriSecRescore neriSecInit neriSecAdmitAllowed neriSecGetAnomaly levelOf
  Anomaly FeatureAcc Quiet Sane)
open Utb (Machine Reading Snapshot neriUtbSample neriUtbInit utbSanitizeSnapshot)
open Neki (nekiTick nekiCalibInit)
open GuardedRun (run Guarded guardedReturns)

structure World where
  neri : NeriPool.State
  utb : Utb.State
  neki : Neki.State
  nsm : NeriScore.State

def tuned (s : Neki.State) (pool : NeriPool.Pool) : Option Neki.State :=
  if pool.epoch % 64 = 0 then nekiTick s (some pool) pool.epoch else some s

def judged (fpu : Fpu) (s : NeriScore.State) (pool : NeriPool.Pool) (snapshot : Snapshot) : Option NeriScore.State :=
  if pool.epoch % 32 = 0 then neriSecRescore fpu s pool.epoch snapshot else some s

def neriSchedTick (fpu : Fpu) (m : Machine) (w : World) (c : Clock) (r : Reading) : Option World :=
  if c.delta < neriEpochNs then some w
  else do
    let neri := NeriPool.neriSchedTick w.neri c
    let utb := neriUtbSample m w.utb {r with epoch := neri.pool.epoch}
    let neki ← tuned w.neki neri.pool
    let nsm ← judged fpu w.nsm neri.pool utb.snapshot
    some ⟨neri,utb,neki,nsm⟩

/- The two questions of task_create; the second answer is not looked at. -/
def create (w : World) (p : Nat) (d : Demand) : World :=
  if neriSecAdmitAllowed w.nsm then
    {w with neri := (admission w.neri p d (neriSecGetAnomaly w.nsm).blockAdmits).1}
  else w

/- `records`: sched_tick, nk_proc_intent and nk_neri_tune write into the records of their tasks. -/
inductive Event where
  | tick (c : Clock) (r : Reading)
  | create (p : Nat) (d : Demand)
  | release (p : Nat)
  | records (procs : Nat → Proc)

def step (fpu : Fpu) (m : Machine) (w : World) : Event → Option World
  | .tick c r => neriSchedTick fpu m w c r
  | .create p d => some (create w p d)
  | .release p => some {w with neri := neriSchedRelease w.neri p}
  | .records procs => some {w with neri := {w.neri with procs}}

structure Boot where
  machineFp : Vector Bytes.Byte 32
  ramPages : Nat
  ncpus : Nat
  gpuSlots : Nat
  tsc : Nat
  first : Reading

def boot (b : Boot) : World :=
  ⟨neriPoolInit ⟨⟨0,0,0,0,0,0,0,0⟩,fun _ => Proc.zeroed,⟨fun _ => .null,fun _ => .null⟩,0⟩
      b.ramPages b.ncpus b.gpuSlots b.tsc,
    neriUtbInit Utb.loaded b.first,nekiCalibInit Neki.loaded,neriSecInit b.machineFp⟩

def Divides (w : World) : Event → Prop
  | .tick c _ => neriEpochNs ≤ c.delta → (tuned w.neki (NeriPool.neriSchedTick w.neri c).pool).isSome
  | _ => True

theorem sanitisedSane (s : Snapshot) : Sane (utbSanitizeSnapshot s) := by
  have clamped : Sane (Utb.clampPower s) := by
    unfold Sane Utb.clampPower
    dsimp only
    constructor <;> split <;> omega
  unfold utbSanitizeSnapshot
  refine Loops.upToInvariant _ (fun _ => Sane) (Loops.upToInvariant _ (fun _ => Sane) clamped ?_) ?_
  · intro i s _ sane
    unfold Utb.sanitizeCounters
    split_ifs <;> exact sane
  · intro i s _ sane
    unfold Utb.sanitizeClass
    dsimp only
    split <;> exact sane

theorem sampledSane {m : Machine} {s : Utb.State} (sane : Sane s.snapshot) (r : Reading) :
    Sane (neriUtbSample m s r).snapshot := by
  by_cases ready : s.ready = true
  · rw [Utb.sampledSnapshot ready]
    exact sanitisedSane _
  · rw [neriUtbSample,if_neg ready]
    exact sane

def Scored (a : Anomaly) : Prop :=
  166 ≤ a.scoreByte ∧ a.scoreByte ≤ 225 ∧ a.level = levelOf a.scoreByte

structure Inv (w : World) : Prop where
  ready : w.nsm.nsm.ready = true
  quiet : Quiet w.nsm.feat
  sane : Sane w.utb.snapshot
  opened : w.nsm.anomaly.blockAdmits = false
  scored : (w.nsm.anomaly = Anomaly.zeroed ∧ w.neri.pool.epoch < 32) ∨ Scored w.nsm.anomaly

theorem rescored (fpu : Fpu) {s : NeriScore.State} (ready : s.nsm.ready = true) (quiet : Quiet s.feat) (ep : Nat)
    {snap : Snapshot} (sane : Sane snap) : ∃ t, neriSecRescore fpu s ep snap = some t ∧
      t.nsm = s.nsm ∧ Quiet t.feat ∧ t.anomaly.blockAdmits = false ∧ Scored t.anomaly := by
  obtain ⟨score,scored,low,high⟩ := NeriScore.quietScore fpu quiet sane
  have opened : decide (NeriScore.Level.critical.toNat ≤ (levelOf score).toNat) = false := by
    rcases NeriScore.levelRange low high with medium | high'
    · rw [medium]
      rfl
    · rw [high']
      rfl
  have ran : neriSecRescore fpu s ep snap = some {s with
      anomaly := ⟨score,levelOf score,decide (NeriScore.Level.critical.toNat ≤ (levelOf score).toNat),ep⟩
      feat := {s.feat with windowTicks := wrap (s.feat.windowTicks + 1)}} := by
    simp only [neriSecRescore,NeriScore.neriSecTick,if_pos ready,scored,bind,Option.bind_some]
  refine ⟨_,ran,rfl,?_,opened,low,high,rfl⟩
  rw [Quiet] at quiet ⊢
  rw [quiet]

theorem judgedInv (fpu : Fpu) {w : World} (h : Inv w) {neri : NeriPool.State}
    (epochIs : neri.pool.epoch = wrap (w.neri.pool.epoch + 1)) {utb : Utb.State} (sane : Sane utb.snapshot)
    (neki : Neki.State) :
    ∃ t, judged fpu w.nsm neri.pool utb.snapshot = some t ∧ Inv ⟨neri,utb,neki,t⟩ := by
  unfold judged
  split
  · obtain ⟨t,ran,same,quiet,opened,scored⟩ := rescored fpu h.ready h.quiet neri.pool.epoch sane
    exact ⟨t,ran,same ▸ h.ready,quiet,sane,opened,.inr scored⟩
  · next between =>
      refine ⟨w.nsm,rfl,h.ready,h.quiet,sane,h.opened,h.scored.imp_left ?_⟩
      rintro ⟨fresh,early⟩
      -- a score is due before the epoch gets past 31
      rw [wrapOfLt (by omega)] at epochIs
      exact ⟨fresh,by dsimp only; omega⟩

theorem bootInv (b : Boot) : Inv (boot b) where
  ready := rfl
  quiet := rfl
  sane := ⟨Nat.zero_le _,Nat.zero_le _⟩
  opened := rfl
  scored := .inl ⟨rfl,show 1 < 32 by decide⟩

theorem invOther {w : World} (h : Inv w) {n : NeriPool.State} (epoch : n.pool.epoch = w.neri.pool.epoch) :
    Inv {w with neri := n} :=
  ⟨h.ready,h.quiet,h.sane,h.opened,epoch ▸ h.scored⟩

theorem createInv {w : World} (h : Inv w) (p : Nat) (d : Demand) : Inv (create w p d) := by
  unfold create
  split
  · rcases NeriPool.admitCases (enrolled w.neri p d) p (neriSecGetAnomaly w.nsm).blockAdmits with
      ⟨e,_,same⟩ | ⟨s,same,granted⟩
    · rw [admission,same]
      exact invOther h rfl
    · rw [admission,same]
      exact invOther h (by rw [granted.pool]; rfl)
  · exact h

theorem tickInv (fpu : Fpu) (m : Machine) {w : World} (h : Inv w) {c : Clock} {r : Reading}
    (divides : Divides w (.tick c r)) : ∃ w', neriSchedTick fpu m w c r = some w' ∧ Inv w' := by
  by_cases short : c.delta < neriEpochNs
  · exact ⟨w,if_pos short,h⟩
  have epochIs : (NeriPool.neriSchedTick w.neri c).pool.epoch = wrap (w.neri.pool.epoch + 1) := by
    rw [NeriPool.neriSchedTick,if_neg short]
  have divided := divides (Nat.not_lt.mp short)
  rw [neriSchedTick,if_neg short]
  dsimp only at divided ⊢
  generalize NeriPool.neriSchedTick w.neri c = neri at epochIs divided ⊢
  have sane := sampledSane (m := m) h.sane {r with epoch := neri.pool.epoch}
  generalize neriUtbSample m w.utb {r with epoch := neri.pool.epoch} = utb at sane ⊢
  obtain ⟨neki,learnt⟩ := Option.isSome_iff_exists.mp divided
  obtain ⟨nsm,scored,inv⟩ := judgedInv fpu h epochIs sane neki
  refine ⟨⟨neri,utb,neki,nsm⟩,?_,inv⟩
  rw [learnt,Option.bind_eq_bind,Option.bind_some,scored]
  rfl

theorem stepInv (fpu : Fpu) (m : Machine) (w : World) (e : Event) (h : Inv w) (divides : Divides w e) :
    ∃ w', step fpu m w e = some w' ∧ Inv w' := by
  cases e with
  | tick c r => exact tickInv fpu m h divides
  | create p d => exact ⟨_,rfl,createInv h p d⟩
  | release p => exact ⟨_,rfl,invOther h rfl⟩
  | records procs => exact ⟨_,rfl,invOther h rfl⟩

theorem gateNeverShuts (fpu : Fpu) (m : Machine) (b : Boot) {events : List Event}
    (divides : Guarded (step fpu m) Divides (boot b) events) :
    ∃ w, run (step fpu m) (boot b) events = some w ∧
      neriSecAdmitAllowed w.nsm = true ∧
      (∀ p d, (admission w.neri p d (neriSecGetAnomaly w.nsm).blockAdmits).2 ≠ -eperm) ∧
      (32 ≤ w.neri.pool.epoch → 166 ≤ w.nsm.anomaly.scoreByte ∧ w.nsm.anomaly.scoreByte ≤ 225 ∧
        (w.nsm.anomaly.level = .medium ∨ w.nsm.anomaly.level = .high)) := by
  obtain ⟨w,ran,h⟩ := guardedReturns Inv (stepInv fpu m) (bootInv b) divides
  have opened : (neriSecGetAnomaly w.nsm).blockAdmits = false := h.opened
  refine ⟨w,ran,?_,fun p d => ?_,fun late => ?_⟩
  · rw [neriSecAdmitAllowed,h.ready,h.opened]
    rfl
  · rw [opened,admission,NeriPool.neriSchedAdmit,if_neg (by decide)]
    have busy : -(ebusy : Int) ≠ -eperm := by decide
    have granted : (0 : Int) ≠ -eperm := by decide
    split
    · exact busy
    · exact granted
  · rcases h.scored with ⟨_,early⟩ | ⟨low,high,level⟩
    · omega
    · exact ⟨low,high,level ▸ NeriScore.levelRange low high⟩

theorem earlyDivides (fpu : Fpu) (m : Machine) {c : Clock} (due : neriEpochNs ≤ c.delta) (r : Reading) {n : Nat}
    {w : World} (early : w.neri.pool.epoch + n < 64) :
    Guarded (step fpu m) Divides w (List.replicate n (.tick c r)) ∧
      ∀ w', run (step fpu m) w (List.replicate n (.tick c r)) = some w' →
        w'.neri.pool.epoch = w.neri.pool.epoch + n := by
  induction n generalizing w with
  | zero => exact ⟨trivial,fun w' ran => by cases ran; rfl⟩
  | succ n ih =>
      have late : ¬ c.delta < neriEpochNs := Nat.not_lt.mpr due
      have ticked : (NeriPool.neriSchedTick w.neri c).pool.epoch = w.neri.pool.epoch + 1 := by
        rw [NeriPool.neriSchedTick,if_neg late]
        exact wrapOfLt (by omega)
      have next {w' : World} (ran : step fpu m w (.tick c r) = some w') :
          w'.neri.pool.epoch = w.neri.pool.epoch + 1 := by
        rw [step,neriSchedTick,if_neg late] at ran
        simp only [bind,Option.bind_eq_some_iff] at ran
        obtain ⟨_,_,_,_,last⟩ := ran
        cases last
        exact ticked
      have untuned : (tuned w.neki (NeriPool.neriSchedTick w.neri c).pool).isSome := by
        rw [tuned,if_neg (by omega)]
        rfl
      refine ⟨⟨fun _ => untuned,fun w' ran => (ih (by rw [next ran]; omega)).1⟩,fun w'' ran => ?_⟩
      obtain ⟨w',first,rest⟩ := Option.bind_eq_some_iff.mp ran
      rw [(ih (by rw [next first]; omega)).2 w'' rest,next first]
      omega

def still : Reading := ⟨0,0,0,0,0,0,0,fun _ => 0,0⟩

def plainBoot : Boot := ⟨Vector.replicate 32 0,1000,1,0,0,still⟩

def epochLater : Clock := ⟨0,neriEpochNs,1000,900⟩

theorem gateOpenWhenScored :
    ∃ w, run (step exactFpu Utb.twoCpus) (boot plainBoot) (List.replicate 31 (.tick epochLater still)) = some w ∧
      neriSecAdmitAllowed w.nsm = true ∧ 166 ≤ w.nsm.anomaly.scoreByte := by
  obtain ⟨divides,epochs⟩ := earlyDivides exactFpu Utb.twoCpus (c := epochLater) (Nat.le_refl _) still
    (n := 31) (w := boot plainBoot) (show 1 + 31 < 64 by decide)
  obtain ⟨w,ran,allowed,_,scored⟩ := gateNeverShuts exactFpu Utb.twoCpus plainBoot divides
  have late : w.neri.pool.epoch = 1 + 31 := epochs w ran
  exact ⟨w,ran,allowed,(scored (by omega)).1⟩

end Nekros.NeriEpoch
