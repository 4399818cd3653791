import Nekros.GuardedRun
import Nekros.NeriPool
import Nekros.SchedAgreement

/-! kernel/sched.c with Neri ready: task_create asks for admission and goes on whatever
the answer is, sched_tick counts the time of the running task in its grant, task_exit
releases. `grants`, `admitted` and `exited` are records kept beside the code: what each
task was granted at its admission, who was admitted and has not left, and who has left. -/
namespace Nekros.NeriSched
open Words LinkRing NeriPool SchedSteps
open Sched (Cpu Tid Creation Switch tickNs)
open Function (update)
open GuardedRun (run Guarded Along guardExact)

structure Demand where
  cpuDemandNs : Nat
  ramDemandPages : Nat
  deriving DecidableEq, Repr

structure Grant where
  cpuNs : Nat
  gpuSlots : Nat
  deriving DecidableEq, Repr

structure World where
  sched : Sched.State
  neri : NeriPool.State
  grants : Tid → Grant
  admitted : List Tid
  exited : List Tid

def newProc (d : Demand) : Proc :=
  {Proc.zeroed with
    cpuDemandNs := if d.cpuDemandNs ≠ 0 then d.cpuDemandNs else 1000000
    ramDemandPages := if d.ramDemandPages ≠ 0 then d.ramDemandPages else 4
    gpuDemandSlots := 0}

def enrolled (n : NeriPool.State) (t : Tid) (d : Demand) : NeriPool.State :=
  {n with procs := update n.procs t (newProc d),links := init n.links (.proc t)}

def admission (n : NeriPool.State) (t : Tid) (d : Demand) (blockAdmits : Bool) : NeriPool.State × Int :=
  neriSchedAdmit (enrolled n t d) t blockAdmits

/- The answer of neri_sched_admit is not looked at. -/
def taskCreate (w : World) (cpu : Cpu) (c : Creation) (d : Demand) (blockAdmits : Bool) :
    World × Except Int Tid :=
  match Sched.taskCreate w.sched cpu {c with neriReady := true} with
  | (s,.error e) => ({w with sched := s},.error e)
  | (s,.ok t) =>
      let r := admission w.neri t d blockAdmits
      ({w with
        sched := s
        neri := r.1
        grants := if r.2 = 0 then update w.grants t ⟨(newProc d).cpuDemandNs,0⟩ else w.grants
        admitted := if r.2 = 0 then w.admitted ++ [t] else w.admitted},.ok t)

/- `schedule` calls neri_sched_tick when it has found a task to run. -/
def ticked (n : NeriPool.State) (c : Clock) : Switch → NeriPool.State
  | .idle => n
  | .to _ _ => neriSchedTick n c

def schedule (w : World) (cpu : Cpu) (c : Clock) : Option World :=
  (Sched.schedule w.sched cpu).map (fun r => {w with sched := r.1,neri := ticked w.neri c r.2})

def chargeNeri (n : NeriPool.State) : Option Tid → NeriPool.State
  | none => n
  | some t =>
      let proc := n.procs t
      {n with procs := update n.procs t {proc with cpuGrantedNs := wrap (proc.cpuGrantedNs + tickNs)}}

def schedTick (w : World) (cpu : Cpu) (c : Clock) : Option World :=
  (Sched.schedTick w.sched cpu).map (fun r =>
    {w with sched := r.1,neri := ticked (chargeNeri w.neri (w.sched.current cpu)) c r.2})

def taskExit (w : World) (cpu : Cpu) (t : Tid) (c : Clock) : Option World :=
  (Sched.taskExit w.sched cpu t).map (fun r =>
    {w with
      sched := r.1
      neri := ticked (neriSchedRelease w.neri t) c r.2
      admitted := w.admitted.erase t
      exited := t::w.exited})

inductive Event where
  | create (cpu : Cpu) (c : Creation) (d : Demand) (blockAdmits : Bool)
  | schedule (cpu : Cpu) (c : Clock)
  | tick (cpu : Cpu) (c : Clock)
  | exit (cpu : Cpu) (t : Tid) (c : Clock)

def step (w : World) : Event → Option World
  | .create cpu c d blockAdmits => some (taskCreate w cpu c d blockAdmits).1
  | .schedule cpu c => schedule w cpu c
  | .tick cpu c => schedTick w cpu c
  | .exit cpu t c => taskExit w cpu t c

def start (totalRamPages ncpus gpuSlots tsc : Nat) : World :=
  ⟨Sched.schedInit,
    neriPoolInit ⟨⟨0,0,0,0,0,0,0,0⟩,fun _ => Proc.zeroed,⟨fun _ => .null,fun _ => .null⟩,0⟩
      totalRamPages ncpus gpuSlots tsc,
    fun _ => ⟨0,0⟩,[],[]⟩

def Valid (w : World) : Event → Prop
  | .exit _ t _ => t < w.sched.made ∧ ((w.sched.tasks t).state = .running ∨ (w.sched.tasks t).state = .ready)
  | _ => True
instance (w e) : Decidable (Valid w e) := by cases e <;> unfold Valid <;> infer_instance

structure Conserved (w : World) : Prop where
  listed : Admitted w.neri w.admitted
  cpu : w.neri.pool.cpuAllocNs = (w.admitted.map (fun t => (w.grants t).cpuNs)).sum
  gpu : w.neri.pool.gpuAllocSlots = (w.admitted.map (fun t => (w.grants t).gpuSlots)).sum
  count : w.neri.admittedCount = w.admitted.length
  settled : (∀ t < w.sched.made, t ∈ w.exited) →
    w.neri.pool.cpuAllocNs = 0 ∧ w.neri.pool.gpuAllocSlots = 0 ∧ w.neri.admittedCount = 0

def admits (w : World) (cpu : Cpu) (c : Creation) (d : Demand) (blockAdmits : Bool) : Bool :=
  match (Sched.taskCreate w.sched cpu {c with neriReady := true}).2 with
  | .error _ => false
  | .ok t => decide ((admission w.neri t d blockAdmits).2 = 0)

def Settles (w : World) : Event → Prop
  | .create cpu c d blockAdmits => admits w cpu c d blockAdmits = true →
      w.neri.pool.cpuAllocNs + (newProc d).cpuDemandNs < 2^64 ∧ w.neri.admittedCount + 1 < 2^32
  | .exit _ t _ =>
      if t ∈ w.admitted then
        satSub w.neri.pool.cpuAllocNs (w.neri.procs t).cpuGrantedNs = w.neri.pool.cpuAllocNs - (w.grants t).cpuNs
      else w.admitted = []
  | _ => True
instance (w e) : Decidable (Settles w e) := by cases e <;> unfold Settles <;> infer_instance

def Alone (L : Links Node) (t : Tid) : Prop :=
  L.next (.proc t) = .null ∨ (L.next (.proc t) = .proc t ∧ L.prev (.proc t) = .proc t)

structure Inv (w : World) : Prop where
  good : Good w.sched
  conserved : Conserved w
  known : ∀ t ∈ w.admitted, t < w.sched.made ∧ t ∉ w.exited
  left : ∀ t ∈ w.exited, t < w.sched.made
  alone : ∀ t, t ∉ w.admitted → Alone w.neri.links t
  gpu : w.neri.pool.gpuAllocSlots = 0 ∧ ∀ t, (w.grants t).gpuSlots = 0

theorem nobodyLeft {made : Nat} {admitted exited : List Tid}
    (known : ∀ t ∈ admitted, t < made ∧ t ∉ exited) (all : ∀ t < made, t ∈ exited) : admitted = [] := by
  refine List.eq_nil_iff_forall_not_mem.mpr (fun t mem => ?_)
  exact (known t mem).2 (all t (known t mem).1)

theorem conservedOf {w : World} (listed : Admitted w.neri w.admitted)
    (cpu : w.neri.pool.cpuAllocNs = (w.admitted.map (fun t => (w.grants t).cpuNs)).sum)
    (gpu : w.neri.pool.gpuAllocSlots = 0 ∧ ∀ t, (w.grants t).gpuSlots = 0)
    (count : w.neri.admittedCount = w.admitted.length)
    (known : ∀ t ∈ w.admitted, t < w.sched.made ∧ t ∉ w.exited) : Conserved w := by
  have zero : (w.admitted.map (fun t => (w.grants t).gpuSlots)).sum = 0 := by
    rw [List.map_congr_left (fun t _ => gpu.2 t)]
    simp
  refine ⟨listed,cpu,gpu.1.trans zero.symm,count,fun all => ?_⟩
  have empty := nobodyLeft known all
  rw [cpu,count,empty]
  exact ⟨rfl,gpu.1,rfl⟩

theorem startInv (totalRamPages ncpus gpuSlots tsc : Nat) : Inv (start totalRamPages ncpus gpuSlots tsc) := by
  have known : ∀ t ∈ ([] : List Tid), t < 0 ∧ t ∉ ([] : List Tid) := by simp
  refine ⟨SchedAgreement.initGood,conservedOf (LinkRing.initRing _ _) rfl ⟨rfl,fun _ => rfl⟩ rfl known,known,by simp [start],
    fun t _ => .inl ?_,⟨rfl,fun _ => rfl⟩⟩
  exact (initOther _ (by simp)).1

theorem invOther {w : World} {s : Sched.State} {n : NeriPool.State} (inv : Inv w) (good : Good s)
    (made : s.made = w.sched.made) (links : n.links = w.neri.links)
    (cpu : n.pool.cpuAllocNs = w.neri.pool.cpuAllocNs) (gpu : n.pool.gpuAllocSlots = w.neri.pool.gpuAllocSlots)
    (count : n.admittedCount = w.neri.admittedCount) : Inv {w with sched := s,neri := n} := by
  have known : ∀ t ∈ w.admitted, t < s.made ∧ t ∉ w.exited := by
    rw [made]
    exact inv.known
  have listed : Admitted n w.admitted := by
    rw [Admitted,links]
    exact inv.conserved.listed
  have slots : n.pool.gpuAllocSlots = 0 ∧ ∀ t, (w.grants t).gpuSlots = 0 := ⟨gpu.trans inv.gpu.1,inv.gpu.2⟩
  refine ⟨good,conservedOf listed (cpu.trans inv.conserved.cpu) slots (count.trans inv.conserved.count) known,
    known,by rw [made]; exact inv.left,fun t out => ?_,slots⟩
  rw [Alone,links]
  exact inv.alone t out

theorem tickedSame (n : NeriPool.State) (c : Clock) (sw : Switch) :
    (ticked n c sw).links = n.links ∧ (ticked n c sw).pool.cpuAllocNs = n.pool.cpuAllocNs ∧
      (ticked n c sw).pool.gpuAllocSlots = n.pool.gpuAllocSlots ∧
      (ticked n c sw).admittedCount = n.admittedCount := by
  cases sw
  · exact ⟨rfl,rfl,rfl,rfl⟩
  · unfold ticked neriSchedTick
    by_cases short : c.delta < neriEpochNs
    · rw [if_pos short]
      exact ⟨rfl,rfl,rfl,rfl⟩
    · rw [if_neg short]
      exact ⟨rfl,rfl,rfl,rfl⟩

theorem chargedSame (n : NeriPool.State) (cur : Option Tid) :
    (chargeNeri n cur).links = n.links ∧ (chargeNeri n cur).pool = n.pool ∧
      (chargeNeri n cur).admittedCount = n.admittedCount := by
  cases cur <;> exact ⟨rfl,rfl,rfl⟩

theorem enrolledListed {n : NeriPool.State} {l : List Nat} {t : Tid} (d : Demand) (h : Admitted n l) (new : t ∉ l) :
    Admitted (enrolled n t d) l := by
  refine ringFrame (fun x mem => initOther n.links ?_) h
  rintro rfl
  exact new (memProc.mp mem)

theorem enrolledAlone {n : NeriPool.State} {t u : Tid} (d : Demand) (h : Alone n.links u) :
    Alone (enrolled n t d).links u := by
  by_cases here : u = t
  · subst here
    exact .inr ⟨Function.update_self _ _ _,Function.update_self _ _ _⟩
  · have same := initOther n.links (h := .proc t) (x := .proc u) (by simpa using here)
    unfold Alone enrolled
    rw [same.1,same.2]
    exact h

theorem grantsAppend (w : World) {t : Tid} (g : Grant) (new : t ∉ w.admitted) :
    ((w.admitted ++ [t]).map (fun u => (update w.grants t g u).cpuNs)).sum =
      (w.admitted.map (fun u => (w.grants u).cpuNs)).sum + g.cpuNs := by
  have others : ∀ u ∈ w.admitted, (update w.grants t g u).cpuNs = (w.grants u).cpuNs := by
    intro u mem
    have different : u ≠ t := fun e => new (e ▸ mem)
    rw [Function.update_of_ne different]
  rw [List.map_append,List.sum_append,List.map_congr_left others,List.map_singleton,List.sum_singleton,
    Function.update_self]

theorem admitInv {w : World} {s : Sched.State} {n : NeriPool.State} {d : Demand} (inv : Inv w) (good : Good s)
    (made : s.made = w.sched.made + 1)
    (g : Granted (enrolled w.neri w.sched.made d) n w.sched.made)
    (cpuFits : w.neri.pool.cpuAllocNs + (newProc d).cpuDemandNs < 2^64)
    (countFits : w.neri.admittedCount + 1 < 2^32) :
    Inv {w with
      sched := s
      neri := n
      grants := update w.grants w.sched.made ⟨(newProc d).cpuDemandNs,0⟩
      admitted := w.admitted ++ [w.sched.made]} := by
  have new : w.sched.made ∉ w.admitted := fun mem => Nat.lt_irrefl _ (inv.known _ mem).1
  have own : (enrolled w.neri w.sched.made d).procs w.sched.made = newProc d := Function.update_self _ _ _
  have listed := admitListed (enrolledListed d inv.conserved.listed new) new g
  have known : ∀ t ∈ w.admitted ++ [w.sched.made], t < s.made ∧ t ∉ w.exited := by
    intro t mem
    rw [made]
    rcases List.mem_append.mp mem with old | here
    · exact ⟨Nat.lt_succ_of_lt (inv.known t old).1,(inv.known t old).2⟩
    · obtain rfl := List.mem_singleton.mp here
      exact ⟨Nat.lt_succ_self _,fun out => Nat.lt_irrefl _ (inv.left _ out)⟩
  have slots : n.pool.gpuAllocSlots = 0 ∧
      ∀ t, (update w.grants w.sched.made ⟨(newProc d).cpuDemandNs,0⟩ t).gpuSlots = 0 := by
    constructor
    · rw [g.pool,own]
      show wrap (w.neri.pool.gpuAllocSlots + 0) = 0
      rw [inv.gpu.1]
      rfl
    · intro t
      by_cases here : t = w.sched.made
      · rw [here,Function.update_self]
      · rw [Function.update_of_ne here]
        exact inv.gpu.2 t
  refine ⟨good,conservedOf listed ?_ slots ?_ known,known,?_,?_,slots⟩
  · refine Eq.trans ?_ (grantsAppend w ⟨(newProc d).cpuDemandNs,0⟩ new).symm
    rw [← inv.conserved.cpu,g.pool,own]
    exact wrapOfLt cpuFits
  · rw [g.count,List.length_append,List.length_singleton,← inv.conserved.count]
    exact Nat.mod_eq_of_lt countFits
  · intro t out
    rw [made]
    exact Nat.lt_succ_of_lt (inv.left t out)
  · intro t out
    have away : t ∉ w.admitted ∧ t ≠ w.sched.made := by simpa using out
    have before := enrolledAlone (t := w.sched.made) d (inv.alone t away.1)
    have words := addTailOther (n := .proc w.sched.made) (enrolledListed d inv.conserved.listed new) (x := .proc t)
      (by simpa using away.2) (fun mem => away.1 (memProc.mp mem))
    unfold Alone
    rw [g.links,words.1,words.2]
    exact before

theorem refusedInv {w : World} {s : Sched.State} {d : Demand} (inv : Inv w) (good : Good s)
    (made : s.made = w.sched.made + 1) : Inv {w with sched := s,neri := enrolled w.neri w.sched.made d} := by
  have new : w.sched.made ∉ w.admitted := fun mem => Nat.lt_irrefl _ (inv.known _ mem).1
  have known : ∀ t ∈ w.admitted, t < s.made ∧ t ∉ w.exited := by
    intro t mem
    rw [made]
    exact ⟨Nat.lt_succ_of_lt (inv.known t mem).1,(inv.known t mem).2⟩
  exact ⟨good,conservedOf (enrolledListed d inv.conserved.listed new) inv.conserved.cpu inv.gpu inv.conserved.count known,
    known,fun t out => by rw [made]; exact Nat.lt_succ_of_lt (inv.left t out),
    fun t out => enrolledAlone d (inv.alone t out),inv.gpu⟩

theorem delAlone {L : Links Node} {t : Tid} {x : Node} (h : Alone L t) (linked : L.next (.proc t) ≠ .null)
    (away : x ≠ .proc t) :
    (del .null L (.proc t)).next x = L.next x ∧ (del .null L (.proc t)).prev x = L.prev x := by
  obtain ⟨next,prev⟩ := h.resolve_left linked
  simp [del,next,prev,Function.update_of_ne away]

theorem releaseAlone {n : NeriPool.State} {t u : Tid} (h : Alone n.links t) (other : Alone n.links u) :
    Alone (neriSchedRelease n t).links u := by
  unfold neriSchedRelease
  dsimp only
  split
  · rename_i linked
    by_cases here : u = t
    · subst here
      exact .inl (delNull _ _ _).1
    · have same := delAlone (x := .proc u) h linked (by simpa using here)
      unfold Alone
      rw [same.1,same.2]
      exact other
  · exact other

theorem releaseKeeps {n : NeriPool.State} {t : Tid} {l : List Nat} (h : Alone n.links t) (out : t ∉ l)
    (listed : Admitted n l) : Admitted (neriSchedRelease n t) l := by
  unfold Admitted neriSchedRelease
  dsimp only
  split
  · rename_i linked
    refine ringFrame (fun x mem => delAlone h linked ?_) listed
    rintro rfl
    exact out (memProc.mp mem)
  · exact listed

theorem releasedAlone {n : NeriPool.State} {t u : Tid} {l : List Nat} (listed : Admitted n l) (mem : t ∈ l)
    (out : u ∉ l.erase t) (alone : u ∉ l → Alone n.links u) : Alone (neriSchedRelease n t).links u := by
  have inside : Node.proc t ∈ l.map Node.proc := List.mem_map_of_mem mem
  have linked := (ringLinked listed inside (nullNotListed l)).1
  unfold neriSchedRelease
  dsimp only
  rw [if_pos linked]
  by_cases here : u = t
  · subst here
    exact .inl (delNull _ _ _).1
  · have away : u ∉ l := fun was => out ((List.mem_erase_of_ne here).mpr was)
    have outside : Node.proc u ∉ Node.admitted::l.map Node.proc := fun was => away (memProc.mp was)
    have same : (del .null n.links (.proc t)).next (.proc u) = n.links.next (.proc u) ∧
        (del .null n.links (.proc t)).prev (.proc u) = n.links.prev (.proc u) :=
      delOther listed inside outside
    unfold Alone
    rw [same.1,same.2]
    exact alone away

structure Released (w : World) (t : Tid) : Prop where
  listed : Admitted (neriSchedRelease w.neri t) (w.admitted.erase t)
  alone : ∀ u, u ∉ w.admitted.erase t → Alone (neriSchedRelease w.neri t).links u
  cpu : (neriSchedRelease w.neri t).pool.cpuAllocNs =
    w.neri.pool.cpuAllocNs - (w.neri.procs t).cpuGrantedNs
  gpu : (neriSchedRelease w.neri t).pool.gpuAllocSlots = 0
  count : (neriSchedRelease w.neri t).admittedCount = w.admitted.length - 1

theorem released {w : World} (inv : Inv w) (t : Tid) : Released w t := by
  have pool := releasePool w.neri t
  have count : (neriSchedRelease w.neri t).admittedCount = w.admitted.length - 1 := by
    unfold neriSchedRelease
    dsimp only
    rw [inv.conserved.count]
    split <;> omega
  refine ⟨?_,?_,by rw [pool],by rw [pool]; simp [inv.gpu.1],count⟩
  · by_cases mem : t ∈ w.admitted
    · exact releaseListed inv.conserved.listed mem
    · rw [List.erase_of_not_mem mem]
      exact releaseKeeps (inv.alone t mem) mem inv.conserved.listed
  · intro u out
    by_cases mem : t ∈ w.admitted
    · exact releasedAlone inv.conserved.listed mem out (inv.alone u)
    · rw [List.erase_of_not_mem mem] at out
      exact releaseAlone (inv.alone t mem) (inv.alone u out)

theorem grantsErase (w : World) {t : Tid} (mem : t ∈ w.admitted) :
    ((w.admitted.erase t).map (fun t => (w.grants t).cpuNs)).sum =
      (w.admitted.map (fun t => (w.grants t).cpuNs)).sum - (w.grants t).cpuNs := by
  rw [← List.sum_map_erase (fun t => (w.grants t).cpuNs) mem,Nat.add_sub_cancel_left]

theorem exitInv {w : World} {t : Tid} {s : Sched.State} {n : NeriPool.State} (inv : Inv w) (good : Good s)
    (made : s.made = w.sched.made) (lt : t < w.sched.made)
    (settles : if t ∈ w.admitted then
        satSub w.neri.pool.cpuAllocNs (w.neri.procs t).cpuGrantedNs = w.neri.pool.cpuAllocNs - (w.grants t).cpuNs
      else w.admitted = [])
    (links : n.links = (neriSchedRelease w.neri t).links)
    (cpu : n.pool.cpuAllocNs = (neriSchedRelease w.neri t).pool.cpuAllocNs)
    (gpu : n.pool.gpuAllocSlots = (neriSchedRelease w.neri t).pool.gpuAllocSlots)
    (count : n.admittedCount = (neriSchedRelease w.neri t).admittedCount) :
    Inv {w with sched := s,neri := n,admitted := w.admitted.erase t,exited := t::w.exited} := by
  have r := released inv t
  have nodup : w.admitted.Nodup := admittedNodup inv.conserved.listed
  have known : ∀ u ∈ w.admitted.erase t, u < s.made ∧ u ∉ t::w.exited := by
    intro u mem
    obtain ⟨different,was⟩ := nodup.mem_erase_iff.mp mem
    rw [made]
    exact ⟨(inv.known u was).1,by simp [different,(inv.known u was).2]⟩
  have listed : Admitted n (w.admitted.erase t) := by
    rw [Admitted,links]
    exact r.listed
  have slots : n.pool.gpuAllocSlots = 0 ∧ ∀ u, (w.grants u).gpuSlots = 0 := ⟨gpu.trans r.gpu,inv.gpu.2⟩
  have left : ∀ u ∈ t::w.exited, u < s.made := by
    rw [made]
    exact List.forall_mem_cons.mpr ⟨lt,inv.left⟩
  refine ⟨good,conservedOf listed ?_ slots ?_ known,known,left,fun u out => ?_,slots⟩
  · by_cases mem : t ∈ w.admitted
    · rw [if_pos mem,satSubEq] at settles
      rw [cpu,r.cpu,settles,inv.conserved.cpu]
      exact (grantsErase w mem).symm
    · rw [if_neg mem] at settles
      have none := inv.conserved.cpu
      rw [settles] at none
      rw [cpu,r.cpu,settles,none]
      simp
  · rw [count,r.count]
    by_cases mem : t ∈ w.admitted
    · exact (List.length_erase_of_mem mem).symm
    · rw [if_neg mem] at settles
      rw [settles]
      rfl
  · rw [Alone,links]
    exact r.alone u out

theorem exitBreaks {w : World} {t : Tid} {s : Sched.State} {n : NeriPool.State} (inv : Inv w)
    (unsettled : ¬ if t ∈ w.admitted then
        satSub w.neri.pool.cpuAllocNs (w.neri.procs t).cpuGrantedNs = w.neri.pool.cpuAllocNs - (w.grants t).cpuNs
      else w.admitted = [])
    (cpu : n.pool.cpuAllocNs = (neriSchedRelease w.neri t).pool.cpuAllocNs)
    (count : n.admittedCount = (neriSchedRelease w.neri t).admittedCount) :
    ¬ Conserved {w with sched := s,neri := n,admitted := w.admitted.erase t,exited := t::w.exited} := by
  intro after
  have r := released inv t
  by_cases mem : t ∈ w.admitted
  · rw [if_pos mem,satSubEq] at unsettled
    have sum : n.pool.cpuAllocNs = ((w.admitted.erase t).map (fun t => (w.grants t).cpuNs)).sum := after.cpu
    rw [cpu,r.cpu,grantsErase w mem,← inv.conserved.cpu] at sum
    exact unsettled sum
  · -- the counter goes down although nobody has left the list
    rw [if_neg mem] at unsettled
    have number : n.admittedCount = (w.admitted.erase t).length := after.count
    rw [count,r.count,List.erase_of_not_mem mem] at number
    exact unsettled (List.length_eq_zero_iff.mp (by omega))

theorem createOutcome {w : World} (cpu : Cpu) (c : Creation) (d : Demand) (blockAdmits : Bool) (inv : Inv w) :
    (∃ n, (taskCreate w cpu c d blockAdmits).1 = {w with sched := {w.sched with nextPid := n}} ∧
        admits w cpu c d blockAdmits = false) ∨
      ∃ s, Good s ∧ s.made = w.sched.made + 1 ∧
        ((admits w cpu c d blockAdmits = false ∧
            (taskCreate w cpu c d blockAdmits).1 =
              {w with sched := s,neri := enrolled w.neri w.sched.made d}) ∨
          admits w cpu c d blockAdmits = true ∧
            ∃ n, Granted (enrolled w.neri w.sched.made d) n w.sched.made ∧
              (taskCreate w cpu c d blockAdmits).1 = {w with
                sched := s
                neri := n
                grants := update w.grants w.sched.made ⟨(newProc d).cpuDemandNs,0⟩
                admitted := w.admitted ++ [w.sched.made]}) := by
  unfold taskCreate admits
  rcases createCases cpu {c with neriReady := true} inv.good with ⟨e,n,failed⟩ | ⟨s,t,made,created⟩
  · rw [failed]
    exact .inl ⟨n,rfl,rfl⟩
  · rw [made]
    obtain rfl := created.new
    refine .inr ⟨s,created.good,created.made,?_⟩
    dsimp only
    unfold admission
    rcases admitCases (enrolled w.neri w.sched.made d) w.sched.made blockAdmits with
      ⟨e,which,refused⟩ | ⟨n,answer,g⟩
    · have nonzero : -e ≠ 0 := by rcases which with rfl | rfl <;> decide
      rw [refused,if_neg nonzero,if_neg nonzero]
      exact .inl ⟨decide_eq_false nonzero,rfl⟩
    · rw [answer,if_pos rfl,if_pos rfl]
      exact .inr ⟨decide_eq_true rfl,n,g,rfl⟩

theorem createBreaks {w : World} {s : Sched.State} {n : NeriPool.State} {d : Demand} (inv : Inv w)
    (g : Granted (enrolled w.neri w.sched.made d) n w.sched.made)
    (exceeds : ¬ (w.neri.pool.cpuAllocNs + (newProc d).cpuDemandNs < 2^64 ∧ w.neri.admittedCount + 1 < 2^32)) :
    ¬ Conserved {w with
      sched := s
      neri := n
      grants := update w.grants w.sched.made ⟨(newProc d).cpuDemandNs,0⟩
      admitted := w.admitted ++ [w.sched.made]} := by
  intro after
  have new : w.sched.made ∉ w.admitted := fun mem => Nat.lt_irrefl _ (inv.known _ mem).1
  have own : (enrolled w.neri w.sched.made d).procs w.sched.made = newProc d := Function.update_self _ _ _
  have sum : n.pool.cpuAllocNs = ((w.admitted ++ [w.sched.made]).map
      (fun t => (update w.grants w.sched.made ⟨(newProc d).cpuDemandNs,0⟩ t).cpuNs)).sum := after.cpu
  have number : n.admittedCount = (w.admitted ++ [w.sched.made]).length := after.count
  rw [grantsAppend w _ new,← inv.conserved.cpu,g.pool,own] at sum
  rw [g.count,List.length_append,List.length_singleton,← inv.conserved.count] at number
  refine exceeds ⟨?_,?_⟩
  · have bound : wrap (w.neri.pool.cpuAllocNs + (newProc d).cpuDemandNs) < 2^64 := wrapLt _
    have same : wrap (w.neri.pool.cpuAllocNs + (newProc d).cpuDemandNs) =
        w.neri.pool.cpuAllocNs + (newProc d).cpuDemandNs := sum
    rwa [same] at bound
  · rw [← number]
    exact Nat.mod_lt _ (by decide)

theorem exitOutcome {w : World} {t : Tid} (cpu : Cpu) (c : Clock) (inv : Inv w) (lt : t < w.sched.made) :
    ∃ s sw, taskExit w cpu t c = some {w with
        sched := s
        neri := ticked (neriSchedRelease w.neri t) c sw
        admitted := w.admitted.erase t
        exited := t::w.exited} ∧ Good s ∧ s.made = w.sched.made := by
  have marked := exitMarkSpec inv.good lt
  obtain ⟨s,sw,scheduled,result⟩ := scheduleCases cpu marked.good
  exact ⟨s,sw,by simp only [taskExit,Sched.taskExit,scheduled,Option.map_some],result.good,
    result.moved.1.trans marked.moved.1⟩

theorem scheduleInv {w w' : World} {cpu : Cpu} {c : Clock} (inv : Inv w) (stepped : schedule w cpu c = some w') :
    Inv w' := by
  obtain ⟨s,sw,done,result⟩ := scheduleCases cpu inv.good
  simp only [schedule,done,Option.map_some,Option.some.injEq] at stepped
  obtain ⟨links,cpuSame,gpuSame,count⟩ := tickedSame w.neri c sw
  exact stepped ▸ invOther inv result.good result.moved.1 links cpuSame gpuSame count

theorem tickInv {w w' : World} {cpu : Cpu} {c : Clock} (inv : Inv w) (stepped : schedTick w cpu c = some w') :
    Inv w' := by
  obtain ⟨links,pool,count⟩ := chargedSame w.neri (w.sched.current cpu)
  have after : ∀ s sw, Good s → s.made = w.sched.made →
      Inv {w with sched := s,neri := ticked (chargeNeri w.neri (w.sched.current cpu)) c sw} := by
    intro s sw good made
    obtain ⟨links',cpuSame,gpuSame,count'⟩ := tickedSame (chargeNeri w.neri (w.sched.current cpu)) c sw
    exact invOther inv good made (links'.trans links) (cpuSame.trans (by rw [pool])) (gpuSame.trans (by rw [pool]))
      (count'.trans count)
  obtain ⟨s0,good,moved,_,_,_,done | done⟩ := tickCases cpu inv.good
  · simp only [schedTick,done,Option.map_some,Option.some.injEq] at stepped
    exact stepped ▸ after s0 _ good moved.1
  · obtain ⟨s,sw,scheduled,result⟩ := scheduleCases cpu good
    simp only [schedTick,done,scheduled,Option.map_some,Option.some.injEq] at stepped
    exact stepped ▸ after s sw result.good (result.moved.1.trans moved.1)

theorem stepKeeps (w : World) (e : Event) (w' : World) (inv : Inv w) (valid : Valid w e)
    (settles : Settles w e) (stepped : step w e = some w') : Inv w' := by
  cases e with
  | create cpu c d blockAdmits =>
      cases Option.some.inj stepped
      rcases createOutcome cpu c d blockAdmits inv with
        ⟨n,same,_⟩ | ⟨s,good,made,⟨_,same⟩ | ⟨accepted,n,g,same⟩⟩
      · rw [same]
        exact invOther inv (goodPid n inv.good) rfl rfl rfl rfl rfl
      · rw [same]
        exact refusedInv inv good made
      · rw [same]
        exact admitInv inv good made g (settles accepted).1 (settles accepted).2
  | schedule cpu c => exact scheduleInv inv stepped
  | tick cpu c => exact tickInv inv stepped
  | exit cpu t c =>
      obtain ⟨s,sw,done,good,made⟩ := exitOutcome cpu c inv valid.1
      cases Option.some.inj (done.symm.trans stepped)
      obtain ⟨links,cpuSame,gpuSame,count⟩ := tickedSame (neriSchedRelease w.neri t) c sw
      exact exitInv inv good made valid.1 settles links cpuSame gpuSame count

theorem stepBreaks (w : World) (e : Event) (inv : Inv w) (valid : Valid w e) (unsettled : ¬ Settles w e) :
    ∃ w', step w e = some w' ∧ ¬ Conserved w' := by
  cases e with
  | create cpu c d blockAdmits =>
      obtain ⟨accepted,exceeds⟩ := Classical.not_imp.mp unsettled
      refine ⟨_,rfl,?_⟩
      rcases createOutcome cpu c d blockAdmits inv with
        ⟨_,_,failed⟩ | ⟨s,_,_,⟨refused,_⟩ | ⟨_,n,g,same⟩⟩
      · rw [failed] at accepted
        cases accepted
      · rw [refused] at accepted
        cases accepted
      · rw [same]
        exact createBreaks inv g exceeds
  | schedule cpu c => exact absurd trivial unsettled
  | tick cpu c => exact absurd trivial unsettled
  | exit cpu t c =>
      obtain ⟨s,sw,done,_,_⟩ := exitOutcome cpu c inv valid.1
      obtain ⟨_,cpuSame,_,count⟩ := tickedSame (neriSchedRelease w.neri t) c sw
      exact ⟨_,done,exitBreaks inv unsettled cpuSame count⟩

theorem conservationExact (totalRamPages ncpus gpuSlots tsc : Nat) (events : List Event)
    (valid : Guarded step Valid (start totalRamPages ncpus gpuSlots tsc) events) :
    Along step Conserved (start totalRamPages ncpus gpuSlots tsc) events ↔
      Guarded step Settles (start totalRamPages ncpus gpuSlots tsc) events :=
  guardExact Inv (fun _ inv => inv.conserved) stepKeeps stepBreaks (startInv totalRamPages ncpus gpuSlots tsc) valid

def still : Clock := ⟨0,0,0,0⟩

def wants : Demand := ⟨4000000,16⟩

def waitingExit : List Event :=
  [.create 0 (Sched.plain 0x1000000) wants false,.create 0 (Sched.plain 0x1004000) wants false,
    .schedule 0 still,.exit 0 1 still]

theorem conservationExactWaitingExit : Guarded step Valid (start 1024 1 0 0) waitingExit ∧
    Along step Conserved (start 1024 1 0 0) waitingExit := by
  have valid : Guarded step Valid (start 1024 1 0 0) waitingExit := by decide +kernel
  exact ⟨valid,(conservationExact 1024 1 0 0 waitingExit valid).mpr (by decide +kernel)⟩

/- Here too the stack that is given back merges into a free block below. -/
def tickedExit : List Event :=
  [.create 0 (Sched.plain 0x1004000) wants false,.create 0 (Sched.plain 0x1008000) wants false,
    .schedule 0 still,.tick 0 still,.exit 0 0 still]

def refusedExit : List Event :=
  [.create 0 (Sched.plain 0x1000000) wants false,.create 0 (Sched.plain 0x1004000) wants true,.exit 0 1 still]

theorem exitTakesShare :
    (Guarded step Valid (start 1024 1 0 0) tickedExit ∧
      ∃ w, run step (start 1024 1 0 0) tickedExit = some w ∧ w.admitted = [1] ∧
        (w.grants 1).cpuNs = 4000000 ∧ w.neri.pool.cpuAllocNs = 3000000 ∧ ¬ Conserved w) ∧
    (Guarded step Valid (start 1024 1 0 0) refusedExit ∧
      ∃ w, run step (start 1024 1 0 0) refusedExit = some w ∧ w.admitted = [0] ∧
        w.neri.admittedCount = 0 ∧ ¬ Conserved w) := by
  have first : (run step (start 1024 1 0 0) tickedExit).map
      (fun w => (w.admitted,(w.grants 1).cpuNs,w.neri.pool.cpuAllocNs)) = some ([1],4000000,3000000) := by
    decide +kernel
  have second : (run step (start 1024 1 0 0) refusedExit).map
      (fun w => (w.admitted,w.neri.admittedCount)) = some ([0],0) := by decide +kernel
  obtain ⟨w,ran,same⟩ := Option.map_eq_some_iff.mp first
  obtain ⟨v,ran',same'⟩ := Option.map_eq_some_iff.mp second
  simp only [Prod.mk.injEq] at same same'
  obtain ⟨listed,grant,alloc⟩ := same
  obtain ⟨listed',count⟩ := same'
  refine ⟨⟨by decide +kernel,w,ran,listed,grant,alloc,fun conserved => ?_⟩,
    by decide +kernel,v,ran',listed',count,fun conserved => ?_⟩
  · have sum := conserved.cpu
    rw [listed,alloc] at sum
    simp [grant] at sum
  · have number := conserved.count
    rw [listed',count] at number
    cases number

end Nekros.NeriSched
