import Mathlib.Algebra.BigOperators.Group.List.Basic
import Nekros.Errno
import Nekros.Words
import Nekros.LinkRing

/-! drivers/neri/core/neri_pool.c: the resource pool and the list of admitted processes.
A process record is named by a number; its list node is one of the nodes of `links`,
beside the head `neri_admitted` and the null pointer. The fields of a record that
neri_pool.c does not touch, and what neri_sched_tick hands on to the sampling, learning
and scoring modules, are left out: none of them writes the pool or a record. -/
namespace Nekros.NeriPool
open Words LinkRing Errno
open Function (update)

def neriEpochNs : Nat := 10000000

structure Proc where
  cpuDemandNs : Nat
  ramDemandPages : Nat
  gpuDemandSlots : Nat
  cpuGrantedNs : Nat
  ramGrantedPages : Nat
  gpuGrantedSlots : Nat
  epochAdmitted : Nat
  deriving DecidableEq, Repr

def Proc.zeroed : Proc := ⟨0,0,0,0,0,0,0⟩

structure Pool where
  cpuTotalNs : Nat
  cpuAllocNs : Nat
  ramTotalPages : Nat
  ramAllocPages : Nat
  gpuTotalSlots : Nat
  gpuAllocSlots : Nat
  epoch : Nat
  epochStartTsc : Nat
  deriving DecidableEq, Repr

inductive Node where
  | null
  | admitted
  | proc (p : Nat)
  deriving DecidableEq, Repr

structure State where
  pool : Pool
  procs : Nat → Proc
  links : Links Node
  admittedCount : Nat

def satSub (a b : Nat) : Nat := if b ≤ a then a - b else 0

def neriPoolInit (s : State) (totalRamPages ncpus gpuSlots tsc : Nat) : State :=
  {s with
    pool := ⟨wrap (ncpus * neriEpochNs),0,totalRamPages,0,gpuSlots,0,1,tsc⟩
    links := init s.links .admitted}

/- The two headroom tests; the slots of the GPU are not tested. -/
def overCommits (pool : Pool) (proc : Proc) : Bool :=
  decide (wrap (pool.cpuTotalNs * 2) < wrap (pool.cpuAllocNs + proc.cpuDemandNs)) ||
    decide (wrap (pool.ramTotalPages * 3) / 2 < wrap (pool.ramAllocPages + proc.ramDemandPages))

/- `blockAdmits` is what neri_sec_get_anomaly answers. -/
def neriSchedAdmit (s : State) (p : Nat) (blockAdmits : Bool) : State × Int :=
  let pool := s.pool
  let proc := s.procs p
  if blockAdmits then (s,-eperm)
  else if overCommits pool proc then (s,-ebusy)
  else
    ({procs := update s.procs p {proc with
        cpuGrantedNs := proc.cpuDemandNs
        ramGrantedPages := proc.ramDemandPages
        gpuGrantedSlots := proc.gpuDemandSlots
        epochAdmitted := pool.epoch}
      pool := {pool with
        cpuAllocNs := wrap (pool.cpuAllocNs + proc.cpuDemandNs)
        ramAllocPages := wrap (pool.ramAllocPages + proc.ramDemandPages)
        gpuAllocSlots := wrap (pool.gpuAllocSlots + proc.gpuDemandSlots)}
      links := addTail s.links (.proc p) .admitted
      admittedCount := (s.admittedCount + 1) % 2^32},0)

def neriSchedRelease (s : State) (p : Nat) : State :=
  let pool := s.pool
  let proc := s.procs p
  {s with
    pool := {pool with
      cpuAllocNs := satSub pool.cpuAllocNs proc.cpuGrantedNs
      ramAllocPages := satSub pool.ramAllocPages proc.ramGrantedPages
      gpuAllocSlots := satSub pool.gpuAllocSlots proc.gpuGrantedSlots}
    links := if s.links.next (.proc p) ≠ .null then del .null s.links (.proc p) else s.links
    admittedCount := if 0 < s.admittedCount then s.admittedCount - 1 else s.admittedCount}

/- What neri_sched_tick is answered: the TSC, the time since the epoch began, and the
two counters of pmm_stats. -/
structure Clock where
  now : Nat
  delta : Nat
  totalPages : Nat
  freePages : Nat
  deriving DecidableEq, Repr

def neriSchedTick (s : State) (c : Clock) : State :=
  if c.delta < neriEpochNs then s
  else {s with pool := {s.pool with
    epochStartTsc := c.now
    epoch := wrap (s.pool.epoch + 1)
    ramTotalPages := c.totalPages
    ramAllocPages := if c.freePages < c.totalPages then c.totalPages - c.freePages else 0}}

theorem satSubEq (a b : Nat) : satSub a b = a - b := by
  unfold satSub
  split <;> omega

structure Granted (s s' : State) (p : Nat) : Prop where
  proc : s'.procs = update s.procs p {s.procs p with
    cpuGrantedNs := (s.procs p).cpuDemandNs
    ramGrantedPages := (s.procs p).ramDemandPages
    gpuGrantedSlots := (s.procs p).gpuDemandSlots
    epochAdmitted := s.pool.epoch}
  pool : s'.pool = {s.pool with
    cpuAllocNs := wrap (s.pool.cpuAllocNs + (s.procs p).cpuDemandNs)
    ramAllocPages := wrap (s.pool.ramAllocPages + (s.procs p).ramDemandPages)
    gpuAllocSlots := wrap (s.pool.gpuAllocSlots + (s.procs p).gpuDemandSlots)}
  links : s'.links = addTail s.links (.proc p) .admitted
  count : s'.admittedCount = (s.admittedCount + 1) % 2^32
  cpuRoom : wrap (s.pool.cpuAllocNs + (s.procs p).cpuDemandNs) ≤ wrap (s.pool.cpuTotalNs * 2)
  ramRoom : wrap (s.pool.ramAllocPages + (s.procs p).ramDemandPages) ≤ wrap (s.pool.ramTotalPages * 3) / 2

theorem admitCases (s : State) (p : Nat) (blockAdmits : Bool) :
    (∃ e : Int, (e = eperm ∨ e = ebusy) ∧ neriSchedAdmit s p blockAdmits = (s,-e)) ∨
      ∃ s', neriSchedAdmit s p blockAdmits = (s',0) ∧ Granted s s' p := by
  unfold neriSchedAdmit
  cases blockAdmits with
  | true => exact .inl ⟨eperm,.inl rfl,rfl⟩
  | false =>
      by_cases exceeds : overCommits s.pool (s.procs p) = true
      · exact .inl ⟨ebusy,.inr rfl,if_pos exceeds⟩
      · refine .inr ⟨_,if_neg exceeds,rfl,rfl,rfl,rfl,?_,?_⟩ <;>
          simp only [overCommits,Bool.or_eq_true,decide_eq_true_eq,not_or,Nat.not_lt] at exceeds
        · exact exceeds.1
        · exact exceeds.2

theorem admitRefused {s : State} {p : Nat} {blockAdmits : Bool}
    (refused : (neriSchedAdmit s p blockAdmits).2 ≠ 0) : (neriSchedAdmit s p blockAdmits).1 = s := by
  rcases admitCases s p blockAdmits with ⟨e,_,same⟩ | ⟨s',same,_⟩
  · rw [same]
  · rw [same] at refused
    exact absurd rfl refused

def Admitted (s : State) (l : List Nat) : Prop := Ring s.links .admitted (l.map .proc)

theorem memProc {p : Nat} {l : List Nat} : Node.proc p ∈ Node.admitted::l.map .proc ↔ p ∈ l := by simp

theorem nullNotListed (l : List Nat) : Node.null ∉ Node.admitted::l.map .proc := by simp

theorem admittedNodup {s : State} {l : List Nat} (h : Admitted s l) : l.Nodup :=
  (List.nodup_cons.mp h.nodup).2.of_map _

theorem admitListed {s s' : State} {p : Nat} {l : List Nat} (h : Admitted s l) (new : p ∉ l)
    (granted : Granted s s' p) : Admitted s' (l ++ [p]) := by
  unfold Admitted
  rw [granted.links,List.map_append]
  exact addTailRing h (fun mem => new (memProc.mp mem))

theorem releaseListed {s : State} {p : Nat} {l : List Nat} (h : Admitted s l) (mem : p ∈ l) :
    Admitted (neriSchedRelease s p) (l.erase p) := by
  have inside : Node.proc p ∈ l.map Node.proc := List.mem_map_of_mem mem
  have linked := (ringLinked h inside (nullNotListed l)).1
  have after : Ring (del .null s.links (.proc p)) .admitted ((l.map Node.proc).erase (.proc p)) :=
    delRing h inside
  rw [← List.map_erase (fun a b same => by cases same; rfl)] at after
  unfold Admitted neriSchedRelease
  rw [if_pos linked]
  exact after

def granted (s : State) (field : Proc → Nat) (l : List Nat) : Nat :=
  (l.map (fun p => field (s.procs p))).sum

theorem grantedAppend {s s' : State} {field : Proc → Nat} {l : List Nat} {p : Nat} (new : p ∉ l)
    (others : ∀ q, q ≠ p → s'.procs q = s.procs q) :
    granted s' field (l ++ [p]) = granted s field l + field (s'.procs p) := by
  have same : l.map (fun q => field (s'.procs q)) = l.map (fun q => field (s.procs q)) := by
    refine List.map_congr_left (fun q mem => ?_)
    rw [others q (fun e => new (e ▸ mem))]
  unfold granted
  rw [List.map_append,List.sum_append,same,List.map_singleton,List.sum_singleton]

theorem grantedErase (s : State) (field : Proc → Nat) {l : List Nat} {p : Nat} (mem : p ∈ l) :
    granted s field l = field (s.procs p) + granted s field (l.erase p) :=
  (((List.perm_cons_erase mem).map (fun p => field (s.procs p))).sum_eq).trans List.sum_cons

theorem releaseGranted (s : State) (p : Nat) (field : Proc → Nat) (l : List Nat) :
    granted (neriSchedRelease s p) field l = granted s field l := rfl

theorem releasePool (s : State) (p : Nat) : (neriSchedRelease s p).pool = {s.pool with
    cpuAllocNs := s.pool.cpuAllocNs - (s.procs p).cpuGrantedNs
    ramAllocPages := s.pool.ramAllocPages - (s.procs p).ramGrantedPages
    gpuAllocSlots := s.pool.gpuAllocSlots - (s.procs p).gpuGrantedSlots} := by
  simp only [neriSchedRelease,satSubEq]

end Nekros.NeriPool
