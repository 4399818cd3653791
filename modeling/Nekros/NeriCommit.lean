import Nekros.GuardedRun
import Nekros.NeriPool

/-! Runs of neri_sched_admit and neri_sched_release on one pool. `live` is what the
callers know: the records admitted and not released since, in the order of the list. -/
namespace Nekros.NeriCommit
open Words LinkRing NeriPool
open GuardedRun (run Guarded Along guardExact)

/- A pool with nothing allocated, over records of any 64-bit demands; what the records
hold otherwise, and their list nodes, is arbitrary. -/
structure Start where
  cpuTotalNs : Nat
  ramTotalPages : Nat
  gpuTotalSlots : Nat
  procs : Nat → Proc
  links : Links Node
  totals : cpuTotalNs < 2^64 ∧ ramTotalPages < 2^64 ∧ gpuTotalSlots < 2^64
  demands : ∀ p, (procs p).cpuDemandNs < 2^64 ∧ (procs p).ramDemandPages < 2^64 ∧
    (procs p).gpuDemandSlots < 2^64

structure World where
  neri : State
  live : List Nat

def start (i : Start) : World :=
  ⟨⟨⟨i.cpuTotalNs,0,i.ramTotalPages,0,i.gpuTotalSlots,0,1,0⟩,i.procs,init i.links .admitted,0⟩,[]⟩

inductive Event where
  | schedAdmit (p : Nat) (blockAdmits : Bool)
  | schedRelease (p : Nat)

def step (w : World) : Event → Option World
  | .schedAdmit p blockAdmits =>
      let r := neriSchedAdmit w.neri p blockAdmits
      some ⟨r.1,if r.2 = 0 then w.live ++ [p] else w.live⟩
  | .schedRelease p => some ⟨neriSchedRelease w.neri p,w.live.erase p⟩

def Valid (w : World) : Event → Prop
  | .schedAdmit p _ => p ∉ w.live
  | .schedRelease p => p ∈ w.live
instance (w e) : Decidable (Valid w e) := by cases e <;> unfold Valid <;> infer_instance

structure NoOverCommit (w : World) : Prop where
  listed : Admitted w.neri w.live
  cpu : granted w.neri Proc.cpuGrantedNs w.live = w.neri.pool.cpuAllocNs
  cpuTotal : granted w.neri Proc.cpuGrantedNs w.live ≤ 2 * w.neri.pool.cpuTotalNs
  ram : granted w.neri Proc.ramGrantedPages w.live = w.neri.pool.ramAllocPages
  ramTotal : granted w.neri Proc.ramGrantedPages w.live ≤ 3 * w.neri.pool.ramTotalPages / 2
  gpu : granted w.neri Proc.gpuGrantedSlots w.live = w.neri.pool.gpuAllocSlots
  gpuTotal : granted w.neri Proc.gpuGrantedSlots w.live ≤ w.neri.pool.gpuTotalSlots

def Fits (w : World) : Event → Prop
  | .schedAdmit p blockAdmits => (neriSchedAdmit w.neri p blockAdmits).2 = 0 →
      w.neri.pool.cpuAllocNs + (w.neri.procs p).cpuDemandNs < 2^64 ∧
      w.neri.pool.ramAllocPages + (w.neri.procs p).ramDemandPages < 2^64 ∧
      w.neri.pool.gpuAllocSlots + (w.neri.procs p).gpuDemandSlots ≤ w.neri.pool.gpuTotalSlots
  | .schedRelease _ => True
instance (w e) : Decidable (Fits w e) := by cases e <;> unfold Fits <;> infer_instance

def Inv (w : World) : Prop := NoOverCommit w ∧ w.neri.pool.gpuTotalSlots < 2^64

theorem startInv (i : Start) : Inv (start i) :=
  ⟨⟨LinkRing.initRing i.links _,rfl,Nat.zero_le _,rfl,Nat.zero_le _,rfl,Nat.zero_le _⟩,i.totals.2.2⟩

theorem grantedSum {s s' : State} {p : Nat} {l : List Nat} (new : p ∉ l) (g : Granted s s' p) :
    granted s' Proc.cpuGrantedNs (l ++ [p]) = granted s Proc.cpuGrantedNs l + (s.procs p).cpuDemandNs ∧
      granted s' Proc.ramGrantedPages (l ++ [p]) =
        granted s Proc.ramGrantedPages l + (s.procs p).ramDemandPages ∧
      granted s' Proc.gpuGrantedSlots (l ++ [p]) =
        granted s Proc.gpuGrantedSlots l + (s.procs p).gpuDemandSlots := by
  have others : ∀ q, q ≠ p → s'.procs q = s.procs q := by
    intro q different
    rw [g.proc,Function.update_of_ne different]
  have own := congrFun g.proc p
  rw [Function.update_self] at own
  refine ⟨?_,?_,?_⟩ <;> rw [grantedAppend new others,own]

theorem admitKeeps {w : World} {p : Nat} {s' : State} (inv : Inv w) (new : p ∉ w.live)
    (g : Granted w.neri s' p)
    (cpuFits : w.neri.pool.cpuAllocNs + (w.neri.procs p).cpuDemandNs < 2^64)
    (ramFits : w.neri.pool.ramAllocPages + (w.neri.procs p).ramDemandPages < 2^64)
    (gpuFits : w.neri.pool.gpuAllocSlots + (w.neri.procs p).gpuDemandSlots ≤ w.neri.pool.gpuTotalSlots) :
    Inv ⟨s',w.live ++ [p]⟩ := by
  obtain ⟨h,words⟩ := inv
  obtain ⟨cpu,ram,gpu⟩ := grantedSum new g
  have cpuRoom := g.cpuRoom
  have ramRoom := g.ramRoom
  rw [wrapOfLt cpuFits] at cpuRoom
  rw [wrapOfLt ramFits] at ramRoom
  -- a total that wraps around only makes the headroom smaller
  have cpuHead : wrap (w.neri.pool.cpuTotalNs * 2) ≤ w.neri.pool.cpuTotalNs * 2 := Nat.mod_le _ _
  have ramHead : wrap (w.neri.pool.ramTotalPages * 3) ≤ w.neri.pool.ramTotalPages * 3 := Nat.mod_le _ _
  rw [h.cpu] at cpu
  rw [h.ram] at ram
  rw [h.gpu] at gpu
  refine ⟨⟨admitListed h.listed new g,?_,?_,?_,?_,?_,?_⟩,?_⟩ <;> simp only [g.pool]
  · rw [cpu,wrapOfLt cpuFits]
  · rw [cpu]
    omega
  · rw [ram,wrapOfLt ramFits]
  · rw [ram]
    omega
  · rw [gpu,wrapOfLt (by omega)]
  · rw [gpu]
    exact gpuFits
  · exact words

theorem admitBreaks {w : World} {p : Nat} {s' : State} (inv : Inv w) (new : p ∉ w.live)
    (g : Granted w.neri s' p)
    (exceeds : ¬ (w.neri.pool.cpuAllocNs + (w.neri.procs p).cpuDemandNs < 2^64 ∧
      w.neri.pool.ramAllocPages + (w.neri.procs p).ramDemandPages < 2^64 ∧
      w.neri.pool.gpuAllocSlots + (w.neri.procs p).gpuDemandSlots ≤ w.neri.pool.gpuTotalSlots)) :
    ¬ NoOverCommit ⟨s',w.live ++ [p]⟩ := by
  obtain ⟨h,words⟩ := inv
  obtain ⟨cpu,ram,gpu⟩ := grantedSum new g
  rw [h.cpu] at cpu
  rw [h.ram] at ram
  rw [h.gpu] at gpu
  intro after
  have cpuAfter := after.cpu
  have ramAfter := after.ram
  have gpuAfter := after.gpuTotal
  simp only [g.pool] at cpuAfter ramAfter gpuAfter
  rw [cpu] at cpuAfter
  rw [ram] at ramAfter
  rw [gpu] at gpuAfter
  refine exceeds ⟨?_,?_,gpuAfter⟩
  · rw [cpuAfter]
    exact wrapLt _
  · rw [ramAfter]
    exact wrapLt _

theorem releaseKeeps {w : World} {p : Nat} (inv : Inv w) (mem : p ∈ w.live) :
    Inv ⟨neriSchedRelease w.neri p,w.live.erase p⟩ := by
  obtain ⟨h,words⟩ := inv
  have cpu := grantedErase w.neri Proc.cpuGrantedNs mem
  have ram := grantedErase w.neri Proc.ramGrantedPages mem
  have gpu := grantedErase w.neri Proc.gpuGrantedSlots mem
  have cpuNow := h.cpu
  have cpuTotal := h.cpuTotal
  have ramNow := h.ram
  have ramTotal := h.ramTotal
  have gpuNow := h.gpu
  have gpuTotal := h.gpuTotal
  refine ⟨⟨releaseListed h.listed mem,?_,?_,?_,?_,?_,?_⟩,by rw [releasePool]; exact words⟩ <;>
    rw [releaseGranted,releasePool] <;> dsimp only <;> omega

theorem stepKeeps (w : World) (e : Event) (w' : World) (inv : Inv w) (valid : Valid w e)
    (fits : Fits w e) (stepped : step w e = some w') : Inv w' := by
  cases e with
  | schedAdmit p blockAdmits =>
      cases Option.some.inj stepped
      rcases admitCases w.neri p blockAdmits with ⟨e,which,refused⟩ | ⟨s',answer,g⟩
      · have nonzero : -e ≠ 0 := by rcases which with rfl | rfl <;> decide
        rw [refused,if_neg nonzero]
        exact inv
      · have room := fits (by rw [answer])
        rw [answer,if_pos rfl]
        exact admitKeeps inv valid g room.1 room.2.1 room.2.2
  | schedRelease p =>
      cases Option.some.inj stepped
      exact releaseKeeps inv valid

theorem stepBreaks (w : World) (e : Event) (inv : Inv w) (valid : Valid w e) (exceeds : ¬ Fits w e) :
    ∃ w', step w e = some w' ∧ ¬ NoOverCommit w' := by
  cases e with
  | schedAdmit p blockAdmits =>
      obtain ⟨accepted,room⟩ := Classical.not_imp.mp exceeds
      rcases admitCases w.neri p blockAdmits with ⟨e,which,refused⟩ | ⟨s',answer,g⟩
      · have nonzero : -e ≠ 0 := by rcases which with rfl | rfl <;> decide
        rw [refused] at accepted
        exact absurd accepted nonzero
      · refine ⟨_,rfl,?_⟩
        rw [answer,if_pos rfl]
        exact admitBreaks inv valid g room
  | schedRelease p => exact absurd trivial exceeds

theorem commitExact (i : Start) (events : List Event) (valid : Guarded step Valid (start i) events) :
    (Along step NoOverCommit (start i) events ↔ Guarded step Fits (start i) events) ∧
      ∀ s p blockAdmits, (neriSchedAdmit s p blockAdmits).2 ≠ 0 → (neriSchedAdmit s p blockAdmits).1 = s :=
  ⟨guardExact Inv (fun _ inv => inv.1) stepKeeps stepBreaks (startInv i) valid,
    fun _ _ _ refused => admitRefused refused⟩

def pair (first second : Proc) : Nat → Proc
  | 0 => first
  | 1 => second
  | _ => Proc.zeroed

def wants (cpu ram gpu : Nat) : Proc := {Proc.zeroed with cpuDemandNs := cpu,ramDemandPages := ram,gpuDemandSlots := gpu}

theorem pairWords {first second : Proc}
    (words : ∀ q ∈ [first,second], q.cpuDemandNs < 2^64 ∧ q.ramDemandPages < 2^64 ∧ q.gpuDemandSlots < 2^64) :
    ∀ p, (pair first second p).cpuDemandNs < 2^64 ∧ (pair first second p).ramDemandPages < 2^64 ∧
      (pair first second p).gpuDemandSlots < 2^64 := by
  intro p
  match p with
  | 0 => exact words first (by simp)
  | 1 => exact words second (by simp)
  | _+2 => exact ⟨Nat.two_pow_pos 64,Nat.two_pow_pos 64,Nat.two_pow_pos 64⟩

def nowhere : Links Node := ⟨fun _ => .null,fun _ => .null⟩

def smallPool : Start :=
  ⟨10000000,1024,1,pair (wants 4000000 256 1) (wants 16000000 1200 0),nowhere,by decide,pairWords (by decide)⟩

theorem commitExactSmallPool :
    Guarded step Valid (start smallPool) [.schedAdmit 0 false,.schedAdmit 1 false,.schedRelease 0] ∧
      Along step NoOverCommit (start smallPool) [.schedAdmit 0 false,.schedAdmit 1 false,.schedRelease 0] := by
  have valid : Guarded step Valid (start smallPool) [.schedAdmit 0 false,.schedAdmit 1 false,.schedRelease 0] := by
    decide +kernel
  exact ⟨valid,(commitExact smallPool _ valid).1.mpr (by decide +kernel)⟩

def noGpu : Start := ⟨10000000,1024,0,pair (wants 1000000 4 1) Proc.zeroed,nowhere,by decide,pairWords (by decide)⟩

def wrapsAround : Start :=
  ⟨10000000,1024,0,pair (wants 1 4 0) (wants (2^64 - 1) 4 0),nowhere,by decide,pairWords (by decide)⟩

theorem overCommitted :
    (Guarded step Valid (start noGpu) [.schedAdmit 0 false] ∧
      ∃ w, run step (start noGpu) [.schedAdmit 0 false] = some w ∧ w.live = [0] ∧
        granted w.neri Proc.gpuGrantedSlots w.live = 1 ∧ w.neri.pool.gpuTotalSlots = 0) ∧
    (Guarded step Valid (start wrapsAround) [.schedAdmit 0 false,.schedAdmit 1 false] ∧
      ∃ w, run step (start wrapsAround) [.schedAdmit 0 false,.schedAdmit 1 false] = some w ∧ w.live = [0,1] ∧
        granted w.neri Proc.cpuGrantedNs w.live = 2^64 ∧ w.neri.pool.cpuAllocNs = 0 ∧
        2 * w.neri.pool.cpuTotalNs = 20000000) :=
  ⟨⟨by decide +kernel,_,rfl,by decide +kernel,by decide +kernel,by decide +kernel⟩,
    by decide +kernel,_,rfl,by decide +kernel,by decide +kernel,by decide +kernel,by decide +kernel⟩

end Nekros.NeriCommit
