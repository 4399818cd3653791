import Nekros.GuardedRun
import Nekros.SchedSteps

/-! Runs of the scheduler: the run queues, the state fields and the current tasks are
three accounts of one fact, read here off the links of the state itself. -/
namespace Nekros.SchedAgreement
open Sched LinkRing SchedQueues SchedSteps
open GuardedRun (run Guarded)

inductive Event where
  | create (cpu : Cpu) (c : Creation)
  | schedule (cpu : Cpu)
  | tick (cpu : Cpu)
  | exit (cpu : Cpu) (t : Tid)

def step (s : State) : Event → Option State
  | .create cpu c => some (taskCreate s cpu c).1
  | .schedule cpu => (schedule s cpu).map Prod.fst
  | .tick cpu => (schedTick s cpu).map Prod.fst
  | .exit cpu t => (taskExit s cpu t).map Prod.fst

def Valid (s : State) : Event → Prop
  | .exit _ t => t < s.made ∧ ((s.tasks t).state = .running ∨ (s.tasks t).state = .ready)
  | _ => True
instance (s e) : Decidable (Valid s e) := by cases e <;> unfold Valid <;> infer_instance

def Queued (s : State) : Event → Prop
  | .exit _ t => (s.tasks t).state = .ready
  | _ => True
instance (s e) : Decidable (Queued s e) := by cases e <;> unfold Queued <;> infer_instance

def At (s : State) (t : Tid) (place : Band × Nat) : Prop :=
  node s.links (.runqueue place.1) place.2 = some (.rqNode t)

structure Agreement (s : State) : Prop where
  ready : ∀ t < s.made, (s.tasks t).state = .ready → ∃! place, At s t place
  running : ∀ t < s.made, (s.tasks t).state = .running →
    (∃! cpu, s.current cpu = some t) ∧ ∀ place, ¬ At s t place
  zombie : ∀ t < s.made, (s.tasks t).state = .zombie → ∀ place, ¬ At s t place
  dels : ∀ d ∈ s.dels, d.2 = true

theorem atQueue {s q all t place} (h : Queues s q all) : At s t place ↔ (q place.1)[place.2]? = some t := by
  unfold At
  rw [ringNode (h.run.ring place.1),List.getElem?_map,Option.map_eq_some_iff]
  constructor
  · rintro ⟨u,found,same⟩
    cases same
    exact found
  · exact fun found => ⟨t,found,rfl⟩

theorem goodAgreement {s : State} (h : Good s) (dels : ∀ d ∈ s.dels, d.2 = true) : Agreement s := by
  obtain ⟨q,all,queues,agree⟩ := h.queues
  have off : ∀ t < s.made, (s.tasks t).state ≠ .ready → ∀ place, ¬ At s t place := by
    intro t lt state place found
    exact state ((agree t lt).mpr ⟨place.1,List.mem_of_getElem? ((atQueue queues).mp found)⟩)
  refine ⟨?_,?_,?_,dels⟩
  · intro t lt ready
    obtain ⟨b,mem⟩ := (agree t lt).mp ready
    obtain ⟨n,found⟩ := List.mem_iff_getElem?.mp mem
    refine ⟨(b,n),(atQueue queues).mpr found,?_⟩
    rintro ⟨b',n'⟩ found'
    have found' := (atQueue queues).mp found'
    have mem' := List.mem_of_getElem? found'
    by_cases band : b' = b
    · subst band
      obtain ⟨lt,_⟩ := List.getElem?_eq_some_iff.mp found
      have same : n = n' := (List.getElem?_inj lt (queueNodup queues.run b')).mp (found.trans found'.symm)
      rw [same]
    · exact absurd mem (queues.run.apart b' b band t mem')
  · intro t lt running
    obtain ⟨cpu,seat⟩ := h.seats.running t lt running
    exact ⟨⟨cpu,seat,fun c found => h.seats.once c cpu t found seat⟩,
      off t lt (by rw [running]; simp)⟩
  · intro t lt zombie
    exact off t lt (by rw [zombie]; simp)

theorem stepGood {s s' : State} {e : Event} (h : Good s) (valid : Valid s e)
    (stepped : step s e = some s') : Good s' := by
  cases e with
  | create cpu c =>
      cases Option.some.inj stepped
      rcases createCases cpu c h with ⟨_,n,failed⟩ | ⟨s',t,made,created⟩
      · rw [failed]
        exact goodPid n h
      · rw [made]
        exact created.good
  | schedule cpu =>
      obtain ⟨s1,sw,done,result⟩ := scheduleCases cpu h
      simp only [step,done,Option.map_some,Option.some.injEq] at stepped
      exact stepped ▸ result.good
  | tick cpu =>
      obtain ⟨s0,good,_,_,_,_,done | done⟩ := tickCases cpu h
      · simp only [step,done,Option.map_some,Option.some.injEq] at stepped
        exact stepped ▸ good
      · obtain ⟨s1,sw,scheduled,result⟩ := scheduleCases cpu good
        simp only [step,done,scheduled,Option.map_some,Option.some.injEq] at stepped
        exact stepped ▸ result.good
  | exit cpu t =>
      have marked := exitMarkSpec h valid.1
      obtain ⟨s1,sw,scheduled,result⟩ := scheduleCases cpu marked.good
      simp only [step,taskExit,scheduled,Option.map_some,Option.some.injEq] at stepped
      exact stepped ▸ result.good

theorem stepDels {s s' : State} {e : Event} (h : Good s) (valid : Valid s e) (queued : Queued s e)
    (dels : ∀ d ∈ s.dels, d.2 = true) (stepped : step s e = some s') : ∀ d ∈ s'.dels, d.2 = true := by
  have scheduled : ∀ {s0 s1 : State} {cpu : Cpu} {sw : Switch}, Scheduled s0 s1 cpu sw →
      (∀ d ∈ s0.dels, d.2 = true) → ∀ d ∈ s1.dels, d.2 = true :=
    fun result before d hd => (result.dels d hd).elim (before d) id
  cases e with
  | create cpu c =>
      cases Option.some.inj stepped
      rcases createCases cpu c h with ⟨_,n,failed⟩ | ⟨s',t,made,created⟩
      · rw [failed]
        exact dels
      · rw [made]
        show ∀ d ∈ s'.dels, d.2 = true
        rw [created.dels]
        exact dels
  | schedule cpu =>
      obtain ⟨s1,sw,done,result⟩ := scheduleCases cpu h
      simp only [step,done,Option.map_some,Option.some.injEq] at stepped
      exact stepped ▸ scheduled result dels
  | tick cpu =>
      obtain ⟨s0,good,_,_,same,_,done | done⟩ := tickCases cpu h
      · simp only [step,done,Option.map_some,Option.some.injEq] at stepped
        rw [← stepped,same]
        exact dels
      · obtain ⟨s1,sw,found,result⟩ := scheduleCases cpu good
        simp only [step,done,found,Option.map_some,Option.some.injEq] at stepped
        exact stepped ▸ scheduled result (by rw [same]; exact dels)
  | exit cpu t =>
      have marked := exitMarkSpec h valid.1
      obtain ⟨s1,sw,found,result⟩ := scheduleCases cpu marked.good
      simp only [step,taskExit,found,Option.map_some,Option.some.injEq] at stepped
      refine stepped ▸ scheduled result (fun d hd => ?_)
      rcases marked.dels d hd with old | linked | ⟨_,unqueued⟩
      · exact dels d old
      · exact linked
      · exact absurd queued unqueued

theorem initGood : Good schedInit := by
  refine ⟨⟨fun _ => [],[],⟨⟨?_,by simp,by simp,?_⟩,⟨?_,by simp,?_⟩⟩,?_⟩,⟨?_,?_,?_⟩⟩
  · intro b
    refine ⟨?_,List.nodup_singleton _⟩
    show initLinks.next (.runqueue b) = .runqueue b ∧ initLinks.prev (.runqueue b) = .runqueue b
    revert b
    decide
  · intro t lt
    exact absurd lt (Nat.not_lt_zero t)
  · refine ⟨?_,List.nodup_singleton _⟩
    show initLinks.next .allTasksList = .allTasksList ∧ initLinks.prev .allTasksList = .allTasksList
    decide
  · intro t lt
    exact absurd lt (Nat.not_lt_zero t)
  · intro t lt
    exact absurd lt (Nat.not_lt_zero t)
  · intro t lt
    exact absurd lt (Nat.not_lt_zero t)
  · intro cpu t found
    cases found
  · intro cpu cpu' t found
    cases found

theorem runAgreement {events : List Event} {s : State}
    (guarded : Guarded step (fun s e => Valid s e ∧ Queued s e) schedInit events)
    (ran : run step schedInit events = some s) : Agreement s := by
  have inv : Good s ∧ ∀ d ∈ s.dels, d.2 = true :=
    GuardedRun.guardedInvariant (fun s => Good s ∧ ∀ d ∈ s.dels, d.2 = true)
      (fun _ _ _ h guard stepped =>
        ⟨stepGood h.1 guard.1 stepped,stepDels h.1 guard.1 guard.2 h.2 stepped⟩)
      ⟨initGood,by simp [schedInit]⟩ guarded ran
  exact goodAgreement inv.1 inv.2

def readyExitRun : List Event :=
  [.create 0 (plain 0x1000000),.create 0 (plain 0x1004000),.create 0 (plain 0x1008000),
    .schedule 0,.schedule 1,.tick 0,.exit 0 2]

theorem runAgreementReadyExit : ∃ s, run step schedInit readyExitRun = some s ∧
    (s.tasks 2).state = .zombie ∧ Agreement s := by
  have state : (run step schedInit readyExitRun).map (fun s => (s.tasks 2).state) = some .zombie := by
    decide +kernel
  obtain ⟨s,ran,zombie⟩ := Option.map_eq_some_iff.mp state
  exact ⟨s,ran,zombie,runAgreement (by decide +kernel) ran⟩

def runningExitRun : List Event := [.create 0 (plain 0x1000000),.schedule 0,.exit 0 0]

theorem runningExitUnlinks : Guarded step Valid schedInit runningExitRun ∧
    ∃ s, run step schedInit runningExitRun = some s ∧ (.rqNode 0,false) ∈ s.dels ∧ ¬ Agreement s := by
  have dels : (run step schedInit runningExitRun).map State.dels =
      some [(.allTasks 0,true),(.rqNode 0,false),(.rqNode 0,true)] := by decide +kernel
  obtain ⟨s,ran,same⟩ := Option.map_eq_some_iff.mp dels
  refine ⟨by decide +kernel,s,ran,by rw [same]; decide,fun agreement => ?_⟩
  have linked := agreement.dels (.rqNode 0,false) (by rw [same]; decide)
  cases linked

end Nekros.SchedAgreement
