import Nekros.SchedAgreement

/-! Where a new task starts. `rq_min_vruntime` is what a task begins with, and no call ever
raises it. -/
namespace Nekros.SchedFloor
open Sched LinkRing SchedQueues SchedSteps SchedAgreement
open GuardedRun (run)
open Function (update)

theorem enqueueRest (s : State) (t : Tid) :
    ∃ tasks links, enqueue s t = {s with tasks := tasks,links := links} := by
  unfold enqueue
  dsimp only
  split
  · exact ⟨_,_,rfl⟩
  · exact ⟨_,_,rfl⟩

theorem requeueRest (s : State) (prev : Option Tid) :
    ∃ tasks links, requeue s prev = {s with tasks := tasks,links := links} := by
  cases prev with
  | none => exact ⟨_,_,rfl⟩
  | some t =>
      rw [requeue]
      split
      · obtain ⟨_,_,same⟩ := enqueueRest (setTask s t {s.tasks t with state := .ready}) t
        exact ⟨_,_,same⟩
      · exact ⟨_,_,rfl⟩

theorem scheduleRest {s s' : State} {cpu : Cpu} {sw : Switch} (done : schedule s cpu = some (s',sw)) :
    ∃ tasks links current dels,
      s' = {s with tasks := tasks,links := links,current := current,dels := dels} := by
  obtain ⟨next,_,ended⟩ := Option.map_eq_some_iff.mp done
  obtain ⟨_,_,kept⟩ := requeueRest s (s.current cpu)
  rw [kept] at ended
  cases next with
  | some next =>
      cases ended
      exact ⟨_,_,_,_,rfl⟩
  | none =>
      cases ended
      cases s.current cpu with
      | none => exact ⟨_,_,_,_,rfl⟩
      | some t => exact ⟨_,_,_,_,rfl⟩

/- No call writes `rq_min_vruntime`; `sched_init` sets it to 0. -/
theorem enqueueFloor (s : State) (t : Tid) : (enqueue s t).rqMinVruntime = s.rqMinVruntime := by
  obtain ⟨_,_,same⟩ := enqueueRest s t
  rw [same]

theorem scheduleFloor {s s' : State} {cpu : Cpu} {sw : Switch} (done : schedule s cpu = some (s',sw)) :
    s'.rqMinVruntime = s.rqMinVruntime := by
  obtain ⟨_,_,_,_,same⟩ := scheduleRest done
  rw [same]

theorem createFloor (s : State) (cpu : Cpu) (c : Creation) :
    (taskCreate s cpu c).1.rqMinVruntime = s.rqMinVruntime := by
  unfold taskCreate
  split
  · rfl
  split
  · rfl
  split
  · rfl
  obtain ⟨a,placed⟩ := placeOwn (register (enroll s cpu c) s.made) s.made c
  rw [placed]
  exact enqueueFloor _ s.made

theorem stepFloor {s s' : State} {e : Event} (stepped : step s e = some s') :
    s'.rqMinVruntime = s.rqMinVruntime := by
  cases e with
  | create cpu c =>
      cases Option.some.inj stepped
      exact createFloor s cpu c
  | schedule cpu =>
      obtain ⟨⟨_,_⟩,done,rfl⟩ := Option.map_eq_some_iff.mp stepped
      exact scheduleFloor done
  | tick cpu =>
      obtain ⟨⟨_,_⟩,done,rfl⟩ := Option.map_eq_some_iff.mp stepped
      unfold schedTick at done
      split at done
      · exact scheduleFloor done
      · dsimp only at done
        split at done
        · cases done
          rfl
        · exact (scheduleFloor done).trans rfl
  | exit cpu t =>
      obtain ⟨⟨_,_⟩,done,rfl⟩ := Option.map_eq_some_iff.mp stepped
      refine (scheduleFloor done).trans ?_
      unfold exitMark
      dsimp only
      split <;> rfl

theorem createdVruntime {s s' : State} {cpu : Cpu} {c : Creation} {t : Tid}
    (created : taskCreate s cpu c = (s',.ok t)) :
    (s'.tasks t).vruntime = s.rqMinVruntime (bandOf (s'.tasks t)) := by
  unfold taskCreate at created
  split at created
  · cases created
  split at created
  · cases created
  split at created
  · cases created
  cases created
  obtain ⟨a,placed⟩ := placeOwn (register (enroll s cpu c) s.made) s.made c
  rw [placed]
  simp [register,enqueue,enroll,setTask,newTask,Task.zeroed,bandOf]

def Live (s : State) (b : Band) (u : Tid) : Prop :=
  u < s.made ∧ (s.tasks u).state ≠ .zombie ∧ bandOf (s.tasks u) = b

def NotBehind (s : State) (b : Band) (vruntime : Nat) : Prop :=
  (∃ u, Live s b u) → ∃ u, Live s b u ∧ (s.tasks u).vruntime ≤ vruntime

theorem newTaskNotBehind {events : List Event} {s s' : State} {cpu : Cpu} {c : Creation} {t : Tid}
    (ran : run step schedInit events = some s) (created : taskCreate s cpu c = (s',.ok t)) :
    (s'.tasks t).vruntime = 0 ∧
      (NotBehind s (bandOf (s'.tasks t)) (s'.tasks t).vruntime ↔
        ((∃ u, Live s (bandOf (s'.tasks t)) u) →
          ∃ u, Live s (bandOf (s'.tasks t)) u ∧ (s.tasks u).vruntime = 0)) := by
  have floor : s.rqMinVruntime = fun _ => 0 :=
    GuardedRun.runInvariant (fun s => s.rqMinVruntime = fun _ => 0)
      (fun _ _ _ h stepped => (stepFloor stepped).trans h) rfl ran
  have start : (s'.tasks t).vruntime = 0 := by rw [createdVruntime created,floor]
  refine ⟨start,?_⟩
  rw [NotBehind,start]
  simp only [Nat.le_zero]

theorem plainCreated (s : State) (cpu : Cpu) {kstackPa : Nat} (stack : kstackPa ≠ 0) :
    taskCreate s cpu (plain kstackPa) = ((taskCreate s cpu (plain kstackPa)).1,.ok s.made) := by
  simp [taskCreate,plain,stack]

theorem newTaskNotBehindEarly : ∃ s s', run step schedInit [.create 0 (plain 0x1000000)] = some s ∧
    taskCreate s 0 (plain 0x1004000) = (s',.ok s.made) ∧
    NotBehind s (bandOf (s'.tasks s.made)) (s'.tasks s.made).vruntime := by
  have ran : run step schedInit [.create 0 (plain 0x1000000)] =
      some (taskCreate schedInit 0 (plain 0x1000000)).1 := rfl
  have created := plainCreated (taskCreate schedInit 0 (plain 0x1000000)).1 0
    (show 0x1004000 ≠ 0 by decide)
  refine ⟨_,_,ran,created,(newTaskNotBehind ran created).2.mpr (fun _ => ⟨0,?_,by decide +kernel⟩)⟩
  unfold Live
  decide +kernel

def nineTicks : List Event := [.create 0 (plain 0x1000000),.schedule 0] ++ List.replicate 9 (.tick 0)

def eightMore : List Event := .schedule 0::List.replicate 8 (.tick 0)

theorem lateTaskRunsAlone : ∃ s s' s'', run step schedInit nineTicks = some s ∧
    taskCreate s 0 (plain 0x1004000) = (s',.ok s.made) ∧
    ¬ NotBehind s (bandOf (s'.tasks s.made)) (s'.tasks s.made).vruntime ∧
    run step s' eightMore = some s'' ∧ (s''.tasks 0).vruntime = (s.tasks 0).vruntime ∧
    (s''.tasks s.made).vruntime = 8 * (1000000 * 56483 / 14949) := by
  have busy : (run step schedInit nineTicks).map
      (fun s => (s.made,(s.tasks 0).state,bandOf (s.tasks 0),(s.tasks 0).vruntime)) =
        some (1,.running,8,9 * 3778379) := by decide +kernel
  have late : (run step schedInit (nineTicks ++ [.create 0 (plain 0x1004000)])).map
      (fun s => (bandOf (s.tasks 1),(s.tasks 1).vruntime)) = some (8,0) := by decide +kernel
  have alone : (run step schedInit (nineTicks ++ .create 0 (plain 0x1004000)::eightMore)).map
      (fun s => ((s.tasks 0).vruntime,(s.tasks 1).vruntime)) = some (9 * 3778379,8 * 3778379) := by
    decide +kernel
  obtain ⟨s,ran,was⟩ := Option.map_eq_some_iff.mp busy
  simp only [Prod.mk.injEq] at was
  obtain ⟨made,state,band,vruntime⟩ := was
  have created := plainCreated s 0 (show 0x1004000 ≠ 0 by decide)
  have next : step s (.create 0 (plain 0x1004000)) = some (taskCreate s 0 (plain 0x1004000)).1 := rfl
  rw [GuardedRun.runAppend,ran,Option.bind_some,run,next,Option.bind_some] at late alone
  generalize (taskCreate s 0 (plain 0x1004000)).1 = s' at *
  simp only [run,Option.map_some,Option.some.injEq,Prod.mk.injEq] at late
  obtain ⟨s'',ended,now⟩ := Option.map_eq_some_iff.mp alone
  simp only [Prod.mk.injEq] at now
  refine ⟨s,s',s'',ran,created,fun notBehind => ?_,ended,now.1.trans vruntime.symm,by rw [made]; exact now.2⟩
  rw [made,late.1,late.2] at notBehind
  have live : Live s 8 0 := ⟨by rw [made]; decide,by rw [state]; decide,band⟩
  obtain ⟨u,other,le⟩ := notBehind ⟨0,live⟩
  have first : u = 0 := Nat.lt_one_iff.mp (made ▸ other.1)
  rw [first,vruntime] at le
  exact absurd le (by decide)

end Nekros.SchedFloor
