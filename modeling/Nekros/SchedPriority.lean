import Nekros.NeriAdo
import Nekros.SchedFairness
import Nekros.Syscall

/-! Who writes the priority of a task: `task_create`, `sys_nk_work_budget` of kernel/syscall.c, and
`ado_apply` of drivers/neri/core/neri_ado.c through `task_find_by_pid` of init/nekros_main.c. The weight
and the run queue are derived from it. A call is one step, but for the ring of decisions, whose
statements interleave; a budget is never taken back. -/
namespace Nekros.SchedPriority
open Sched LinkRing SchedQueues SchedSteps SchedAgreement SchedFairness Words Errno
open NeriAdo (Decision Machine)
open Syscall (failure low32)
open GuardedRun (run Guarded)
open Function (update)

def maxBudgets : Nat := 256

structure Budget where
  id : Nat
  pid : Nat
  cpuNsLeft : Nat
  deadlineTsc : Nat
  flags : Nat
  active : Bool
  deriving DecidableEq, Repr

/- `raised` is a record: the tasks whose priority a budget has raised. -/
structure World where
  sched : State
  ado : NeriAdo.State
  budgets : Nat → Budget
  nextBudgetId : Nat
  raised : List Tid

def boot (machine : Machine) : World :=
  ⟨schedInit,NeriAdo.neriAdoInit machine,fun _ => ⟨0,0,0,0,0,false⟩,1,[]⟩

structure Request where
  cpuNs : Nat
  deadlineNs : Nat
  flags : Nat
  tsc : Nat
  tscKhz : Nat
  deriving DecidableEq, Repr

def freeBudget (w : World) : Option Nat := (List.range maxBudgets).find? (fun i => !(w.budgets i).active)

def sysNkWorkBudget (w : World) (cpu : Cpu) (r : Request) : World × Nat :=
  match w.sched.current cpu with
  | none => (w,failure einval)
  | some t =>
      if r.cpuNs = 0 ∨ r.deadlineNs = 0 then (w,failure einval)
      else
        match freeBudget w with
        | none => (w,failure enomem)
        | some i =>
            let task := w.sched.tasks t
            let budget := ⟨w.nextBudgetId,task.pid,r.cpuNs,
              wrap (r.tsc + wrap (r.deadlineNs * r.tscKhz) / 1000000),low32 r.flags,true⟩
            ({w with
                sched := setTask w.sched t {task with priority := min 15 (task.priority + 2)},
                budgets := update w.budgets i budget,
                nextBudgetId := wrap (w.nextBudgetId + 1),
                raised := if task.priority < 15 then t::w.raised else w.raised},
              w.nextBudgetId)

/- The tasks of `all_tasks_list` from one node on; nothing when it does not come back to the head. -/
def listed (s : State) : Nat → Node → Option (List Tid)
  | _,.allTasksList => some []
  | fuel+1,.allTasks t => (listed s fuel (s.links.next (.allTasks t))).map (t::·)
  | _,_ => none

/- A statement of `neri_ado_work`, on the tasks that `all_tasks_list` has when it runs. -/
def neriAdoWork (w : World) (cpu : Cpu) : Option World :=
  (listed w.sched w.sched.made (w.sched.links.next .allTasksList)).map (fun all =>
    let ado := NeriAdo.neriAdoWork {w.ado with tasks := all.map w.sched.tasks} cpu
    {w with ado := ado,sched := (all.zip ado.tasks).foldl (fun s p => setTask s p.1 p.2) w.sched})

inductive Event where
  | call (e : SchedAgreement.Event)
  | workBudget (cpu : Cpu) (r : Request)
  | dispatch (target epoch : Nat) (dec : Option Decision)
  | dispatchNext
  | adoWork (cpu : Cpu)
  | sample (machine : Machine)

def step (w : World) : Event → Option World
  | .call e => (SchedAgreement.step w.sched e).map (fun s => {w with sched := s})
  | .workBudget cpu r => some (sysNkWorkBudget w cpu r).1
  | .dispatch target epoch dec => some {w with ado := NeriAdo.neriAdoDispatch w.ado target epoch dec}
  | .dispatchNext => some {w with ado := NeriAdo.dispatchNext w.ado}
  | .adoWork cpu => neriAdoWork w cpu
  | .sample machine => some {w with ado := {w.ado with machine := machine}}

def Valid (w : World) : Event → Prop
  | .call (.exit _ t) => t < w.sched.made
  | _ => True

instance (w : World) (e : Event) : Decidable (Valid w e) := by
  unfold Valid
  split <;> infer_instance

theorem budgetHandler (w : World) (cpu : Cpu) (r : Request) (a : Syscall.Args) (answers : Syscall.Answers)
    (args : a.a1 = r.cpuNs ∧ a.a2 = r.deadlineNs) (free : answers.budgetFree = (freeBudget w).isSome)
    (id : answers.result = w.nextBudgetId) :
    Syscall.runHandler w.sched cpu .nkWorkBudget a answers =
      some ((sysNkWorkBudget w cpu r).1.sched,.idle,(sysNkWorkBudget w cpu r).2) := by
  unfold Syscall.runHandler sysNkWorkBudget
  dsimp only
  rw [args.1,args.2,free,id]
  cases w.sched.current cpu with
  | none => rfl
  | some t =>
      dsimp only
      by_cases bad : r.cpuNs = 0 ∨ r.deadlineNs = 0
      · rw [if_pos bad,if_pos bad]
      · rw [if_neg bad,if_neg bad]
        cases freeBudget w <;> rfl

def weightAt (priority : Nat) : Nat := schedWeight.getD priority 0

structure Ordered (s : State) : Prop where
  queued : ∀ t place, At s t place → (place.1 : Nat) = min (s.tasks t).priority 15
  picked : ∀ t, pickNext s = some (some t) → ∀ u < s.made, (s.tasks u).state = .ready →
    (s.tasks u).priority ≤ (s.tasks t).priority

theorem weightFalls : ∀ p' ≤ 15, ∀ p < p', weightAt p' < weightAt p := by decide

theorem bandsFall : (List.finRange 16).reverse.Pairwise (· > ·) := by decide

theorem pickNextHighest {s : State} {q : Band → List Tid} {all : List Tid} (h : Queues s q all) {t : Tid}
    (picked : pickNext s = some (some t)) :
    ∃ b, t ∈ q b ∧ ∀ b', ∀ u ∈ q b', (s.tasks u).state = .ready → b' ≤ b := by
  obtain ⟨before,b,after,bands,best,nobody⟩ := pickFromFirst h picked
  have falls := bandsFall
  rw [bands,List.pairwise_append] at falls
  refine ⟨b,bestQueued best,fun b' u mem ready => ?_⟩
  have listed : b' ∈ before ++ b::after := by
    rw [← bands]
    simp
  rcases List.mem_append.mp listed with earlier | later
  · exact absurd ready (nobody b' earlier u mem)
  · rcases List.mem_cons.mp later with rfl | below
    · exact le_refl b'
    · exact le_of_lt ((List.pairwise_cons.mp falls.2.1).1 b' below)

theorem bandedOrdered {s : State} (h : Good s) (banded : Banded s)
    (bounded : ∀ t < s.made, (s.tasks t).priority ≤ 15) : Ordered s := by
  obtain ⟨q,all,queues,agree⟩ := h.queues
  refine ⟨fun t place found => congrArg Fin.val (banded t place found).symm,fun t picked u lt ready => ?_⟩
  obtain ⟨b,mem,highest⟩ := pickNextHighest queues picked
  obtain ⟨b',listed⟩ := (agree u lt).mp ready
  have mine : min (s.tasks t).priority 15 = b := congrArg Fin.val ((bandedQueue queues).mp banded b t mem)
  have its : min (s.tasks u).priority 15 = b' := congrArg Fin.val ((bandedQueue queues).mp banded b' u listed)
  have above : (b' : Nat) ≤ b := highest b' u listed ready
  rw [Nat.min_eq_left (bounded t (queues.run.made b t mem))] at mine
  rw [Nat.min_eq_left (bounded u lt)] at its
  rw [its,mine]
  exact above

structure Ranked (raised : List Tid) (t : Tid) (x : Task) : Prop where
  pid : 1 ≤ x.pid
  bounded : x.priority ≤ 15
  derived : t ∉ raised → x.weight = weightAt x.priority
  behind : t ∈ raised → ∃ p < x.priority, x.weight = weightAt p

theorem rankedExact {raised : List Tid} {t : Tid} {x : Task} (h : Ranked raised t x) :
    x.weight = weightAt x.priority ↔ t ∉ raised := by
  refine ⟨fun same listed => ?_,h.derived⟩
  obtain ⟨p,below,weight⟩ := h.behind listed
  have less := weightFalls x.priority h.bounded p below
  rw [← weight,same] at less
  exact Nat.lt_irrefl _ less

structure Scheduling (s : State) (raised : List Tid) : Prop where
  good : Good s
  banded : Banded s
  next : 1 ≤ s.nextPid
  made : ∀ t ∈ raised, t < s.made
  tasks : ∀ t < s.made, Ranked raised t (s.tasks t)

structure Inv (w : World) : Prop where
  sched : Scheduling w.sched w.raised
  unnamed : ∀ i, (w.ado.ring i).pid = 0

theorem movedRanked {s s' : State} {raised : List Tid} (moved : Moved s s')
    (h : ∀ t < s.made, Ranked raised t (s.tasks t)) : ∀ t < s'.made, Ranked raised t (s'.tasks t) := by
  intro t lt
  obtain ⟨pid,bounded,derived,behind⟩ := h t (moved.1 ▸ lt)
  rw [moved.2 t]
  exact ⟨pid,bounded,derived,behind⟩

theorem bandedCongr {s s' : State} (banded : Banded s) (links : s'.links = s.links)
    (bands : ∀ t, bandOf (s'.tasks t) = bandOf (s.tasks t)) : Banded s' := by
  intro t place found
  rw [bands]
  refine banded t place ?_
  rw [At,links] at found
  exact found

theorem movedScheduling {s s' : State} {raised : List Tid} (h : Scheduling s raised) (good : Good s')
    (banded : Banded s') (moved : Moved s s') (next : s'.nextPid = s.nextPid) : Scheduling s' raised :=
  ⟨good,banded,next.symm ▸ h.next,fun t mem => moved.1.symm ▸ h.made t mem,movedRanked moved h.tasks⟩

theorem rerunLinks (s : State) (cpu : Cpu) (prev : Option Tid) : (rerun s cpu prev).links = s.links := by
  cases prev <;> rfl

theorem scheduleScheduling {s : State} {raised : List Tid} (cpu : Cpu) (h : Scheduling s raised) :
    ∃ s' sw, schedule s cpu = some (s',sw) ∧ Scheduling s' raised := by
  obtain ⟨s',sw,done,r⟩ := scheduleCases cpu h.good
  have requeued := requeueBanded cpu h.good h.banded
  have banded : Banded s' := by
    obtain ⟨next,picked,ended⟩ := Option.map_eq_some_iff.mp done
    obtain ⟨q,all,queues,_⟩ := (requeueSpec cpu h.good).queues
    cases next with
    | some next =>
        cases ended
        obtain ⟨_,b,_,_,best,_⟩ := pickFromFirst queues picked
        exact runNextBanded cpu queues (bestQueued best) requeued
    | none =>
        cases ended
        have back := movedBand r.moved
        have forth := movedBand (requeueSpec cpu h.good).moved
        exact bandedCongr requeued (rerunLinks _ cpu _) (fun t => (back t).trans (forth t).symm)
  have next : s'.nextPid = s.nextPid := by
    obtain ⟨_,_,_,_,same⟩ := SchedFloor.scheduleRest done
    rw [same]
  exact ⟨s',sw,done,movedScheduling h r.good banded r.moved next⟩

theorem exitMarkScheduling {s : State} {raised : List Tid} {t : Tid} (h : Scheduling s raised)
    (lt : t < s.made) : Scheduling (exitMark s t) raised := by
  have marked := exitMarkSpec h.good lt
  obtain ⟨q,all,queues,agree⟩ := h.good.queues
  obtain ⟨q',all',queues',fewer,_⟩ := exitMarkQueues queues agree lt
  have banded : Banded (exitMark s t) := by
    refine (bandedQueue queues').mpr (fun b u mem => ?_)
    rw [movedBand marked.moved]
    exact (bandedQueue queues).mp h.banded b u (fewer b u mem)
  have next : (exitMark s t).nextPid = s.nextPid := by
    unfold exitMark
    dsimp only
    split <;> rfl
  exact movedScheduling h marked.good banded marked.moved next

theorem createNext (s : State) (cpu : Cpu) (c : Creation) :
    s.nextPid ≤ (taskCreate s cpu c).1.nextPid := by
  unfold taskCreate
  split
  · exact Nat.le_refl _
  split
  · exact Nat.le_refl _
  split
  · exact Nat.le_succ _
  obtain ⟨a,placed⟩ := placeOwn (register (enroll s cpu c) s.made) s.made c
  rw [placed]
  show s.nextPid ≤ (enqueue _ s.made).nextPid
  obtain ⟨_,_,same⟩ := SchedFloor.enqueueRest {enroll s cpu c with
    links := addTail (init (init (enroll s cpu c).links (.rqNode s.made)) (.allTasks s.made)) (.allTasks s.made)
      .allTasksList,
    table := if (enroll s cpu c).table.length < maxTasks then (enroll s cpu c).table ++ [s.made]
      else (enroll s cpu c).table} s.made
  rw [same]
  exact Nat.le_succ _

theorem newRanked {s : State} {raised : List Tid} (cpu : Cpu) (c : Creation) (next : 1 ≤ s.nextPid)
    (fresh : s.made ∉ raised) (vruntime affinity : Nat) :
    Ranked raised s.made {newTask s cpu c with vruntime := vruntime,cpuAffinity := affinity} :=
  ⟨next,Nat.min_le_right _ _,fun _ => rfl,fun listed => absurd listed fresh⟩

theorem createScheduling {s : State} {raised : List Tid} (cpu : Cpu) (c : Creation) (h : Scheduling s raised) :
    Scheduling (taskCreate s cpu c).1 raised := by
  have next := h.next.trans (createNext s cpu c)
  rcases createCases cpu c h.good with ⟨e,n,failed⟩ | ⟨s',t,made,created⟩
  · rw [failed] at next ⊢
    exact ⟨goodPid n h.good,h.banded,next,h.made,h.tasks⟩
  · have banded := createBanded cpu c h.good h.banded
    have same : place (register (enroll s cpu c) s.made) s.made c = s' := by
      unfold taskCreate at made
      split at made
      · cases made
      split at made
      · cases made
      split at made
      · cases made
      exact congrArg Prod.fst made
    rw [made] at next ⊢
    rw [same] at banded
    obtain rfl := created.new
    refine ⟨created.good,banded,next,fun t mem => ?_,fun t lt => ?_⟩
    · rw [created.made]
      exact Nat.lt_succ_of_lt (h.made t mem)
    · by_cases here : t = s.made
      · obtain ⟨v,a,task⟩ := created.task
        rw [here,task]
        exact newRanked cpu c h.next (fun mem => Nat.lt_irrefl _ (h.made _ mem)) v a
      · rw [created.others t here]
        rw [created.made] at lt
        exact h.tasks t (by omega)

theorem tickScheduling {s : State} {raised : List Tid} (cpu : Cpu) (h : Scheduling s raised) :
    ∃ s' sw, schedTick s cpu = some (s',sw) ∧ Scheduling s' raised := by
  unfold schedTick
  cases s.current cpu with
  | none => exact scheduleScheduling cpu h
  | some t =>
      have counted : ∀ slice, Scheduling (setTask s t {charged (s.tasks t) with timesliceNs := slice}) raised := by
        intro slice
        have moved : Moved s (setTask s t {charged (s.tasks t) with timesliceNs := slice}) := movedSet rfl
        exact movedScheduling h (goodSet h.good rfl) (bandedCongr h.banded rfl (movedBand moved)) moved rfl
      dsimp only
      split
      · exact ⟨_,_,rfl,counted _⟩
      · exact scheduleScheduling cpu (counted 0)

theorem currentUnqueued {s : State} {cpu : Cpu} {t : Tid} (h : Good s) (seat : s.current cpu = some t)
    (place : Band × Nat) : ¬ At s t place := by
  intro found
  obtain ⟨q,all,queues,agree⟩ := h.queues
  obtain ⟨lt,state⟩ := h.seats.current cpu t seat
  have ready := (agree t lt).mpr ⟨place.1,List.mem_of_getElem? ((atQueue queues).mp found)⟩
  rw [ready] at state
  rcases state with running | zombie
  · cases running
  · cases zombie

theorem raiseRanked {raised : List Tid} {t : Tid} {x : Task} (h : Ranked raised t x) :
    Ranked (if x.priority < 15 then t::raised else raised) t {x with priority := min 15 (x.priority + 2)} := by
  have bounded := h.bounded
  by_cases low : x.priority < 15
  · rw [if_pos low]
    have higher : x.priority < min 15 (x.priority + 2) := by omega
    refine ⟨h.pid,Nat.min_le_left _ _,fun fresh => absurd List.mem_cons_self fresh,fun _ => ?_⟩
    by_cases old : t ∈ raised
    · obtain ⟨p,below,weight⟩ := h.behind old
      exact ⟨p,below.trans higher,weight⟩
    · exact ⟨x.priority,higher,h.derived old⟩
  · rw [if_neg low]
    have same : min 15 (x.priority + 2) = x.priority := by omega
    rw [same]
    exact h

theorem otherRanked {raised : List Tid} {t u : Tid} {x : Task} (other : u ≠ t) (h : Ranked raised u x)
    (low : Prop) [Decidable low] : Ranked (if low then t::raised else raised) u x := by
  have same : u ∈ (if low then t::raised else raised) ↔ u ∈ raised := by
    split
    · rw [List.mem_cons,or_iff_right other]
    · rfl
  exact ⟨h.pid,h.bounded,fun fresh => h.derived (fun mem => fresh (same.mpr mem)),fun mem => h.behind (same.mp mem)⟩

theorem raiseScheduling {s : State} {raised : List Tid} {cpu : Cpu} {t : Tid} (h : Scheduling s raised)
    (seat : s.current cpu = some t) :
    Scheduling (setTask s t {s.tasks t with priority := min 15 ((s.tasks t).priority + 2)})
      (if (s.tasks t).priority < 15 then t::raised else raised) := by
  have lt := (h.good.seats.current cpu t seat).1
  refine ⟨goodSet h.good rfl,fun u place found => ?_,h.next,fun u mem => ?_,fun u hu => ?_⟩
  · have away : u ≠ t := by
      rintro rfl
      exact currentUnqueued h.good seat place found
    show bandOf (update s.tasks t _ u) = place.1
    rw [Function.update_of_ne away]
    exact h.banded u place found
  · split at mem
    · rcases List.mem_cons.mp mem with rfl | old
      · exact lt
      · exact h.made u old
    · exact h.made u mem
  · show Ranked _ u (update s.tasks t _ u)
    by_cases here : u = t
    · subst here
      rw [Function.update_self]
      exact raiseRanked (h.tasks u hu)
    · rw [Function.update_of_ne here]
      exact otherRanked here (h.tasks u hu) _

theorem listedAll {s : State} {l : List Tid} {a : Node} {fuel : Nat}
    (seg : Seg s.links a (l.map .allTasks) .allTasksList) (short : l.length ≤ fuel) :
    listed s fuel (s.links.next a) = some l := by
  induction l generalizing a fuel with
  | nil =>
      rw [seg.1]
      cases fuel <;> rfl
  | cons t rest ih =>
      obtain ⟨first,_,tail⟩ := seg
      cases fuel with
      | zero => exact absurd short (Nat.not_succ_le_zero _)
      | succ fuel =>
          rw [first,listed,ih tail (Nat.le_of_succ_le_succ short)]
          rfl

theorem storedBack (s : State) (all : List Tid) :
    (all.zip (all.map s.tasks)).foldl (fun s p => setTask s p.1 p.2) s = s := by
  induction all with
  | nil => rfl
  | cons t rest ih =>
      have same : setTask s t (s.tasks t) = s := by
        rw [setTask,Function.update_eq_self]
      rw [List.map_cons,List.zip_cons_cons,List.foldl_cons,same]
      exact ih

theorem allShort {s : State} {q : Band → List Tid} {all : List Tid} (h : Queues s q all) :
    all.length ≤ s.made := by
  have nodup : all.Nodup := (List.nodup_cons.mp h.tasks.ring.nodup).2.of_map _
  have inside : all ⊆ List.range s.made := fun t mem => List.mem_range.mpr (h.tasks.made t mem)
  have short := (nodup.subperm inside).length_le
  rwa [List.length_range] at short

theorem workNobody {w : World} (h : Inv w) (cpu : Cpu) : ∃ w', neriAdoWork w cpu = some w' ∧ Inv w' := by
  obtain ⟨q,all,queues,_⟩ := h.sched.good.queues
  have found := listedAll queues.tasks.ring.seg (allShort queues)
  obtain ⟨tasks,ring⟩ := NeriAdo.workUnnamed (s := {w.ado with tasks := all.map w.sched.tasks}) cpu
    (fun x mem => by
      obtain ⟨t,listed,rfl⟩ := List.mem_map.mp mem
      exact (h.sched.tasks t (queues.tasks.made t listed)).pid) h.unnamed
  unfold neriAdoWork
  rw [found,Option.map_some]
  refine ⟨_,rfl,?_,fun i => ?_⟩
  · dsimp only
    rw [tasks,storedBack]
    exact h.sched
  · dsimp only
    rw [ring]
    exact h.unnamed i

theorem budgetInv {w : World} (h : Inv w) (cpu : Cpu) (r : Request) : Inv (sysNkWorkBudget w cpu r).1 := by
  unfold sysNkWorkBudget
  cases seat : w.sched.current cpu with
  | none => exact h
  | some t =>
      dsimp only
      split
      · exact h
      cases freeBudget w with
      | none => exact h
      | some i => exact ⟨raiseScheduling h.sched seat,h.unnamed⟩

theorem callScheduling {s : State} {raised : List Tid} {e : SchedAgreement.Event} (h : Scheduling s raised)
    (valid : ∀ cpu t, e = .exit cpu t → t < s.made) :
    ∃ s', SchedAgreement.step s e = some s' ∧ Scheduling s' raised := by
  cases e with
  | create cpu c => exact ⟨_,rfl,createScheduling cpu c h⟩
  | schedule cpu =>
      obtain ⟨s',sw,done,kept⟩ := scheduleScheduling cpu h
      exact ⟨s',by rw [SchedAgreement.step,done]; rfl,kept⟩
  | tick cpu =>
      obtain ⟨s',sw,done,kept⟩ := tickScheduling cpu h
      exact ⟨s',by rw [SchedAgreement.step,done]; rfl,kept⟩
  | exit cpu t =>
      obtain ⟨s',sw,done,kept⟩ := scheduleScheduling cpu (exitMarkScheduling h (valid cpu t rfl))
      exact ⟨s',by rw [SchedAgreement.step,taskExit,done]; rfl,kept⟩

theorem stepInv {w : World} {e : Event} (h : Inv w) (valid : Valid w e) : ∃ w', step w e = some w' ∧ Inv w' := by
  cases e with
  | call e =>
      obtain ⟨s',done,kept⟩ := callScheduling (e := e) h.sched (fun cpu t same => by subst same; exact valid)
      exact ⟨{w with sched := s'},by rw [step,done]; rfl,⟨kept,h.unnamed⟩⟩
  | workBudget cpu r => exact ⟨_,rfl,budgetInv h cpu r⟩
  | dispatch target epoch dec =>
      refine ⟨_,rfl,h.sched,fun i => ?_⟩
      rw [NeriAdo.dispatchRing]
      exact h.unnamed i
  | dispatchNext => exact ⟨_,rfl,h.sched,NeriAdo.dispatchNextUnnamed h.unnamed⟩
  | adoWork cpu => exact workNobody h cpu
  | sample machine => exact ⟨_,rfl,⟨h.sched,h.unnamed⟩⟩

theorem bootInv (machine : Machine) : Inv (boot machine) := by
  obtain ⟨q,all,queues,agree⟩ := initGood.queues
  refine ⟨⟨initGood,(bandedQueue queues).mpr (fun b t mem => ?_),Nat.le_refl 1,?_,?_⟩,fun _ => rfl⟩
  · exact absurd (queues.run.made b t mem) (Nat.not_lt_zero t)
  · intro t mem
    cases mem
  · intro t lt
    exact absurd lt (Nat.not_lt_zero t)

theorem weightKeptUnlessRaised (machine : Machine) (events : List Event)
    (guarded : Guarded step Valid (boot machine) events) :
    ∃ w, run step (boot machine) events = some w ∧ Ordered w.sched ∧
      ∀ t < w.sched.made, (w.sched.tasks t).priority ≤ 15 ∧
        ((w.sched.tasks t).weight = weightAt (w.sched.tasks t).priority ↔ t ∉ w.raised) := by
  obtain ⟨w,ran,inv⟩ := GuardedRun.guardedReturns Inv (fun _ _ h valid => stepInv h valid) (bootInv machine) guarded
  have bounded : ∀ t < w.sched.made, (w.sched.tasks t).priority ≤ 15 := fun t lt => (inv.sched.tasks t lt).bounded
  exact ⟨w,ran,bandedOrdered inv.sched.good inv.sched.banded bounded,
    fun t lt => ⟨bounded t lt,rankedExact (inv.sched.tasks t lt)⟩⟩

def highBudgetRun : List Event :=
  [.call (.create 0 (plain 0x1000000)),.call (.create 0 {plain 0x1004000 with priority := 15}),.call (.schedule 1),
    .workBudget 1 ⟨1000000,5000000,0,0,2000000⟩,.dispatch 2 1 (some ⟨true,0,0,0,false,0⟩),
    .dispatchNext,.dispatchNext] ++ List.replicate 4 (.adoWork 0) ++ [.call (.tick 1)]

def quiet : Machine := ⟨2,true,fun _ => 0⟩

theorem weightKeptHighest : ∃ w, run step (boot quiet) highBudgetRun = some w ∧ w.raised = [] ∧
    w.sched.made = 2 ∧ (w.sched.tasks 1).priority = 15 ∧
    (w.sched.tasks 1).weight = weightAt (w.sched.tasks 1).priority ∧ Ordered w.sched := by
  have facts : (run step (boot quiet) highBudgetRun).map
      (fun w => (w.raised,w.sched.made,(w.sched.tasks 1).priority)) = some ([],2,15) := by decide +kernel
  obtain ⟨w,ran,ordered,weights⟩ := weightKeptUnlessRaised quiet highBudgetRun (by decide +kernel)
  rw [ran] at facts
  simp only [Option.map_some,Option.some.injEq,Prod.mk.injEq] at facts
  obtain ⟨raised,made,priority⟩ := facts
  refine ⟨w,ran,raised,made,priority,(weights 1 (by rw [made]; decide)).2.mpr ?_,ordered⟩
  rw [raised]
  exact List.not_mem_nil

def budgetRun : List Event :=
  [.call (.create 0 (plain 0x1000000)),.call (.schedule 0),.workBudget 0 ⟨1000000,5000000,0,0,2000000⟩]

theorem budgetLeavesWeight : Guarded step Valid (boot quiet) budgetRun ∧
    ∃ w, run step (boot quiet) budgetRun = some w ∧ (w.sched.tasks 0).state = .running ∧
      (w.sched.tasks 0).priority = 10 ∧ (w.sched.tasks 0).weight = 14949 ∧
      (w.sched.tasks 0).weight ≠ weightAt (w.sched.tasks 0).priority := by
  have facts : (run step (boot quiet) budgetRun).map
      (fun w => ((w.sched.tasks 0).state,(w.sched.tasks 0).priority,(w.sched.tasks 0).weight)) =
        some (.running,10,14949) := by decide +kernel
  obtain ⟨w,ran,data⟩ := Option.map_eq_some_iff.mp facts
  simp only [Prod.mk.injEq] at data
  obtain ⟨state,priority,weight⟩ := data
  refine ⟨by decide +kernel,w,ran,state,priority,weight,?_⟩
  rw [priority,weight]
  decide

end Nekros.SchedPriority
