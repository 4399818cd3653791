import Mathlib.Algebra.Group.Action.Defs
import Mathlib.Algebra.Order.BigOperators.Group.Finset
import Nekros.SchedFloor

/-! The vruntimes over runs of the scheduler: how far apart two tasks of one band can
get, and how the ticks are shared. -/
namespace Nekros.SchedFairness
open Sched LinkRing SchedQueues SchedSteps SchedAgreement SchedFloor
open GuardedRun (run Guarded)
open Function (update)

theorem betterLeast {s : State} {ts : List Tid} {best : Option Tid} {t : Tid}
    (found : ts.foldl (better s) best = some t) :
    (∀ b, best = some b → (s.tasks t).vruntime ≤ (s.tasks b).vruntime) ∧
      ∀ u ∈ ts, (s.tasks u).state = .ready → (s.tasks t).vruntime ≤ (s.tasks u).vruntime := by
  induction ts generalizing best with
  | nil =>
      refine ⟨fun b same => ?_,by simp⟩
      rw [List.foldl_nil,same] at found
      cases found
      exact Nat.le_refl _
  | cons u rest ih =>
      obtain ⟨first,later⟩ := ih found
      have kept : ∀ b, best = some b →
          ∃ b', better s best u = some b' ∧ (s.tasks b').vruntime ≤ (s.tasks b).vruntime := by
        rintro b rfl
        unfold better
        split
        · exact ⟨b,rfl,Nat.le_refl _⟩
        · dsimp only
          split
          · rename_i less
            exact ⟨u,rfl,Nat.le_of_lt less⟩
          · exact ⟨b,rfl,Nat.le_refl _⟩
      have taken : (s.tasks u).state = .ready →
          ∃ b', better s best u = some b' ∧ (s.tasks b').vruntime ≤ (s.tasks u).vruntime := by
        intro ready
        unfold better
        rw [if_neg (fun away => away ready)]
        cases best with
        | none => exact ⟨u,rfl,Nat.le_refl _⟩
        | some b =>
            dsimp only
            split
            · exact ⟨u,rfl,Nat.le_refl _⟩
            · rename_i least
              exact ⟨b,rfl,Nat.le_of_not_lt least⟩
      refine ⟨fun b same => ?_,fun v mem ready => ?_⟩
      · obtain ⟨b',now,less⟩ := kept b same
        exact (first b' now).trans less
      · rcases List.mem_cons.mp mem with rfl | inside
        · obtain ⟨b',now,less⟩ := taken ready
          exact (first b' now).trans less
        · exact later v inside ready

theorem pickFromFirst {s : State} {q : Band → List Tid} {all : List Tid} (h : Queues s q all)
    {bands : List Band} {t : Tid} (picked : pickFrom s bands = some (some t)) :
    ∃ before b after, bands = before ++ b::after ∧ (q b).foldl (better s) none = some t ∧
      ∀ b' ∈ before, ∀ u ∈ q b', (s.tasks u).state ≠ .ready := by
  induction bands with
  | nil => cases picked
  | cons b rest ih =>
      rw [pickFrom,pickBandQueue h,Option.bind_some] at picked
      cases best : (q b).foldl (better s) none with
      | none =>
          rw [best] at picked
          obtain ⟨before,b1,after,split,found,nobody⟩ := ih picked
          refine ⟨b::before,b1,after,by rw [split]; rfl,found,fun b' mem => ?_⟩
          rcases List.mem_cons.mp mem with rfl | inside
          · exact ((betterFold s (q b') none).2 best).2
          · exact nobody b' inside
      | some u =>
          rw [best] at picked
          cases picked
          exact ⟨[],b,rest,rfl,best,by simp⟩

theorem bestQueued {s : State} {ts : List Tid} {t : Tid} (best : ts.foldl (better s) none = some t) : t ∈ ts := by
  rcases (betterFold s ts none).1 t best with absent | ⟨mem,_⟩
  · cases absent
  · exact mem

theorem pickFromLeast {s : State} {q : Band → List Tid} {all : List Tid} (h : Queues s q all)
    {bands : List Band} {t : Tid} (picked : pickFrom s bands = some (some t)) :
    ∃ b, t ∈ q b ∧ ∀ u ∈ q b, (s.tasks u).state = .ready → (s.tasks t).vruntime ≤ (s.tasks u).vruntime := by
  obtain ⟨_,b,_,_,best,_⟩ := pickFromFirst h picked
  exact ⟨b,bestQueued best,(betterLeast best).2⟩

def Banded (s : State) : Prop := ∀ t place, At s t place → bandOf (s.tasks t) = place.1

theorem bandedQueue {s : State} {q : Band → List Tid} {all : List Tid} (h : Queues s q all) :
    Banded s ↔ ∀ b, ∀ t ∈ q b, bandOf (s.tasks t) = b := by
  constructor
  · intro banded b t mem
    obtain ⟨n,found⟩ := List.mem_iff_getElem?.mp mem
    exact banded t (b,n) ((atQueue h).mpr found)
  · intro banded t place found
    exact banded place.1 t (List.mem_of_getElem? ((atQueue h).mp found))

theorem movedBand {s s' : State} (h : Moved s s') (t : Tid) : bandOf (s'.tasks t) = bandOf (s.tasks t) := by
  rw [bandOf,bandOf,h.2 t]

theorem bandedAppend {s : State} {q : Band → List Tid} {t : Tid}
    (h : ∀ b, ∀ u ∈ q b, bandOf (s.tasks u) = b) :
    ∀ b, ∀ u ∈ update q (bandOf (s.tasks t)) (q (bandOf (s.tasks t)) ++ [t]) b, bandOf (s.tasks u) = b := by
  intro b u mem
  by_cases same : b = bandOf (s.tasks t)
  · subst same
    rw [Function.update_self] at mem
    rcases List.mem_append.mp mem with old | new
    · exact h _ u old
    · rw [List.mem_singleton.mp new]
  · rw [Function.update_of_ne same] at mem
    exact h b u mem

theorem requeueBanded {s : State} (cpu : Cpu) (h : Good s) (banded : Banded s) :
    Banded (requeue s (s.current cpu)) := by
  obtain ⟨q,all,queues,agree⟩ := h.queues
  cases seat : s.current cpu with
  | none => exact banded
  | some p =>
      rw [requeue]
      split
      case isFalse => exact banded
      rename_i running
      have lt := (h.seats.current cpu p seat).1
      have out : ∀ b, p ∉ q b := unqueued agree lt (by rw [running]; decide)
      have set : Moved s (setTask s p {s.tasks p with state := .ready}) := movedSet rfl
      have queues' : Queues (setTask s p {s.tasks p with state := .ready}) q all :=
        queuesCongr queues rfl rfl
      have before : ∀ b, ∀ t ∈ q b, bandOf ((setTask s p {s.tasks p with state := .ready}).tasks t) = b :=
        fun b t mem => (movedBand set t).trans ((bandedQueue queues).mp banded b t mem)
      generalize setTask s p {s.tasks p with state := .ready} = s1 at *
      refine (bandedQueue (enqueueQueues queues' (set.1.symm ▸ lt) out)).mpr (fun b t mem => ?_)
      exact (movedBand (enqueueTasks s1 p).1 t).trans (bandedAppend before b t mem)

theorem runNextBanded {s : State} {q : Band → List Tid} {all : List Tid} {b : Band} {next : Tid}
    (cpu : Cpu) (queues : Queues s q all) (mem : next ∈ q b) (banded : Banded s) :
    Banded (runNext s cpu next) := by
  obtain ⟨queues',_⟩ := dequeueQueues queues mem
  have moved : Moved s (runNext s cpu next) := movedSet (s := dequeue s next) (t := next) rfl
  have after : Queues (runNext s cpu next) (update q b ((q b).erase next)) all := queuesCongr queues' rfl rfl
  refine (bandedQueue after).mpr (fun b' t listed => ?_)
  rw [movedBand moved]
  exact (bandedQueue queues).mp banded b' t (stillQueued listed)

theorem createBanded {s : State} (cpu : Cpu) (c : Creation) (h : Good s) (banded : Banded s) :
    Banded (place (register (enroll s cpu c) s.made) s.made c) := by
  obtain ⟨q,all,queues,_⟩ := h.queues
  have registered := registerQueues (s := enroll s cpu c) queues.run queues.tasks rfl rfl
  obtain ⟨links,made,_,_⟩ := placedRest s cpu c
  obtain ⟨v,a,tasks⟩ := placedTasks s cpu c
  have count : (register (enroll s cpu c) s.made).made = s.made + 1 := (registerTasks _ _).1
  -- the new task is queued under the priority it was given, and keeps it
  have bands : ∀ t, bandOf ((place (register (enroll s cpu c) s.made) s.made c).tasks t) =
      bandOf ((enroll s cpu c).tasks t) := by
    intro t
    rw [tasks]
    by_cases here : t = s.made
    · subst here
      simp [enroll,setTask,bandOf]
    · simp [enroll,setTask,Function.update_of_ne here]
  refine (bandedQueue (queuesCongr registered links (made.trans count.symm))).mpr (fun b t mem => ?_)
  rw [bands]
  refine bandedAppend (fun b t mem => ?_) b t mem
  have old : t ≠ s.made := Nat.ne_of_lt (queues.run.made b t mem)
  rw [enroll,setTask]
  dsimp only
  rw [Function.update_of_ne old]
  exact (bandedQueue queues).mp banded b t mem

theorem requeueTimes {s : State} (floor : ∀ b, s.rqMinVruntime b = 0) (prev : Option Tid) (t : Tid) :
    ((requeue s prev).tasks t).vruntime = (s.tasks t).vruntime ∧
      ((requeue s prev).tasks t).timesliceNs = (s.tasks t).timesliceNs := by
  cases prev with
  | none => exact ⟨rfl,rfl⟩
  | some p =>
      rw [requeue]
      split
      case isFalse => exact ⟨rfl,rfl⟩
      unfold enqueue
      by_cases here : t = p
      · subst here
        by_cases zero : (s.tasks t).vruntime = 0
        · simp [setTask,zero,floor]
        · simp [setTask,zero]
      · by_cases zero : (s.tasks p).vruntime = 0
        · simp [setTask,zero,here]
        · simp [setTask,zero,here]

theorem runNextTimes (s : State) (cpu : Cpu) (next t : Tid) :
    ((runNext s cpu next).tasks t).vruntime = (s.tasks t).vruntime ∧
      ((runNext s cpu next).tasks t).timesliceNs =
        if t = next then 4 * tickNs else (s.tasks t).timesliceNs := by
  by_cases here : t = next
  · subst here
    simp [runNext,setTask,dequeue,listDel,tickNs]
  · simp [runNext,setTask,dequeue,listDel,here]

structure Plain (s : State) (cpu : Cpu) : Prop where
  good : Good s
  floor : ∀ b, s.rqMinVruntime b = 0
  banded : Banded s
  alone : ∀ c, c ≠ cpu → s.current c = none
  alive : ∀ t < s.made, (s.tasks t).state = .ready ∨ (s.tasks t).state = .running
  weight : ∀ t < s.made, (s.tasks t).priority < 16 ∧
    (s.tasks t).weight = schedWeight.getD (s.tasks t).priority 0

structure Picked (s s' : State) (cpu : Cpu) : Prop where
  plain : Plain s' cpu
  moved : Moved s s'
  vruntime : ∀ t, (s'.tasks t).vruntime = (s.tasks t).vruntime
  seated : 0 < s.made → ∃ p, s'.current cpu = some p
  least : ∀ p, s'.current cpu = some p → p < s.made ∧ (s'.tasks p).timesliceNs = 4 * tickNs ∧
    ∀ u < s.made, bandOf (s.tasks u) = bandOf (s.tasks p) → (s.tasks p).vruntime ≤ (s.tasks u).vruntime

theorem plainSeat {s : State} {cpu : Cpu} {t : Tid} (h : Plain s cpu) (lt : t < s.made)
    (running : (s.tasks t).state = .running) : s.current cpu = some t := by
  obtain ⟨c,found⟩ := h.good.seats.running t lt running
  by_cases here : c = cpu
  · rw [← here]
    exact found
  · rw [h.alone c here] at found
    cases found

theorem weightMoved {s s' : State} {cpu : Cpu} (h : Plain s cpu) (moved : Moved s s') :
    ∀ t < s'.made, (s'.tasks t).priority < 16 ∧ (s'.tasks t).weight = schedWeight.getD (s'.tasks t).priority 0 := by
  intro t lt
  rw [moved.2 t]
  exact h.weight t (moved.1 ▸ lt)

theorem scheduleEmpty {s s' : State} {cpu : Cpu} (h : Plain s cpu)
    (r : Scheduled s s' cpu .idle) (done : schedule s cpu = some (s',.idle)) (empty : s.made = 0) :
    Picked s s' cpu := by
  have noSeat : ∀ c, s'.current c = none := by
    intro c
    cases seat : s'.current c with
    | none => rfl
    | some p =>
        have lt := (r.good.seats.current c p seat).1
        rw [r.moved.1,empty] at lt
        exact absurd lt (Nat.not_lt_zero p)
  have unseated : s.current cpu = none := by
    cases seat : s.current cpu with
    | none => rfl
    | some p =>
        have lt := (h.good.seats.current cpu p seat).1
        rw [empty] at lt
        exact absurd lt (Nat.not_lt_zero p)
  have still : s' = s := by
    obtain ⟨next,_,ended⟩ := Option.map_eq_some_iff.mp done
    rw [unseated] at ended
    cases next with
    | none =>
        cases ended
        rfl
    | some next => cases ended
  subst still
  refine ⟨h,movedRefl s',fun _ => rfl,fun some' => ?_,fun p found => ?_⟩
  · rw [empty] at some'
    exact absurd some' (Nat.not_lt_zero 0)
  · rw [noSeat cpu] at found
    cases found

theorem scheduleTo {s s' : State} {cpu : Cpu} {prev : Option Tid} {next : Tid}
    (done : schedule s cpu = some (s',.to prev next)) :
    pickNext (requeue s (s.current cpu)) = some (some next) ∧
      s' = runNext (requeue s (s.current cpu)) cpu next := by
  obtain ⟨found,picked,ended⟩ := Option.map_eq_some_iff.mp done
  cases found with
  | none => cases ended
  | some found =>
      cases ended
      exact ⟨picked,rfl⟩

theorem schedulePicked {s : State} {cpu : Cpu} (h : Plain s cpu) :
    ∃ s' sw, schedule s cpu = some (s',sw) ∧ Picked s s' cpu := by
  obtain ⟨s',sw,done,r⟩ := scheduleCases cpu h.good
  refine ⟨s',sw,done,?_⟩
  rcases r.ends with ⟨rfl,_,notReady,exited,_⟩ | ⟨next,rfl,seat,lt,_,running,states⟩
  · -- going idle would need a task that is neither ready nor running
    refine scheduleEmpty h r done (Nat.eq_zero_of_not_pos (fun some' => ?_))
    rcases h.alive 0 some' with ready | running
    · exact notReady 0 some' ready
    · have zombie := exited 0 (plainSeat h some' running)
      rw [running] at zombie
      cases zombie
  · obtain ⟨picked,same⟩ := scheduleTo done
    have requeued := requeueSpec cpu h.good
    have times := requeueTimes h.floor (s.current cpu)
    have banded := requeueBanded cpu h.good h.banded
    obtain ⟨q,all,queues,agree⟩ := requeued.queues
    obtain ⟨b,mem,least⟩ := pickFromLeast queues picked
    have band : bandOf (s.tasks next) = b := by
      rw [← movedBand requeued.moved]
      exact (bandedQueue queues).mp banded b next mem
    have alive : ∀ t < s'.made, (s'.tasks t).state = .ready ∨ (s'.tasks t).state = .running := by
      intro t ht
      by_cases here : t = next
      · exact .inr (by rw [here]; exact running)
      · rw [states t here]
        split
        · exact .inl rfl
        · exact h.alive t (r.moved.1 ▸ ht)
    refine ⟨⟨r.good,fun b => ?_,?_,fun c away => ?_,alive,weightMoved h r.moved⟩,r.moved,fun t => ?_,
      fun _ => ⟨next,seat⟩,fun p found => ?_⟩
    · rw [scheduleFloor done]
      exact h.floor b
    · rw [same]
      exact runNextBanded cpu queues mem banded
    · rw [r.others c away]
      exact h.alone c away
    · rw [same,(runNextTimes _ cpu next t).1]
      exact (times t).1
    · rw [seat] at found
      cases found
      refine ⟨lt,?_,fun u hu sameBand => ?_⟩
      · rw [same,(runNextTimes _ cpu next next).2,if_pos rfl]
      -- everyone of the band waits in the queue that was searched
      · have ready : ((requeue s (s.current cpu)).tasks u).state = .ready := by
          rw [requeued.states u]
          rcases h.alive u hu with ready | running
          · rw [ready]
            simp
          · rw [if_pos ⟨plainSeat h hu running,running⟩]
        obtain ⟨b',listed⟩ := (agree u (requeued.moved.1.symm ▸ hu)).mp ready
        have place : b' = b := by
          rw [← (bandedQueue queues).mp banded b' u listed,movedBand requeued.moved,sameBand,band]
        rw [← (times next).1,← (times u).1]
        exact least u (place ▸ listed) ready

def tickDelta (b : Band) : Nat := tickNs * 56483 / schedWeight.getD b 0

theorem tickDeltaPos : ∀ b, 0 < tickDelta b := by decide

theorem deltaExact {s : State} {cpu : Cpu} {t : Tid} (h : Plain s cpu) (lt : t < s.made) :
    calcVruntimeDelta (s.tasks t) tickNs = tickDelta (bandOf (s.tasks t)) := by
  obtain ⟨priority,weight⟩ := h.weight t lt
  have table : ∀ p < 16, Words.wrap (tickNs * 56483) /
      (if schedWeight.getD p 0 = 0 then 56483 else schedWeight.getD p 0) =
        tickNs * 56483 / schedWeight.getD (min p 15) 0 := by decide
  rw [calcVruntimeDelta,weight,tickDelta,bandOf]
  exact table _ priority

def NoWrap (s : State) : Event → Prop
  | .tick cpu => ∀ t ∈ s.current cpu, (s.tasks t).vruntime + calcVruntimeDelta (s.tasks t) tickNs < 2^64
  | _ => True
instance (s) : (e : Event) → Decidable (NoWrap s e)
  | .create .. | .schedule _ | .tick _ | .exit .. => by unfold NoWrap; infer_instance

structure Spread (s : State) (cpu : Cpu) (b : Band) (low : Nat) : Prop where
  within : ∀ t < s.made, bandOf (s.tasks t) = b →
    low ≤ (s.tasks t).vruntime ∧ (s.tasks t).vruntime ≤ low + 4 * tickDelta b
  slice : ∀ p, s.current cpu = some p → bandOf (s.tasks p) = b → ∃ k, 1 ≤ k ∧
    (s.tasks p).timesliceNs = k * tickNs ∧ (s.tasks p).vruntime + k * tickDelta b ≤ low + 4 * tickDelta b

theorem spreadPicked {s s' : State} {cpu : Cpu} {b : Band} {low : Nat} (h : Picked s s' cpu)
    (within : ∀ t < s.made, bandOf (s.tasks t) = b →
      low ≤ (s.tasks t).vruntime ∧ (s.tasks t).vruntime ≤ low + 4 * tickDelta b) :
    ∃ low', (low' = low ∨ ∃ t < s.made, low' = (s.tasks t).vruntime) ∧ Spread s' cpu b low' := by
  have kept : ∀ {l}, (∀ t < s.made, bandOf (s.tasks t) = b →
      l ≤ (s.tasks t).vruntime ∧ (s.tasks t).vruntime ≤ l + 4 * tickDelta b) →
      ∀ t < s'.made, bandOf (s'.tasks t) = b →
        l ≤ (s'.tasks t).vruntime ∧ (s'.tasks t).vruntime ≤ l + 4 * tickDelta b := by
    intro l within t lt band
    rw [h.vruntime t]
    exact within t (h.moved.1 ▸ lt) (by rw [← movedBand h.moved]; exact band)
  by_cases runs : ∃ p, s'.current cpu = some p ∧ bandOf (s.tasks p) = b
  · obtain ⟨p,seat,band⟩ := runs
    obtain ⟨lt,slice,least⟩ := h.least p seat
    refine ⟨(s.tasks p).vruntime,.inr ⟨p,lt,rfl⟩,kept (fun t ht same => ?_),fun p' seat' _ => ?_⟩
    · refine ⟨least t ht (same.trans band.symm),(within t ht same).2.trans ?_⟩
      exact Nat.add_le_add_right (within p lt band).1 _
    · rw [seat] at seat'
      cases seat'
      exact ⟨4,by decide,slice,by rw [h.vruntime p]⟩
  · refine ⟨low,.inl rfl,kept within,fun p seat band => absurd ⟨p,seat,?_⟩ runs⟩
    rw [← movedBand h.moved]
    exact band

structure Fair (s : State) (cpu : Cpu) : Prop where
  plain : Plain s cpu
  spread : ∀ b, ∃ low, Spread s cpu b low

theorem fairPicked {s s' : State} {cpu : Cpu} (h : Picked s s' cpu)
    (within : ∀ b, ∃ low, ∀ t < s.made, bandOf (s.tasks t) = b →
      low ≤ (s.tasks t).vruntime ∧ (s.tasks t).vruntime ≤ low + 4 * tickDelta b) : Fair s' cpu := by
  refine ⟨h.plain,fun b => ?_⟩
  obtain ⟨low,bounds⟩ := within b
  obtain ⟨low',_,spread⟩ := spreadPicked h bounds
  exact ⟨low',spread⟩

def serves (s : State) (t : Tid) : Event → Nat
  | .tick cpu => if s.current cpu = some t then 1 else 0
  | _ => 0

structure Advanced (s s' : State) (cpu : Cpu) (e : Event) : Prop where
  fair : Fair s' cpu
  moved : Moved s s'
  vruntime : ∀ t < s.made,
    (s'.tasks t).vruntime = (s.tasks t).vruntime + serves s t e * tickDelta (bandOf (s.tasks t))
  seated : 0 < s.made → ∃ p, s'.current cpu = some p

theorem scheduleAdvances {s : State} {cpu : Cpu} (h : Fair s cpu) :
    ∃ s', step s (.schedule cpu) = some s' ∧ Advanced s s' cpu (.schedule cpu) := by
  obtain ⟨s',sw,done,picked⟩ := schedulePicked h.plain
  refine ⟨s',by rw [step,done]; rfl,fairPicked picked (fun b => ?_),picked.moved,fun t _ => ?_,picked.seated⟩
  · obtain ⟨low,spread⟩ := h.spread b
    exact ⟨low,spread.within⟩
  · rw [picked.vruntime t]
    simp [serves]

def charge (s : State) (p : Tid) (slice : Nat) : State :=
  setTask s p {charged (s.tasks p) with timesliceNs := slice}

theorem chargeMoved (s : State) (p : Tid) (slice : Nat) : Moved s (charge s p slice) := movedSet rfl

theorem chargePlain {s : State} {cpu : Cpu} (p : Tid) (slice : Nat) (h : Plain s cpu) :
    Plain (charge s p slice) cpu := by
  have moved := chargeMoved s p slice
  refine ⟨goodSet h.good rfl,h.floor,fun t place found => ?_,h.alone,fun t lt => ?_,weightMoved h moved⟩
  · rw [movedBand moved]
    exact h.banded t place found
  · have same : ((charge s p slice).tasks t).state = (s.tasks t).state := by
      rw [charge,setState]
      split
      · rename_i here
        rw [here]
        rfl
      · rfl
    rw [same]
    exact h.alive t lt

theorem chargeVruntime {s : State} {cpu : Cpu} {p : Tid} (slice : Nat) (h : Plain s cpu)
    (seat : s.current cpu = some p) (wide : NoWrap s (.tick cpu)) : ∀ t < s.made,
    ((charge s p slice).tasks t).vruntime =
      (s.tasks t).vruntime + serves s t (.tick cpu) * tickDelta (bandOf (s.tasks t)) := by
  intro t lt
  rw [serves,seat]
  by_cases here : t = p
  · subst here
    have bound := wide t seat
    rw [if_pos rfl,Nat.one_mul,← deltaExact h lt]
    have exact : Words.wrap ((s.tasks t).vruntime + calcVruntimeDelta (s.tasks t) tickNs) =
        (s.tasks t).vruntime + calcVruntimeDelta (s.tasks t) tickNs := Nat.mod_eq_of_lt bound
    simpa [charge,setTask,charged] using exact
  · rw [if_neg (fun same => here (Option.some.inj same).symm),Nat.zero_mul,Nat.add_zero]
    simp [charge,setTask,here]

theorem chargeWithin {s : State} {cpu : Cpu} {p : Tid} {b : Band} {low : Nat} (slice : Nat)
    (h : Plain s cpu) (spread : Spread s cpu b low) (seat : s.current cpu = some p)
    (wide : NoWrap s (.tick cpu)) : ∀ t < (charge s p slice).made,
    bandOf ((charge s p slice).tasks t) = b → low ≤ ((charge s p slice).tasks t).vruntime ∧
      ((charge s p slice).tasks t).vruntime ≤ low + 4 * tickDelta b := by
  intro t lt band
  have lt : t < s.made := lt
  rw [movedBand (chargeMoved s p slice)] at band
  obtain ⟨above,below⟩ := spread.within t lt band
  rw [chargeVruntime slice h seat wide t lt,serves,seat,band]
  refine ⟨above.trans (Nat.le_add_right _ _),?_⟩
  by_cases here : t = p
  · subst here
    obtain ⟨k,some',_,left⟩ := spread.slice t seat band
    rw [if_pos rfl]
    exact (Nat.add_le_add_left (Nat.mul_le_mul_right _ some') _).trans left
  · rw [if_neg (fun same => here (Option.some.inj same).symm),Nat.zero_mul,Nat.add_zero]
    exact below

theorem chargeSpread {s : State} {cpu : Cpu} {p : Tid} {b : Band} {low : Nat} (h : Plain s cpu)
    (spread : Spread s cpu b low) (seat : s.current cpu = some p) (wide : NoWrap s (.tick cpu))
    (more : tickNs < (s.tasks p).timesliceNs) :
    Spread (charge s p ((s.tasks p).timesliceNs - tickNs)) cpu b low := by
  refine ⟨chargeWithin _ h spread seat wide,fun p' seat' band => ?_⟩
  have lt := (h.good.seats.current cpu p seat).1
  have same : p' = p := by
    have seat' : s.current cpu = some p' := seat'
    rw [seat] at seat'
    exact (Option.some.inj seat').symm
  subst same
  rw [movedBand (chargeMoved s p' _)] at band
  obtain ⟨k,_,slice,left⟩ := spread.slice p' seat band
  have rest : 2 ≤ k := by
    rw [slice] at more
    exact Nat.lt_of_mul_lt_mul_right (a := tickNs) (by simpa using more)
  refine ⟨k-1,by omega,?_,?_⟩
  · rw [slice]
    simp [charge,setTask,Nat.sub_mul]
  · rw [chargeVruntime _ h seat wide p' lt,serves,if_pos seat,band,Nat.add_assoc,← Nat.add_mul]
    rwa [show 1 + (k-1) = k by omega]

theorem tickAdvances {s : State} {cpu : Cpu} (h : Fair s cpu) (wide : NoWrap s (.tick cpu)) :
    ∃ s', step s (.tick cpu) = some s' ∧ Advanced s s' cpu (.tick cpu) := by
  cases seat : s.current cpu with
  | none =>
      obtain ⟨s',sw,done,picked⟩ := schedulePicked h.plain
      refine ⟨s',by simp [step,schedTick,seat,done],fairPicked picked (fun b => ?_),picked.moved,
        fun t _ => ?_,picked.seated⟩
      · obtain ⟨low,spread⟩ := h.spread b
        exact ⟨low,spread.within⟩
      · rw [picked.vruntime t,serves,seat,if_neg (by simp),Nat.zero_mul,Nat.add_zero]
  | some p =>
      by_cases more : tickNs < (s.tasks p).timesliceNs
      · refine ⟨charge s p ((s.tasks p).timesliceNs - tickNs),?_,⟨chargePlain p _ h.plain,fun b => ?_⟩,
          chargeMoved s p _,chargeVruntime _ h.plain seat wide,fun _ => ⟨p,seat⟩⟩
        · have sliced : tickNs < (charged (s.tasks p)).timesliceNs := more
          simp only [step,schedTick,seat,if_pos sliced]
          rfl
        · obtain ⟨low,spread⟩ := h.spread b
          exact ⟨low,chargeSpread h.plain spread seat wide more⟩
      · have plain := chargePlain p 0 h.plain
        obtain ⟨s',sw,done,picked⟩ := schedulePicked plain
        refine ⟨s',?_,fairPicked picked (fun b => ?_),movedTrans (chargeMoved s p 0) picked.moved,
          fun t lt => ?_,picked.seated⟩
        · have ended : ¬ tickNs < (charged (s.tasks p)).timesliceNs := more
          simp only [step,schedTick,seat,if_neg ended]
          rw [show setTask s p {charged (s.tasks p) with timesliceNs := 0} = charge s p 0 from rfl,done]
          rfl
        · obtain ⟨low,spread⟩ := h.spread b
          exact ⟨low,chargeWithin 0 h.plain spread seat wide⟩
        · rw [picked.vruntime t]
          exact chargeVruntime 0 h.plain seat wide t lt

def served (t : Tid) : State → List Event → Nat
  | _,[] => 0
  | s,e::rest => serves s t e + (step s e).elim 0 (fun s' => served t s' rest)

def isTick : Event → Bool
  | .tick _ => true
  | _ => false

def During (cpu : Cpu) (e : Event) : Prop := e = .schedule cpu ∨ e = .tick cpu

theorem duringAdvances {s : State} {cpu : Cpu} {e : Event} (h : Fair s cpu) (during : During cpu e)
    (wide : NoWrap s e) : ∃ s', step s e = some s' ∧ Advanced s s' cpu e := by
  rcases during with rfl | rfl
  · exact scheduleAdvances h
  · exact tickAdvances h wide

theorem tickServes {s : State} {cpu : Cpu} {e : Event} (h : Fair s cpu) (during : During cpu e) :
    [e].countP isTick ≤ (∑ u ∈ Finset.range s.made, serves s u e) + if s.current cpu = none then 1 else 0 := by
  rcases during with rfl | rfl
  · exact Nat.zero_le _
  · cases seat : s.current cpu with
    | none => simp [isTick]
    | some p =>
        have lt := (h.plain.good.seats.current cpu p seat).1
        have one : serves s p (.tick cpu) = 1 := if_pos seat
        have part := Finset.single_le_sum (f := fun u => serves s u (.tick cpu)) (fun _ _ => Nat.zero_le _)
          (Finset.mem_range.mpr lt)
        simp only [one] at part
        exact part

structure Ran (s s' : State) (cpu : Cpu) (events : List Event) : Prop where
  fair : Fair s' cpu
  moved : Moved s s'
  vruntime : ∀ t < s.made,
    (s'.tasks t).vruntime = (s.tasks t).vruntime + served t s events * tickDelta (bandOf (s.tasks t))
  ticks : 0 < s.made → events.countP isTick ≤
    (∑ u ∈ Finset.range s.made, served u s events) + if s.current cpu = none then 1 else 0

theorem runAdvances {s : State} {cpu : Cpu} {events : List Event} (h : Fair s cpu)
    (during : ∀ e ∈ events, During cpu e) (wide : Guarded step NoWrap s events) :
    ∃ s', run step s events = some s' ∧ Ran s s' cpu events := by
  induction events generalizing s with
  | nil =>
      exact ⟨s,rfl,h,movedRefl s,fun t _ => by simp [served],fun _ => by simp⟩
  | cons e rest ih =>
      have now := during e List.mem_cons_self
      obtain ⟨s1,stepped,a⟩ := duringAdvances h now wide.1
      obtain ⟨s',ran,r⟩ := ih a.fair (fun e mem => during e (List.mem_cons_of_mem _ mem)) (wide.2 s1 stepped)
      have split : ∀ t, served t s (e::rest) = serves s t e + served t s1 rest :=
        fun t => by rw [served,stepped]; rfl
      refine ⟨s',by rw [run,stepped]; exact ran,r.fair,movedTrans a.moved r.moved,fun t lt => ?_,
        fun some' => ?_⟩
      · have lt1 : t < s1.made := by rw [a.moved.1]; exact lt
        rw [r.vruntime t lt1,a.vruntime t lt,movedBand a.moved,split,Nat.add_mul,Nat.add_assoc]
      · obtain ⟨p,seat⟩ := a.seated some'
        have later := r.ticks (by rw [a.moved.1]; exact some')
        rw [seat,if_neg (by simp),a.moved.1] at later
        have first := tickServes h now
        simp only [split,Finset.sum_add_distrib]
        rw [show e::rest = [e] ++ rest from rfl,List.countP_append]
        omega

def Before (cpu : Cpu) : Event → Prop
  | .create c _ => c = cpu
  | .schedule c => c = cpu
  | _ => False

structure Started (s : State) (cpu : Cpu) : Prop where
  plain : Plain s cpu
  zero : ∀ t < s.made, (s.tasks t).vruntime = 0
  spread : ∀ b, Spread s cpu b 0

theorem startedPid {s : State} {cpu : Cpu} (n : Nat) (h : Started s cpu) :
    Started {s with nextPid := n} cpu :=
  ⟨⟨goodPid n h.plain.good,h.plain.floor,h.plain.banded,h.plain.alone,h.plain.alive,h.plain.weight⟩,
    h.zero,fun b => ⟨(h.spread b).within,(h.spread b).slice⟩⟩

theorem startedCreate {s s' : State} {cpu : Cpu} {c : Creation} {t : Tid} (h : Started s cpu)
    (made : taskCreate s cpu c = (s',.ok t)) (created : Created s s' cpu c t)
    (banded : Banded s') : Started s' cpu := by
  have floor : ∀ b, s'.rqMinVruntime b = 0 := by
    have same := createFloor s cpu c
    rw [made] at same
    intro b
    rw [same]
    exact h.plain.floor b
  obtain ⟨v,a,task⟩ := created.task
  have old : ∀ {u}, u < s'.made → u ≠ t → u < s.made := by
    intro u lt different
    rw [created.made] at lt
    rw [created.new] at different
    exact Nat.lt_of_le_of_ne (Nat.le_of_lt_succ lt) different
  have zero : ∀ u < s'.made, (s'.tasks u).vruntime = 0 := by
    intro u lt
    by_cases here : u = t
    · rw [here,createdVruntime made]
      exact h.plain.floor _
    · rw [created.others u here]
      exact h.zero u (old lt here)
  refine ⟨⟨created.good,floor,banded,fun x away => ?_,fun u lt => ?_,fun u lt => ?_⟩,zero,fun b =>
    ⟨fun u lt _ => ?_,fun p seat band => ?_⟩⟩
  · rw [created.current]
    exact h.plain.alone x away
  · by_cases here : u = t
    · rw [here,task]
      exact .inl rfl
    · rw [created.others u here]
      exact h.plain.alive u (old lt here)
  · by_cases here : u = t
    · rw [here,task]
      exact ⟨Nat.lt_succ_of_le (Nat.min_le_right _ _),rfl⟩
    · rw [created.others u here]
      exact h.plain.weight u (old lt here)
  · rw [zero u lt]
    exact ⟨Nat.le_refl 0,Nat.zero_le _⟩
  · rw [created.current] at seat
    have lt := (h.plain.good.seats.current cpu p seat).1
    have here : p ≠ t := by
      rw [created.new]
      exact Nat.ne_of_lt lt
    rw [created.others p here] at band ⊢
    exact (h.spread b).slice p seat band

theorem startedStep {s : State} {cpu : Cpu} {e : Event} (h : Started s cpu) (before : Before cpu e) :
    ∃ s', step s e = some s' ∧ Started s' cpu := by
  cases e with
  | create c x =>
      cases before
      rcases made : taskCreate s cpu x with ⟨s',answer⟩
      refine ⟨s',by rw [step,made],?_⟩
      rcases createCases cpu x h.plain.good with ⟨_,n,failed⟩ | ⟨s1,t,ok,created⟩
      · rw [made] at failed
        cases failed
        exact startedPid n h
      · rw [made] at ok
        cases ok
        refine startedCreate h made created ?_
        have banded := createBanded cpu x h.plain.good h.plain.banded
        unfold taskCreate at made
        split at made
        · cases made
        split at made
        · cases made
        split at made
        · cases made
        cases made
        exact banded
  | schedule c =>
      cases before
      obtain ⟨s',sw,done,picked⟩ := schedulePicked h.plain
      have zero : ∀ t < s.made, (s.tasks t).vruntime = 0 := h.zero
      refine ⟨s',by rw [step,done]; rfl,picked.plain,fun t lt => ?_,fun b => ?_⟩
      · rw [picked.vruntime t]
        exact zero t (picked.moved.1 ▸ lt)
      · obtain ⟨low,same,spread⟩ := spreadPicked picked (h.spread b).within
        rcases same with rfl | ⟨t,lt,rfl⟩
        · exact spread
        · rw [zero t lt] at spread
          exact spread
  | tick c => cases before
  | exit c t => cases before

theorem initStarted (cpu : Cpu) : Started schedInit cpu := by
  have none : ∀ t, ¬ t < schedInit.made := fun t => Nat.not_lt_zero t
  refine ⟨⟨initGood,fun _ => rfl,fun t place found => ?_,fun _ _ => rfl,fun t lt => absurd lt (none t),
    fun t lt => absurd lt (none t)⟩,fun t lt => absurd lt (none t),fun b =>
    ⟨fun t lt => absurd lt (none t),fun p seat => by cases seat⟩⟩
  obtain ⟨q,all,queues,_⟩ := initGood.queues
  exact absurd (queues.run.made place.1 t (List.mem_of_getElem? ((atQueue queues).mp found))) (none t)

theorem setupStarted {cpu : Cpu} {setup : List Event} {s0 : State} (before : ∀ e ∈ setup, Before cpu e)
    (started : run step schedInit setup = some s0) : Started s0 cpu := by
  have all : ∀ {s : State} {setup : List Event}, Started s cpu → (∀ e ∈ setup, Before cpu e) →
      run step s setup = some s0 → Started s0 cpu := by
    intro s setup h before ran
    induction setup generalizing s with
    | nil =>
        cases ran
        exact h
    | cons e rest ih =>
        obtain ⟨s1,stepped,kept⟩ := startedStep h (before e List.mem_cons_self)
        rw [run,stepped] at ran
        exact ih kept (fun e mem => before e (List.mem_cons_of_mem _ mem)) ran
  exact all (initStarted cpu) before started

theorem fairApart {s : State} {cpu : Cpu} {t u : Tid} (h : Fair s cpu) (lt : t < s.made) (lu : u < s.made)
    (same : bandOf (s.tasks t) = bandOf (s.tasks u)) :
    (s.tasks t).vruntime ≤ (s.tasks u).vruntime + 4 * tickDelta (bandOf (s.tasks u)) := by
  obtain ⟨low,spread⟩ := h.spread (bandOf (s.tasks u))
  have below := (spread.within t lt same).2
  have above := (spread.within u lu rfl).1
  exact below.trans (Nat.add_le_add_right above _)

theorem bandFair (cpu : Cpu) {setup events : List Event} {s0 : State} (before : ∀ e ∈ setup, Before cpu e)
    (started : run step schedInit setup = some s0) (during : ∀ e ∈ events, During cpu e)
    (wide : Guarded step NoWrap s0 events) :
    ∃ s, run step s0 events = some s ∧
      (∀ t < s.made, ∀ u < s.made, (s.tasks t).priority = (s.tasks u).priority →
        (s.tasks t).vruntime ≤ (s.tasks u).vruntime + 4 * (1000000 * 56483 / (s.tasks u).weight)) ∧
      ((∀ t < s.made, ∀ u < s.made, (s.tasks t).priority = (s.tasks u).priority) →
        ∀ t < s.made, events.countP isTick ≤ s.made * (served t s0 events + 4) + 1) := by
  have h := setupStarted before started
  obtain ⟨s,ran,r⟩ := runAdvances ⟨h.plain,fun b => ⟨0,h.spread b⟩⟩ during wide
  have band : ∀ {t u}, (s.tasks t).priority = (s.tasks u).priority →
      bandOf (s.tasks t) = bandOf (s.tasks u) := fun {t u} same => by simp only [bandOf,same]
  refine ⟨s,ran,fun t lt u lu same => ?_,fun all t lt => ?_⟩
  · have delta : tickDelta (bandOf (s.tasks u)) = 1000000 * 56483 / (s.tasks u).weight := by
      obtain ⟨priority,weight⟩ := r.fair.plain.weight u lu
      have index : min (s.tasks u).priority 15 = (s.tasks u).priority :=
        Nat.min_eq_left (Nat.le_of_lt_succ priority)
      simp only [weight,tickDelta,bandOf,tickNs,index]
    rw [← delta]
    exact fairApart r.fair lt lu (band same)
  · have count : s.made = s0.made := r.moved.1
    -- nobody is served more than four times oftener than this one
    have behind : ∀ u ∈ Finset.range s0.made, served u s0 events ≤ served t s0 events + 4 := by
      intro u mem
      have lu : u < s.made := count.symm ▸ Finset.mem_range.mp mem
      have apart := fairApart r.fair lu lt (band (all u lu t lt))
      have sameBand : bandOf (s0.tasks u) = bandOf (s0.tasks t) := by
        rw [← movedBand r.moved,← movedBand r.moved]
        exact band (all u lu t lt)
      rw [r.vruntime u (count ▸ lu),r.vruntime t (count ▸ lt),h.zero u (count ▸ lu),h.zero t (count ▸ lt),
        movedBand r.moved,sameBand,Nat.zero_add,Nat.zero_add,← Nat.add_mul] at apart
      exact Nat.le_of_mul_le_mul_right apart (tickDeltaPos _)
    have sum := Finset.sum_le_card_nsmul _ _ _ behind
    have ticks := r.ticks (Nat.lt_of_le_of_lt (Nat.zero_le t) (count ▸ lt))
    rw [Finset.card_range,smul_eq_mul] at sum
    rw [count]
    refine ticks.trans (Nat.add_le_add sum ?_)
    split
    · exact Nat.le_refl 1
    · exact Nat.zero_le 1

def threeTasks : List Event :=
  [.create 0 (plain 0x1000000),.create 0 (plain 0x1004000),.schedule 0,.create 0 (plain 0x1008000)]

def fifteenTicks : List Event :=
  List.replicate 6 (.tick 0) ++ [.schedule 0] ++ List.replicate 9 (.tick 0)

theorem bandFairThree : ∃ s0, run step schedInit threeTasks = some s0 ∧ s0.made = 3 ∧
    ∃ s, run step s0 fifteenTicks = some s ∧
      (∀ t < s.made, ∀ u < s.made, (s.tasks t).priority = (s.tasks u).priority →
        (s.tasks t).vruntime ≤ (s.tasks u).vruntime + 4 * (1000000 * 56483 / (s.tasks u).weight)) ∧
      ((∀ t < s.made, ∀ u < s.made, (s.tasks t).priority = (s.tasks u).priority) →
        ∀ t < s.made, fifteenTicks.countP isTick ≤ s.made * (served t s0 fifteenTicks + 4) + 1) := by
  have made : (run step schedInit threeTasks).map State.made = some 3 := by decide +kernel
  obtain ⟨s0,started,count⟩ := Option.map_eq_some_iff.mp made
  have wide : (run step schedInit threeTasks).map (fun s => decide (Guarded step NoWrap s fifteenTicks)) =
      some true := by decide +kernel
  rw [started] at wide
  refine ⟨s0,started,count,bandFair 0 ?_ started ?_ (of_decide_eq_true (Option.some.inj wide))⟩
  · simp [threeTasks,Before]
  · simp [fifteenTicks,During]

end Nekros.SchedFairness
