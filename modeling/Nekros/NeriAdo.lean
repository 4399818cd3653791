import Nekros.GuardedRun
import Nekros.Sched
import Nekros.SlotRing

/-! drivers/neri/core/neri_ado.c: the ring of placement decisions. `neri_ado_dispatch` holds
`ado_lock` from its look at the ring to the store of the head, so one such call is under way at
a time; `neri_ado_work` takes no lock, and each of its statements may fall between those of
another call. The tree declares `neri_ado_work` and never calls it; here it may run on any CPU at
any time. `all_tasks_list` is a list of tasks; tasks join and leave it at any time. -/
namespace Nekros.NeriAdo
open Sched (Task Cpu)
open GuardedRun (run Guarded)
open Function (update)

def adoRingSize : Nat := 256

def ipcClassCompute : Nat := 0

def ipcClassMemory : Nat := 1

structure Decision where
  preferPcore : Bool
  preferNumaNode : Nat
  cpuTimesliceNs : Nat
  ramTier : Nat
  assignGpu : Bool
  cost : Int
  deriving DecidableEq, Repr

structure Packet where
  epoch : Nat
  decision : Decision
  pid : Nat
  deriving DecidableEq, Repr

def Packet.zeroed : Packet := ⟨0,⟨false,0,0,0,false,0⟩,0⟩

structure Machine where
  ncpus : Nat
  utbReady : Bool
  ipcClass : Nat → Nat

/- A call of `neri_ado_dispatch` that has found room. The target is the task whose demands the
decision was computed from; the call is not told. -/
structure Dispatching where
  target : Nat
  epoch : Nat
  decision : Decision
  head : Nat
  written : Bool

inductive Working where
  | start (tail : Nat)
  | loop (tail head processed : Nat)

structure Accepted where
  target : Nat
  epoch : Nat
  decision : Decision
  deriving DecidableEq, Repr

structure Application where
  packet : Packet
  changed : Option Nat
  present : List Nat
  deriving DecidableEq, Repr

/- `accepted`, `refused` and `applied` are records of the calls: the decisions for which the
answer was 0, the entries in the ring when it was -ENOBUFS, and what was applied. `nextPid`
has no bound, as in Sched. -/
structure State where
  ring : Nat → Packet
  head : Nat
  tail : Nat
  lock : Option Dispatching
  workers : Cpu → Option Working
  machine : Machine
  tasks : List Task
  nextPid : Nat
  accepted : List Accepted
  refused : List Nat
  applied : List Application

def neriAdoInit (machine : Machine) : State :=
  ⟨fun _ => Packet.zeroed,0,0,none,fun _ => none,machine,[],1,[],[],[]⟩

def pending (s : State) : Nat := (s.head + adoRingSize - s.tail) % adoRingSize

def neriAdoDispatch (s : State) (target epoch : Nat) (dec : Option Decision) : State :=
  match dec,s.lock with
  | some dec,none =>
      let next := (s.head + 1) % adoRingSize
      if next = s.tail then {s with refused := s.refused ++ [pending s]}
      else {s with lock := some ⟨target,epoch,dec,s.head,false⟩}
  | _,_ => s

def dispatchNext (s : State) : State :=
  match s.lock with
  | none => s
  | some d =>
      if d.written then
        {s with head := (d.head + 1) % adoRingSize,lock := none,
                accepted := s.accepted ++ [⟨d.target,d.epoch,d.decision⟩]}
      else
        {s with ring := update s.ring d.head {s.ring d.head with epoch := d.epoch,decision := d.decision},
                lock := some {d with written := true}}

def placed (m : Machine) (dec : Decision) (t : Task) : Task :=
  let affinity := if dec.preferPcore then 0 else if 1 < m.ncpus then m.ncpus - 1 else 0
  let ts := if dec.cpuTimesliceNs < 1000000 then 1000000 else dec.cpuTimesliceNs
  let ts := if 20000000 < ts then 20000000 else ts
  let t := {t with cpuAffinity := affinity,timesliceNs := ts}
  if m.utbReady then
    let ipcClass := m.ipcClass (affinity % Sched.ncpusMax)
    if ipcClass = ipcClassCompute ∧ t.priority < 12 then {t with priority := min 15 (t.priority + 1)}
    else if ipcClass = ipcClassMemory ∧ 2 < t.priority then {t with priority := max 1 (t.priority - 1)}
    else t
  else t

def adoApply (s : State) (pkt : Packet) : State :=
  let present := s.tasks.map Task.pid
  match s.tasks.findIdx? (fun t => t.pid == pkt.pid) with
  | none => {s with applied := s.applied ++ [⟨pkt,none,present⟩]}
  | some i => {s with tasks := s.tasks.modify i (placed s.machine pkt.decision),
                      applied := s.applied ++ [⟨pkt,some pkt.pid,present⟩]}

def neriAdoWork (s : State) (cpu : Cpu) : State :=
  match s.workers cpu with
  | none => {s with workers := update s.workers cpu (some (.start s.tail))}
  | some (.start tail) => {s with workers := update s.workers cpu (some (.loop tail s.head 0))}
  | some (.loop tail head processed) =>
      if tail ≠ head ∧ processed < 16 then
        let s := adoApply s (s.ring tail)
        {s with workers := update s.workers cpu (some (.loop ((tail + 1) % adoRingSize) head (processed + 1)))}
      else
        {s with tail := if processed = 0 then s.tail else tail,workers := update s.workers cpu none}

inductive Event where
  | makeTask (t : Task)
  | endTask (pid : Nat)
  | sample (machine : Machine)
  | dispatch (target epoch : Nat) (dec : Option Decision)
  | dispatchNext
  | work (cpu : Cpu)

def step (s : State) : Event → Option State
  | .makeTask t => some {s with tasks := s.tasks ++ [{t with pid := s.nextPid}],nextPid := s.nextPid + 1}
  | .endTask pid => some {s with tasks := s.tasks.filter (fun t => t.pid != pid)}
  | .sample machine => some {s with machine := machine}
  | .dispatch target epoch dec => some (neriAdoDispatch s target epoch dec)
  | .dispatchNext => some (dispatchNext s)
  | .work cpu => some (neriAdoWork s cpu)

def Serial (s : State) : Event → Prop
  | .work cpu => s.workers cpu = none → ∀ c, s.workers c = none
  | _ => True

instance (s : State) (e : Event) : Decidable (Serial s e) := by
  cases e
  case work cpu => exact inferInstanceAs (Decidable (s.workers cpu = none → ∀ c, s.workers c = none))
  all_goals exact .isTrue trivial

def InOrder (s : State) : Prop :=
  s.applied.map (fun a => (a.packet.epoch,a.packet.decision)) <+: s.accepted.map (fun a => (a.epoch,a.decision))

def Drains (s : State) : Prop :=
  ∀ cpu, (∀ c, s.workers c = none) → ∃ n s', run step s (List.replicate n (.work cpu)) = some s' ∧
    (∀ c, s'.workers c = none) ∧ s'.accepted = s.accepted ∧
    s'.applied.length = s.applied.length + min 16 (s.accepted.length - s.applied.length)

def OnTarget (s : State) : Prop :=
  ∀ (i : Nat) (a : Application) (b : Accepted), s.applied[i]? = some a → s.accepted[i]? = some b →
    a.changed = if b.target ∈ a.present then some b.target else none

structure Dispatched (s : State) : Prop where
  order : InOrder s
  drains : Drains s
  refused : ∀ n ∈ s.refused, n = 255
  target : OnTarget s

def TooLate (s : State) : Prop :=
  ∀ (i : Nat) (a : Application) (b : Accepted), s.applied[i]? = some a → s.accepted[i]? = some b →
    b.target ∉ a.present

def Holding (accepted : List Accepted) (i : Nat) (p : Packet) : Prop :=
  ∃ a, accepted[i]? = some a ∧ p.epoch = a.epoch ∧ p.decision = a.decision

/- The ring between `released` entries that were given back and all that were accepted. A packet
never learns its process. -/
structure RingInv (s : State) (released : Nat) : Prop where
  head : s.head = s.accepted.length % adoRingSize
  tail : s.tail = released % adoRingSize
  low : released ≤ s.accepted.length
  high : s.accepted.length < released + adoRingSize
  slots : SlotRing.Holds adoRingSize (Holding s.accepted) s.ring released s.accepted.length
  unnamed : ∀ i, (s.ring i).pid = 0
  lock : ∀ d, s.lock = some d → d.head = s.head ∧ s.accepted.length + 1 < released + adoRingSize ∧
    (d.written = true → (s.ring s.head).epoch = d.epoch ∧ (s.ring s.head).decision = d.decision)

def Progress (s : State) (released : Nat) : Working → Prop
  | .start tail => tail = released % adoRingSize ∧ s.applied.length = released
  | .loop tail head processed => s.applied.length = released + processed ∧
      tail = (released + processed) % adoRingSize ∧
      ∃ seen, head = seen % adoRingSize ∧ released + processed ≤ seen ∧ seen ≤ s.accepted.length

def WorkInv (s : State) (released : Nat) : Prop :=
  (∀ c, s.workers c = none) ∧ s.applied.length = released ∨
    ∃ cpu w, s.workers cpu = some w ∧ (∀ c, c ≠ cpu → s.workers c = none) ∧ Progress s released w

structure LogInv (s : State) : Prop where
  order : InOrder s
  nobody : ∀ a ∈ s.applied, a.changed = none
  refused : ∀ n ∈ s.refused, n = 255

/- Process numbers begin at 1. -/
structure Names (s : State) : Prop where
  next : 1 ≤ s.nextPid
  tasks : ∀ t ∈ s.tasks, 1 ≤ t.pid

structure Inv (s : State) (released : Nat) : Prop where
  ring : RingInv s released
  work : WorkInv s released
  log : LogInv s
  names : Names s

theorem initInv (machine : Machine) : Inv (neriAdoInit machine) 0 := by
  refine ⟨⟨rfl,rfl,Nat.le_refl 0,Nat.zero_lt_succ 255,SlotRing.holdsNone _ _ _ _,fun _ => rfl,fun d held => by cases held⟩,
    .inl ⟨fun _ => rfl,rfl⟩,⟨⟨[],rfl⟩,?_,?_⟩,⟨Nat.le_refl 1,?_⟩⟩
  all_goals
    intro x mem
    cases mem

theorem dispatchInv {s : State} {released target epoch : Nat} {dec : Option Decision} (h : Inv s released) :
    Inv (neriAdoDispatch s target epoch dec) released := by
  have size : adoRingSize = 256 := rfl
  have r := h.ring
  unfold neriAdoDispatch
  split
  case h_2 => exact h
  rename_i dec _ free
  dsimp only
  split
  · rename_i full
    refine ⟨⟨r.head,r.tail,r.low,r.high,r.slots,r.unnamed,r.lock⟩,h.work,⟨h.log.order,h.log.nobody,?_⟩,
      ⟨h.names.next,h.names.tasks⟩⟩
    intro n mem
    rcases List.mem_append.mp mem with old | new
    · exact h.log.refused n old
    · have low := r.low
      have high := r.high
      rw [List.mem_singleton.mp new,pending]
      rw [r.head,r.tail,size] at full
      rw [r.head,r.tail,size]
      omega
  · rename_i room
    refine ⟨⟨r.head,r.tail,r.low,r.high,r.slots,r.unnamed,fun d held => ?_⟩,h.work,
      ⟨h.log.order,h.log.nobody,h.log.refused⟩,⟨h.names.next,h.names.tasks⟩⟩
    cases held
    refine ⟨rfl,?_,fun written => by cases written⟩
    have low := r.low
    have high := r.high
    rw [r.head,r.tail,size] at room
    show s.accepted.length + 1 < released + adoRingSize
    rw [size] at high ⊢
    omega

theorem holdingGrows {accepted : List Accepted} {a : Accepted} {i : Nat} {p : Packet}
    (h : Holding accepted i p) : Holding (accepted ++ [a]) i p := by
  obtain ⟨b,found,same⟩ := h
  obtain ⟨lt,_⟩ := List.getElem?_eq_some_iff.mp found
  exact ⟨b,by rw [List.getElem?_append_left lt]; exact found,same⟩

theorem workGrows {s : State} {released : Nat} {a : Accepted} (h : WorkInv s released) {s' : State}
    (workers : s'.workers = s.workers) (applied : s'.applied = s.applied) (accepted : s'.accepted = s.accepted ++ [a]) :
    WorkInv s' released := by
  unfold WorkInv
  rw [workers,applied]
  rcases h with quiet | ⟨cpu,w,busy,others,progress⟩
  · exact .inl quiet
  · refine .inr ⟨cpu,w,busy,others,?_⟩
    cases w with
    | start tail =>
        unfold Progress
        rw [applied]
        exact progress
    | loop tail head processed =>
        obtain ⟨count,place,seen,read,low,high⟩ := progress
        refine ⟨by rw [applied]; exact count,place,seen,read,low,?_⟩
        rw [accepted,List.length_append]
        exact Nat.le_add_right_of_le high

theorem dispatchRing (s : State) (target epoch : Nat) (dec : Option Decision) :
    (neriAdoDispatch s target epoch dec).ring = s.ring := by
  unfold neriAdoDispatch
  split
  case h_2 => rfl
  dsimp only
  split <;> rfl

theorem dispatchNextUnnamed {s : State} (unnamed : ∀ i, (s.ring i).pid = 0) (i : Nat) :
    ((dispatchNext s).ring i).pid = 0 := by
  unfold dispatchNext
  split
  · exact unnamed i
  · rename_i d _
    split
    · exact unnamed i
    · by_cases here : i = d.head
      · rw [here]
        simpa using unnamed d.head
      · simpa [here] using unnamed i

theorem dispatchNextInv {s : State} {released : Nat} (h : Inv s released) : Inv (dispatchNext s) released := by
  have r := h.ring
  have unnamed := dispatchNextUnnamed r.unnamed
  unfold dispatchNext at unnamed ⊢
  split
  · exact h
  · rename_i d held
    rw [held] at unnamed
    obtain ⟨head,room,written⟩ := r.lock d held
    split
    · -- the entry was filled in before the head is stored
      rename_i done
      obtain ⟨epoch,decision⟩ := written done
      refine ⟨⟨?_,r.tail,?_,?_,?_,r.unnamed,fun d held => by cases held⟩,workGrows h.work rfl rfl rfl,
        ⟨?_,h.log.nobody,h.log.refused⟩,⟨h.names.next,h.names.tasks⟩⟩
      · rw [head,r.head,List.length_append,List.length_singleton,Nat.mod_add_mod]
      · rw [List.length_append]
        exact Nat.le_add_right_of_le r.low
      · rw [List.length_append,List.length_singleton]
        exact room
      · have last : Holding (s.accepted ++ [⟨d.target,d.epoch,d.decision⟩]) s.accepted.length (s.ring s.head) :=
          ⟨_,by rw [List.getElem?_concat_length],epoch,decision⟩
        have pushed := SlotRing.holdsPush last (SlotRing.holdsImp (fun i p _ held => holdingGrows held) r.slots)
        rw [← r.head,Function.update_eq_self] at pushed
        rw [List.length_append,List.length_singleton]
        exact pushed
      · unfold InOrder
        rw [List.map_append]
        exact h.log.order.trans (List.prefix_append _ _)
    · rename_i new
      dsimp only at unnamed
      rw [if_neg new] at unnamed
      refine ⟨⟨r.head,r.tail,r.low,r.high,?_,unnamed,fun d' held' => ?_⟩,h.work,
        ⟨h.log.order,h.log.nobody,h.log.refused⟩,⟨h.names.next,h.names.tasks⟩⟩
      · rw [head,r.head]
        exact SlotRing.holdsTouch r.high r.slots
      · cases held'
        refine ⟨head,room,fun _ => ?_⟩
        show (update s.ring d.head _ s.head).epoch = _ ∧ (update s.ring d.head _ s.head).decision = _
        rw [← head,Function.update_self]
        exact ⟨rfl,rfl⟩

theorem adoApplyShape (s : State) (pkt : Packet) :
    ∃ tasks a, adoApply s pkt = {s with tasks := tasks,applied := s.applied ++ [a]} := by
  unfold adoApply
  dsimp only
  split
  · exact ⟨_,_,rfl⟩
  · exact ⟨_,_,rfl⟩

theorem adoApplyUnnamed {s : State} {pkt : Packet} (named : ∀ t ∈ s.tasks, 1 ≤ t.pid) (unnamed : pkt.pid = 0) :
    adoApply s pkt = {s with applied := s.applied ++ [⟨pkt,none,s.tasks.map Task.pid⟩]} := by
  have nobody : s.tasks.findIdx? (fun t => t.pid == pkt.pid) = none := by
    rw [List.findIdx?_eq_none_iff]
    intro t mem
    have pid := named t mem
    rw [unnamed]
    exact beq_eq_false_iff_ne.mpr (by omega)
  unfold adoApply
  rw [nobody]

theorem workUnnamed {s : State} (cpu : Cpu) (named : ∀ t ∈ s.tasks, 1 ≤ t.pid)
    (unnamed : ∀ i, (s.ring i).pid = 0) :
    (neriAdoWork s cpu).tasks = s.tasks ∧ (neriAdoWork s cpu).ring = s.ring := by
  unfold neriAdoWork
  split
  · exact ⟨rfl,rfl⟩
  · exact ⟨rfl,rfl⟩
  split
  · rw [adoApplyUnnamed named (unnamed _)]
    exact ⟨rfl,rfl⟩
  · exact ⟨rfl,rfl⟩

theorem prefixSnoc {α : Type} {l m : List α} {x : α} (h : l <+: m) (next : m[l.length]? = some x) :
    l ++ [x] <+: m := by
  obtain ⟨rest,rfl⟩ := h
  rw [List.getElem?_append_right (Nat.le_refl _),Nat.sub_self] at next
  cases rest with
  | nil => cases next
  | cons y rest =>
      cases next
      exact ⟨rest,by rw [List.append_assoc,List.singleton_append]⟩

theorem workersAlone {s : State} {cpu : Cpu} {w : Option Working} (others : ∀ c, c ≠ cpu → s.workers c = none) :
    ∀ c, c ≠ cpu → update s.workers cpu w c = none := by
  intro c other
  rw [Function.update_of_ne other]
  exact others c other

theorem startInv {s : State} {released : Nat} {cpu : Cpu} (h : Inv s released) (quiet : ∀ c, s.workers c = none) :
    Inv {s with workers := update s.workers cpu (some (.start s.tail))} released := by
  have r := h.ring
  refine ⟨⟨r.head,r.tail,r.low,r.high,r.slots,r.unnamed,r.lock⟩,.inr ⟨cpu,_,Function.update_self _ _ _,
    workersAlone (fun c _ => quiet c),r.tail,?_⟩,⟨h.log.order,h.log.nobody,h.log.refused⟩,⟨h.names.next,h.names.tasks⟩⟩
  rcases h.work with ⟨_,count⟩ | ⟨c,w,busy,_⟩
  · exact count
  · rw [quiet c] at busy
    cases busy

theorem readHeadInv {s : State} {released tail : Nat} {cpu : Cpu} (h : Inv s released)
    (others : ∀ c, c ≠ cpu → s.workers c = none) (progress : Progress s released (.start tail)) :
    Inv {s with workers := update s.workers cpu (some (.loop tail s.head 0))} released := by
  have r := h.ring
  obtain ⟨place,count⟩ := progress
  exact ⟨⟨r.head,r.tail,r.low,r.high,r.slots,r.unnamed,r.lock⟩,.inr ⟨cpu,_,Function.update_self _ _ _,
    workersAlone others,count,place,s.accepted.length,r.head,r.low,Nat.le_refl _⟩,
    ⟨h.log.order,h.log.nobody,h.log.refused⟩,⟨h.names.next,h.names.tasks⟩⟩

theorem turnInv {s : State} {released tail head processed : Nat} {cpu : Cpu} (h : Inv s released)
    (others : ∀ c, c ≠ cpu → s.workers c = none) (progress : Progress s released (.loop tail head processed))
    (more : tail ≠ head) :
    Inv {adoApply s (s.ring tail) with
      workers := update s.workers cpu (some (.loop ((tail + 1) % adoRingSize) head (processed + 1)))} released := by
  have r := h.ring
  obtain ⟨count,place,seen,read,low,high⟩ := progress
  have left : released + processed < seen := by
    refine Nat.lt_of_le_of_ne low fun same => more ?_
    rw [place,read,same]
  obtain ⟨a,found,epoch,decision⟩ := r.slots (released + processed) (Nat.le_add_right _ _)
    (Nat.lt_of_lt_of_le left high) (by have := r.high; omega)
  rw [adoApplyUnnamed h.names.tasks (r.unnamed tail)]
  refine ⟨⟨r.head,r.tail,r.low,r.high,r.slots,r.unnamed,r.lock⟩,.inr ⟨cpu,_,Function.update_self _ _ _,
    workersAlone others,?_,?_,seen,read,left,high⟩,⟨?_,?_,h.log.refused⟩,⟨h.names.next,h.names.tasks⟩⟩
  · rw [List.length_append,count,List.length_singleton,Nat.add_assoc]
  · rw [place,Nat.mod_add_mod,Nat.add_assoc]
  · unfold InOrder
    rw [List.map_append]
    refine prefixSnoc h.log.order ?_
    rw [List.length_map,count,List.getElem?_map,found,place]
    show some (a.epoch,a.decision) = some (_,_)
    rw [epoch,decision]
  · intro b mem
    rcases List.mem_append.mp mem with old | new
    · exact h.log.nobody b old
    · rw [List.mem_singleton.mp new]

theorem endInv {s : State} {released tail head processed : Nat} {cpu : Cpu} (h : Inv s released)
    (others : ∀ c, c ≠ cpu → s.workers c = none) (progress : Progress s released (.loop tail head processed)) :
    Inv {s with tail := if processed = 0 then s.tail else tail,workers := update s.workers cpu none}
      (released + processed) := by
  have r := h.ring
  obtain ⟨count,place,seen,_,low,high⟩ := progress
  have more := r.high
  refine ⟨⟨r.head,?_,Nat.le_trans low high,by show s.accepted.length < _; omega,
    SlotRing.holdsLater (Nat.le_add_right _ _) r.slots,r.unnamed,fun d held => ?_⟩,.inl ⟨fun c => ?_,count⟩,
    ⟨h.log.order,h.log.nobody,h.log.refused⟩,⟨h.names.next,h.names.tasks⟩⟩
  · show (if processed = 0 then s.tail else tail) = _
    split
    · rename_i none
      rw [none]
      exact r.tail
    · exact place
  · obtain ⟨at_,room,written⟩ := r.lock d held
    refine ⟨at_,?_,written⟩
    show s.accepted.length + 1 < _
    omega
  · by_cases here : c = cpu
    · rw [here]
      exact Function.update_self _ _ _
    · exact workersAlone others c here

theorem workInv {s : State} {released : Nat} {cpu : Cpu} (h : Inv s released) (serial : Serial s (.work cpu)) :
    ∃ released', Inv (neriAdoWork s cpu) released' := by
  -- a call that is under way on this CPU is the only one
  have alone : ∀ w, s.workers cpu = some w → (∀ c, c ≠ cpu → s.workers c = none) ∧ Progress s released w := by
    intro w busy
    rcases h.work with ⟨quiet,_⟩ | ⟨c,w',busy',others,progress⟩
    · rw [quiet cpu] at busy
      cases busy
    · have same : cpu = c := by
        by_contra other
        rw [others cpu other] at busy
        cases busy
      subst same
      rw [busy] at busy'
      cases busy'
      exact ⟨others,progress⟩
  unfold neriAdoWork
  split
  · rename_i free
    exact ⟨released,startInv h (serial free)⟩
  · rename_i tail busy
    obtain ⟨others,progress⟩ := alone _ busy
    exact ⟨released,readHeadInv h others progress⟩
  · rename_i tail head processed busy
    obtain ⟨others,progress⟩ := alone _ busy
    split
    · rename_i more
      obtain ⟨tasks,a,shape⟩ := adoApplyShape s (s.ring tail)
      have turned := turnInv h others progress more.1
      refine ⟨released,?_⟩
      have workers : (adoApply s (s.ring tail)).workers = s.workers := by rw [shape]
      dsimp only
      rw [workers]
      exact turned
    · exact ⟨_,endInv h others progress⟩

theorem stepInv (s : State) (e : Event) (h : ∃ released, Inv s released) (serial : Serial s e) :
    ∃ s', step s e = some s' ∧ ∃ released, Inv s' released := by
  obtain ⟨released,h⟩ := h
  have r := h.ring
  cases e with
  | makeTask t =>
      refine ⟨_,rfl,released,⟨r.head,r.tail,r.low,r.high,r.slots,r.unnamed,r.lock⟩,h.work,
        ⟨h.log.order,h.log.nobody,h.log.refused⟩,⟨Nat.le_succ_of_le h.names.next,?_⟩⟩
      intro u mem
      rcases List.mem_append.mp mem with old | new
      · exact h.names.tasks u old
      · rw [List.mem_singleton.mp new]
        exact h.names.next
  | endTask pid =>
      refine ⟨_,rfl,released,⟨r.head,r.tail,r.low,r.high,r.slots,r.unnamed,r.lock⟩,h.work,
        ⟨h.log.order,h.log.nobody,h.log.refused⟩,⟨h.names.next,fun u mem => ?_⟩⟩
      exact h.names.tasks u (List.mem_of_mem_filter mem)
  | sample machine =>
      exact ⟨_,rfl,released,⟨r.head,r.tail,r.low,r.high,r.slots,r.unnamed,r.lock⟩,h.work,
        ⟨h.log.order,h.log.nobody,h.log.refused⟩,⟨h.names.next,h.names.tasks⟩⟩
  | dispatch target epoch dec => exact ⟨_,rfl,released,dispatchInv h⟩
  | dispatchNext => exact ⟨_,rfl,released,dispatchNextInv h⟩
  | work cpu => exact ⟨_,rfl,workInv h serial⟩

theorem loopDrains (released : Nat) (cpu : Cpu) (remaining : Nat) : ∀ (s : State) (tail processed : Nat),
    s.workers cpu = some (.loop tail (s.accepted.length % adoRingSize) processed) →
    (∀ c, c ≠ cpu → s.workers c = none) → tail = (released + processed) % adoRingSize →
    released ≤ s.accepted.length → s.accepted.length < released + adoRingSize →
    processed + remaining = min 16 (s.accepted.length - released) →
    ∃ s', run step s (List.replicate (remaining + 1) (.work cpu)) = some s' ∧ (∀ c, s'.workers c = none) ∧
      s'.accepted = s.accepted ∧ s'.applied.length = s.applied.length + remaining := by
  induction remaining with
  | zero =>
      intro s tail processed busy others place low high turns
      have done : ¬ (tail ≠ s.accepted.length % adoRingSize ∧ processed < 16) := by
        rintro ⟨more,few⟩
        refine more ?_
        rw [place]
        congr 1
        omega
      refine ⟨_,rfl,fun c => ?_,?_,?_⟩
      all_goals
        rw [neriAdoWork,busy]
        dsimp only
        rw [if_neg done]
      · by_cases here : c = cpu
        · rw [here]
          exact Function.update_self _ _ _
        · exact workersAlone others c here
      · rfl
  | succ remaining ih =>
      intro s tail processed busy others place low high turns
      have more : tail ≠ s.accepted.length % adoRingSize ∧ processed < 16 := by
        refine ⟨?_,by omega⟩
        rw [place]
        exact SlotRing.slotsApart (by omega) (by omega)
      obtain ⟨tasks,a,shape⟩ := adoApplyShape s (s.ring tail)
      have turned : neriAdoWork s cpu = {s with
          tasks := tasks,applied := s.applied ++ [a],
          workers := update s.workers cpu
            (some (.loop ((tail + 1) % adoRingSize) (s.accepted.length % adoRingSize) (processed + 1)))} := by
        rw [neriAdoWork,busy]
        dsimp only
        rw [if_pos more,shape]
      obtain ⟨s',ran,quiet,same,grown⟩ := ih (neriAdoWork s cpu) ((tail + 1) % adoRingSize) (processed + 1)
        (by rw [turned]; exact Function.update_self _ _ _)
        (by rw [turned]; exact workersAlone others) (by rw [place,Nat.mod_add_mod,Nat.add_assoc])
        (by rw [turned]; exact low) (by rw [turned]; exact high)
        (by rw [turned,Nat.add_assoc,Nat.add_comm 1]; exact turns)
      refine ⟨s',ran,quiet,by rw [same,turned],?_⟩
      rw [grown,turned,List.length_append,List.length_singleton]
      omega

theorem drains {s : State} {released : Nat} (h : Inv s released) : Drains s := by
  intro cpu quiet
  have r := h.ring
  have count : s.applied.length = released := by
    rcases h.work with ⟨_,count⟩ | ⟨c,w,busy,_⟩
    · exact count
    · rw [quiet c] at busy
      cases busy
  -- the call reads the tail, then the head, and enters its loop
  have first : neriAdoWork s cpu = {s with workers := update s.workers cpu (some (.start s.tail))} := by
    rw [neriAdoWork,quiet cpu]
  have second : neriAdoWork (neriAdoWork s cpu) cpu =
      {s with workers := update s.workers cpu (some (.loop s.tail s.head 0))} := by
    rw [first,neriAdoWork]
    simp only [Function.update_self,Function.update_idem]
  obtain ⟨s',ran,done,same,grown⟩ := loopDrains released cpu (min 16 (s.accepted.length - released))
    (neriAdoWork (neriAdoWork s cpu) cpu) s.tail 0
    (by rw [second,r.head]; exact Function.update_self _ _ _)
    (by rw [second]; exact workersAlone fun c _ => quiet c) r.tail (by rw [second]; exact r.low)
    (by rw [second]; exact r.high) (by rw [second,Nat.zero_add])
  refine ⟨min 16 (s.accepted.length - released) + 1 + 1 + 1,s',?_,done,by rw [same,second],?_⟩
  · rw [List.replicate_succ,List.replicate_succ]
    exact ran
  · rw [grown,second,count]

theorem dispatchedTooLate (machine : Machine) {events : List Event}
    (serial : Guarded step Serial (neriAdoInit machine) events) :
    ∃ s, run step (neriAdoInit machine) events = some s ∧ (Dispatched s ↔ TooLate s) := by
  obtain ⟨s,ran,released,h⟩ := GuardedRun.guardedReturns (fun s => ∃ released, Inv s released) stepInv
    ⟨0,initInv machine⟩ serial
  refine ⟨s,ran,fun dispatched i a b found was here => ?_,fun late => ?_⟩
  · have reached := dispatched.target i a b found was
    rw [if_pos here,h.log.nobody a (List.mem_of_getElem? found)] at reached
    cases reached
  · refine ⟨h.log.order,drains h,h.log.refused,fun i a b found was => ?_⟩
    rw [if_neg (late i a b found was)]
    exact h.log.nobody a (List.mem_of_getElem? found)

def smallMachine : Machine := ⟨2,false,fun _ => 0⟩

def oneDecision (later : List Event) : List Event :=
  [.makeTask Task.zeroed,.dispatch 1 7 (some ⟨false,0,5000000,0,false,0⟩),.dispatchNext,.dispatchNext] ++ later

theorem dispatchedTooLateGone :
    Guarded step Serial (neriAdoInit smallMachine) (oneDecision (.endTask 1 :: List.replicate 4 (.work 0))) ∧
      ∃ s, run step (neriAdoInit smallMachine) (oneDecision (.endTask 1 :: List.replicate 4 (.work 0))) = some s ∧
        s.applied.length = 1 ∧ (Dispatched s ↔ TooLate s) := by
  have serial : Guarded step Serial (neriAdoInit smallMachine)
      (oneDecision (.endTask 1 :: List.replicate 4 (.work 0))) := by decide +kernel
  have once : (run step (neriAdoInit smallMachine) (oneDecision (.endTask 1 :: List.replicate 4 (.work 0)))).map
      (fun s => s.applied.length) = some 1 := by decide +kernel
  obtain ⟨s,ran,late⟩ := dispatchedTooLate smallMachine serial
  rw [ran] at once
  exact ⟨serial,s,ran,Option.some.inj once,late⟩

theorem decisionMissesTask :
    (∃ s, run step (neriAdoInit smallMachine) (oneDecision (List.replicate 4 (.work 0))) = some s ∧
      s.applied.map (fun a => (a.changed,a.present)) = [(none,[1])] ∧ ¬ Dispatched s) ∧
    ∃ s, run step (neriAdoInit smallMachine) (oneDecision ((List.replicate 4 [.work 0,.work 1]).flatten)) = some s ∧
      s.accepted.length = 1 ∧ s.applied.length = 2 ∧ ¬ Dispatched s := by
  constructor
  · have data : (run step (neriAdoInit smallMachine) (oneDecision (List.replicate 4 (.work 0)))).map
        (fun s => (s.applied,s.accepted)) =
          some ([⟨⟨7,⟨false,0,5000000,0,false,0⟩,0⟩,none,[1]⟩],[⟨1,7,⟨false,0,5000000,0,false,0⟩⟩]) := by
      decide +kernel
    obtain ⟨s,ran,both⟩ := Option.map_eq_some_iff.mp data
    obtain ⟨applied,accepted⟩ := Prod.mk.inj both
    refine ⟨s,ran,by rw [applied]; rfl,fun dispatched => ?_⟩
    have reached := dispatched.target 0 _ _ (by rw [applied]; rfl) (by rw [accepted]; rfl)
    exact absurd reached (by decide)
  · have data : (run step (neriAdoInit smallMachine) (oneDecision ((List.replicate 4 [.work 0,.work 1]).flatten))).map
        (fun s => (s.accepted.length,s.applied.length)) = some (1,2) := by decide +kernel
    obtain ⟨s,ran,both⟩ := Option.map_eq_some_iff.mp data
    obtain ⟨accepted,applied⟩ := Prod.mk.inj both
    refine ⟨s,ran,accepted,applied,fun dispatched => ?_⟩
    have short := dispatched.order.length_le
    rw [List.length_map,List.length_map,accepted,applied] at short
    omega

end Nekros.NeriAdo
