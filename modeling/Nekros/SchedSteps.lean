import Nekros.SchedQueues

/-! What `schedule`, `sched_tick`, `task_create` and `task_exit` do to the states of the
tasks and to the current task of each CPU. `Good` is the agreement of queues, states and
current tasks; every call keeps it, and says exactly which states it changes. -/
namespace Nekros.SchedSteps
open Sched LinkRing SchedQueues
open Function (update)

def Agree (s : State) (q : Band → List Tid) : Prop :=
  ∀ t < s.made, (s.tasks t).state = .ready ↔ ∃ b, t ∈ q b

theorem unqueued {s : State} {q : Band → List Tid} {t : Tid} (agree : Agree s q) (lt : t < s.made)
    (other : (s.tasks t).state ≠ .ready) (b : Band) : t ∉ q b :=
  fun mem => other ((agree t lt).mpr ⟨b,mem⟩)

/- A running task is the current one of one CPU. A current task is running, or it has
exited and its CPU has not called `schedule` since. -/
structure Seats (s : State) : Prop where
  running : ∀ t < s.made, (s.tasks t).state = .running → ∃ cpu, s.current cpu = some t
  current : ∀ cpu t, s.current cpu = some t →
    t < s.made ∧ ((s.tasks t).state = .running ∨ (s.tasks t).state = .zombie)
  once : ∀ cpu cpu' t, s.current cpu = some t → s.current cpu' = some t → cpu = cpu'

structure Good (s : State) : Prop where
  queues : ∃ q all, Queues s q all ∧ Agree s q
  seats : Seats s

def Moved (s s' : State) : Prop :=
  s'.made = s.made ∧ ∀ t, s'.tasks t = {s.tasks t with
    state := (s'.tasks t).state,
    vruntime := (s'.tasks t).vruntime,
    timesliceNs := (s'.tasks t).timesliceNs,
    cpuTimeNs := (s'.tasks t).cpuTimeNs,
    onCpu := (s'.tasks t).onCpu}

theorem movedRefl (s : State) : Moved s s := ⟨rfl,fun _ => rfl⟩

theorem movedTrans {s t u : State} (h : Moved s t) (g : Moved t u) : Moved s u :=
  ⟨g.1.trans h.1,fun x => by rw [g.2 x,h.2 x]⟩

theorem movedSet {s : State} {t : Tid} {x : Task} (same : x = {s.tasks t with
      state := x.state,vruntime := x.vruntime,timesliceNs := x.timesliceNs,cpuTimeNs := x.cpuTimeNs,
      onCpu := x.onCpu}) : Moved s (setTask s t x) := by
  refine ⟨rfl,fun u => ?_⟩
  by_cases here : u = t
  · subst here
    simpa [setTask] using same
  · simp [setTask,Function.update_of_ne here]

theorem setState (s : State) (t u : Tid) (x : Task) :
    ((setTask s t x).tasks u).state = if u = t then x.state else (s.tasks u).state := by
  by_cases here : u = t
  · subst here
    simp [setTask]
  · simp [setTask,here]

theorem seatsKeep {s s' : State} (h : Seats s) (current : s'.current = s.current) (made : s.made ≤ s'.made)
    (running : ∀ t < s'.made, (s'.tasks t).state = .running →
      (t < s.made ∧ (s.tasks t).state = .running) ∨ ∃ cpu, s.current cpu = some t)
    (kept : ∀ cpu t, s.current cpu = some t →
      (s'.tasks t).state = .running ∨ (s'.tasks t).state = .zombie) : Seats s' := by
  refine ⟨?_,?_,?_⟩
  · intro t lt run
    rw [current]
    rcases running t lt run with ⟨old,run⟩ | seated
    · exact h.running t old run
    · exact seated
  · intro cpu t found
    rw [current] at found
    exact ⟨Nat.lt_of_lt_of_le (h.current cpu t found).1 made,kept cpu t found⟩
  · rw [current]
    exact h.once

theorem enqueueTasks (s : State) (t : Tid) : Moved s (enqueue s t) ∧
    (∀ u, ((enqueue s t).tasks u).state = (s.tasks u).state) ∧ (enqueue s t).current = s.current ∧
    (enqueue s t).dels = s.dels := by
  unfold enqueue
  dsimp only
  split
  · refine ⟨movedSet (s := s) (t := t) rfl,fun u => ?_,rfl,rfl⟩
    refine (setState s t u _).trans ?_
    split
    · rename_i here
      rw [here]
    · rfl
  · exact ⟨movedRefl s,fun _ => rfl,rfl,rfl⟩

structure Requeued (s s' : State) (prev : Option Tid) : Prop where
  queues : ∃ q all, Queues s' q all ∧ Agree s' q
  moved : Moved s s'
  current : s'.current = s.current
  dels : s'.dels = s.dels
  states : ∀ t, (s'.tasks t).state =
    if prev = some t ∧ (s.tasks t).state = .running then .ready else (s.tasks t).state

theorem requeueSpec {s : State} (cpu : Cpu) (h : Good s) :
    Requeued s (requeue s (s.current cpu)) (s.current cpu) := by
  obtain ⟨q,all,queues,agree⟩ := h.queues
  have unmoved : (∀ t, s.current cpu = some t → (s.tasks t).state ≠ .running) →
      Requeued s s (s.current cpu) := by
    intro still
    refine ⟨⟨q,all,queues,agree⟩,movedRefl s,rfl,rfl,fun t => ?_⟩
    rw [if_neg (fun both => still t both.1 both.2)]
  cases seat : s.current cpu with
  | none =>
      rw [seat] at unmoved
      exact unmoved (by simp)
  | some p =>
      rw [seat] at unmoved
      rw [requeue]
      by_cases running : (s.tasks p).state = .running
      case neg =>
        rw [if_neg running]
        exact unmoved (fun t same => by cases same; exact running)
      rw [if_pos running]
      have lt := (h.seats.current cpu p seat).1
      have out : ∀ b, p ∉ q b := unqueued agree lt (by rw [running]; decide)
      have queues' : Queues (setTask s p {s.tasks p with state := .ready}) q all :=
        queuesCongr queues rfl rfl
      have after := enqueueQueues queues' lt out
      obtain ⟨moved,states,current,dels⟩ := enqueueTasks (setTask s p {s.tasks p with state := .ready}) p
      refine ⟨⟨_,all,after,?_⟩,movedTrans (movedSet rfl) moved,current,dels,?_⟩
      · intro t ht
        have ht : t < s.made := by rw [moved.1] at ht; exact ht
        rw [states,setState,queuedAppend]
        by_cases here : t = p
        · exact iff_of_true (if_pos here) (.inl here)
        · rw [if_neg here,agree t ht,or_iff_right here]
      · intro t
        rw [states,setState]
        by_cases here : t = p
        · subst here
          rw [if_pos rfl,if_pos ⟨rfl,running⟩]
        · rw [if_neg here,if_neg (fun both => here (Option.some.inj both.1).symm)]

/- Everything a call of `schedule` can do: go idle, which happens when nothing is
ready and the previous task, if any, has exited; or run a ready task, which may be
the previous one again. -/
structure Scheduled (s s' : State) (cpu : Cpu) (sw : Switch) : Prop where
  good : Good s'
  moved : Moved s s'
  others : ∀ c, c ≠ cpu → s'.current c = s.current c
  dels : ∀ d ∈ s'.dels, d ∈ s.dels ∨ d.2 = true
  ends :
    (sw = .idle ∧ s'.current cpu = s.current cpu ∧ (∀ t < s.made, (s.tasks t).state ≠ .ready) ∧
      (∀ t, s.current cpu = some t → (s.tasks t).state = .zombie) ∧
      ∀ t, (s'.tasks t).state = if s.current cpu = some t then .running else (s.tasks t).state) ∨
    (∃ next, sw = .to (s.current cpu) next ∧ s'.current cpu = some next ∧ next < s.made ∧
      ((s.tasks next).state = .ready ∨ (s.tasks next).state = .running ∧ s.current cpu = some next) ∧
      (s'.tasks next).state = .running ∧
      ∀ t, t ≠ next → (s'.tasks t).state =
        if s.current cpu = some t ∧ (s.tasks t).state = .running then .ready else (s.tasks t).state)

theorem rerunIdle {s : State} {cpu : Cpu} (h : Good s)
    (exited : ∀ t, s.current cpu = some t → (s.tasks t).state = .zombie)
    (none : ∀ t < s.made, (s.tasks t).state ≠ .ready) :
    Scheduled s (rerun s cpu (s.current cpu)) cpu .idle := by
  obtain ⟨q,all,queues,agree⟩ := h.queues
  cases seat : s.current cpu with
  | none =>
      refine ⟨h,movedRefl s,fun _ _ => rfl,fun d hd => .inl hd,.inl ⟨rfl,rfl,none,?_,?_⟩⟩
      · rw [seat]; simp
      · rw [seat]; simp [rerun]
  | some p =>
      have lt := (h.seats.current cpu p seat).1
      have same : update s.current cpu (some p) = s.current := by
        rw [← seat]
        exact Function.update_eq_self cpu s.current
      have set : ∀ t, ((rerun s cpu (some p)).tasks t).state =
          if t = p then .running else (s.tasks t).state := fun t => setState s p t _
      have seats : (rerun s cpu (some p)).current = s.current := by rw [rerun,same]
      refine ⟨⟨⟨q,all,queuesCongr queues rfl rfl,?_⟩,seatsKeep h.seats seats (Nat.le_refl _) ?_ ?_⟩,
        movedSet (s := s) (t := p) rfl,fun c _ => by rw [seats],fun d hd => .inl hd,
        .inl ⟨rfl,by rw [seats,seat],none,exited,?_⟩⟩
      · intro t ht
        have ht : t < s.made := ht
        rw [set,← agree t ht]
        by_cases here : t = p
        · rw [if_pos here]
          exact iff_of_false (by simp) (none t ht)
        · rw [if_neg here]
      · intro t ht run
        rw [set] at run
        by_cases here : t = p
        · exact .inr ⟨cpu,by rw [here]; exact seat⟩
        · rw [if_neg here] at run
          exact .inl ⟨ht,run⟩
      · intro c t found
        rw [set]
        by_cases here : t = p
        · exact .inl (if_pos here)
        · rw [if_neg here]
          exact (h.seats.current c t found).2
      · intro t
        rw [set,seat]
        exact if_congr ⟨fun e => by rw [e],fun e => (Option.some.inj e).symm⟩ rfl rfl

theorem runNextState (s : State) (cpu : Cpu) (next t : Tid) :
    ((runNext s cpu next).tasks t).state = if t = next then .running else (s.tasks t).state :=
  setState (dequeue s next) next t _

theorem runNextHere (s : State) (cpu : Cpu) (next : Tid) : (runNext s cpu next).current cpu = some next := by
  simp [runNext]

theorem runNextOther {s : State} {cpu c : Cpu} {next : Tid} (away : c ≠ cpu) :
    (runNext s cpu next).current c = s.current c := by
  simp [runNext,Function.update_of_ne away,dequeue,listDel,setTask]

theorem requeuedElsewhere {s s1 : State} {cpu c : Cpu} {t : Tid} (h : Good s)
    (r : Requeued s s1 (s.current cpu)) (away : c ≠ cpu) (found : s.current c = some t) :
    (s1.tasks t).state = (s.tasks t).state ∧ (s1.tasks t).state ≠ .ready := by
  have notPrev : ¬ (s.current cpu = some t ∧ (s.tasks t).state = .running) :=
    fun both => away (h.seats.once c cpu t found both.1)
  have same := r.states t
  rw [if_neg notPrev] at same
  refine ⟨same,?_⟩
  rw [same]
  rcases (h.seats.current c t found).2 with run | zombie
  · rw [run]
    simp
  · rw [zombie]
    simp

theorem runNextSeats {s s1 : State} {cpu : Cpu} {next : Tid} (h : Good s)
    (r : Requeued s s1 (s.current cpu)) (lt : next < s.made) (ready : (s1.tasks next).state = .ready) :
    Seats (runNext s1 cpu next) := by
  have made : s1.made = s.made := r.moved.1
  have other : ∀ {c}, c ≠ cpu → (runNext s1 cpu next).current c = s.current c :=
    fun away => by rw [runNextOther away,r.current]
  -- the task that runs now was current nowhere else
  have elsewhere : ∀ {c t}, c ≠ cpu → s.current c = some t → t ≠ next := by
    rintro c t away found rfl
    exact (requeuedElsewhere h r away found).2 ready
  refine ⟨?_,?_,?_⟩
  · intro t ht run
    have ht : t < s.made := made ▸ ht
    rw [runNextState] at run
    by_cases here : t = next
    · exact ⟨cpu,by rw [here]; exact runNextHere s1 cpu next⟩
    · rw [if_neg here,r.states t] at run
      split at run
      · cases run
      · rename_i notPrev
        obtain ⟨c,found⟩ := h.seats.running t ht run
        have away : c ≠ cpu := by
          rintro rfl
          exact notPrev ⟨found,run⟩
        exact ⟨c,by rw [other away]; exact found⟩
  · intro c t found
    by_cases here : c = cpu
    · subst here
      rw [runNextHere] at found
      cases found
      exact ⟨made.symm ▸ lt,.inl (by rw [runNextState,if_pos rfl])⟩
    · rw [other here] at found
      obtain ⟨lt',state⟩ := h.seats.current c t found
      refine ⟨made.symm ▸ lt',?_⟩
      rw [runNextState,if_neg (elsewhere here found),(requeuedElsewhere h r here found).1]
      exact state
  · intro c c' t found found'
    by_cases here : c = cpu <;> by_cases here' : c' = cpu
    · rw [here,here']
    · subst here
      rw [runNextHere] at found
      rw [other here'] at found'
      cases found
      exact absurd rfl (elsewhere here' found')
    · subst here'
      rw [runNextHere] at found'
      rw [other here] at found
      cases found'
      exact absurd rfl (elsewhere here found)
    · rw [other here] at found
      rw [other here'] at found'
      exact h.seats.once c c' t found found'

theorem runNextTo {s s1 : State} {cpu : Cpu} {next : Tid} {b : Band} {q : Band → List Tid}
    {all : List Tid} (h : Good s) (r : Requeued s s1 (s.current cpu)) (queues : Queues s1 q all)
    (agree : Agree s1 q) (mem : next ∈ q b) :
    Scheduled s (runNext s1 cpu next) cpu (.to (s.current cpu) next) := by
  have made : s1.made = s.made := r.moved.1
  have lt : next < s.made := made ▸ queues.run.made b next mem
  have ready : (s1.tasks next).state = .ready := (agree next (made.symm ▸ lt)).mpr ⟨b,mem⟩
  obtain ⟨queues',dels⟩ := dequeueQueues queues mem
  have was : (s.tasks next).state = .ready ∨ (s.tasks next).state = .running ∧ s.current cpu = some next := by
    have before := r.states next
    rw [ready] at before
    split at before
    · rename_i both
      exact .inr ⟨both.2,both.1⟩
    · exact .inl before.symm
  refine ⟨⟨⟨_,all,queuesCongr queues' rfl rfl,?_⟩,runNextSeats h r lt ready⟩,?_,?_,?_,
    .inr ⟨next,rfl,runNextHere s1 cpu next,lt,was,?_,?_⟩⟩
  · intro t ht
    rw [runNextState,queuedErase queues.run mem]
    by_cases here : t = next
    · rw [if_pos here]
      exact iff_of_false (by simp) (fun listed => listed.1 here)
    · rw [if_neg here,agree t ht,and_iff_right here]
  · exact movedTrans r.moved (movedSet (s := dequeue s1 next) (t := next) rfl)
  · intro c away
    rw [runNextOther away,r.current]
  · intro d hd
    have hd : d ∈ (dequeue s1 next).dels := hd
    rw [dels,r.dels] at hd
    rcases List.mem_cons.mp hd with rfl | old
    · exact .inr rfl
    · exact .inl old
  · rw [runNextState,if_pos rfl]
  · intro t different
    rw [runNextState,if_neg different,r.states t]

theorem scheduleCases {s : State} (cpu : Cpu) (h : Good s) :
    ∃ s' sw, schedule s cpu = some (s',sw) ∧ Scheduled s s' cpu sw := by
  have r := requeueSpec cpu h
  obtain ⟨q,all,queues,agree⟩ := r.queues
  obtain ⟨next,picked,some',none'⟩ := pickNextQueues queues
  cases next with
  | some next =>
      obtain ⟨_,b,mem⟩ := some' next rfl
      exact ⟨_,_,by simp [schedule,picked],runNextTo h r queues agree mem⟩
  | none =>
      have nothing : ∀ t < s.made, ((requeue s (s.current cpu)).tasks t).state ≠ .ready := by
        intro t ht ready
        obtain ⟨b,mem⟩ := (agree t (r.moved.1.symm ▸ ht)).mp ready
        exact none' rfl b t mem ready
      have exited : ∀ t, s.current cpu = some t → (s.tasks t).state = .zombie := by
        intro t seat
        obtain ⟨lt,state⟩ := h.seats.current cpu t seat
        refine state.resolve_left (fun run => nothing t lt ?_)
        rw [r.states t,if_pos ⟨seat,run⟩]
      have still : requeue s (s.current cpu) = s := by
        cases seat : s.current cpu with
        | none => rfl
        | some p =>
            rw [requeue,if_neg]
            rw [exited p seat]
            simp
      rw [still] at nothing picked
      exact ⟨_,_,by simp [schedule,still,picked],rerunIdle h exited nothing⟩

theorem goodSet {s : State} {t : Tid} {x : Task} (h : Good s) (same : x.state = (s.tasks t).state) :
    Good (setTask s t x) := by
  obtain ⟨q,all,queues,agree⟩ := h.queues
  have states : ∀ u, ((setTask s t x).tasks u).state = (s.tasks u).state := by
    intro u
    rw [setState]
    split
    · rename_i here
      rw [here,same]
    · rfl
  refine ⟨⟨q,all,queuesCongr queues rfl rfl,fun u hu => by rw [states]; exact agree u hu⟩,
    seatsKeep h.seats rfl (Nat.le_refl _) (fun u hu run => .inl ⟨hu,?_⟩) (fun cpu u found => ?_)⟩
  · rw [states] at run
    exact run
  · rw [states]
    exact (h.seats.current cpu u found).2

theorem tickCases {s : State} (cpu : Cpu) (h : Good s) :
    ∃ s0, Good s0 ∧ Moved s s0 ∧ s0.current = s.current ∧ s0.dels = s.dels ∧
      (∀ t, (s0.tasks t).state = (s.tasks t).state) ∧
      (schedTick s cpu = some (s0,.idle) ∨ schedTick s cpu = schedule s0 cpu) := by
  unfold schedTick
  cases seat : s.current cpu with
  | none => exact ⟨s,h,movedRefl s,rfl,rfl,fun _ => rfl,.inr rfl⟩
  | some t =>
      have counted : ∀ slice, Good (setTask s t {charged (s.tasks t) with timesliceNs := slice}) ∧
          Moved s (setTask s t {charged (s.tasks t) with timesliceNs := slice}) ∧
          ∀ u, ((setTask s t {charged (s.tasks t) with timesliceNs := slice}).tasks u).state =
            (s.tasks u).state := by
        intro slice
        refine ⟨goodSet h rfl,movedSet rfl,fun u => (setState s t u _).trans ?_⟩
        split
        · rename_i here
          rw [here]
          rfl
        · rfl
      dsimp only
      split
      · obtain ⟨good,moved,states⟩ := counted ((charged (s.tasks t)).timesliceNs - tickNs)
        exact ⟨_,good,moved,rfl,rfl,states,.inl rfl⟩
      · obtain ⟨good,moved,states⟩ := counted 0
        exact ⟨_,good,moved,rfl,rfl,states,.inr rfl⟩

structure Marked (s s' : State) (t : Tid) : Prop where
  good : Good s'
  moved : Moved s s'
  current : s'.current = s.current
  states : ∀ u, (s'.tasks u).state = if u = t then .zombie else (s.tasks u).state
  dels : ∀ d ∈ s'.dels, d ∈ s.dels ∨ d.2 = true ∨
    (d = (.rqNode t,false) ∧ (s.tasks t).state ≠ .ready)

theorem exitDequeue {s : State} {q : Band → List Tid} {all : List Tid} {t : Tid} (queues : Queues s q all)
    (agree : Agree s q) (lt : t < s.made) :
    ∃ q', Queues (dequeue (setTask s t {s.tasks t with state := .zombie}) t) q' all ∧
      (∀ b, ∀ u ∈ q' b, u ∈ q b) ∧ (∀ u, (∃ b, u ∈ q' b) ↔ u ≠ t ∧ ∃ b, u ∈ q b) ∧
      (dequeue (setTask s t {s.tasks t with state := .zombie}) t).dels =
        (.rqNode t,decide ((s.tasks t).state = .ready))::s.dels := by
  have set : Queues (setTask s t {s.tasks t with state := .zombie}) q all := queuesCongr queues rfl rfl
  by_cases ready : (s.tasks t).state = .ready
  · obtain ⟨b,mem⟩ := (agree t lt).mp ready
    obtain ⟨off,dels⟩ := dequeueQueues set mem
    exact ⟨_,off,fun _ _ listed => stillQueued listed,queuedErase queues.run mem,
      by rw [dels]; simp [ready,setTask]⟩
  · have out : ∀ b, t ∉ q b := unqueued agree lt ready
    obtain ⟨off,dels⟩ := dequeueOff set lt out
    refine ⟨q,off,fun _ _ listed => listed,fun u => ⟨fun listed => ⟨?_,listed⟩,And.right⟩,
      by rw [dels]; simp [ready,setTask]⟩
    rintro rfl
    obtain ⟨b,mem⟩ := listed
    exact out b mem

theorem exitMarkQueues {s : State} {q : Band → List Tid} {all : List Tid} {t : Tid} (queues : Queues s q all)
    (agree : Agree s q) (lt : t < s.made) :
    ∃ q' all', Queues (exitMark s t) q' all' ∧ (∀ b, ∀ u ∈ q' b, u ∈ q b) ∧
      (∀ u, (∃ b, u ∈ q' b) ↔ u ≠ t ∧ ∃ b, u ∈ q b) ∧
      ∀ d ∈ (exitMark s t).dels, d ∈ s.dels ∨ d.2 = true ∨
        (d = (.rqNode t,false) ∧ (s.tasks t).state ≠ .ready) := by
  obtain ⟨q',off,fewer,queued,dels⟩ := exitDequeue queues agree lt
  have made : (dequeue (setTask s t {s.tasks t with state := .zombie}) t).made = s.made := rfl
  unfold exitMark
  generalize dequeue (setTask s t {s.tasks t with state := .zombie}) t = s1 at *
  have recorded : ∀ d ∈ s1.dels, d ∈ s.dels ∨ d.2 = true ∨
      (d = (.rqNode t,false) ∧ (s.tasks t).state ≠ .ready) := by
    intro d hd
    rw [dels] at hd
    rcases List.mem_cons.mp hd with rfl | old
    · by_cases ready : (s.tasks t).state = .ready
      · exact .inr (.inl (by simp [ready]))
      · exact .inr (.inr ⟨by simp [ready],ready⟩)
    · exact .inl old
  by_cases listed : t ∈ all
  · have linked : s1.links.next (.allTasks t) ≠ .null :=
      (ringLinked off.tasks.ring (List.mem_map_of_mem listed) (by simp)).1
    obtain ⟨unlisted,dels'⟩ := unlistQueues off listed
    rw [if_pos linked]
    refine ⟨q',_,unlisted,fewer,queued,fun d hd => ?_⟩
    rw [dels'] at hd
    rcases List.mem_cons.mp hd with rfl | old
    · exact .inr (.inl rfl)
    · exact recorded d old
  · have null := off.tasks.off t (made.symm ▸ lt) listed
    rw [if_neg (by simp [null])]
    exact ⟨q',all,off,fewer,queued,recorded⟩

theorem exitMarkTasks (s : State) (t : Tid) :
    (exitMark s t).tasks = (setTask s t {s.tasks t with state := .zombie}).tasks ∧
      (exitMark s t).made = s.made ∧ (exitMark s t).current = s.current := by
  unfold exitMark
  dsimp only
  split <;> exact ⟨rfl,rfl,rfl⟩

theorem exitMarkSpec {s : State} {t : Tid} (h : Good s) (lt : t < s.made) : Marked s (exitMark s t) t := by
  obtain ⟨q,all,queues,agree⟩ := h.queues
  obtain ⟨q',all',queues',_,queued,dels⟩ := exitMarkQueues queues agree lt
  obtain ⟨tasks,made,current⟩ := exitMarkTasks s t
  have states : ∀ u, ((exitMark s t).tasks u).state = if u = t then .zombie else (s.tasks u).state := by
    intro u
    rw [tasks]
    exact setState s t u _
  have moved : Moved s (exitMark s t) := by
    refine ⟨made,fun u => ?_⟩
    rw [tasks]
    exact (movedSet (s := s) (t := t) rfl).2 u
  refine ⟨⟨⟨q',all',queues',fun u hu => ?_⟩,
    seatsKeep h.seats current (Nat.le_of_eq made.symm) (fun u hu run => ?_) (fun cpu u found => ?_)⟩,
    moved,current,states,dels⟩
  · rw [states,queued]
    by_cases here : u = t
    · rw [if_pos here]
      exact iff_of_false (by simp) (fun listed => listed.1 here)
    · rw [if_neg here,and_iff_right here]
      exact agree u (made ▸ hu)
  · rw [states] at run
    split at run
    · cases run
    · exact .inl ⟨made ▸ hu,run⟩
  · rw [states]
    by_cases here : u = t
    · exact .inr (if_pos here)
    · rw [if_neg here]
      exact (h.seats.current cpu u found).2

theorem registerQueues {s : State} {q : Band → List Tid} {all : List Tid} {t n : Nat}
    (h : RunQueues s.links n q) (g : AllTasks s.links n all) (new : t = n) (made : s.made = n+1) :
    Queues (register s t) (update q (bandOf (s.tasks t)) (q (bandOf (s.tasks t)) ++ [t])) (all ++ [t]) := by
  subst new
  have out : ∀ b, t ∉ q b := fun b mem => Nat.lt_irrefl t (h.made b t mem)
  have unlisted : t ∉ all := fun mem => Nat.lt_irrefl t (g.made t mem)
  -- the two nodes of the new task are on no ring when they are initialised
  have inits : ∀ x, x ≠ .rqNode t → x ≠ .allTasks t →
      Same s.links (init (init s.links (.rqNode t)) (.allTasks t)) x := by
    intro x notRq notAll
    have first := initOther s.links notRq
    have second := initOther (init s.links (.rqNode t)) notAll
    exact ⟨second.1.trans first.1,second.2.trans first.2⟩
  have run1 : RunQueues (init (init s.links (.rqNode t)) (.allTasks t)) t q :=
    runFrame h (fun b => inits _ (by simp) (by simp)) (fun u hu => inits _ (by simpa using Nat.ne_of_lt hu) (by simp))
  have all1 : AllTasks (init (init s.links (.rqNode t)) (.allTasks t)) t all :=
    allFrame g (inits _ (by simp) (by simp)) (fun u hu => inits _ (by simp) (by simpa using Nat.ne_of_lt hu))
  have links : (register s t).links = addTail (addTail (init (init s.links (.rqNode t)) (.allTasks t))
      (.allTasks t) .allTasksList) (.rqNode t) (.runqueue (bandOf (s.tasks t))) :=
    (enqueueLinks _ t).1
  have count : (register s t).made = t+1 := (enqueueLinks _ t).2.trans made
  generalize init (init s.links (.rqNode t)) (.allTasks t) = L1 at links run1 all1
  have fresh : Node.allTasks t ∉ Node.allTasksList::all.map .allTasks := by simpa using unlisted
  have run2 : RunQueues (addTail L1 (.allTasks t) .allTasksList) t q :=
    runFrame run1 (fun b => addTailOther all1.ring (by simp) (by simp))
      (fun u hu => addTailOther all1.ring (by simp) (by simp))
  have all2 : AllTasks (addTail L1 (.allTasks t) .allTasksList) (t+1) (all ++ [t]) := by
    refine ⟨?_,?_,?_⟩
    · rw [List.map_append]
      exact addTailRing all1.ring fresh
    · intro u mem
      rcases List.mem_append.mp mem with old | new
      · exact Nat.lt_succ_of_lt (all1.made u old)
      · obtain rfl := List.mem_singleton.mp new
        exact Nat.lt_succ_self u
    · intro u hu gone
      have out : u ∉ all := fun mem => gone (List.mem_append_left _ mem)
      have different : u ≠ t := fun e => gone (by simp [e])
      have words : Same L1 (addTail L1 (.allTasks t) .allTasksList) (.allTasks u) :=
        addTailOther all1.ring (by simpa using different) (by simpa using out)
      exact words.1.trans (all1.off u (Nat.lt_of_le_of_ne (Nat.le_of_lt_succ hu) different) out)
  constructor
  · rw [links,count]
    refine addTailRun run2 ⟨Nat.le_succ t,fun u hu => ?_⟩ (Nat.lt_succ_self t) out
    exact Nat.lt_or_eq_of_le (Nat.le_of_lt_succ hu)
  · rw [links,count]
    exact addTailAll run2 all2

theorem enqueueOwn (s : State) (t : Tid) :
    ∃ v, (enqueue s t).tasks = update s.tasks t {s.tasks t with vruntime := v} := by
  unfold enqueue
  dsimp only
  split
  · exact ⟨_,rfl⟩
  · exact ⟨(s.tasks t).vruntime,(Function.update_eq_self t s.tasks).symm⟩

theorem registerTasks (s : State) (t : Tid) : (register s t).made = s.made ∧
    (register s t).current = s.current ∧ (register s t).dels = s.dels ∧
    ∃ v, (register s t).tasks = update s.tasks t {s.tasks t with vruntime := v} := by
  unfold register
  exact ⟨(enqueueLinks _ t).2,(enqueueTasks _ t).2.2.1,(enqueueTasks _ t).2.2.2,enqueueOwn _ t⟩

theorem placeOwn (s : State) (t : Tid) (c : Creation) :
    ∃ a, place s t c = {s with tasks := update s.tasks t {s.tasks t with cpuAffinity := a}} := by
  unfold place
  split
  · exact ⟨_,rfl⟩
  · refine ⟨(s.tasks t).cpuAffinity,?_⟩
    have same : update s.tasks t {s.tasks t with cpuAffinity := (s.tasks t).cpuAffinity} = s.tasks :=
      Function.update_eq_self t s.tasks
    rw [same]

structure Created (s s' : State) (cpu : Cpu) (c : Creation) (t : Tid) : Prop where
  good : Good s'
  new : t = s.made
  made : s'.made = s.made + 1
  stack : c.kstackPa ≠ 0
  task : ∃ vruntime affinity,
    s'.tasks t = {newTask s cpu c with vruntime := vruntime,cpuAffinity := affinity}
  others : ∀ u, u ≠ t → s'.tasks u = s.tasks u
  current : s'.current = s.current
  dels : s'.dels = s.dels

theorem goodPid {s : State} (n : Nat) (h : Good s) : Good {s with nextPid := n} := by
  obtain ⟨q,all,queues,agree⟩ := h.queues
  exact ⟨⟨q,all,queuesCongr queues rfl rfl,agree⟩,⟨h.seats.running,h.seats.current,h.seats.once⟩⟩

theorem placedTasks (s : State) (cpu : Cpu) (c : Creation) : ∃ vruntime affinity,
    (place (register (enroll s cpu c) s.made) s.made c).tasks =
      update s.tasks s.made {newTask s cpu c with vruntime := vruntime,cpuAffinity := affinity} := by
  obtain ⟨_,_,_,v,tasks⟩ := registerTasks (enroll s cpu c) s.made
  obtain ⟨a,placed⟩ := placeOwn (register (enroll s cpu c) s.made) s.made c
  refine ⟨v,a,?_⟩
  rw [placed]
  show update (register (enroll s cpu c) s.made).tasks s.made _ = _
  rw [tasks]
  simp [enroll,setTask]

theorem placedRest (s : State) (cpu : Cpu) (c : Creation) :
    (place (register (enroll s cpu c) s.made) s.made c).links = (register (enroll s cpu c) s.made).links ∧
      (place (register (enroll s cpu c) s.made) s.made c).made = s.made + 1 ∧
      (place (register (enroll s cpu c) s.made) s.made c).current = s.current ∧
      (place (register (enroll s cpu c) s.made) s.made c).dels = s.dels := by
  obtain ⟨count,seats,dels,_⟩ := registerTasks (enroll s cpu c) s.made
  obtain ⟨a,placed⟩ := placeOwn (register (enroll s cpu c) s.made) s.made c
  rw [placed]
  exact ⟨rfl,count,seats,dels⟩

theorem createdGood {s : State} (cpu : Cpu) (c : Creation) (h : Good s) :
    Good (place (register (enroll s cpu c) s.made) s.made c) := by
  obtain ⟨q,all,queues,agree⟩ := h.queues
  have registered := registerQueues (s := enroll s cpu c) queues.run queues.tasks rfl rfl
  obtain ⟨links,made,current,_⟩ := placedRest s cpu c
  obtain ⟨v,a,tasks⟩ := placedTasks s cpu c
  have count : (register (enroll s cpu c) s.made).made = s.made + 1 := (registerTasks _ _).1
  have states : ∀ u, ((place (register (enroll s cpu c) s.made) s.made c).tasks u).state =
      if u = s.made then .ready else (s.tasks u).state := by
    intro u
    rw [tasks]
    exact setState s s.made u _
  have old : ∀ {u}, u < s.made + 1 → u ≠ s.made → u < s.made :=
    fun lt different => Nat.lt_of_le_of_ne (Nat.le_of_lt_succ lt) different
  refine ⟨⟨_,_,queuesCongr registered links (made.trans count.symm),fun u hu => ?_⟩,
    seatsKeep h.seats current (by rw [made]; exact Nat.le_succ _) (fun u hu run => ?_) (fun cpu' u found => ?_)⟩
  · rw [made] at hu
    rw [states,queuedAppend]
    by_cases here : u = s.made
    · exact iff_of_true (if_pos here) (.inl here)
    · rw [if_neg here,agree u (old hu here),or_iff_right here]
  · rw [made] at hu
    rw [states] at run
    split at run
    · cases run
    · rename_i different
      exact .inl ⟨old hu different,run⟩
  · obtain ⟨lt,state⟩ := h.seats.current cpu' u found
    rw [states,if_neg (Nat.ne_of_lt lt)]
    exact state

theorem createCases {s : State} (cpu : Cpu) (c : Creation) (h : Good s) :
    (∃ e n, taskCreate s cpu c = ({s with nextPid := n},.error e)) ∨
      ∃ s' t, taskCreate s cpu c = (s',.ok t) ∧ Created s s' cpu c t := by
  unfold taskCreate
  by_cases blocked : (c.neriReady && !c.admitAllowed) = true
  · exact .inl ⟨_,s.nextPid,if_pos blocked⟩
  rw [if_neg blocked]
  by_cases memory : (!c.kzallocOk) = true
  · exact .inl ⟨_,s.nextPid,if_pos memory⟩
  rw [if_neg memory]
  by_cases stack : c.kstackPa = 0
  · exact .inl ⟨_,_,if_pos stack⟩
  rw [if_neg stack]
  obtain ⟨_,made,current,dels⟩ := placedRest s cpu c
  obtain ⟨v,a,tasks⟩ := placedTasks s cpu c
  refine .inr ⟨_,_,rfl,createdGood cpu c h,rfl,made,stack,⟨v,a,?_⟩,fun u different => ?_,current,dels⟩
  · rw [tasks,Function.update_self]
  · rw [tasks,Function.update_of_ne different]

end Nekros.SchedSteps
