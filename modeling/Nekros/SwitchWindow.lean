import Nekros.SchedAgreement

/-! The window between the two halves of `schedule`. Under `sched_lock` the outgoing task
goes back to its queue and the next one is chosen; only after the unlock does `__switch_to`
save the one and load the other. In between, the outgoing task is ready, and its CPU is
still on its stack. -/
namespace Nekros.SwitchWindow
open Sched SchedSteps
open GuardedRun (run Guarded guardedInvariant)
open Function (update)

/- Beside the scheduler: the task on whose stack each CPU is (none on its boot stack), and
the arguments of the `__switch_to` it is about to call. -/
structure World where
  sched : State
  onStack : Cpu → Option Tid
  pending : Cpu → Option (Option Tid × Tid)

inductive Event where
  | create (cpu : Cpu) (c : Creation)
  | schedule (cpu : Cpu)
  | tick (cpu : Cpu)
  | switch (cpu : Cpu)

def start : World := ⟨schedInit,fun _ => none,fun _ => none⟩

def unlocked (w : World) (cpu : Cpu) : State × Switch → World
  | (s,.idle) => {w with sched := s}
  | (s,.to prev next) =>
      if prev ≠ some next then ⟨s,w.onStack,update w.pending cpu (some (prev,next))⟩
      else {w with sched := s}

def switchTo (w : World) (cpu : Cpu) (next : Tid) : World :=
  ⟨w.sched,update w.onStack cpu (some next),update w.pending cpu none⟩

/- A CPU that has chosen a task does nothing before it has switched to it. -/
def step (w : World) : Event → Option World
  | .create cpu c => if w.pending cpu = none then some {w with sched := (taskCreate w.sched cpu c).1} else none
  | .schedule cpu => if w.pending cpu = none then (schedule w.sched cpu).map (unlocked w cpu) else none
  | .tick cpu => if w.pending cpu = none then (schedTick w.sched cpu).map (unlocked w cpu) else none
  | .switch cpu => (w.pending cpu).map (fun p => switchTo w cpu p.2)

def Exclusive (w : World) : Prop :=
  ∀ cpu cpu' t, w.onStack cpu = some t → w.onStack cpu' = some t → cpu = cpu'

def Vacated (w : World) (cpu : Cpu) : Option (State × Switch) → Prop
  | some (_,.to _ next) => ∀ c, c ≠ cpu → w.onStack c ≠ some next
  | _ => True

instance (w : World) (cpu : Cpu) (r : Option (State × Switch)) : Decidable (Vacated w cpu r) := by
  unfold Vacated
  split <;> infer_instance

def Clear (w : World) : Event → Prop
  | .schedule cpu => Vacated w cpu (schedule w.sched cpu)
  | .tick cpu => Vacated w cpu (schedTick w.sched cpu)
  | _ => True

instance (w : World) (e : Event) : Decidable (Clear w e) := by
  cases e <;> unfold Clear <;> infer_instance

structure Inv (w : World) : Prop where
  good : Good w.sched
  settled : ∀ c, w.pending c = none → w.onStack c = w.sched.current c
  leaving : ∀ c prev next, w.pending c = some (prev,next) →
    w.sched.current c = some next ∧ w.onStack c = prev ∧ ∀ c', c' ≠ c → w.onStack c' ≠ some next
  exclusive : Exclusive w

theorem startInv : Inv start where
  good := SchedAgreement.initGood
  settled := fun _ _ => rfl
  leaving := fun _ _ _ found => nomatch found
  exclusive := fun _ _ _ found => nomatch found

theorem schedInv {w : World} {s : State} (h : Inv w) (good : Good s) (same : s.current = w.sched.current) :
    Inv {w with sched := s} where
  good := good
  settled := by
    intro c none
    rw [same]
    exact h.settled c none
  leaving := by
    intro c prev next found
    rw [same]
    exact h.leaving c prev next found
  exclusive := h.exclusive

theorem createInv {w : World} (h : Inv w) (cpu : Cpu) (c : Creation) :
    Inv {w with sched := (taskCreate w.sched cpu c).1} := by
  rcases createCases cpu c h.good with ⟨_,n,failed⟩ | ⟨s',t,made,created⟩
  · rw [failed]
    exact schedInv h (goodPid n h.good) rfl
  · rw [made]
    exact schedInv h created.good created.current

theorem unlockedInv {w : World} {s s' : State} {cpu : Cpu} {sw : Switch} (h : Inv w)
    (free : w.pending cpu = none) (same : s.current = w.sched.current) (r : Scheduled s s' cpu sw)
    (clear : Vacated w cpu (some (s',sw))) : Inv (unlocked w cpu (s',sw)) := by
  have others := r.others
  rw [same] at others
  have kept : s'.current cpu = w.sched.current cpu → s'.current = w.sched.current := by
    intro here
    funext c
    by_cases this : c = cpu
    · rw [this,here]
    · exact others c this
  rcases r.ends with ⟨rfl,here,_⟩ | ⟨next,rfl,here,_⟩
  · exact schedInv h r.good (kept (by rw [here,same]))
  · rw [same] at clear ⊢
    by_cases stays : w.sched.current cpu = some next
    · have back : unlocked w cpu (s',.to (w.sched.current cpu) next) = {w with sched := s'} :=
        if_neg (not_not.mpr stays)
      rw [back]
      exact schedInv h r.good (kept (here.trans stays.symm))
    · let w' : World := ⟨s',w.onStack,update w.pending cpu (some (w.sched.current cpu,next))⟩
      have away : unlocked w cpu (s',.to (w.sched.current cpu) next) = w' := if_pos stays
      have pendingHere : w'.pending cpu = some (w.sched.current cpu,next) := Function.update_self _ _ _
      have pendingOther : ∀ c, c ≠ cpu → w'.pending c = w.pending c :=
        fun c other => Function.update_of_ne other _ _
      rw [away]
      refine ⟨r.good,?_,?_,h.exclusive⟩
      · intro c none
        by_cases this : c = cpu
        · rw [this,pendingHere] at none
          cases none
        · rw [pendingOther c this] at none
          exact (h.settled c none).trans (others c this).symm
      · intro c prev n found
        by_cases this : c = cpu
        · subst this
          rw [pendingHere] at found
          cases Option.some.inj found
          exact ⟨here,h.settled c free,clear⟩
        · rw [pendingOther c this] at found
          obtain ⟨current,on,alone⟩ := h.leaving c prev n found
          exact ⟨(others c this).trans current,on,alone⟩

theorem switchInv {w : World} {cpu : Cpu} {prev : Option Tid} {next : Tid} (h : Inv w)
    (leaves : w.pending cpu = some (prev,next)) : Inv (switchTo w cpu next) := by
  obtain ⟨current,_,alone⟩ := h.leaving cpu prev next leaves
  have stackOther : ∀ c, c ≠ cpu → (switchTo w cpu next).onStack c = w.onStack c :=
    fun c other => Function.update_of_ne other _ _
  have stackHere : (switchTo w cpu next).onStack cpu = some next := Function.update_self _ _ _
  have pendingOther : ∀ c, c ≠ cpu → (switchTo w cpu next).pending c = w.pending c :=
    fun c other => Function.update_of_ne other _ _
  have pendingHere : (switchTo w cpu next).pending cpu = none := Function.update_self _ _ _
  refine ⟨h.good,?_,?_,?_⟩
  · intro c none
    by_cases this : c = cpu
    · rw [this,stackHere]
      exact current.symm
    · rw [pendingOther c this] at none
      rw [stackOther c this]
      exact h.settled c none
  · intro c prev' next' found
    by_cases this : c = cpu
    · rw [this,pendingHere] at found
      cases found
    · rw [pendingOther c this] at found
      obtain ⟨current',on,alone'⟩ := h.leaving c prev' next' found
      refine ⟨current',(stackOther c this).trans on,fun c' other => ?_⟩
      by_cases that : c' = cpu
      · rw [that,stackHere]
        intro same
        -- Two CPUs would have one current task.
        rw [Option.some.inj same] at current
        exact this (h.good.seats.once c cpu next' current' current)
      · rw [stackOther c' that]
        exact alone' c' other
  · intro c c' t on on'
    by_cases this : c = cpu
    · by_cases that : c' = cpu
      · rw [this,that]
      · rw [this,stackHere] at on
        rw [stackOther c' that,← on] at on'
        exact absurd on' (alone c' that)
    · by_cases that : c' = cpu
      · rw [that,stackHere] at on'
        rw [stackOther c this,← on'] at on
        exact absurd on (alone c this)
      · rw [stackOther c this] at on
        rw [stackOther c' that] at on'
        exact h.exclusive c c' t on on'

theorem tickScheduled {w : World} (h : Inv w) (cpu : Cpu) :
    ∃ s' sw, schedTick w.sched cpu = some (s',sw) ∧
      ((sw = .idle ∧ Good s' ∧ s'.current = w.sched.current) ∨
        ∃ s, s.current = w.sched.current ∧ Scheduled s s' cpu sw) := by
  obtain ⟨s,good,_,same,_,_,done | done⟩ := tickCases cpu h.good
  · exact ⟨s,.idle,done,.inl ⟨rfl,good,same⟩⟩
  · obtain ⟨s',sw,found,r⟩ := scheduleCases cpu good
    exact ⟨s',sw,done.trans found,.inr ⟨s,same,r⟩⟩

theorem stepInv {w w' : World} {e : Event} (h : Inv w) (clear : Clear w e) (next : step w e = some w') :
    Inv w' := by
  cases e with
  | create cpu c =>
      simp only [step] at next
      split at next
      · cases Option.some.inj next
        exact createInv h cpu c
      · cases next
  | schedule cpu =>
      obtain ⟨s',sw,found,r⟩ := scheduleCases cpu h.good
      simp only [Clear,found] at clear
      simp only [step,found] at next
      split at next
      · next free =>
          cases Option.some.inj next
          exact unlockedInv h free rfl r clear
      · cases next
  | tick cpu =>
      obtain ⟨s',sw,found,ends⟩ := tickScheduled h cpu
      simp only [Clear,found] at clear
      simp only [step,found] at next
      split at next
      · next free =>
          cases Option.some.inj next
          rcases ends with ⟨rfl,good,same⟩ | ⟨s,same,r⟩
          · exact schedInv h good same
          · exact unlockedInv h free same r clear
      · cases next
  | switch cpu =>
      obtain ⟨⟨prev,task⟩,leaves,rfl⟩ := Option.map_eq_some_iff.mp next
      exact switchInv h leaves

theorem unlockedBreaks {w : World} {s s' : State} {cpu : Cpu} {sw : Switch} (h : Inv w)
    (free : w.pending cpu = none) (same : s.current = w.sched.current) (r : Scheduled s s' cpu sw)
    (taken : ¬ Vacated w cpu (some (s',sw))) :
    ∃ w', step (unlocked w cpu (s',sw)) (.switch cpu) = some w' ∧ ¬ Exclusive w' := by
  rcases r.ends with ⟨rfl,_⟩ | ⟨next,rfl,_⟩
  · exact absurd trivial taken
  · simp only [Vacated,not_forall,not_not] at taken
    obtain ⟨c,other,on⟩ := taken
    have moves : s.current cpu ≠ some next := by
      intro stays
      rw [same,← h.settled cpu free] at stays
      exact other (h.exclusive c cpu next on stays)
    let w' : World := ⟨s',w.onStack,update w.pending cpu (some (s.current cpu,next))⟩
    have away : unlocked w cpu (s',.to (s.current cpu) next) = w' := if_pos moves
    have leaves : w'.pending cpu = some (s.current cpu,next) := Function.update_self _ _ _
    refine ⟨switchTo w' cpu next,?_,fun exclusive => ?_⟩
    · rw [away,step,leaves]
      rfl
    · have here : (switchTo w' cpu next).onStack cpu = some next := Function.update_self _ _ _
      have there : (switchTo w' cpu next).onStack c = some next := (Function.update_of_ne other _ _).trans on
      exact other (exclusive c cpu next there here)

theorem stepBreaks {w w' : World} {e : Event} (h : Inv w) (taken : ¬ Clear w e) (next : step w e = some w') :
    ∃ cpu w'', step w' (.switch cpu) = some w'' ∧ ¬ Exclusive w'' := by
  cases e with
  | create cpu c => exact absurd trivial taken
  | schedule cpu =>
      obtain ⟨s',sw,found,r⟩ := scheduleCases cpu h.good
      simp only [Clear,found] at taken
      simp only [step,found] at next
      split at next
      · next free =>
          cases Option.some.inj next
          exact ⟨cpu,unlockedBreaks h free rfl r taken⟩
      · cases next
  | tick cpu =>
      obtain ⟨s',sw,found,ends⟩ := tickScheduled h cpu
      simp only [Clear,found] at taken
      simp only [step,found] at next
      split at next
      · next free =>
          cases Option.some.inj next
          rcases ends with ⟨rfl,_⟩ | ⟨s,same,r⟩
          · exact absurd trivial taken
          · exact ⟨cpu,unlockedBreaks h free same r taken⟩
      · cases next
  | switch cpu => exact absurd trivial taken

theorem exclusiveUntilTaken {events : List Event} {w : World} (clear : Guarded step Clear start events)
    (ran : run step start events = some w) :
    Exclusive w ∧ ∀ e w', ¬ Clear w e → step w e = some w' →
      ∃ cpu w'', step w' (.switch cpu) = some w'' ∧ ¬ Exclusive w'' := by
  have inv := guardedInvariant Inv (fun _ _ _ inv ok next => stepInv inv ok next) startInv clear ran
  exact ⟨inv.exclusive,fun e w' taken next => stepBreaks inv taken next⟩

def oneByOne : List Event :=
  [.create 0 (plain 0x1000000),.schedule 0,.switch 0,.create 0 (plain 0x1004000),.schedule 1,.switch 1]

theorem exclusiveOneByOne : ∃ w, run step start oneByOne = some w ∧ w.onStack 0 = some 0 ∧
    w.onStack 1 = some 1 ∧ Exclusive w := by
  have places : (run step start oneByOne).map (fun w => (w.onStack 0,w.onStack 1)) = some (some 0,some 1) := by
    decide +kernel
  obtain ⟨w,ran,same⟩ := Option.map_eq_some_iff.mp places
  exact ⟨w,ran,congrArg Prod.fst same,congrArg Prod.snd same,
    (exclusiveUntilTaken (by decide +kernel) ran).1⟩

def taken : List Event :=
  [.create 0 (plain 0x1000000),.schedule 0,.switch 0,.create 0 (plain 0x1004000),.schedule 0,.schedule 1,.switch 1]

theorem takenSharesStack : ∃ w, run step start taken = some w ∧ w.onStack 0 = some 0 ∧
    w.onStack 1 = some 0 ∧ ¬ Exclusive w := by
  have places : (run step start taken).map (fun w => (w.onStack 0,w.onStack 1)) = some (some 0,some 0) := by
    decide +kernel
  obtain ⟨w,ran,same⟩ := Option.map_eq_some_iff.mp places
  have first : w.onStack 0 = some 0 := congrArg Prod.fst same
  have second : w.onStack 1 = some 0 := congrArg Prod.snd same
  exact ⟨w,ran,first,second,fun exclusive => absurd (exclusive 0 1 0 first second) (by decide)⟩

end Nekros.SwitchWindow
