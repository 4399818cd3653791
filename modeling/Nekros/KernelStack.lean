import Nekros.GuardedRun
import Nekros.PmmSafety
import Nekros.SchedAgreement
import Nekros.SwitchTo

/-! Kernel stacks: the scheduler of kernel/sched.c over the allocator of mm/pmm.c, with
the canary of mm/vmm.c at the bottom of each stack. A freed block keeps its list node in
its first two words, where the canary is. `task_exit` is taken apart: it marks the task
and frees its stack in one step, and calls `schedule` in the next. -/
namespace Nekros.KernelStack
open Words Sched SchedSteps Spans
open PmmSafety (Block FreeAt)
open PmmShape (spanOf)
open Function (update)
open GuardedRun (run Guarded guardedInvariant)

def stackCanary : Nat := 0xDEADBEEFCAFEBABE

def poke (m : PmmSafety.World) (pa value : Nat) : PmmSafety.World :=
  {m with pmm := {m.pmm with mem := update m.pmm.mem (physToVirt pa) value}}

def kstackCanaryWrite (m : PmmSafety.World) (stackPa : Nat) : PmmSafety.World :=
  if physToVirt stackPa = 0 then m else poke m stackPa stackCanary

def kstackCanaryCheck (mem : Nat → Nat) (stackBottom : Nat) : Bool :=
  if stackBottom = 0 then true else decide (mem stackBottom = stackCanary)

def stackOrder : Nat := kernelStackPages / 2

def prepare (m : PmmSafety.World) (stackPa arg : Nat) : PmmSafety.World :=
  poke (poke (kstackCanaryWrite m stackPa) (stackPa + (kernelStackPages * pageSize - 8)) arg)
    (stackPa + (kernelStackPages * pageSize - 16)) 0

structure World where
  sched : State
  memory : PmmSafety.World
  panicked : Bool

structure Registers where
  rbp : Nat
  rbx : Nat
  r12 : Nat
  deriving DecidableEq, Repr

/- What is left of the task that is switched out: its registers are saved 24 bytes below
its context. -/
def switchOut (s : State) (prev next : Tid) (regs : Registers) : State :=
  if prev = next then s
  else setTask s prev {s.tasks prev with kstackTop := regs.rbp,kstackPa := regs.rbx,ctxRsp := regs.r12}

example : SwitchTo.offsetOf .kstackTop = SwitchTo.taskCtxRbp ∧ SwitchTo.offsetOf .kstackPa = SwitchTo.taskCtxRbx ∧
    SwitchTo.offsetOf .ctxRsp = SwitchTo.taskCtxR12 := by decide

def leave (w : World) (regs : Registers) (r : State × Switch) : World :=
  match r.2 with
  | .to (some prev) next =>
      if (r.1.tasks prev).kstackPa ≠ 0 ∧
          kstackCanaryCheck w.memory.pmm.mem (physToVirt (r.1.tasks prev).kstackPa) = false then
        {w with sched := r.1,panicked := true}
      else {w with sched := switchOut r.1 prev next regs}
  | _ => {w with sched := r.1}

inductive Event where
  | memory (e : PmmSafety.Event)
  | create (cpu : Cpu) (c : Creation) (arg : Nat)
  | schedule (cpu : Cpu) (regs : Registers)
  | tick (cpu : Cpu) (regs : Registers)
  | exit (t : Tid)

def createStack (w : World) (cpu : Cpu) (c : Creation) (arg : Nat) : Option World :=
  if (c.neriReady && !c.admitAllowed) || !c.kzallocOk then
    some {w with sched := (taskCreate w.sched cpu c).1}
  else
    let pa := (Pmm.pmmAllocPages w.memory.pmm 2).2
    (PmmSafety.step w.memory (.alloc 2)).map (fun m =>
      {w with sched := (taskCreate w.sched cpu {c with kstackPa := pa}).1,
              memory := if pa = 0 then m else prepare m pa arg})

def exitStack (w : World) (t : Tid) : Option World :=
  let pa := (w.sched.tasks t).kstackPa
  if pa = 0 then some {w with sched := exitMark w.sched t}
  else (PmmSafety.step w.memory (.free ⟨pa,stackOrder⟩)).map (fun m =>
    {w with sched := exitMark w.sched t,memory := m})

def step (w : World) (e : Event) : Option World :=
  if w.panicked then none else
    match e with
    | .memory e => (PmmSafety.step w.memory e).map (fun m => {w with memory := m})
    | .create cpu c arg => createStack w cpu c arg
    | .schedule cpu regs => (schedule w.sched cpu).map (leave w regs)
    | .tick cpu regs => (schedTick w.sched cpu).map (leave w regs)
    | .exit t => exitStack w t

def Live (s : State) (t : Tid) : Prop := t < s.made ∧ (s.tasks t).state ≠ .zombie

def Valid (w : World) : Event → Prop
  | .memory e => PmmSafety.Valid w.memory e ∧
      match e with
      | .free b => ∀ t < w.sched.made, (w.sched.tasks t).state ≠ .zombie →
          b ≠ ⟨(w.sched.tasks t).kstackPa,stackOrder⟩
      | .write pa _ => ∀ t < w.sched.made, (w.sched.tasks t).state ≠ .zombie →
          pa ≠ (w.sched.tasks t).kstackPa
      | _ => True
  | .exit t => t < w.sched.made ∧ (w.sched.tasks t).state ≠ .zombie
  | _ => True

instance (w) : (e : Event) → Decidable (Valid w e)
  | .memory (.addRegion ..) | .memory (.alloc _) | .memory (.free _) | .memory (.write ..) => by
      unfold Valid; infer_instance
  | .create .. | .schedule .. | .tick .. | .exit _ => by unfold Valid; infer_instance

/- `task_exit` is called on a task that runs nowhere, `rbx` happens to hold `kstack_pa`
where `__switch_to` saves the one over the other, and the allocator's own conditions. -/
def Parked (w : World) : Event → Prop
  | .memory e => PmmSafety.Sound w.memory e
  | .exit t => (∀ cpu, w.sched.current cpu ≠ some t) ∧
      PmmSafety.Sound w.memory (.free ⟨(w.sched.tasks t).kstackPa,stackOrder⟩)
  | .schedule cpu regs => ∀ t ∈ w.sched.current cpu, regs.rbx = (w.sched.tasks t).kstackPa
  | .tick cpu regs => ∀ t ∈ w.sched.current cpu, regs.rbx = (w.sched.tasks t).kstackPa
  | .create .. => True

instance (w) : (e : Event) → Decidable (Parked w e)
  | .memory _ | .create .. | .schedule .. | .tick .. | .exit _ => by unfold Parked; infer_instance

structure Intact (w : World) : Prop where
  lifetime : ∀ cpu t, w.sched.current cpu = some t → ∀ i ord n sp, FreeAt w.memory.pmm i ord n sp →
    Apart (spanOf stackOrder (w.sched.tasks t).kstackPa) sp
  canary : w.panicked = false

structure Stacks (s : State) (m : PmmSafety.World) : Prop where
  held : ∀ t, Live s t → (s.tasks t).kstackPa ≠ 0 ∧ ⟨(s.tasks t).kstackPa,stackOrder⟩ ∈ m.live
  canary : ∀ t, Live s t → kstackCanaryCheck m.pmm.mem (physToVirt (s.tasks t).kstackPa) = true
  apart : ∀ t u, Live s t → Live s u → t ≠ u → (s.tasks t).kstackPa ≠ (s.tasks u).kstackPa

structure Inv (w : World) : Prop where
  good : Good w.sched
  memory : PmmSafety.Inv w.memory
  owned : Stacks w.sched w.memory
  seated : ∀ cpu t, w.sched.current cpu = some t → Live w.sched t
  calm : w.panicked = false

theorem invIntact {w : World} (h : Inv w) : Intact w := by
  refine ⟨fun cpu t seat i ord n sp found => ?_,h.calm⟩
  obtain ⟨_,held⟩ := h.owned.held t (h.seated cpu t seat)
  exact (PmmSafety.invSafe h.memory).liveFree _ held i ord n sp found

theorem stacksSched {s s' : State} {m : PmmSafety.World}
    (same : ∀ t, Live s' t → Live s t ∧ (s'.tasks t).kstackPa = (s.tasks t).kstackPa)
    (h : Stacks s m) : Stacks s' m := by
  refine ⟨fun t live => ?_,fun t live => ?_,fun t u live live' different => ?_⟩
  · rw [(same t live).2]
    exact h.held t (same t live).1
  · rw [(same t live).2]
    exact h.canary t (same t live).1
  · rw [(same t live).2,(same u live').2]
    exact h.apart t u (same t live).1 (same u live').1 different

theorem stacksMemory {s : State} {m m' : PmmSafety.World} {e : PmmSafety.Event}
    (kept : PmmSafety.Kept m m' e)
    (live : ∀ t, Live s t → ⟨(s.tasks t).kstackPa,stackOrder⟩ ∈ m'.live)
    (away : ∀ t, Live s t → ∀ value, e ≠ .write (s.tasks t).kstackPa value)
    (h : Stacks s m) : Stacks s m' := by
  refine ⟨fun t task => ⟨(h.held t task).1,live t task⟩,fun t task => ?_,h.apart⟩
  have pos : 0 < Pmm.blockSize stackOrder := PmmShape.blockSizePos stackOrder
  have word := kept _ (h.held t task).2 (live t task) (s.tasks t).kstackPa (Nat.le_refl _)
    (Nat.lt_add_of_pos_right pos) (away t task)
  have before := h.canary t task
  unfold kstackCanaryCheck at before ⊢
  rw [word]
  exact before

theorem writeStacks {s : State} {m : PmmSafety.World} {pa : Nat} (value : Nat) (inv : PmmSafety.Inv m)
    (inside : ∃ b ∈ m.live, b.pa ≤ pa ∧ pa < b.span.stop)
    (away : ∀ t, Live s t → pa ≠ (s.tasks t).kstackPa) (h : Stacks s m) :
    PmmSafety.Inv (poke m pa value) ∧ Stacks s (poke m pa value) := by
  obtain ⟨inv',kept⟩ := PmmSafety.writeStep inv inside (rfl : PmmSafety.step m (.write pa value) = _)
  refine ⟨inv',stacksMemory kept (fun t live => (h.held t live).2) ?_ h⟩
  intro t live other same
  cases same
  exact away t live rfl

structure Fresh (s : State) (m : PmmSafety.World) (pa : Nat) : Prop where
  inv : PmmSafety.Inv m
  owned : Stacks s m
  mem : ⟨pa,stackOrder⟩ ∈ m.live
  away : ∀ d < kernelStackPages * pageSize, ∀ t, Live s t → pa + d ≠ (s.tasks t).kstackPa

theorem stackSpan (pa : Nat) : Block.span ⟨pa,stackOrder⟩ = ⟨pa,kernelStackPages * pageSize⟩ := by
  have size : Pmm.blockSize stackOrder = kernelStackPages * pageSize := by decide
  rw [Block.span,spanOf,size]

theorem freshHeld {s : State} {m : PmmSafety.World} {rest : List Block} {pa : Nat} (inv : PmmSafety.Inv m)
    (owned : Stacks s m) (live : m.live = ⟨pa,stackOrder⟩::rest)
    (held : ∀ t, Live s t → ⟨(s.tasks t).kstackPa,stackOrder⟩ ∈ rest) : Fresh s m pa := by
  refine ⟨inv,owned,by rw [live]; exact List.mem_cons_self,fun d small t task => ?_⟩
  have apart := (PmmSafety.invSafe inv).liveApart
  rw [live,List.map_cons,List.pairwise_cons] at apart
  have away := apart.1 _ (List.mem_map_of_mem (held t task))
  simp only [stackSpan,Apart,Span.stop] at away
  have pos : 0 < kernelStackPages * pageSize := by decide
  omega

theorem freshInside {s : State} {m : PmmSafety.World} {pa d : Nat} (h : Fresh s m pa)
    (small : d < kernelStackPages * pageSize) : ∃ b ∈ m.live, b.pa ≤ pa + d ∧ pa + d < b.span.stop := by
  refine ⟨_,h.mem,Nat.le_add_right pa d,?_⟩
  rw [stackSpan]
  exact Nat.add_lt_add_left small pa

theorem freshPoke {s : State} {m : PmmSafety.World} {pa d : Nat} (value : Nat) (h : Fresh s m pa)
    (small : d < kernelStackPages * pageSize) : Fresh s (poke m (pa + d) value) pa := by
  obtain ⟨inv,owned⟩ := writeStacks value h.inv (freshInside h small) (h.away d small) h.owned
  exact ⟨inv,owned,h.mem,h.away⟩

theorem pokeCanary {s : State} {m : PmmSafety.World} {pa d : Nat} (value : Nat) (h : Fresh s m pa)
    (small : d < kernelStackPages * pageSize) (above : 0 < d)
    (canary : kstackCanaryCheck m.pmm.mem (physToVirt pa) = true) :
    kstackCanaryCheck (poke m (pa + d) value).pmm.mem (physToVirt pa) = true := by
  obtain ⟨_,kept⟩ := PmmSafety.writeStep h.inv (freshInside h small)
    (rfl : PmmSafety.step m (.write (pa + d) value) = _)
  have word := kept _ h.mem h.mem pa (Nat.le_refl pa) (by
      rw [stackSpan]
      exact Nat.lt_add_of_pos_right (show 0 < kernelStackPages * pageSize by decide))
    (fun other same => by
      have address := (PmmSafety.Event.write.inj same).1
      omega)
  have word : (poke m (pa + d) value).pmm.mem (physToVirt pa) = m.pmm.mem (physToVirt pa) := word
  unfold kstackCanaryCheck at canary ⊢
  rw [word]
  exact canary

theorem canaryWrite {s : State} {m : PmmSafety.World} {pa : Nat} (h : Fresh s m pa) :
    Fresh s (kstackCanaryWrite m pa) pa ∧
      kstackCanaryCheck (kstackCanaryWrite m pa).pmm.mem (physToVirt pa) = true := by
  unfold kstackCanaryWrite kstackCanaryCheck
  by_cases null : physToVirt pa = 0
  · rw [if_pos null,if_pos null]
    exact ⟨h,rfl⟩
  · rw [if_neg null,if_neg null]
    refine ⟨freshPoke (d := 0) stackCanary h (by decide),?_⟩
    simp [poke]

theorem freshPrepare {s : State} {m : PmmSafety.World} {pa : Nat} (arg : Nat) (h : Fresh s m pa) :
    Fresh s (prepare m pa arg) pa ∧ kstackCanaryCheck (prepare m pa arg).pmm.mem (physToVirt pa) = true := by
  obtain ⟨written,canary⟩ := canaryWrite h
  have argument := freshPoke arg written (show kernelStackPages * pageSize - 8 < _ by decide)
  have canary := pokeCanary arg written (show kernelStackPages * pageSize - 8 < _ by decide) (by decide) canary
  exact ⟨freshPoke 0 argument (by decide),pokeCanary 0 argument (by decide) (by decide) canary⟩

theorem stacksCreated {s s' : State} {m : PmmSafety.World} {cpu : Cpu} {c : Creation} {t : Tid}
    (created : Created s s' cpu c t) (h : Fresh s m c.kstackPa)
    (canary : kstackCanaryCheck m.pmm.mem (physToVirt c.kstackPa) = true) : Stacks s' m := by
  obtain ⟨v,a,task⟩ := created.task
  have own : (s'.tasks t).kstackPa = c.kstackPa := by
    rw [task]
    rfl
  have old : ∀ u, Live s' u → u ≠ t → Live s u ∧ (s'.tasks u).kstackPa = (s.tasks u).kstackPa := by
    intro u live different
    have lt := live.1
    rw [created.made] at lt
    rw [Live,created.others u different] at live
    have below : u < s.made := Nat.lt_of_le_of_ne (Nat.le_of_lt_succ lt) (fun e => different (e.trans created.new.symm))
    exact ⟨⟨below,live.2⟩,by rw [created.others u different]⟩
  have away : ∀ u, Live s' u → u ≠ t → c.kstackPa ≠ (s'.tasks u).kstackPa := by
    intro u live different
    rw [(old u live different).2]
    exact h.away 0 (by decide) u (old u live different).1
  refine ⟨fun u live => ?_,fun u live => ?_,fun u u' live live' different => ?_⟩
  · by_cases here : u = t
    · rw [here,own]
      exact ⟨created.stack,h.mem⟩
    · rw [(old u live here).2]
      exact h.owned.held u (old u live here).1
  · by_cases here : u = t
    · rw [here,own]
      exact canary
    · rw [(old u live here).2]
      exact h.owned.canary u (old u live here).1
  · by_cases here : u = t
    · rw [here,own]
      exact away u' live' (fun e => different (here.trans e.symm))
    · by_cases here' : u' = t
      · rw [here',own]
        exact (away u live here).symm
      · rw [(old u live here).2,(old u' live' here').2]
        exact h.owned.apart u u' (old u live here).1 (old u' live' here').1 different

theorem createBlocked {s : State} {cpu : Cpu} {c : Creation}
    (blocked : ((c.neriReady && !c.admitAllowed) || !c.kzallocOk) = true) : (taskCreate s cpu c).1 = s := by
  unfold taskCreate
  rcases Bool.or_eq_true_iff.mp blocked with gate | memory
  · rw [if_pos gate]
  · by_cases gate : (c.neriReady && !c.admitAllowed) = true
    · rw [if_pos gate]
    · rw [if_neg gate,if_pos memory]

structure SameSeats (s s' : State) : Prop where
  made : s'.made = s.made
  current : s'.current = s.current
  states : ∀ t, (s'.tasks t).state = (s.tasks t).state
  stack : ∀ t, (s'.tasks t).kstackPa = (s.tasks t).kstackPa

theorem sameLive {s s' : State} (h : SameSeats s s') {t : Tid} : Live s' t ↔ Live s t := by
  rw [Live,Live,h.made,h.states]

theorem sameOwned {s s' : State} {m : PmmSafety.World} (h : SameSeats s s') (owned : Stacks s m) : Stacks s' m :=
  stacksSched (fun t live => ⟨(sameLive h).mp live,h.stack t⟩) owned

theorem sameSeated {s s' : State} (h : SameSeats s s')
    (seated : ∀ cpu t, s.current cpu = some t → Live s t) :
    ∀ cpu t, s'.current cpu = some t → Live s' t := by
  intro cpu t seat
  rw [h.current] at seat
  exact (sameLive h).mpr (seated cpu t seat)

theorem createInv {w w' : World} {cpu : Cpu} {c : Creation} {arg : Nat} (h : Inv w)
    (stepped : createStack w cpu c arg = some w') : Inv w' := by
  unfold createStack at stepped
  by_cases blocked : ((c.neriReady && !c.admitAllowed) || !c.kzallocOk) = true
  · rw [if_pos blocked] at stepped
    cases stepped
    rw [createBlocked blocked]
    exact h
  rw [if_neg blocked] at stepped
  dsimp only at stepped
  obtain ⟨m,allocated,same⟩ := Option.map_eq_some_iff.mp stepped
  subst same
  obtain ⟨inv,kept⟩ := PmmSafety.allocStep h.memory allocated
  cases allocated
  -- the blocks of the other stacks stay where they are
  have old : Stacks w.sched _ := stacksMemory kept (fun t live => by
    dsimp only
    split
    · exact (h.owned.held t live).2
    · exact List.mem_cons_of_mem _ (h.owned.held t live).2) (fun _ _ _ same => by cases same) h.owned
  generalize (Pmm.pmmAllocPages w.memory.pmm 2).2 = pa at *
  have pid : ∀ n, SameSeats w.sched {w.sched with nextPid := n} := fun n => ⟨rfl,rfl,fun _ => rfl,fun _ => rfl⟩
  by_cases none : pa = 0
  · simp only [if_pos none] at inv old ⊢
    rcases createCases cpu {c with kstackPa := pa} h.good with ⟨e,n,failed⟩ | ⟨s',t,_,created⟩
    · rw [failed]
      exact ⟨goodPid n h.good,inv,sameOwned (pid n) old,sameSeated (pid n) h.seated,h.calm⟩
    · exact absurd none created.stack
  · simp only [if_neg none] at inv old ⊢
    have fresh := freshHeld inv old rfl (fun t live => (h.owned.held t live).2)
    obtain ⟨ready,canary⟩ := freshPrepare arg fresh
    rcases createCases cpu {c with kstackPa := pa} h.good with ⟨e,n,failed⟩ | ⟨s',t,made,created⟩
    · rw [failed]
      exact ⟨goodPid n h.good,ready.inv,sameOwned (pid n) ready.owned,sameSeated (pid n) h.seated,h.calm⟩
    · rw [made]
      refine ⟨created.good,ready.inv,stacksCreated created ready canary,?_,h.calm⟩
      intro cpu' u seat
      have seat : w.sched.current cpu' = some u := by rw [← created.current]; exact seat
      obtain ⟨lt,state⟩ := h.seated cpu' u seat
      have different : u ≠ t := by
        rw [created.new]
        exact Nat.ne_of_lt lt
      refine ⟨?_,by rw [created.others u different]; exact state⟩
      show u < s'.made
      rw [created.made]
      exact Nat.lt_succ_of_lt lt

theorem scheduledLive {s s' : State} {cpu : Cpu} {sw : Switch} (h : Scheduled s s' cpu sw)
    (seated : ∀ cpu t, s.current cpu = some t → Live s t) (t : Tid) : Live s' t ↔ Live s t := by
  rw [Live,Live,h.moved.1]
  refine and_congr_right (fun lt => not_congr ?_)
  rcases h.ends with ⟨_,_,_,exited,states⟩ | ⟨next,_,_,_,was,running,states⟩
  · by_cases seat : s.current cpu = some t
    · exact absurd (exited t seat) (seated cpu t seat).2
    · rw [states t,if_neg seat]
  · by_cases here : t = next
    · rw [here,running]
      refine iff_of_false (by simp) (fun zombie => ?_)
      rcases was with ready | ⟨run,_⟩
      · rw [zombie] at ready
        cases ready
      · rw [zombie] at run
        cases run
    · rw [states t here]
      split
      · rename_i both
        rw [both.2]
        simp
      · rfl

theorem scheduledSeated {s s' : State} {cpu : Cpu} {sw : Switch} (h : Scheduled s s' cpu sw)
    (seated : ∀ cpu t, s.current cpu = some t → Live s t) :
    ∀ cpu t, s'.current cpu = some t → Live s' t := by
  intro c t seat
  by_cases here : c = cpu
  · subst here
    rcases h.ends with ⟨_,same,_⟩ | ⟨next,_,seat',lt,_,running,_⟩
    · rw [same] at seat
      exact (scheduledLive h seated t).mpr (seated c t seat)
    · cases seat'.symm.trans seat
      refine ⟨h.moved.1.symm ▸ lt,?_⟩
      rw [running]
      simp
  · rw [h.others c here] at seat
    exact (scheduledLive h seated t).mpr (seated c t seat)

theorem scheduledOwned {s s' : State} {cpu : Cpu} {sw : Switch} {m : PmmSafety.World}
    (h : Scheduled s s' cpu sw) (seated : ∀ cpu t, s.current cpu = some t → Live s t)
    (owned : Stacks s m) : Stacks s' m :=
  stacksSched (fun t live => ⟨(scheduledLive h seated t).mp live,by rw [h.moved.2 t]⟩) owned

theorem switchOutSame {s : State} {prev : Tid} {regs : Registers} (next : Tid) (h : Good s)
    (rbx : regs.rbx = (s.tasks prev).kstackPa) :
    Good (switchOut s prev next regs) ∧ SameSeats s (switchOut s prev next regs) := by
  unfold switchOut
  split
  · exact ⟨h,rfl,rfl,fun _ => rfl,fun _ => rfl⟩
  · refine ⟨goodSet h rfl,rfl,rfl,fun t => ?_,fun t => ?_⟩
    · by_cases here : t = prev
      · subst here
        simp [setTask]
      · simp [setTask,here]
    · by_cases here : t = prev
      · subst here
        simp [setTask,rbx]
      · simp [setTask,here]

theorem leaveInv {w : World} {s s' : State} {cpu : Cpu} {sw : Switch} {regs : Registers} (h : Inv w)
    (same : SameSeats w.sched s) (scheduled : Scheduled s s' cpu sw)
    (rbx : ∀ t ∈ w.sched.current cpu, regs.rbx = (w.sched.tasks t).kstackPa) : Inv (leave w regs (s',sw)) := by
  have seated := sameSeated same h.seated
  have owned := scheduledOwned scheduled seated (sameOwned same h.owned)
  have seated' := scheduledSeated scheduled seated
  unfold leave
  rcases sw with _ | ⟨_ | prev,next⟩
  · exact ⟨scheduled.good,h.memory,owned,seated',h.calm⟩
  · exact ⟨scheduled.good,h.memory,owned,seated',h.calm⟩
  · have seat : s.current cpu = some prev := by
      rcases scheduled.ends with ⟨idle,_⟩ | ⟨_,target,_⟩
      · cases idle
      · exact (Switch.to.inj target).1.symm
    have live := (scheduledLive scheduled seated prev).mpr (seated cpu prev seat)
    have canary := owned.canary prev live
    dsimp only
    rw [if_neg (fun failed => by rw [canary] at failed; cases failed.2)]
    have stack : (s'.tasks prev).kstackPa = (w.sched.tasks prev).kstackPa := by
      rw [scheduled.moved.2 prev]
      exact same.stack prev
    obtain ⟨good,out⟩ := switchOutSame next scheduled.good
      ((rbx prev (same.current ▸ seat)).trans stack.symm)
    exact ⟨good,h.memory,sameOwned out owned,sameSeated out seated',h.calm⟩

theorem exitInv {w w' : World} {t : Tid} (h : Inv w) (valid : Valid w (.exit t)) (parked : Parked w (.exit t))
    (stepped : exitStack w t = some w') : Inv w' := by
  obtain ⟨lt,state⟩ := valid
  obtain ⟨away,sound⟩ := parked
  have marked := exitMarkSpec h.good lt
  obtain ⟨nonzero,held⟩ := h.owned.held t ⟨lt,state⟩
  unfold exitStack at stepped
  dsimp only at stepped
  rw [if_neg nonzero] at stepped
  obtain ⟨m,freed,same⟩ := Option.map_eq_some_iff.mp stepped
  subst same
  obtain ⟨inv,kept⟩ := PmmSafety.freeStep h.memory held sound freed
  have live : m.live = w.memory.live.erase ⟨(w.sched.tasks t).kstackPa,stackOrder⟩ := by
    cases freed
    rfl
  have left : ∀ u, Live (exitMark w.sched t) u →
      u ≠ t ∧ Live w.sched u ∧ ((exitMark w.sched t).tasks u).kstackPa = (w.sched.tasks u).kstackPa := by
    intro u task
    have different : u ≠ t := by
      rintro rfl
      exact task.2 (by rw [marked.states u,if_pos rfl])
    refine ⟨different,⟨marked.moved.1 ▸ task.1,?_⟩,by rw [marked.moved.2 u]⟩
    have state := task.2
    rw [marked.states u,if_neg different] at state
    exact state
  have others : Stacks (exitMark w.sched t) w.memory := stacksSched (fun u task => (left u task).2) h.owned
  refine ⟨marked.good,inv,stacksMemory kept (fun u task => ?_) (fun _ _ _ same => by cases same) others,?_,h.calm⟩
  · obtain ⟨different,before,stack⟩ := left u task
    rw [live,stack]
    refine (List.mem_erase_of_ne (fun same => ?_)).mpr (h.owned.held u before).2
    exact h.owned.apart u t before ⟨lt,state⟩ different (Block.mk.inj same).1
  · intro cpu u seat
    have seat : w.sched.current cpu = some u := by rw [← marked.current]; exact seat
    obtain ⟨made,state⟩ := h.seated cpu u seat
    refine ⟨marked.moved.1.symm ▸ made,?_⟩
    rw [marked.states u,if_neg (fun e : u = t => away cpu (e ▸ seat))]
    exact state

theorem memoryInv {w w' : World} {e : PmmSafety.Event} (h : Inv w) (valid : Valid w (.memory e))
    (sound : PmmSafety.Sound w.memory e)
    (stepped : (PmmSafety.step w.memory e).map (fun m => {w with memory := m}) = some w') : Inv w' := by
  obtain ⟨m,done,same⟩ := Option.map_eq_some_iff.mp stepped
  subst same
  obtain ⟨inv,kept⟩ := PmmSafety.stepInv h.memory valid.1 sound done
  refine ⟨h.good,inv,stacksMemory kept (fun t live => ?_) (fun t live value same => ?_) h.owned,h.seated,h.calm⟩
  · have held := (h.owned.held t live).2
    cases e with
    | addRegion base length =>
        obtain ⟨_,_,same⟩ := Option.map_eq_some_iff.mp done
        exact same ▸ held
    | alloc ord =>
        cases done
        dsimp only
        split
        · exact held
        · exact List.mem_cons_of_mem _ held
    | free b =>
        cases done
        exact (List.mem_erase_of_ne (valid.2 t live.1 live.2).symm).mpr held
    | write pa value =>
        cases done
        exact held
  · subst same
    exact valid.2 t live.1 live.2 rfl

theorem stepInv {w w' : World} {e : Event} (h : Inv w) (valid : Valid w e) (parked : Parked w e)
    (stepped : step w e = some w') : Inv w' := by
  unfold step at stepped
  rw [if_neg (by rw [h.calm]; decide)] at stepped
  cases e with
  | memory e => exact memoryInv h valid parked stepped
  | create cpu c arg => exact createInv h stepped
  | schedule cpu regs =>
      obtain ⟨s',sw,done,scheduled⟩ := scheduleCases cpu h.good
      dsimp only at stepped
      rw [done] at stepped
      cases stepped
      exact leaveInv h ⟨rfl,rfl,fun _ => rfl,fun _ => rfl⟩ scheduled parked
  | tick cpu regs =>
      obtain ⟨s0,good,moved,current,_,states,done⟩ := tickCases cpu h.good
      have same : SameSeats w.sched s0 := ⟨moved.1,current,states,fun t => by rw [moved.2 t]⟩
      dsimp only at stepped
      rcases done with done | done
      · rw [done] at stepped
        cases stepped
        exact ⟨good,h.memory,sameOwned same h.owned,sameSeated same h.seated,h.calm⟩
      · obtain ⟨s',sw,later,scheduled⟩ := scheduleCases cpu good
        rw [done,later] at stepped
        cases stepped
        exact leaveInv h same scheduled parked
  | exit t => exact exitInv h valid parked stepped

def start (mem : Nat → Nat) (bits : Nat → Bool) (bitmapPa bitmapSize : Nat) : World :=
  ⟨schedInit,PmmSafety.start mem bits bitmapPa bitmapSize,false⟩

theorem startInv (mem : Nat → Nat) (bits : Nat → Bool) (bitmapPa bitmapSize : Nat) :
    Inv (start mem bits bitmapPa bitmapSize) := by
  have none : ∀ t, ¬ Live schedInit t := fun t live => Nat.not_lt_zero t live.1
  refine ⟨SchedAgreement.initGood,PmmSafety.startInv mem bits bitmapPa bitmapSize,⟨?_,?_,?_⟩,?_,rfl⟩
  · exact fun t live => (none t live).elim
  · exact fun t live => (none t live).elim
  · exact fun t u live => (none t live).elim
  · intro cpu t seat
    cases seat

theorem runIntact {mem : Nat → Nat} {bits : Nat → Bool} {bitmapPa bitmapSize : Nat} {events : List Event}
    {w : World}
    (guarded : Guarded step (fun w e => Valid w e ∧ Parked w e) (start mem bits bitmapPa bitmapSize) events)
    (ran : run step (start mem bits bitmapPa bitmapSize) events = some w) : Intact w := by
  have inv : Inv w := guardedInvariant Inv (fun _ _ _ h guard stepped => stepInv h guard.1 guard.2 stepped)
    (startInv mem bits bitmapPa bitmapSize) guarded ran
  exact invIntact inv

def booted : World := start (fun _ => 0) (fun _ => false) 0x200000 0x100000

def threeTasks : List Event :=
  [.memory (.addRegion 0x1000000 0x20000),.create 0 (plain 0) 7,.create 0 (plain 0) 7,.create 0 (plain 0) 7,
    .schedule 0 ⟨0,0,0⟩]

def waitingExitRun : List Event :=
  threeTasks ++ [.exit 2,.schedule 0 ⟨0,0x1000000,0⟩,.memory (.write 0x1004100 9),.create 0 (plain 0) 7,
    .tick 0 ⟨0,0x1004000,0⟩,.schedule 0 ⟨0,0x1004000,0⟩]

theorem runIntactWaiting : ∃ w, run step booted waitingExitRun = some w ∧
    (w.sched.tasks 2).kstackPa = (w.sched.tasks 3).kstackPa ∧ Intact w := by
  have ended : (run step booted waitingExitRun).map
      (fun w => decide ((w.sched.tasks 2).kstackPa = (w.sched.tasks 3).kstackPa)) = some true := by decide +kernel
  obtain ⟨w,ran,same⟩ := Option.map_eq_some_iff.mp ended
  exact ⟨w,ran,of_decide_eq_true same,runIntact (by decide +kernel) ran⟩

def runningStackRun : List Event := threeTasks ++ [.exit 0,.schedule 0 ⟨0,0x1000000,0⟩]

theorem runningExitPanics : Guarded step Valid booted runningStackRun ∧
    ∃ w, run step booted runningStackRun = some w ∧ w.panicked = true ∧ ¬ Intact w := by
  have ended : (run step booted runningStackRun).map World.panicked = some true := by decide +kernel
  obtain ⟨w,ran,panicked⟩ := Option.map_eq_some_iff.mp ended
  refine ⟨by decide +kernel,w,ran,panicked,fun intact => ?_⟩
  have calm := intact.canary
  rw [panicked] at calm
  cases calm

end Nekros.KernelStack
