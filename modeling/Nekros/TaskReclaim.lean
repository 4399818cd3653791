import Nekros.KernelStack

/-! What a task leaves behind. `task_create` takes a heap object, a stack, an entry of
`tasks[]` and one of `task_count`; `task_exit` gives back the stack. -/
namespace Nekros.TaskReclaim
open Sched KernelStack
open PmmSafety (Block)
open GuardedRun (run Guarded guardedInvariant)

/- Beside the kernel: the task structures on the heap, the stack blocks that are allocated,
and the tasks that have exited. -/
structure World where
  kernel : KernelStack.World
  objects : List Tid
  stackBlocks : List Block
  exited : List Tid

def start (mem : Nat → Nat) (bits : Nat → Bool) (bitmapPa bitmapSize : Nat) : World :=
  ⟨KernelStack.start mem bits bitmapPa bitmapSize,[],[],[]⟩

def afterCreate (w : World) (c : Creation) (k : KernelStack.World) : World :=
  if (c.neriReady && !c.admitAllowed) || !c.kzallocOk then {w with kernel := k}
  else
    let objects := w.kernel.sched.made::w.objects
    let pa := (Pmm.pmmAllocPages w.kernel.memory.pmm 2).2
    if pa = 0 then {w with kernel := k, objects := objects.tail}
    else {w with kernel := k, objects := objects, stackBlocks := ⟨pa,2⟩::w.stackBlocks}

def afterExit (w : World) (t : Tid) (k : KernelStack.World) : World :=
  let pa := (w.kernel.sched.tasks t).kstackPa
  let blocks := if pa = 0 then w.stackBlocks else w.stackBlocks.erase ⟨pa,stackOrder⟩
  {w with kernel := k, stackBlocks := blocks, exited := t::w.exited}

def after (w : World) (k : KernelStack.World) : KernelStack.Event → World
  | .create _ c _ => afterCreate w c k
  | .exit t => afterExit w t k
  | _ => {w with kernel := k}

def step (w : World) (e : KernelStack.Event) : Option World :=
  (KernelStack.step w.kernel e).map (fun k => after w k e)

def Valid (w : World) : KernelStack.Event → Prop
  | .exit t => t < w.kernel.sched.made ∧ t ∉ w.exited
  | _ => True

instance (w : World) : (e : KernelStack.Event) → Decidable (Valid w e)
  | .memory _ | .create .. | .schedule .. | .tick .. | .exit _ => by unfold Valid; infer_instance

def alive (w : World) : Nat := w.kernel.sched.made - w.exited.length

structure Reclaimed (w : World) : Prop where
  table : w.kernel.sched.table.length = alive w
  taskCount : w.kernel.sched.taskCount = alive w
  objects : w.objects.length = alive w
  stackBlocks : w.stackBlocks.length = alive w

def SameCounts (s s' : State) : Prop := s'.made = s.made ∧ s'.table = s.table ∧ s'.taskCount = s.taskCount

theorem sameTrans {s t u : State} (h : SameCounts s t) (g : SameCounts t u) : SameCounts s u :=
  ⟨g.1.trans h.1,g.2.1.trans h.2.1,g.2.2.trans h.2.2⟩

theorem setCounts (s : State) (t : Tid) (x : Task) : SameCounts s (setTask s t x) := ⟨rfl,rfl,rfl⟩

theorem enqueueCounts (s : State) (t : Tid) : SameCounts s (enqueue s t) := by
  unfold enqueue
  dsimp only
  split <;> exact ⟨rfl,rfl,rfl⟩

theorem requeueCounts (s : State) (prev : Option Tid) : SameCounts s (requeue s prev) := by
  cases prev with
  | none => exact ⟨rfl,rfl,rfl⟩
  | some t =>
      by_cases running : (s.tasks t).state = .running
      · rw [requeue,if_pos running]
        exact sameTrans (setCounts s _ _) (enqueueCounts _ _)
      · rw [requeue,if_neg running]
        exact ⟨rfl,rfl,rfl⟩

theorem scheduleCounts {s s' : State} {cpu : Cpu} {sw : Switch} (done : schedule s cpu = some (s',sw)) :
    SameCounts s s' := by
  simp only [schedule] at done
  obtain ⟨next,_,same⟩ := Option.map_eq_some_iff.mp done
  refine sameTrans (requeueCounts s (s.current cpu)) ?_
  cases next with
  | none =>
      cases same
      cases s.current cpu <;> exact ⟨rfl,rfl,rfl⟩
  | some next =>
      cases same
      exact ⟨rfl,rfl,rfl⟩

theorem tickCounts {s s' : State} {cpu : Cpu} {sw : Switch} (done : schedTick s cpu = some (s',sw)) :
    SameCounts s s' := by
  unfold schedTick at done
  split at done
  · exact scheduleCounts done
  · dsimp only at done
    split at done
    · cases done
      exact ⟨rfl,rfl,rfl⟩
    · exact sameTrans (setCounts s _ _) (scheduleCounts done)

theorem leaveCounts {w : KernelStack.World} {s : State} {r : State × Switch} (regs : Registers)
    (same : SameCounts s r.1) : SameCounts s (leave w regs r).sched := by
  unfold leave
  split
  · split
    · exact same
    · refine sameTrans same ?_
      unfold switchOut
      split <;> exact ⟨rfl,rfl,rfl⟩
  · exact same

theorem exitMarkCounts (s : State) (t : Tid) : SameCounts s (exitMark s t) := by
  unfold exitMark
  dsimp only
  split <;> exact ⟨rfl,rfl,rfl⟩

theorem registerCounts (s : State) (t : Tid) : (register s t).made = s.made ∧
    (register s t).taskCount = s.taskCount + 1 ∧
    (register s t).table = if s.table.length < maxTasks then s.table ++ [t] else s.table := by
  unfold register
  have counts := enqueueCounts {s with
    links := LinkRing.addTail (LinkRing.init (LinkRing.init s.links (.rqNode t)) (.allTasks t)) (.allTasks t) .allTasksList
    table := if s.table.length < maxTasks then s.table ++ [t] else s.table} t
  exact ⟨counts.1,rfl,counts.2.1⟩

theorem placeCounts (s : State) (t : Tid) (c : Creation) : SameCounts s (place s t c) := by
  unfold place
  split <;> exact ⟨rfl,rfl,rfl⟩

structure Counted (s s' : State) : Prop where
  made : s'.made = s.made + 1
  taskCount : s'.taskCount = s.taskCount + 1
  table : s'.table.length = if s.table.length < maxTasks then s.table.length + 1 else s.table.length

theorem enrolledCounted (s : State) (cpu : Cpu) (c : Creation) :
    Counted s (place (register (enroll s cpu c) s.made) s.made c) := by
  obtain ⟨made,count,table⟩ := registerCounts (enroll s cpu c) s.made
  obtain ⟨made',table',count'⟩ := placeCounts (register (enroll s cpu c) s.made) s.made c
  refine ⟨made'.trans made,count'.trans count,?_⟩
  rw [table',table]
  show (if s.table.length < maxTasks then s.table ++ [s.made] else s.table).length = _
  split
  · exact List.length_append
  · rfl

structure Inv (w : World) : Prop where
  table : w.kernel.sched.table.length = min w.kernel.sched.made maxTasks
  taskCount : w.kernel.sched.taskCount = w.kernel.sched.made
  objects : w.objects.length = w.kernel.sched.made
  stackBlocks : w.exited = [] → w.stackBlocks.length = w.kernel.sched.made
  exited : ∀ t ∈ w.exited, t < w.kernel.sched.made
  once : w.exited.Nodup

theorem startInv (mem : Nat → Nat) (bits : Nat → Bool) (bitmapPa bitmapSize : Nat) :
    Inv (start mem bits bitmapPa bitmapSize) :=
  ⟨rfl,rfl,rfl,fun _ => rfl,by simp [start],List.nodup_nil⟩

theorem keepInv {w : World} {k : KernelStack.World} (h : Inv w) (same : SameCounts w.kernel.sched k.sched) :
    Inv {w with kernel := k} := by
  obtain ⟨made,table,count⟩ := same
  refine ⟨?_,?_,?_,?_,?_,h.once⟩
  · rw [table,made]
    exact h.table
  · rw [count,made]
    exact h.taskCount
  · rw [made]
    exact h.objects
  · rw [made]
    exact h.stackBlocks
  · rw [made]
    exact h.exited

theorem createInv {w : World} {k : KernelStack.World} {cpu : Cpu} {c : Creation} {arg : Nat} (h : Inv w)
    (done : createStack w.kernel cpu c arg = some k) : Inv (afterCreate w c k) := by
  unfold createStack at done
  unfold afterCreate
  by_cases blocked : ((c.neriReady && !c.admitAllowed) || !c.kzallocOk) = true
  · rw [if_pos blocked] at done ⊢
    cases Option.some.inj done
    refine keepInv h ?_
    simp only [taskCreate]
    rcases Bool.or_eq_true_iff.mp blocked with gate | memory
    · rw [if_pos gate]
      exact ⟨rfl,rfl,rfl⟩
    · rw [if_pos memory]
      split <;> exact ⟨rfl,rfl,rfl⟩
  · rw [if_neg blocked] at done ⊢
    obtain ⟨gate,memory⟩ := not_or.mp (fun either => blocked (Bool.or_eq_true_iff.mpr either))
    obtain ⟨m,_,rfl⟩ := Option.map_eq_some_iff.mp done
    dsimp only
    by_cases stack : (Pmm.pmmAllocPages w.kernel.memory.pmm 2).2 = 0
    · rw [if_pos stack]
      refine keepInv h ?_
      simp only [taskCreate,if_neg gate,if_neg memory,stack,if_true]
      exact ⟨rfl,rfl,rfl⟩
    · rw [if_neg stack]
      simp only [taskCreate,if_neg gate,if_neg memory,if_neg stack]
      obtain ⟨made,count,table⟩ := enrolledCounted w.kernel.sched cpu
        {c with kstackPa := (Pmm.pmmAllocPages w.kernel.memory.pmm 2).2}
      have before := h.table
      refine ⟨?_,?_,?_,?_,?_,h.once⟩
      · rw [made,table]
        split <;> omega
      · rw [made,count,h.taskCount]
      · rw [made,List.length_cons,h.objects]
      · intro none
        rw [made,List.length_cons,h.stackBlocks none]
      · intro t gone
        rw [made]
        exact Nat.lt_succ_of_lt (h.exited t gone)

theorem exitInv {w : World} {k : KernelStack.World} {t : Tid} (h : Inv w) (valid : Valid w (.exit t))
    (done : exitStack w.kernel t = some k) : Inv (afterExit w t k) := by
  have marked := exitMarkCounts w.kernel.sched t
  have sched : k.sched = exitMark w.kernel.sched t := by
    unfold exitStack at done
    dsimp only at done
    split at done
    · cases Option.some.inj done
      rfl
    · obtain ⟨m,_,rfl⟩ := Option.map_eq_some_iff.mp done
      rfl
  rw [← sched] at marked
  have kept := keepInv h marked
  refine ⟨kept.table,kept.taskCount,kept.objects,(fun none => absurd none (List.cons_ne_nil _ _)),?_,?_⟩
  · intro u gone
    rcases List.mem_cons.mp gone with rfl | earlier
    · exact marked.1 ▸ valid.1
    · exact kept.exited u earlier
  · exact List.nodup_cons.mpr ⟨valid.2,h.once⟩

theorem stepInv {w w' : World} {e : KernelStack.Event} (h : Inv w) (valid : Valid w e)
    (next : step w e = some w') : Inv w' := by
  obtain ⟨k,done,rfl⟩ := Option.map_eq_some_iff.mp next
  unfold KernelStack.step at done
  split at done
  · cases done
  · cases e with
    | memory e =>
        obtain ⟨m,_,rfl⟩ := Option.map_eq_some_iff.mp done
        exact keepInv h ⟨rfl,rfl,rfl⟩
    | create cpu c arg => exact createInv h done
    | schedule cpu regs =>
        obtain ⟨r,found,rfl⟩ := Option.map_eq_some_iff.mp done
        exact keepInv h (leaveCounts regs (scheduleCounts found))
    | tick cpu regs =>
        obtain ⟨r,found,rfl⟩ := Option.map_eq_some_iff.mp done
        exact keepInv h (leaveCounts regs (tickCounts found))
    | exit t => exact exitInv h valid done

theorem exitedAlive {w : World} (h : Inv w) : w.exited.length ≤ w.kernel.sched.made := by
  have inside : w.exited ⊆ List.range w.kernel.sched.made :=
    fun t gone => List.mem_range.mpr (h.exited t gone)
  have few := (h.once.subperm inside).length_le
  rwa [List.length_range] at few

theorem invReclaimed {w : World} (h : Inv w) :
    Reclaimed w ↔ w.exited = [] ∧ w.kernel.sched.made ≤ maxTasks := by
  have few := exitedAlive h
  have table := h.table
  constructor
  · intro r
    have count := r.taskCount
    have entries := r.table
    rw [h.taskCount,alive] at count
    rw [alive] at entries
    have none : w.exited.length = 0 := by omega
    exact ⟨List.eq_nil_of_length_eq_zero none,by omega⟩
  · rintro ⟨none,small⟩
    have all : alive w = w.kernel.sched.made := by rw [alive,none]; rfl
    exact ⟨by rw [all,table,Nat.min_eq_left small],by rw [all]; exact h.taskCount,by rw [all]; exact h.objects,
      by rw [all]; exact h.stackBlocks none⟩

theorem reclaimedExact {mem : Nat → Nat} {bits : Nat → Bool} {bitmapPa bitmapSize : Nat}
    {events : List KernelStack.Event} {w : World}
    (valid : Guarded step Valid (start mem bits bitmapPa bitmapSize) events)
    (ran : run step (start mem bits bitmapPa bitmapSize) events = some w) :
    (Reclaimed w ↔ w.exited = [] ∧ w.kernel.sched.made ≤ maxTasks) ∧
    w.kernel.sched.table.length = min w.kernel.sched.made maxTasks ∧
    w.kernel.sched.taskCount = w.kernel.sched.made ∧ w.objects.length = w.kernel.sched.made := by
  have inv := guardedInvariant Inv (fun _ _ _ h ok next => stepInv h ok next)
    (startInv mem bits bitmapPa bitmapSize) valid ran
  exact ⟨invReclaimed inv,inv.table,inv.taskCount,inv.objects⟩

def booted : World := start (fun _ => 0) (fun _ => false) 0x200000 0x100000

theorem reclaimedThree : ∃ w, run step booted threeTasks = some w ∧ w.kernel.sched.made = 3 ∧ Reclaimed w := by
  have ended : (run step booted threeTasks).map (fun w => (w.kernel.sched.made,w.exited)) = some (3,[]) := by
    decide +kernel
  obtain ⟨w,ran,same⟩ := Option.map_eq_some_iff.mp ended
  have made : w.kernel.sched.made = 3 := congrArg Prod.fst same
  have none : w.exited = [] := congrArg Prod.snd same
  exact ⟨w,ran,made,((reclaimedExact (by decide +kernel) ran).1).mpr ⟨none,by rw [made]; decide⟩⟩

def comeAndGo : List KernelStack.Event :=
  [.memory (.addRegion 0x1000000 0x20000),.create 0 (plain 0) 7,.exit 0,.schedule 0 ⟨0,0,0⟩]

theorem exitedNotReclaimed : Guarded step Valid booted comeAndGo ∧
    ∃ w, run step booted comeAndGo = some w ∧ alive w = 0 ∧ w.kernel.sched.table.length = 1 ∧
      w.kernel.sched.taskCount = 1 ∧ w.objects.length = 1 ∧ w.stackBlocks = [] ∧ ¬ Reclaimed w := by
  have ended : (run step booted comeAndGo).map (fun w => (alive w,w.kernel.sched.table.length,
      w.kernel.sched.taskCount,w.objects.length,w.stackBlocks)) = some (0,1,1,1,[]) := by decide +kernel
  obtain ⟨w,ran,same⟩ := Option.map_eq_some_iff.mp ended
  simp only [Prod.mk.injEq] at same
  obtain ⟨none,table,count,objects,blocks⟩ := same
  refine ⟨by decide +kernel,w,ran,none,table,count,objects,blocks,fun r => ?_⟩
  have entries := r.table
  rw [table,none] at entries
  cases entries

end Nekros.TaskReclaim
