import Nekros.KernelStack
import Nekros.NeriSched

/-! task_create of kernel/sched.c with Neri ready, over the page allocator: the admission
gate, the task record, the stack, the question to neri_sched_admit and the registration,
in this order. A task record comes from a slab, which takes a page when it is empty; what
the slab writes to its page is left out. `asked` records the answer of neri_sched_admit,
which the code does not look at. -/
namespace Nekros.NeriAdmission
open Words Spans NeriSched SchedSteps Errno
open Sched (Cpu Tid Creation kernelStackPages)
open NeriPool (admitCases admitRefused)
open PmmSafety (Block Free)
open KernelStack (poke prepare kstackCanaryWrite)
open SchedAgreement (At atQueue)

structure World where
  sched : Sched.State
  neri : NeriPool.State
  memory : PmmSafety.World

/- The arguments of the call and what is found on the way: is the slab empty, and does
the anomaly record block admissions when neri_sched_admit reads it? -/
structure Request where
  cpu : Cpu
  creation : Creation
  demand : Demand
  arg : Nat
  refill : Bool
  blockAdmits : Bool

structure Outcome where
  world : World
  result : Except Int Tid
  asked : Option Int

def pmmAlloc (m : PmmSafety.World) (ord : Int) : PmmSafety.World × Nat :=
  let r := Pmm.pmmAllocPages m.pmm ord
  ({m with pmm := r.1,live := if r.2 = 0 then m.live else ⟨r.2,ord.toNat⟩::m.live},r.2)

def kzalloc (m : PmmSafety.World) (refill : Bool) : PmmSafety.World × Bool :=
  if refill then ((pmmAlloc m 0).1,decide ((pmmAlloc m 0).2 ≠ 0)) else (m,true)

/- `kfree` of the record, when there is no stack, gives it back to the slab. -/
def taskCreate (w : World) (q : Request) : Outcome :=
  if !q.creation.admitAllowed then ⟨w,.error (-eperm),none⟩
  else
    let record := kzalloc w.memory q.refill
    if !record.2 then ⟨{w with memory := record.1},.error (-enomem),none⟩
    else
      let stack := pmmAlloc record.1 2
      let c := {q.creation with neriReady := true,kzallocOk := true,kstackPa := stack.2}
      let registered := Sched.taskCreate w.sched q.cpu c
      if stack.2 = 0 then ⟨{w with sched := registered.1,memory := stack.1},registered.2,none⟩
      else
        let answer := admission w.neri w.sched.made q.demand q.blockAdmits
        ⟨⟨registered.1,answer.1,prepare stack.1 stack.2 q.arg⟩,registered.2,some answer.2⟩

def Unpublished (s s' : Sched.State) : Prop := s'.links = s.links ∧ s'.table = s.table

structure Binding (w : World) (q : Request) : Prop where
  published : (taskCreate w q).asked ≠ some 0 → Unpublished w.sched (taskCreate w q).world.sched
  undone : ∀ e, (taskCreate w q).asked = some e → e ≠ 0 →
    (∃ error, (taskCreate w q).result = .error error) ∧
    Unpublished w.sched (taskCreate w q).world.sched ∧
    (taskCreate w q).world.neri.pool = w.neri.pool ∧
    ∀ x, Free (taskCreate w q).world.memory.pmm x ↔ Free w.memory.pmm x

/- neri_sched_admit is asked: the gate is open, and there is a record and a stack. -/
def Asks (w : World) (q : Request) : Prop :=
  q.creation.admitAllowed = true ∧ (kzalloc w.memory q.refill).2 = true ∧
    (pmmAlloc (kzalloc w.memory q.refill).1 2).2 ≠ 0

structure Goes (w : World) (q : Request) (m : PmmSafety.World) (pa : Nat) : Prop where
  record : kzalloc w.memory q.refill = (m,true)
  stack : (pmmAlloc m 2).2 = pa
  nonzero : pa ≠ 0
  registered : (Sched.taskCreate w.sched q.cpu
    {q.creation with neriReady := true,kzallocOk := true,kstackPa := pa}).2 = .ok w.sched.made
  outcome : taskCreate w q =
    ⟨⟨(Sched.taskCreate w.sched q.cpu
          {q.creation with neriReady := true,kzallocOk := true,kstackPa := pa}).1,
        (admission w.neri w.sched.made q.demand q.blockAdmits).1,prepare (pmmAlloc m 2).1 pa q.arg⟩,
      .ok w.sched.made,some (admission w.neri w.sched.made q.demand q.blockAdmits).2⟩

theorem goesOn {w : World} {q : Request} (asks : Asks w q) : ∃ m pa, Goes w q m pa := by
  obtain ⟨allowed,record,stack⟩ := asks
  rcases got : kzalloc w.memory q.refill with ⟨m,found⟩
  rw [got] at record stack
  obtain rfl : found = true := record
  have registered : (Sched.taskCreate w.sched q.cpu
      {q.creation with neriReady := true,kzallocOk := true,kstackPa := (pmmAlloc m 2).2}).2 =
      .ok w.sched.made := by
    simp [Sched.taskCreate,allowed,stack]
  refine ⟨m,_,got,rfl,stack,registered,?_⟩
  unfold taskCreate
  rw [if_neg (by simp [allowed]),got]
  dsimp only
  rw [if_neg (by simp),if_neg stack,registered]

theorem neverAsked {w : World} {q : Request} (unasked : ¬ Asks w q) :
    (taskCreate w q).asked = none ∧ Unpublished w.sched (taskCreate w q).world.sched := by
  unfold taskCreate
  by_cases allowed : q.creation.admitAllowed = true
  case neg =>
    rw [if_pos (by simpa using allowed)]
    exact ⟨rfl,rfl,rfl⟩
  rw [if_neg (by simp [allowed])]
  by_cases record : (kzalloc w.memory q.refill).2 = true
  · have none : (pmmAlloc (kzalloc w.memory q.refill).1 2).2 = 0 := by
      by_contra some
      exact unasked ⟨allowed,record,some⟩
    dsimp only
    rw [if_neg (by simp [record]),if_pos none,none]
    simp [Sched.taskCreate,allowed,Unpublished]
  · dsimp only
    rw [if_pos (by simpa using record)]
    exact ⟨rfl,rfl,rfl⟩

theorem bindingUnlessRefused (w : World) (q : Request) :
    Binding w q ↔ (Asks w q → (admission w.neri w.sched.made q.demand q.blockAdmits).2 = 0) := by
  constructor
  · intro binding asks
    by_contra refused
    obtain ⟨m,pa,goes⟩ := goesOn asks
    obtain ⟨⟨error,failed⟩,_⟩ := binding.undone _ (congrArg Outcome.asked goes.outcome) refused
    rw [goes.outcome] at failed
    cases failed
  · intro accepted
    by_cases asks : Asks w q
    · obtain ⟨m,pa,goes⟩ := goesOn asks
      have asked : (taskCreate w q).asked = some 0 := by
        rw [goes.outcome,accepted asks]
      refine ⟨fun other => absurd asked other,fun e answer refused => ?_⟩
      rw [asked] at answer
      exact absurd (Option.some.inj answer).symm refused
    · obtain ⟨never,same⟩ := neverAsked asks
      refine ⟨fun _ => same,fun e answer => ?_⟩
      rw [never] at answer
      cases answer

theorem pokeInv {m : PmmSafety.World} {pa d : Nat} (value : Nat) (held : ⟨pa,2⟩ ∈ m.live)
    (inside : d < Pmm.blockSize 2) (h : PmmSafety.Inv m) : PmmSafety.Inv (poke m (pa + d) value) := by
  have stepped : PmmSafety.step m (.write (pa + d) value) = some (poke m (pa + d) value) := rfl
  refine (PmmSafety.writeStep h ⟨⟨pa,2⟩,held,Nat.le_add_right _ _,?_⟩ stepped).1
  exact Nat.add_lt_add_left inside pa

theorem pokeLive (m : PmmSafety.World) (pa value : Nat) : (poke m pa value).live = m.live := rfl

theorem prepareInv {m : PmmSafety.World} {pa : Nat} (arg : Nat) (held : ⟨pa,2⟩ ∈ m.live)
    (h : PmmSafety.Inv m) : PmmSafety.Inv (prepare m pa arg) ∧ ⟨pa,2⟩ ∈ (prepare m pa arg).live := by
  have canary : PmmSafety.Inv (kstackCanaryWrite m pa) ∧ ⟨pa,2⟩ ∈ (kstackCanaryWrite m pa).live := by
    unfold kstackCanaryWrite
    split
    · exact ⟨h,held⟩
    · exact ⟨pokeInv (d := 0) _ held (by decide) h,held⟩
  have size : kernelStackPages * pageSize - 8 < Pmm.blockSize 2 ∧
      kernelStackPages * pageSize - 16 < Pmm.blockSize 2 := by decide
  unfold prepare
  generalize kernelStackPages * pageSize - 8 = d at size
  generalize kernelStackPages * pageSize - 16 = d' at size
  have argument := pokeInv arg canary.2 size.1 canary.1
  rw [pokeLive,pokeLive]
  refine ⟨pokeInv 0 ?_ size.2 argument,canary.2⟩
  rw [pokeLive]
  exact canary.2

theorem pmmAllocInv {m : PmmSafety.World} (ord : Int) (h : PmmSafety.Inv m) :
    PmmSafety.Inv (pmmAlloc m ord).1 := by
  have stepped : PmmSafety.step m (.alloc ord) = some (pmmAlloc m ord).1 := rfl
  exact (PmmSafety.allocStep h stepped).1

theorem kzallocInv {m m' : PmmSafety.World} {refill : Bool} (got : kzalloc m refill = (m',true))
    (h : PmmSafety.Inv m) : PmmSafety.Inv m' := by
  unfold kzalloc at got
  split at got
  · obtain rfl : (pmmAlloc m 0).1 = m' := congrArg Prod.fst got
    exact pmmAllocInv 0 h
  · obtain rfl : m = m' := congrArg Prod.fst got
    exact h

theorem heldNotFree {m : PmmSafety.World} {b : Block} (h : PmmSafety.Inv m) (held : b ∈ m.live) {x : Nat}
    (low : b.pa ≤ x) (high : x < b.span.stop) : ¬ Free m.pmm x := by
  rintro ⟨i,ord,n,sp,found,below,above⟩
  have away := (PmmSafety.invSafe h).liveFree b held i ord n sp found
  have start : b.span.start = b.pa := rfl
  unfold Apart at away
  omega

theorem askedRuns {w : World} {q : Request} (good : Good w.sched) (memory : PmmSafety.Inv w.memory)
    (asks : Asks w q) :
    ∃ t place, (taskCreate w q).result = .ok t ∧ At (taskCreate w q).world.sched t place ∧
      ∀ x, ((taskCreate w q).world.sched.tasks t).kstackPa ≤ x →
        x < ((taskCreate w q).world.sched.tasks t).kstackPa + Pmm.blockSize 2 →
        ¬ Free (taskCreate w q).world.memory.pmm x := by
  obtain ⟨m,pa,record,stack,nonzero,registered,outcome⟩ := goesOn asks
  have held : ⟨pa,2⟩ ∈ (pmmAlloc m 2).1.live := by
    have taken : (pmmAlloc m 2).1.live =
        if (pmmAlloc m 2).2 = 0 then m.live else ⟨(pmmAlloc m 2).2,2⟩::m.live := rfl
    rw [taken,stack,if_neg nonzero]
    exact List.mem_cons_self
  obtain ⟨safe,live⟩ := prepareInv q.arg held (pmmAllocInv 2 (kzallocInv record memory))
  rw [outcome]
  dsimp only
  rcases createCases q.cpu {q.creation with neriReady := true,kzallocOk := true,kstackPa := pa} good with
    ⟨error,n,failed⟩ | ⟨s',t,done,created⟩
  · rw [failed] at registered
    cases registered
  · obtain ⟨queues,all,linked,agree⟩ := created.good.queues
    obtain ⟨v,a,task⟩ := created.task
    have ready : (s'.tasks t).state = .ready := by
      rw [task]
      rfl
    obtain ⟨band,mem⟩ := (agree t (by rw [created.made,created.new]; exact Nat.lt_succ_self _)).mp ready
    obtain ⟨position,here⟩ := List.getElem?_of_mem mem
    have base : (s'.tasks t).kstackPa = pa := by
      rw [task]
      rfl
    rw [done]
    refine ⟨t,(band,position),by rw [created.new],(atQueue linked).mpr here,fun x low high => ?_⟩
    rw [base] at low high
    exact heldNotFree safe live low high

def quiet : World :=
  let memory := (PmmSafety.step PmmSafety.booted (.addRegion 0x1000000 0x10000)).getD PmmSafety.booted
  ⟨Sched.schedInit,(NeriSched.start 1024 1 0 0).neri,memory⟩

def greedy : Request := ⟨0,Sched.plain 0,⟨21000000,4⟩,0,false,false⟩

theorem refusedTaskRuns :
    (taskCreate quiet greedy).asked = some (-(ebusy : Int)) ∧
      (taskCreate quiet greedy).result.toOption = some 0 ∧
      (taskCreate quiet greedy).world.sched.table = [0] ∧
      (taskCreate quiet greedy).world.sched.links.next (.runqueue 8) = .rqNode 0 ∧
      (taskCreate quiet greedy).world.sched.links.next .allTasksList = .allTasks 0 ∧
      (quiet.memory.pmm.nodes 0).freePages = 16 ∧
      ((taskCreate quiet greedy).world.memory.pmm.nodes 0).freePages = 12 ∧
      (taskCreate quiet greedy).world.memory.live = [⟨0x1000000,2⟩] := by
  decide +kernel

end Nekros.NeriAdmission
