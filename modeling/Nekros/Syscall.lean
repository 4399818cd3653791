import Mathlib.Data.Nat.Bitwise
import Nekros.Sched

/-! kernel/syscall.c: the table, the dispatcher and what its handlers do to tasks. A
handler that calls `schedule` may leave its caller suspended in the middle of the call;
such a call is kept as a frame of the task, with the CPU whose flag it will clear when
it returns. Handlers that touch neither tasks nor queues answer from outside. -/
namespace Nekros.Syscall
open Words Sched Errno
open Function (update)

def userAddrMax : Nat := 0x0000800000000000

def low32 (x : Nat) : Nat := x % 2^32

def uptrValid (ptr len : Nat) : Bool :=
  if ptr = 0 then false
  else if userAddrMax ≤ ptr then false
  else if userAddrMax < len ∨ userAddrMax < wrap (ptr + len) then false
  else if ptr < 4096 then false
  else true

def scrubArg (arg : Nat) : Nat := if userAddrMax ≤ arg ∧ arg ≠ 0 then 0 else arg

theorem scrubLow (a : Nat) : scrubArg a < 2^47 := by
  unfold scrubArg
  split
  · decide
  · rename_i low
    by_cases zero : a = 0
    · subst zero
      decide
    · exact Nat.lt_of_not_le (fun high => low ⟨high,zero⟩)

structure Args where
  a1 : Nat
  a2 : Nat
  a3 : Nat
  a4 : Nat
  a5 : Nat
  deriving DecidableEq, Repr

def scrubbed (a : Args) : Args :=
  ⟨scrubArg a.a1,scrubArg a.a2,scrubArg a.a3,scrubArg a.a4,scrubArg a.a5⟩

inductive Handler where
  | read | write | exit | ioctl | yield | getpid
  | nkProcIntent | nkWorkBudget | nkAttestSelf | nkAttestPeer | nkSecureAlloc | nkSecureFree
  | nkIpcChannel | nkIpcSend | nkIpcRecv | nkNeriStatus | nkNeriTune | nkThermalHint
  | nkAnomalyScore | nkPledge | nkCheckpoint | nkMemSnapshot | nkFutex | nkThreadCreate
  | nkGetCaps | nkSetName | nkDebugLog
  deriving DecidableEq, Repr

def syscallTable : List (Option Handler) :=
  [some .read,some .write,some .exit,none,none,none,none,none,some .ioctl,none,
   none,none,none,none,none,none,none,some .yield,none,none,
   some .getpid,none,none,none,none,none,none,none,none,none,
   none,none,none,none,none,none,none,none,none,none,
   some .nkProcIntent,some .nkWorkBudget,some .nkAttestSelf,some .nkAttestPeer,some .nkSecureAlloc,
   some .nkSecureFree,some .nkIpcChannel,some .nkIpcSend,some .nkIpcRecv,some .nkNeriStatus,
   some .nkNeriTune,some .nkThermalHint,some .nkAnomalyScore,some .nkPledge,none,
   some .nkCheckpoint,none,some .nkMemSnapshot,some .nkFutex,some .nkThreadCreate,
   none,some .nkGetCaps,some .nkSetName,some .nkDebugLog]

def failure (e : Nat) : Nat := 2^64 - e

/- What a handler finds outside the scheduler: the user's word, a free budget slot, the
answers for `task_create`, and the value of a handler that is not modelled here. -/
structure Answers where
  futexWord : Nat
  budgetFree : Bool
  creation : Creation
  result : Nat
  deriving DecidableEq, Repr

def threadValue : Except Int Tid → State → Nat
  | .error e,_ => failure (-e).toNat
  | .ok t,s => (s.tasks t).pid

/- A handler up to its end, with the switch it made on the way and the value it
returns once it runs again. -/
def runHandler (s : State) (cpu : Cpu) (h : Handler) (a : Args) (w : Answers) :
    Option (State × Switch × Nat) :=
  match h with
  | .exit =>
      match s.current cpu with
      | none => some (s,.idle,0)
      | some t => (taskExit s cpu t).map (fun r => (r.1,r.2,0))
  | .yield => (schedule s cpu).map (fun r => (r.1,r.2,0))
  | .getpid => some (s,.idle,(s.current cpu).elim 0 (fun t => (s.tasks t).pid))
  | .nkProcIntent =>
      match s.current cpu with
      | none => some (s,.idle,failure einval)
      | some t => if 5 < a.a1 then some (s,.idle,failure einval) else some (place s t w.creation,.idle,0)
  | .nkWorkBudget =>
      match s.current cpu with
      | none => some (s,.idle,failure einval)
      | some t =>
          if a.a1 = 0 ∨ a.a2 = 0 then some (s,.idle,failure einval)
          else if !w.budgetFree then some (s,.idle,failure enomem)
          else some (setTask s t {s.tasks t with priority := min 15 ((s.tasks t).priority + 2)},.idle,w.result)
  | .nkPledge =>
      match s.current cpu with
      | none => some (s,.idle,failure esrch)
      | some t => some (setTask s t {s.tasks t with
          sigBlocked := a.a1,sigPending := (s.tasks t).sigPending ||| 2^63},.idle,0)
  | .nkFutex =>
      if !uptrValid a.a1 4 then some (s,.idle,failure efault)
      else if a.a2 = 0 then
        if w.futexWord ≠ low32 a.a3 then some (s,.idle,failure eagain)
        else (schedule s cpu).map (fun r => (r.1,r.2,0))
      else some (s,.idle,0)
  | .nkThreadCreate =>
      if !uptrValid a.a1 1 then some (s,.idle,failure efault)
      else
        match s.current cpu with
        | none => some (s,.idle,failure esrch)
        | some t =>
            let made := taskCreate s cpu {w.creation with entry := a.a1,priority := (s.tasks t).priority}
            some (made.1,.idle,threadValue made.2 made.1)
  | _ => some (s,.idle,w.result)

structure Kernel where
  sched : State
  inProgress : Cpu → Bool
  frames : Tid → List Cpu
  exited : List Tid

def pledged (t : Task) : Bool := t.sigPending.testBit 63

def pledgeBlocks (t : Task) (nr : Nat) : Bool := pledged t && !t.sigBlocked.testBit nr

inductive Verdict where
  | outOfRange | reentrant | killed | missing
  | call (h : Handler)
  deriving DecidableEq, Repr

def verdict (k : Kernel) (cpu : Cpu) (nr : Nat) : Verdict :=
  if 64 ≤ nr then .outOfRange
  else if k.inProgress cpu then .reentrant
  else if (k.sched.current cpu).any (fun t => pledgeBlocks (k.sched.tasks t) nr) then .killed
  else
    match syscallTable.getD nr none with
    | none => .missing
    | some h => .call h

/- Does `__switch_to` run? It does not when the previous task is picked again. -/
def switches : Switch → Bool
  | .idle => false
  | .to prev next => decide (prev ≠ some next)

/- The value returned, or nothing when the caller is left behind by a switch. -/
def dispatch (k : Kernel) (cpu : Cpu) (nr : Nat) (a : Args) (w : Answers) : Option (Kernel × Option Nat) :=
  match verdict k cpu nr with
  | .outOfRange => some (k,some (failure enosys))
  | .reentrant => some (k,some (failure enosys))
  | .missing => some (k,some (failure enosys))
  | .killed =>
      match k.sched.current cpu with
      | none => some (k,some (failure eperm))
      | some t => (taskExit k.sched cpu t).map (fun r =>
          ({k with sched := r.1,exited := t::k.exited},
            if switches r.2 then none else some (failure eperm)))
  | .call h => (runHandler k.sched cpu h (scrubbed a) w).map (fun r =>
      let k' := {k with sched := r.1,
                        exited := if h = .exit then (k.sched.current cpu).toList ++ k.exited else k.exited}
      if switches r.2.1 then
        -- the flag stays set, and the caller's frame will clear it
        ({k' with inProgress := update k.inProgress cpu true,
                  frames := (k.sched.current cpu).elim k.frames
                    (fun t => update k.frames t (cpu::k.frames t))},none)
      else (k',some r.2.2))

def resume (k : Kernel) (cpu : Cpu) : Kernel :=
  match k.sched.current cpu with
  | none => k
  | some t =>
      match k.frames t with
      | [] => k
      | entered::rest =>
          {k with inProgress := update k.inProgress entered false,frames := update k.frames t rest}

def boot : Kernel := ⟨schedInit,fun _ => false,fun _ => [],[]⟩

inductive Event where
  | create (cpu : Cpu) (c : Creation)
  | schedule (cpu : Cpu)
  | tick (cpu : Cpu)
  | exit (cpu : Cpu) (t : Tid)
  | dispatch (cpu : Cpu) (nr : Nat) (a : Args) (w : Answers)
  | resume (cpu : Cpu)

def call (cpu : Cpu) (nr a1 : Nat) : Event := .dispatch cpu nr ⟨a1,0,0,0,0⟩ ⟨0,true,plain 0x2000000,0⟩

def step (k : Kernel) : Event → Option Kernel
  | .create cpu c => some {k with sched := (taskCreate k.sched cpu c).1}
  | .schedule cpu => (schedule k.sched cpu).map (fun r => {k with sched := r.1})
  | .tick cpu => (schedTick k.sched cpu).map (fun r => {k with sched := r.1})
  | .exit cpu t => (taskExit k.sched cpu t).map (fun r => {k with sched := r.1,exited := t::k.exited})
  | .dispatch cpu nr a w => (dispatch k cpu nr a w).map Prod.fst
  | .resume cpu => some (resume k cpu)

def Valid (k : Kernel) : Event → Prop
  | .exit _ t => t < k.sched.made
  | .dispatch cpu nr a _ => k.sched.current cpu ≠ none ∧ nr < 2^64 ∧ a.a1 < 2^64 ∧ a.a2 < 2^64 ∧
      a.a3 < 2^64 ∧ a.a4 < 2^64 ∧ a.a5 < 2^64
  | _ => True
instance (k e) : Decidable (Valid k e) := by cases e <;> unfold Valid <;> infer_instance

end Nekros.Syscall
