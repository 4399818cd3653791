import Mathlib.Data.Fin.Basic
import Mathlib.Data.List.FinRange
import Nekros.Errno
import Nekros.Words
import Nekros.LinkRing

/-! kernel/sched.c. A task is named by its place in the order of creation; no task
structure is ever given back. The list nodes are the queue heads, the two nodes inside
each task, and the null pointer: page 0 is mapped, so writes through it land in a node
of their own. A CPU is one of the 256 APIC ids, so that the range checks on `cpu` never
fire. Messages and Neri's own counters are left out. -/
namespace Nekros.Sched
open Words LinkRing Errno
open Function (update)

abbrev ncpusMax : Nat := 256
instance : NeZero ncpusMax := ⟨by decide⟩

def maxTasks : Nat := 1024

def kernelStackPages : Nat := 4

abbrev Cpu := Fin ncpusMax

abbrev Tid := Nat

abbrev Band := Fin 16

inductive TaskState where
  | running | ready | blocked | zombie | stopped
  deriving DecidableEq, Repr

structure Task where
  pid : Nat
  ppid : Nat
  state : TaskState
  priority : Nat
  vruntime : Nat
  weight : Nat
  timesliceNs : Nat
  cpuTimeNs : Nat
  cpuAffinity : Nat
  onCpu : Nat
  kstackTop : Nat
  kstackPa : Nat
  ctxRsp : Nat
  ctxRip : Nat
  ctxRflags : Nat
  sigPending : Nat
  sigBlocked : Nat
  deriving DecidableEq, Repr

/- What `kzalloc` returns; state 0 is `TASK_RUNNING`. -/
def Task.zeroed : Task := ⟨0,0,.running,0,0,0,0,0,0,0,0,0,0,0,0,0,0⟩

inductive Node where
  | null
  | runqueue (band : Band)
  | allTasksList
  | rqNode (t : Tid)
  | allTasks (t : Tid)
  deriving DecidableEq, Repr

/- `dels` is a record of the `list_del` calls: the node, and whether it was linked. `nextPid` has no
bound here; `next_pid++` is undefined once 2^31 - 1 numbers are used up. -/
structure State where
  tasks : Tid → Task
  made : Nat
  table : List Tid
  taskCount : Nat
  nextPid : Nat
  links : Links Node
  rqMinVruntime : Band → Nat
  current : Cpu → Option Tid
  dels : List (Node × Bool)

def schedWeight : List Nat :=
  [88761,71755,56483,46273,36291,29154,23254,18705,14949,11916,9548,7620,6100,4904,3906,3121]

def calcVruntimeDelta (t : Task) (realNs : Nat) : Nat :=
  wrap (realNs * 56483) / (if t.weight = 0 then 56483 else t.weight)

def setTask (s : State) (t : Tid) (x : Task) : State := {s with tasks := update s.tasks t x}

def listDel (s : State) (n : Node) : State :=
  {s with links := del .null s.links n,dels := (n,decide (Linked .null s.links n))::s.dels}

def bandOf (t : Task) : Band := ⟨min t.priority 15,by omega⟩

def enqueue (s : State) (t : Tid) : State :=
  let band := bandOf (s.tasks t)
  let s := if (s.tasks t).vruntime = 0 then
      setTask s t {s.tasks t with vruntime := s.rqMinVruntime band} else s
  {s with links := addTail s.links (.rqNode t) (.runqueue band)}

def dequeue (s : State) (t : Tid) : State := listDel s (.rqNode t)

def entry : Node → Option Tid
  | .rqNode t => some t
  | _ => none

def better (s : State) (best : Option Tid) (t : Tid) : Option Tid :=
  if (s.tasks t).state ≠ .ready then best else
    match best with
    | none => some t
    | some b => if (s.tasks t).vruntime < (s.tasks b).vruntime then some t else some b

def pickBand (s : State) (band : Band) : Option (Option Tid) :=
  if s.links.next (.runqueue band) = .runqueue band then some none else
    ((walk s.links (.runqueue band) s.made (s.links.next (.runqueue band))).bind
      (fun nodes => nodes.mapM entry)).map (fun ts => ts.foldl (better s) none)

def pickFrom (s : State) : List Band → Option (Option Tid)
  | [] => some none
  | band::rest => (pickBand s band).bind (fun best =>
      match best with
      | some t => some (some t)
      | none => pickFrom s rest)

def pickNext (s : State) : Option (Option Tid) := pickFrom s (List.finRange 16).reverse

def requeue (s : State) : Option Tid → State
  | some t => if (s.tasks t).state = .running then enqueue (setTask s t {s.tasks t with state := .ready}) t
      else s
  | none => s

/- The idle branch: the previous task is set running whatever its state was. -/
def rerun (s : State) (cpu : Cpu) : Option Tid → State
  | some t => {setTask s t {s.tasks t with state := .running} with current := update s.current cpu (some t)}
  | none => s

def runNext (s : State) (cpu : Cpu) (next : Tid) : State :=
  let s := dequeue s next
  {setTask s next {s.tasks next with state := .running,onCpu := cpu,timesliceNs := 4000000} with
    current := update s.current cpu (some next)}

/- How `schedule` ends: it returns at once, or it checks the canary of `prev` and
switches to `next` (to itself when the two are one task). -/
inductive Switch where
  | idle
  | to (prev : Option Tid) (next : Tid)
  deriving DecidableEq, Repr

def schedule (s : State) (cpu : Cpu) : Option (State × Switch) :=
  let prev := s.current cpu
  let s := requeue s prev
  (pickNext s).map (fun next =>
    match next with
    | none => (rerun s cpu prev,.idle)
    | some next => (runNext s cpu next,.to prev next))

def tickNs : Nat := 1000000

def charged (t : Task) : Task :=
  {t with cpuTimeNs := wrap (t.cpuTimeNs + tickNs),
          vruntime := wrap (t.vruntime + calcVruntimeDelta t tickNs)}

def schedTick (s : State) (cpu : Cpu) : Option (State × Switch) :=
  match s.current cpu with
  | none => schedule s cpu
  | some t =>
      let task := charged (s.tasks t)
      if tickNs < task.timesliceNs then
        some (setTask s t {task with timesliceNs := task.timesliceNs - tickNs},.idle)
      else schedule (setTask s t {task with timesliceNs := 0}) cpu

structure Creation where
  entry : Nat
  priority : Nat
  neriReady : Bool
  admitAllowed : Bool
  kzallocOk : Bool
  kstackPa : Nat
  preferPcore : Bool
  ncpus : Nat
  deriving DecidableEq, Repr

def plain (kstackPa : Nat) : Creation := ⟨0x400000,8,false,true,true,kstackPa,false,1⟩

def newTask (s : State) (cpu : Cpu) (c : Creation) : Task :=
  let priority := min c.priority 15
  let top := wrap (physToVirt c.kstackPa + kernelStackPages * pageSize)
  {Task.zeroed with
    pid := s.nextPid,
    ppid := (s.current cpu).elim 0 (fun t => (s.tasks t).pid),
    priority := priority,
    weight := schedWeight.getD priority 0,
    state := .ready,
    kstackPa := c.kstackPa,
    kstackTop := top,
    ctxRsp := sub64 top 16,
    ctxRip := c.entry,
    ctxRflags := 0x200}

def register (s : State) (t : Tid) : State :=
  let links := init (init s.links (.rqNode t)) (.allTasks t)
  let s := {s with links := addTail links (.allTasks t) .allTasksList,
                   table := if s.table.length < maxTasks then s.table ++ [t] else s.table}
  {enqueue s t with taskCount := s.taskCount + 1}

def place (s : State) (t : Tid) (c : Creation) : State :=
  if c.neriReady then
    setTask s t {s.tasks t with cpuAffinity := if c.preferPcore then 0 else if 1 < c.ncpus then 1 else 0}
  else s

def enroll (s : State) (cpu : Cpu) (c : Creation) : State :=
  {setTask s s.made (newTask s cpu c) with nextPid := s.nextPid + 1,made := s.made + 1}

def taskCreate (s : State) (cpu : Cpu) (c : Creation) : State × Except Int Tid :=
  if c.neriReady && !c.admitAllowed then (s,.error (-eperm))
  else if !c.kzallocOk then (s,.error (-enomem))
  else if c.kstackPa = 0 then ({s with nextPid := s.nextPid + 1},.error (-enomem))
  else (place (register (enroll s cpu c) s.made) s.made c,.ok s.made)

def exitMark (s : State) (t : Tid) : State :=
  let s := dequeue (setTask s t {s.tasks t with state := .zombie}) t
  if s.links.next (.allTasks t) ≠ .null then listDel s (.allTasks t) else s

/- In between the stack goes back to the page allocator, and `schedule` then looks for the canary
in it. Both are added in KernelStack; here a run goes on also where the kernel would panic. -/
def taskExit (s : State) (cpu : Cpu) (t : Tid) : Option (State × Switch) := schedule (exitMark s t) cpu

def initLinks : Links Node :=
  (List.finRange 16).foldl (fun L band => init L (.runqueue band))
    (init ⟨fun _ => .null,fun _ => .null⟩ .allTasksList)

def schedInit : State :=
  ⟨fun _ => Task.zeroed,0,[],0,1,initLinks,fun _ => 0,fun _ => none,[]⟩

end Nekros.Sched
