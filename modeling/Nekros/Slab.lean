import Nekros.Words
import Nekros.Loops
import Nekros.Spans
import Nekros.GuardedRun
import Mathlib.Logic.Function.Basic

/-! mm/vmm.c, the slab allocator under `kmalloc` and `kfree`. A free chunk keeps
its link, and a chunk in use its cookie, in the same first word, so the memory is
part of the state: one 64-bit word at each multiple of 8. What `pmm_alloc_page` and
`vmm_alloc` answer is an argument of the call that asks. -/
namespace Nekros.Slab
open Words Loops Spans
open Function (update)

def slabSizes : Nat := 8

def slabSz : List Nat := [16,32,64,128,256,512,1024,2048]

def slabPoison : Nat := 0xDEAD6DEAD6DEAD6D

def slabLargeCookie : Nat := 0xFF

def objSize (i : Nat) : Nat := slabSz.getD i 0

def chunk (i : Nat) : Nat := objSize i + 8

def perPage (i : Nat) : Nat := pageSize / chunk i

structure Heap where
  mem : Nat → Nat
  freelist : Nat → Nat

def push (h : Heap) (i node : Nat) : Heap :=
  ⟨update h.mem node (h.freelist i),update h.freelist i node⟩

def slabGrow (h : Heap) (i pa : Nat) : Heap :=
  if pa = 0 then h else
    upTo (perPage i) (fun k h => push h i (physToVirt pa + k * chunk i)) h

def classFor (size : Nat) : Option Nat := (List.range slabSizes).find? (fun i => size ≤ objSize i)

def kmallocSlab (h : Heap) (i : Nat) : Heap × Nat :=
  let node := h.freelist i
  if node = 0 then (h,0) else
    (⟨update h.mem node i,update h.freelist i (h.mem node)⟩,node + 8)

def largePages (size : Nat) : Nat := align size / pageSize

def largeCookie (pages : Nat) : Nat := slabLargeCookie ||| wrap (pages <<< 8)

/- `pa` answers slab_grow's pmm_alloc_page, `base` answers vmm_alloc. -/
def kmalloc (h : Heap) (size pa base : Nat) : Heap × Nat :=
  match classFor size with
  | some i => kmallocSlab (if h.freelist i = 0 then slabGrow h i pa else h) i
  | none =>
      if base = 0 then (h,0) else
        ({h with mem := update h.mem base (largeCookie (largePages size))},base + 8)

inductive Panic where
  | doubleFree
  | invalidCookie
  deriving DecidableEq, Repr

inductive Block where
  | slab (i : Nat)
  | large (pages : Nat)
  deriving DecidableEq, Repr

def readCookie (cookie : Nat) : Except Panic Block :=
  if cookie = slabPoison then .error .doubleFree
  else if cookie &&& 0xFF = slabLargeCookie then .ok (.large (cookie >>> 8))
  else if slabSizes ≤ cookie then .error .invalidCookie
  else .ok (.slab cookie)

def memset (m : Nat → Nat) (start len word : Nat) : Nat → Nat :=
  fun a => if start ≤ a ∧ a < start + len then word else m a

/- A call that returns names the range it hands to vmm_free, first address and
pages; one that panics leaves the heap it panicked in. -/
inductive Outcome where
  | done (heap : Heap) (unmapped : Option (Nat × Nat))
  | panic (why : Panic) (heap : Heap)

def kfree (h : Heap) (ptr : Nat) : Outcome :=
  if ptr = 0 then .done h none else
    let cookiePtr := sub64 ptr 8
    match readCookie (h.mem cookiePtr) with
    | .error why => .panic why h
    | .ok (.large pages) =>
        .done {h with mem := update h.mem cookiePtr slabPoison} (some (cookiePtr,pages + 1))
    | .ok (.slab i) =>
        let filled := memset h.mem cookiePtr (8 + objSize i) 0xDEDEDEDEDEDEDEDE
        .done (push {h with mem := update filled cookiePtr slabPoison} i cookiePtr) none

def Outcome.panics : Outcome → Bool
  | .done _ _ => false
  | .panic _ _ => true

def Outcome.heap : Outcome → Heap
  | .done heap _ => heap
  | .panic _ heap => heap

structure Alloc where
  base : Nat
  block : Block
  deriving DecidableEq, Repr

def Alloc.extent (a : Alloc) : Span :=
  match a.block with
  | .slab i => ⟨a.base,chunk i⟩
  | .large pages => ⟨a.base,(pages + 1) * pageSize⟩

structure Freed where
  base : Nat
  cls : Nat
  head : Nat
  deriving DecidableEq, Repr

/- The heap and what its clients know: the pages carved so far with the class they
were carved for, the live allocations, and the blocks freed and not given out again. -/
structure World where
  heap : Heap
  carved : List (Nat × Nat)
  live : List Alloc
  freed : List Freed

def start (mem : Nat → Nat) : World := ⟨⟨mem,fun _ => 0⟩,[],[],[]⟩

/- A client's stores are word by word: payloads begin and end at multiples of 8. -/
inductive Event where
  | kmalloc (size pa base : Nat)
  | kfree (a : Alloc)
  | write (p v : Nat)

def chosen (size : Nat) : Block :=
  match classFor size with
  | some i => .slab i
  | none => .large (largePages size)

def carving (w : World) (size pa : Nat) : List (Nat × Nat) :=
  match classFor size with
  | some i => if w.heap.freelist i = 0 ∧ pa ≠ 0 then [(physToVirt pa,i)] else []
  | none => []

def given (w : World) (heap : Heap) (ptr : Nat) (block : Block) : World :=
  if ptr = 0 then {w with heap} else
    {w with
      heap
      live := ⟨ptr - 8,block⟩::w.live
      freed := w.freed.filter (fun f => f.base ≠ ptr - 8)}

def released (w : World) (heap : Heap) (a : Alloc) : World :=
  match a.block with
  | .slab i => {w with
      heap
      live := w.live.erase a
      freed := ⟨a.base,i,w.heap.freelist i⟩::w.freed}
  | .large _ => {w with heap,live := w.live.erase a}

def step (w : World) : Event → Option World
  | .kmalloc size pa base =>
      let r := kmalloc w.heap size pa base
      some (given {w with carved := carving w size pa ++ w.carved} r.1 r.2 (chosen size))
  | .kfree a =>
      match kfree w.heap (a.base + 8) with
      | .done heap _ => some (released w heap a)
      | .panic _ _ => none
  | .write p v => some {w with heap := {w.heap with mem := update w.heap.mem p v}}

def page (start : Nat) : Span := ⟨start,pageSize⟩

def Fresh (w : World) (r : Span) : Prop :=
  r.start % pageSize = 0 ∧ r.stop ≤ 2^64 ∧
    (∀ c ∈ w.carved, Apart r (page c.1)) ∧ ∀ a ∈ w.live, Apart r a.extent
instance (w r) : Decidable (Fresh w r) := by unfold Fresh; infer_instance

def Valid (w : World) : Event → Prop
  | .kmalloc size pa base =>
      (pa ≠ 0 → Fresh w (page (physToVirt pa))) ∧
        (base ≠ 0 → Fresh w ⟨base,(largePages size + 1) * pageSize⟩)
  | .kfree a => a ∈ w.live
  | .write p _ => p % 8 = 0 ∧ ∃ a ∈ w.live, a.base + 8 ≤ p ∧ p + 8 ≤ a.extent.stop
instance (w e) : Decidable (Valid w e) := by cases e <;> unfold Valid <;> infer_instance

end Nekros.Slab
