import Nekros.Words
import Nekros.LinkChain

/-! mm/pmm.c, the physical page allocator. Free blocks keep their list links in
their own first two words, at the kernel address of the block, so the memory is
part of the state. The bitmap is kept apart from that memory: it lies at 2 MB,
below the 16 MB line under which no page is managed. Spinlocks are left out: every
call runs to completion before the next one. -/
namespace Nekros.Pmm
open Words
open Function (update)

def maxOrder : Nat := 10

def maxNodes : Nat := 8

structure PmmNode where
  free : Nat → Nat
  freePages : Nat
  totalPages : Nat
  base : Nat
  limit : Nat

structure Bitmap where
  ptr : Nat
  pages : Nat
  bits : Nat → Bool

structure State where
  nodes : Nat → PmmNode
  nnodes : Nat
  mem : Nat → Nat
  gTotalRamPages : Nat
  gFreeRamPages : Nat
  bitmap : Bitmap

def bitmapIgnores (b : Bitmap) (pfn : Nat) : Bool :=
  b.ptr == 0 || decide (wrap (b.pages * pageSize * 8) ≤ pfn)

def bitmapSet (b : Bitmap) (pfn : Nat) : Bitmap :=
  if bitmapIgnores b pfn then b else {b with bits := update b.bits pfn true}

def bitmapClear (b : Bitmap) (pfn : Nat) : Bitmap :=
  if bitmapIgnores b pfn then b else {b with bits := update b.bits pfn false}

/- A page the bitmap does not cover counts as used. -/
def bitmapTest (b : Bitmap) (pfn : Nat) : Bool :=
  if bitmapIgnores b pfn then true else b.bits pfn

def blockSize (ord : Nat) : Nat := pageSize <<< ord

def blockPfns (pa ord : Nat) : List Nat := (List.range (1 <<< ord)).map (pa / pageSize + ·)

def bitmapSetBlock (b : Bitmap) (pa ord : Nat) : Bitmap := (blockPfns pa ord).foldl bitmapSet b

def bitmapClearBlock (b : Bitmap) (pa ord : Nat) : Bitmap := (blockPfns pa ord).foldl bitmapClear b

def buddyFree (b : Bitmap) (pa ord : Nat) : Bool := (blockPfns pa ord).all (fun pfn => !bitmapTest b pfn)

def setNode (s : State) (i : Nat) (nd : PmmNode) : State := {s with nodes := update s.nodes i nd}

def setHead (s : State) (i ord p : Nat) : State :=
  setNode s i {s.nodes i with free := update (s.nodes i).free ord p}

def flPush (s : State) (i ord pa : Nat) : State :=
  let linked := LinkChain.push s.mem ((s.nodes i).free ord) (physToVirt pa)
  setHead {s with mem := linked.1} i ord linked.2

def flPop (s : State) (i ord : Nat) : State × Nat :=
  let b := (s.nodes i).free ord
  if b = 0 then (s,0) else
    let linked := LinkChain.pop s.mem b
    (setHead {s with mem := linked.1} i ord linked.2,virtToPhys b)

/- The block is taken to be on the list of this order; nothing checks it. -/
def flRemove (s : State) (i ord pa : Nat) : State :=
  let linked := LinkChain.unlink s.mem ((s.nodes i).free ord) (physToVirt pa)
  setHead {s with mem := linked.1} i ord linked.2

def buddyOf (pa ord nodeBase : Nat) : Nat :=
  wrap (nodeBase + (sub64 pa nodeBase ^^^ blockSize ord))

def pmmNodeOf (s : State) (pa : Nat) : Option Nat :=
  (List.range s.nnodes).find? (fun i =>
    decide ((s.nodes i).base ≤ pa) && decide (pa < (s.nodes i).limit))

def addFreePages (s : State) (i pages : Nat) : State :=
  setNode s i {s.nodes i with freePages := wrap ((s.nodes i).freePages + pages)}

def subFreePages (s : State) (i pages : Nat) : State :=
  setNode s i {s.nodes i with freePages := sub64 (s.nodes i).freePages pages}

def carveOrder (pa stop : Nat) : Nat → Nat
  | 0 => 0
  | ord+1 =>
      if pa % blockSize (ord+1) ≠ 0 ∨ stop < wrap (pa + blockSize (ord+1)) then carveOrder pa stop ord
      else ord+1

/- The outer loop. A run that advances adds a page at least in each turn; `none`
is the loop that wraps around the address space and never ends. -/
def carve : Nat → State → (i pa stop : Nat) → Option State
  | 0,s,_,pa,stop => if pa < stop then none else some s
  | fuel+1,s,i,pa,stop =>
      if pa < stop then
        let ord := carveOrder pa stop maxOrder
        carve fuel (addFreePages (flPush s i ord pa) i (1 <<< ord)) i (wrap (pa + blockSize ord)) stop
      else some s

def regionStart (base : Nat) : Nat := if align base < 0x1000000 then 0x1000000 else align base

def regionStop (base length : Nat) : Nat := alignDown (wrap (base + length))

def regionEmpty (base length : Nat) : Bool :=
  decide (regionStop base length ≤ align base) || decide (regionStop base length ≤ regionStart base)

def countPages (s : State) (i pages : Nat) : State :=
  {setNode s i {s.nodes i with totalPages := wrap ((s.nodes i).totalPages + pages)} with
    gTotalRamPages := wrap (s.gTotalRamPages + pages)}

/- The last line assigns the global counter; it does not add to it. -/
def fillNode (s : State) (i start stop : Nat) : Option State :=
  let pages := (stop - start) / pageSize
  (carve pages (countPages s i pages) i start stop).map
    (fun s => {s with gFreeRamPages := (s.nodes i).freePages})

def openNode (s : State) (start stop : Nat) : State :=
  {setNode s s.nnodes {s.nodes s.nnodes with base := start,limit := stop} with nnodes := s.nnodes+1}

def growNode (s : State) (i stop : Nat) : State :=
  setNode s i {s.nodes i with limit := if (s.nodes i).limit < stop then stop else (s.nodes i).limit}

def pmmAddRegion (s : State) (base length : Nat) : Option State :=
  if regionEmpty base length then some s else
    let start := regionStart base
    let stop := regionStop base length
    match pmmNodeOf s start with
    | some i => fillNode (growNode s i stop) i start stop
    | none =>
        if maxNodes ≤ s.nnodes then some s
        else fillNode (openNode s start stop) s.nnodes start stop

def availOrder (nd : PmmNode) (ord : Nat) : Option Nat :=
  (List.range' ord (maxOrder+1-ord)).find? (fun avail => nd.free avail != 0)

def splitDown (s : State) (i pa ord : Nat) : Nat → State
  | 0 => s
  | avail+1 =>
      if ord < avail+1 then splitDown (flPush s i avail (wrap (pa + blockSize avail))) i pa ord avail
      else s

def handOut (s : State) (i pa ord : Nat) : State :=
  {subFreePages s i (1 <<< ord) with
    bitmap := bitmapSetBlock s.bitmap pa ord,
    gFreeRamPages := sub64 s.gFreeRamPages (1 <<< ord)}

def allocAt (s : State) (i ord avail : Nat) : State × Nat :=
  let popped := flPop s i avail
  (handOut (splitDown popped.1 i popped.2 ord avail) i popped.2 ord,popped.2)

def allocFrom (s : State) (ord : Nat) : List Nat → State × Nat
  | [] => (s,0)
  | i::rest =>
      match availOrder (s.nodes i) ord with
      | some avail => allocAt s i ord avail
      | none => allocFrom s ord rest

def pmmAllocPages (s : State) (ord : Int) : State × Nat :=
  if ord < 0 ∨ maxOrder < ord then (s,0) else allocFrom s ord.toNat (List.range s.nnodes)

/- The coalescing loop; it runs at most `maxOrder - ord` times. The result is the
state with the merged buddies taken off, and the block to push. -/
def coalesce : Nat → State → (i pa ord : Nat) → State × Nat × Nat
  | 0,s,_,pa,ord => (s,pa,ord)
  | fuel+1,s,i,pa,ord =>
      let buddy := buddyOf pa ord (s.nodes i).base
      if buddy < (s.nodes i).base ∨ (s.nodes i).limit ≤ buddy then (s,pa,ord)
      else if buddyFree s.bitmap buddy ord then
        coalesce fuel (flRemove s i ord buddy) i (min pa buddy) (ord+1)
      else (s,pa,ord)

/- The pages are marked free before the loop looks at any buddy. -/
def unmark (s : State) (pa ord : Nat) : State := {s with bitmap := bitmapClearBlock s.bitmap pa ord}

/- The counters grow by the order reached, not by the order freed. -/
def takeBack (s : State) (i ord : Nat) : State :=
  {addFreePages s i (1 <<< ord) with gFreeRamPages := wrap (s.gFreeRamPages + (1 <<< ord))}

def freeIn (s : State) (i pa ord : Nat) : State :=
  let merged := coalesce (maxOrder-ord) (unmark s pa ord) i pa ord
  takeBack (flPush merged.1 i merged.2.2 merged.2.1) i merged.2.2

def pmmFreePages (s : State) (pa : Nat) (ord : Int) : State :=
  if pa = 0 ∨ ord < 0 ∨ maxOrder < ord then s else
    match pmmNodeOf s pa with
    | none => s
    | some i => freeIn s i pa ord.toNat

def boot (mem : Nat → Nat) (bits : Nat → Bool) : State :=
  ⟨fun _ => ⟨fun _ => 0,0,0,0,0⟩,0,mem,0,0,⟨0,0,bits⟩⟩

/- `memset` covers `bitmap_size` bytes, not the rounded-up page count. -/
def pmmInit (s : State) (bitmapPa bitmapSize : Nat) : State :=
  {s with
    bitmap := ⟨physToVirt bitmapPa,align bitmapSize / pageSize,
      fun pfn => decide (pfn < 8 * bitmapSize) || s.bitmap.bits pfn⟩,
    nnodes := 0,
    gTotalRamPages := 0,
    gFreeRamPages := 0}

def pmmStats (s : State) : Nat × Nat := (s.gTotalRamPages,s.gFreeRamPages)

end Nekros.Pmm
