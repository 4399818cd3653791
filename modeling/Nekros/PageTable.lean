import Nekros.Errno
import Nekros.Words
import Nekros.Loops
import Nekros.GuardedRun
import Nekros.Paging

/-! mm/vmm.c, the page tables: pt_next_level, vmm_map and vmm_unmap, from the tables
setup_paging of entry.S has built. Memory is physical; the code reaches it through
phys_to_virt, so each of its loads and stores goes through the very tables it edits.
What pmm_alloc_page answers is part of the state. The TLB is left out: invlpg follows
every entry that is cleared. -/
namespace Nekros.PageTable
open Words Loops Paging Errno
open Function (update)

/- `pml4` is the physical address in cr3. `tables` lists the pages in use as page tables,
`freed` the frames given back to the page allocator and not given out again. -/
structure Mmu where
  phys : Nat → Nat
  pml4 : Nat
  answers : List Nat
  tables : List Nat
  freed : List Nat

def pmmAllocPage (s : Mmu) : Mmu × Nat :=
  match s.answers with
  | [] => (s,0)
  | pa::rest => ({s with answers := rest,freed := s.freed.filter (fun f => f ≠ pa)},pa)

def pmmFreePage (s : Mmu) (pa : Nat) : Mmu := {s with freed := pa::s.freed}

def ptePresent : Nat := 1

def pteWrite : Nat := 2

def pteUser : Nat := 4

def pteNx : Nat := 2^63

def vmmWrite : Nat := 1

def vmmUser : Nat := 2

def vmmExec : Nat := 4

def protOf (flags : Nat) : Nat :=
  ptePresent ||| (if flags &&& vmmWrite ≠ 0 then pteWrite else 0) |||
    (if flags &&& vmmUser ≠ 0 then pteUser else 0) ||| (if flags &&& vmmExec = 0 then pteNx else 0)

def pageAt (start i : Nat) : Nat := wrap (start + i * pageSize)

/- The translation of the code's own accesses is a parameter: usually they go through the tables
that the code edits. -/
section Code
variable (reach : Mmu → Nat → Option Nat)

def load (s : Mmu) (va : Nat) : Option Nat := (reach s va).map s.phys

def store (s : Mmu) (va v : Nat) : Option Mmu :=
  (reach s va).map (fun pa => {s with phys := update s.phys pa v})

def clear (s : Mmu) (va : Nat) : Option Mmu :=
  (reach s va).map (fun pa => {s with phys := clearPage s.phys pa})

def newLevel (s : Mmu) (entryPtr : Nat) : Option (Mmu × Nat) :=
  let taken := pmmAllocPage s
  if taken.2 = 0 then some (taken.1,0) else
    (clear reach taken.1 (physToVirt taken.2)).bind fun s =>
    (store reach s entryPtr (taken.2 ||| ptePresent ||| pteWrite)).bind fun s =>
    some ({s with tables := taken.2::s.tables},physToVirt taken.2)

/- `entryPtr` and the answer are kernel addresses; 0 is NULL. -/
def ptNextLevel (s : Mmu) (entryPtr : Nat) (alloc : Bool) : Option (Mmu × Nat) :=
  (load reach s entryPtr).bind fun e =>
    if present e then some (s,physToVirt (frame e))
    else if alloc then newLevel reach s entryPtr
    else some (s,0)

def mapPage (s : Mmu) (va pa prot : Nat) : Option (Mmu × Int) :=
  (ptNextLevel reach s (physToVirt s.pml4 + 8 * index 39 va) true).bind fun pdpt =>
  if pdpt.2 = 0 then some (pdpt.1,-enomem) else
  (ptNextLevel reach pdpt.1 (pdpt.2 + 8 * index 30 va) true).bind fun pd =>
  if pd.2 = 0 then some (pd.1,-enomem) else
  (ptNextLevel reach pd.1 (pd.2 + 8 * index 21 va) true).bind fun pt =>
  if pt.2 = 0 then some (pt.1,-enomem) else
  (store reach pt.1 (pt.2 + 8 * index 12 va) (frame pa ||| prot)).map (fun s => (s,0))

def mapPages (virt phys prot : Nat) : (left i : Nat) → Mmu → Option (Mmu × Int)
  | 0,_,s => some (s,0)
  | left+1,i,s => (mapPage reach s (pageAt virt i) (pageAt phys i) prot).bind fun r =>
      if r.2 = 0 then mapPages virt phys prot left (i+1) r.1 else some r

def vmmMap (s : Mmu) (virt phys pages flags : Nat) : Option (Mmu × Int) :=
  mapPages reach virt phys (protOf flags) pages 0 s

def clearEntry (s : Mmu) (entryPtr : Nat) (freePhys : Bool) : Option Mmu :=
  (load reach s entryPtr).bind fun e =>
    store reach (if freePhys = true ∧ present e then pmmFreePage s (frame e) else s) entryPtr 0

def unmapPage (s : Mmu) (va : Nat) (freePhys : Bool) : Option Mmu :=
  (ptNextLevel reach s (physToVirt s.pml4 + 8 * index 39 va) false).bind fun pdpt =>
  if pdpt.2 = 0 then some pdpt.1 else
  (ptNextLevel reach pdpt.1 (pdpt.2 + 8 * index 30 va) false).bind fun pd =>
  if pd.2 = 0 then some pd.1 else
  (ptNextLevel reach pd.1 (pd.2 + 8 * index 21 va) false).bind fun pt =>
  if pt.2 = 0 then some pt.1 else
  clearEntry reach pt.1 (pt.2 + 8 * index 12 va) freePhys

def unmapPages (virt : Nat) (freePhys : Bool) : (left i : Nat) → Mmu → Option Mmu
  | 0,_,s => some s
  | left+1,i,s => (unmapPage reach s (pageAt virt i) freePhys).bind fun s =>
      unmapPages virt freePhys left (i+1) s

def vmmUnmap (s : Mmu) (virt pages : Nat) (freePhys : Bool) : Option Mmu :=
  unmapPages reach virt freePhys pages 0 s

end Code

def through (s : Mmu) (va : Nat) : Option Nat := walk s.phys s.pml4 va

structure Boot where
  mem : Nat → Nat
  pml4 : Nat
  pdptLo : Nat
  pdptHi : Nat
  pd : Nat
  pages : ∀ t ∈ [pml4,pdptLo,pdptHi,pd], t % pageSize = 0 ∧ t < 2^30
  distinct : [pml4,pdptLo,pdptHi,pd].Nodup
  zero : ∀ t ∈ [pml4,pdptLo,pdptHi], ∀ i < 512, mem (t + 8 * i) = 0

def setupUpper (b : Boot) : Nat → Nat :=
  let m := update b.mem b.pml4 (b.pdptLo ||| 3)
  let m := update m (b.pml4 + 511 * 8) (b.pdptHi ||| 3)
  let m := update m b.pdptLo (b.pd ||| 3)
  update m (b.pdptHi + 510 * 8) (b.pd ||| 3)

def setupPaging (b : Boot) : Nat → Nat :=
  upTo 512 (fun k m => update m (b.pd + 8 * k) ((k <<< 21) ||| 0x83)) (setupUpper b)

def start (b : Boot) : Mmu := ⟨setupPaging b,b.pml4,[],[b.pml4,b.pdptLo,b.pdptHi,b.pd],[]⟩

/- `other` is whatever else writes memory between two calls. -/
inductive Event where
  | map (virt phys pages flags : Nat) (answers : List Nat)
  | unmap (virt pages : Nat) (freePhys : Bool)
  | other (phys : Nat → Nat)

def step (s : Mmu) : Event → Option Mmu
  | .map virt phys pages flags answers => (vmmMap through {s with answers} virt phys pages flags).map Prod.fst
  | .unmap virt pages freePhys => vmmUnmap through s virt pages freePhys
  | .other phys => some {s with phys}

/- An address the walk can reach, outside the two gigabytes the boot tables map with 2 MB
pages. -/
def Plain (va : Nat) : Prop :=
  Canonical va ∧ 2^30 ≤ va ∧ ¬ (2^64 - 2^31 ≤ va ∧ va < 2^64 - 2^30)
instance (va) : Decidable (Plain va) := by unfold Plain; infer_instance

/- The pages the allocator answers with are different from each other and from the tables
in use, and phys_to_virt reaches them. -/
def Supply (s : Mmu) (answers : List Nat) : Prop :=
  (answers.filter (fun a => a ≠ 0)).Nodup ∧
    ∀ a ∈ answers, a ≠ 0 → a % pageSize = 0 ∧ a < 2^30 ∧ (a ∉ s.tables ∨ a ∈ s.freed)
instance (s answers) : Decidable (Supply s answers) := by unfold Supply; infer_instance

def Safe (s : Mmu) : Event → Prop
  | .map virt _ pages _ answers => (∀ i < pages, Plain (pageAt virt i)) ∧ Supply s answers
  | .unmap virt pages freePhys => (∀ i < pages, Plain (pageAt virt i)) ∧
      (freePhys = true → ∀ i < pages, ∀ pa ∈ walk s.phys s.pml4 (pageAt virt i), alignDown pa ∉ s.tables)
  | .other phys => ∀ t ∈ s.tables, t ∉ s.freed → ∀ i < 512, phys (t + 8 * i) = s.phys (t + 8 * i)
instance (s e) : Decidable (Safe s e) := by cases e <;> unfold Safe <;> infer_instance

end Nekros.PageTable
