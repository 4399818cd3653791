import Nekros.PageTable

/-! What one page of vmm_map and vmm_unmap does to the tree of page tables. As long as no
call touches the gigabytes of the boot tables, phys_to_virt stays the window onto the
first gigabyte of memory, and the code's loads and stores are those of the physical
words it means. -/
namespace Nekros.PageTableSteps
open Words Paging PageTable Errno
open Function (update)

def layout (b : Boot) : Layout :=
  ⟨b.pml4,b.pd,fun j i => (j == 0 && i == 0) || (j == 511 && i == 510)⟩

structure Inv (b : Boot) (s : Mmu) (node : Node) : Prop where
  tree : Tree (layout b) s.phys node
  root : s.pml4 = b.pml4
  listed : ∀ p t, node p = some t → t ∈ s.tables
  directory : b.pd ∈ s.tables
  low : ∀ t ∈ s.tables, t < 2^30
  kept : ∀ t ∈ s.tables, t ∉ s.freed

theorem walkExact {b : Boot} {s : Mmu} {node : Node} (h : Inv b s node) (va : Nat) :
    walk s.phys s.pml4 va = if Canonical va then look (layout b) s.phys node va else none := by
  rw [h.root]
  by_cases canonical : Canonical va
  · rw [if_pos canonical]
    exact walkTree h.tree canonical
  · rw [if_neg canonical,walk,if_pos canonical]

theorem plainUnshared {b : Boot} {va : Nat} (plain : Plain va) :
    (layout b).shared (index 39 va) (index 30 va) = false := by
  obtain ⟨canonical,above,below⟩ := plain
  have first : ¬ (index 39 va = 0 ∧ index 30 va = 0) := by
    rw [indexExact,indexExact]
    unfold Canonical at canonical
    omega
  have second : ¬ (index 39 va = 511 ∧ index 30 va = 510) := by
    rw [indexExact,indexExact]
    unfold Canonical at canonical
    omega
  simp only [layout,Bool.or_eq_false_iff,Bool.and_eq_false_iff,beq_eq_false_iff_ne]
  omega

theorem samePage {va : Nat} (canonical : Canonical va) (va' : Nat) :
    (Canonical va' ∧ path va' = path va ∧ index 12 va' = index 12 va) ↔ va' / 2^12 = va / 2^12 := by
  simp only [path,List.cons.injEq,and_true,indexExact]
  unfold Canonical at *
  constructor
  · omega
  · intro same
    have bits : ∀ k, 12 ≤ k → va' / 2^k = va / 2^k := by
      intro k le
      rw [← Nat.sub_add_cancel le,Nat.add_comm,Nat.pow_add,← Nat.div_div_eq_div_mul,
        ← Nat.div_div_eq_div_mul,same]
    rw [bits 39 (by decide),bits 30 (by decide),bits 21 (by decide),same]
    refine ⟨by omega,by simp⟩

theorem windowPlace {pa : Nat} (low : pa < 2^30) : physToVirt pa = 0xFFFFFFFF80000000 + pa := by
  unfold physToVirt wrap kernelBase
  omega

theorem windowWord {t i : Nat} (page : t % 2^12 = 0) (low : t < 2^30) (hi : i < 512) :
    physToVirt t + 8 * i = physToVirt (t + 8 * i) ∧ t + 8 * i < 2^30 := by
  have inside : t + 8 * i < 2^30 := by omega
  refine ⟨?_,inside⟩
  rw [windowPlace low,windowPlace inside,Nat.add_assoc]

theorem windowNotNull {c : Nat} (low : c < 2^30) : physToVirt c ≠ 0 := by
  rw [windowPlace low]
  omega

theorem walkWindow {b : Boot} {s : Mmu} {node : Node} (h : Inv b s node) {pa : Nat} (low : pa < 2^30) :
    walk s.phys s.pml4 (physToVirt pa) = some pa := by
  have place := windowPlace low
  have canonical : Canonical (physToVirt pa) := by
    unfold Canonical
    omega
  have i39 : index 39 (physToVirt pa) = 511 := by
    rw [indexExact]
    omega
  have i30 : index 30 (physToVirt pa) = 510 := by
    rw [indexExact]
    omega
  have absent : node [index 21 (physToVirt pa),510,511] = none :=
    h.tree.closed _ _ (h.tree.sharedLeaf 511 510 rfl)
  have shared : (layout b).shared 511 510 = true := rfl
  rw [walkExact h,if_pos canonical,look,path,i39,i30,absent]
  dsimp only
  rw [shared,if_pos rfl,indexExact]
  congr 1
  omega

theorem loadWord {b : Boot} {s : Mmu} {node : Node} (h : Inv b s node) {t i : Nat} (page : t % 2^12 = 0)
    (low : t < 2^30) (hi : i < 512) : load through s (physToVirt t + 8 * i) = some (entry s.phys t i) := by
  obtain ⟨place,inside⟩ := windowWord page low hi
  rw [load,through,place,walkWindow h inside]
  rfl

theorem storeWord {b : Boot} {s : Mmu} {node : Node} (h : Inv b s node) {t i : Nat} (page : t % 2^12 = 0)
    (low : t < 2^30) (hi : i < 512) (v : Nat) :
    store through s (physToVirt t + 8 * i) v = some {s with phys := update s.phys (t + 8 * i) v} := by
  obtain ⟨place,inside⟩ := windowWord page low hi
  rw [store,through,place,walkWindow h inside]
  rfl

theorem clearWindow {b : Boot} {s : Mmu} {node : Node} (h : Inv b s node) {c : Nat} (low : c < 2^30) :
    clear through s (physToVirt c) = some {s with phys := clearPage s.phys c} := by
  rw [clear,through,walkWindow h low]
  rfl

structure Grew (b : Boot) (s : Mmu) (node : Node) (s' : Mmu) (node' : Node) : Prop where
  inv : Inv b s' node'
  supply : Supply s' s'.answers
  nodes : ∀ p t, node p = some t → node' p = some t
  tables : ∀ t ∈ s.tables, t ∈ s'.tables
  written : ∀ a, s'.phys a ≠ s.phys a → ∃ t ∈ s'.tables, t ≤ a ∧ a < t + pageSize
  walks : ∀ va, walk s'.phys s'.pml4 va = walk s.phys s.pml4 va

theorem grewRefl {b : Boot} {s : Mmu} {node : Node} (h : Inv b s node) (supply : Supply s s.answers) :
    Grew b s node s node :=
  ⟨h,supply,fun _ _ => id,fun _ => id,fun _ changed => absurd rfl changed,fun _ => rfl⟩

theorem writtenTrans {s s' s'' : Mmu} (tables : ∀ t ∈ s'.tables, t ∈ s''.tables)
    (first : ∀ a, s'.phys a ≠ s.phys a → ∃ t ∈ s'.tables, t ≤ a ∧ a < t + pageSize)
    (second : ∀ a, s''.phys a ≠ s'.phys a → ∃ t ∈ s''.tables, t ≤ a ∧ a < t + pageSize) :
    ∀ a, s''.phys a ≠ s.phys a → ∃ t ∈ s''.tables, t ≤ a ∧ a < t + pageSize := by
  intro a changed
  by_cases later : s''.phys a = s'.phys a
  · obtain ⟨t,mem,inside⟩ := first a (fun same => changed (later.trans same))
    exact ⟨t,tables t mem,inside⟩
  · exact second a later

theorem grewTrans {b : Boot} {s s' s'' : Mmu} {node node' node'' : Node} (first : Grew b s node s' node')
    (second : Grew b s' node' s'' node'') : Grew b s node s'' node'' where
  inv := second.inv
  supply := second.supply
  nodes p t found := second.nodes p t (first.nodes p t found)
  tables t mem := second.tables t (first.tables t mem)
  written := writtenTrans second.tables first.written second.written
  walks va := (second.walks va).trans (first.walks va)

theorem tablePage {b : Boot} {s : Mmu} {node : Node} (h : Inv b s node) {p : List Nat} {t : Nat}
    (found : node p = some t) : t % 2^12 = 0 ∧ t < 2^30 :=
  ⟨(h.tree.page p t found).1.1,h.low t (h.listed p t found)⟩

theorem nextFound {b : Boot} {s : Mmu} {node : Node} (h : Inv b s node) {p : List Nat} {t i : Nat}
    (found : node p = some t) (short : p.length < 3) (hi : i < 512) {c : Nat} (child : node (i::p) = some c)
    (alloc : Bool) : ptNextLevel through s (physToVirt t + 8 * i) alloc = some (s,physToVirt c) := by
  obtain ⟨page,low⟩ := tablePage h found
  obtain ⟨up,_,at_c⟩ := pointerExact (h.tree.page _ c child).1
  have word : entry s.phys t i = pointer c :=
    (h.tree.entries p t short found i hi).trans (linkSome child)
  rw [ptNextLevel,loadWord h page low hi,word,Option.bind_some,if_pos up,at_c]

theorem emptyEntry {b : Boot} {s : Mmu} {node : Node} (h : Inv b s node) {p : List Nat} {t i : Nat}
    (found : node p = some t) (short : p.length < 3) (hi : i < 512) (empty : node (i::p) = none)
    (unshared : (layout b).sharedAt p i = false) : entry s.phys t i = 0 :=
  (h.tree.entries p t short found i hi).trans (linkNone empty unshared)

theorem nextAbsent {b : Boot} {s : Mmu} {node : Node} (h : Inv b s node) {p : List Nat} {t i : Nat}
    (found : node p = some t) (short : p.length < 3) (hi : i < 512) (empty : node (i::p) = none)
    (unshared : (layout b).sharedAt p i = false) :
    ptNextLevel through s (physToVirt t + 8 * i) false = some (s,0) := by
  obtain ⟨page,low⟩ := tablePage h found
  rw [ptNextLevel,loadWord h page low hi,emptyEntry h found short hi empty unshared,Option.bind_some,
    if_neg zeroAbsent]
  rfl

def taken (s : Mmu) (a : Nat) (rest : List Nat) : Mmu :=
  {s with answers := rest,freed := s.freed.filter (fun f => f ≠ a)}

theorem takenInv {b : Boot} {s : Mmu} {node : Node} (h : Inv b s node) (a : Nat) (rest : List Nat) :
    Inv b (taken s a rest) node :=
  {h with kept := fun t mem freed => h.kept t mem (List.mem_of_mem_filter freed)}

theorem suppliedFresh {b : Boot} {s : Mmu} {node : Node} (h : Inv b s node) {answers : List Nat}
    (supply : Supply s answers) {a : Nat} (mem : a ∈ answers) (nonzero : a ≠ 0) :
    a % 2^12 = 0 ∧ a < 2^30 ∧ a ∉ s.tables := by
  obtain ⟨page,low,fresh⟩ := supply.2 a mem nonzero
  exact ⟨page,low,fun used => fresh.elim (fun unused => unused used) (h.kept a used)⟩

theorem suppliedFree {b : Boot} {s : Mmu} {node : Node} (h : Inv b s node) {answers : List Nat}
    (supply : Supply s answers) {a : Nat} (mem : a ∈ answers) (nonzero : a ≠ 0) :
    Free (layout b) node a := by
  obtain ⟨page,low,unused⟩ := suppliedFresh h supply mem nonzero
  exact {
    page := ⟨page,Nat.lt_trans low (by decide)⟩
    offPd := fun same => unused (same ▸ h.directory)
    unused := fun p found => unused (h.listed p a found)}

theorem supplyRest {s : Mmu} {a : Nat} {rest : List Nat} (supply : Supply s (a::rest)) (nonzero : a ≠ 0)
    (phys : Nat → Nat) : Supply {taken s a rest with phys,tables := a::s.tables} rest := by
  obtain ⟨distinct,each⟩ := supply
  have kept : decide (a ≠ 0) = true := decide_eq_true nonzero
  rw [List.filter_cons_of_pos (p := fun x => decide (x ≠ 0)) kept,List.nodup_cons] at distinct
  refine ⟨distinct.2,fun x mem nz => ?_⟩
  obtain ⟨page,low,fresh⟩ := each x (List.mem_cons_of_mem _ mem) nz
  have other : x ≠ a := by
    rintro rfl
    exact distinct.1 (List.mem_filter.mpr ⟨mem,kept⟩)
  refine ⟨page,low,fresh.imp (fun unused used => ?_) (fun freed => ?_)⟩
  · exact (List.mem_cons.mp used).elim other unused
  · exact List.mem_filter.mpr ⟨freed,decide_eq_true other⟩

theorem supplySkip {s : Mmu} {rest : List Nat} (supply : Supply s (0::rest)) :
    Supply (taken s 0 rest) rest := by
  obtain ⟨distinct,each⟩ := supply
  refine ⟨by simpa using distinct,fun x mem nz => ?_⟩
  obtain ⟨page,low,fresh⟩ := each x (List.mem_cons_of_mem _ mem) nz
  exact ⟨page,low,fresh.imp_right (fun freed => List.mem_filter.mpr ⟨freed,decide_eq_true nz⟩)⟩

theorem clearedInv {b : Boot} {s : Mmu} {node : Node} (h : Inv b s node) {c : Nat}
    (free : Free (layout b) node c) : Inv b {s with phys := clearPage s.phys c} node := by
  refine {h with tree := treeFrame h.tree (fun p t _ found i hi => ?_) (fun k hk => ?_)}
  · exact entryKept (h.tree.page p t found).1 free.page (fun same => free.unused p (same ▸ found)) hi
  · exact entryKept h.tree.directory.1 free.page free.offPd.symm hk

theorem hangWrites {phys : Nat → Nat} {t i c a : Nat} (hi : i < 512) (changed : hang phys t i c a ≠ phys a) :
    (t ≤ a ∧ a < t + pageSize) ∨ (c ≤ a ∧ a < c + pageSize) := by
  by_cases at_entry : a = t + 8 * i
  · left
    unfold pageSize
    omega
  · right
    rw [hang,Function.update_of_ne at_entry,clearPage] at changed
    split at changed
    · assumption
    · exact absurd rfl changed

theorem hungGrew {b : Boot} {s : Mmu} {node : Node} (h : Inv b s node) {p : List Nat} {t i a : Nat}
    {rest : List Nat} (supply : Supply s (a::rest)) (nonzero : a ≠ 0) (found : node p = some t)
    (short : p.length < 3) (hi : i < 512) (empty : node (i::p) = none)
    (unshared : (layout b).sharedAt p i = false) :
    Grew b s node {taken s a rest with phys := hang s.phys t i a,tables := a::s.tables}
      (update node (i::p) (some a)) := by
  have free := suppliedFree h supply List.mem_cons_self nonzero
  obtain ⟨_,low,unused⟩ := suppliedFresh h supply List.mem_cons_self nonzero
  have inv : Inv b {taken s a rest with phys := hang s.phys t i a,tables := a::s.tables}
      (update node (i::p) (some a)) := by
    refine {
      tree := treeHang h.tree found short hi empty unshared free
      root := h.root
      listed := fun q t' at_q => ?_
      directory := List.mem_cons_of_mem _ h.directory
      low := fun t' mem => ?_
      kept := fun t' mem freed => ?_}
    · rcases hungCases at_q with ⟨_,rfl⟩ | ⟨_,old⟩
      · exact List.mem_cons_self
      · exact List.mem_cons_of_mem _ (h.listed q t' old)
    · exact (List.mem_cons.mp mem).elim (fun same => same ▸ low) (h.low t')
    · obtain ⟨old,other⟩ := List.mem_filter.mp freed
      have differ : t' ≠ a := by simpa using other
      exact (List.mem_cons.mp mem).elim differ (fun used => h.kept t' used old)
  refine {
    inv
    supply := supplyRest supply nonzero _
    nodes := fun q t' old => ?_
    tables := fun t' mem => List.mem_cons_of_mem _ mem
    written := fun x changed => ?_
    walks := fun va => ?_}
  · have other : q ≠ i::p := by
      rintro rfl
      rw [empty] at old
      cases old
    rw [Function.update_of_ne other]
    exact old
  · rcases hangWrites hi changed with inside | inside
    · exact ⟨t,List.mem_cons_of_mem _ (h.listed p t found),inside⟩
    · exact ⟨a,List.mem_cons_self,inside⟩
  · rw [walkExact inv,walkExact h,lookHang h.tree found short hi empty free]

def Placed (s s' : Mmu) (node' : Node) : Prop :=
  ∀ t ∈ s'.tables, t ∈ s.tables ∨ ∃ p, (∀ i ∈ p, i < 512) ∧ node' p = some t

theorem placedTrans {s s' s'' : Mmu} {node' node'' : Node} (first : Placed s s' node')
    (nodes : ∀ p t, node' p = some t → node'' p = some t) (second : Placed s' s'' node'') :
    Placed s s'' node'' := by
  intro t mem
  rcases second t mem with old | new
  · exact (first t old).imp id (fun ⟨p,narrow,found⟩ => ⟨p,narrow,nodes p t found⟩)
  · exact .inr new

/- The position of the first request that the page allocator refuses. -/
def refusedAt (answers : List Nat) : Nat := answers.findIdx (fun a => a = 0)

theorem refusedCons (a : Nat) (rest : List Nat) :
    refusedAt (a::rest) = if a = 0 then 0 else refusedAt rest + 1 := by
  rw [refusedAt,List.findIdx_cons]
  by_cases refused : a = 0 <;> simp [refused,refusedAt]

structure Level (s : Mmu) (node : Node) (q : List Nat) (v : Nat) (s' : Mmu) (node' : Node) : Prop where
  failed : v = 0 → node q = none ∧ refusedAt s.answers = 0
  spent : v ≠ 0 → refusedAt s.answers = refusedAt s'.answers + if node q = none then 1 else 0
  nodes : v ≠ 0 → ∀ p, node' p = none ↔ node p = none ∧ p ≠ q

theorem levelRefused {s s' : Mmu} {node node' : Node} {q : List Nat} (empty : node q = none)
    (refused : refusedAt s.answers = 0) : Level s node q 0 s' node' :=
  ⟨fun _ => ⟨empty,refused⟩,fun some => absurd rfl some,fun some => absurd rfl some⟩

theorem levelFound {s : Mmu} {node : Node} {q : List Nat} {v c : Nat} (nonzero : v ≠ 0)
    (found : node q = some c) : Level s node q v s node := by
  have there : node q ≠ none := by
    rw [found]
    exact Option.some_ne_none c
  refine ⟨fun zero => absurd zero nonzero,fun _ => ?_,fun _ p => ?_⟩
  · rw [if_neg there,Nat.add_zero]
  · refine ⟨fun none => ⟨none,?_⟩,And.left⟩
    rintro rfl
    exact there none

theorem levelHung {s s' : Mmu} {node : Node} {q : List Nat} {v a : Nat} (nonzero : v ≠ 0)
    (empty : node q = none) (answers : refusedAt s.answers = refusedAt s'.answers + 1) :
    Level s node q v s' (update node q (some a)) := by
  refine ⟨fun zero => absurd zero nonzero,fun _ => ?_,fun _ p => ?_⟩
  · rw [if_pos empty,answers]
  · by_cases here : p = q
    · subst here
      simp
    · simp [here]

theorem newLevelGrows {b : Boot} {s : Mmu} {node : Node} (h : Inv b s node) (supply : Supply s s.answers)
    {p : List Nat} {t i : Nat} (found : node p = some t) (narrow : ∀ j ∈ p, j < 512) (short : p.length < 3)
    (hi : i < 512) (empty : node (i::p) = none) (unshared : (layout b).sharedAt p i = false) :
    ∃ s' v node', newLevel through s (physToVirt t + 8 * i) = some (s',v) ∧ Grew b s node s' node' ∧
      Placed s s' node' ∧ (v = 0 ∨ ∃ c, v = physToVirt c ∧ node' (i::p) = some c) ∧
      Level s node (i::p) v s' node' := by
  obtain ⟨page,low⟩ := tablePage h found
  unfold newLevel
  cases answers : s.answers with
  | nil =>
      refine ⟨s,0,node,?_,grewRefl h supply,fun _ => .inl,.inl rfl,levelRefused empty (by rw [answers]; rfl)⟩
      simp only [pmmAllocPage,answers,if_true]
  | cons a rest =>
      rw [answers] at supply
      have took : pmmAllocPage s = (taken s a rest,a) := by simp only [pmmAllocPage,answers,taken]
      rw [took]
      by_cases refused : a = 0
      · subst refused
        refine ⟨taken s 0 rest,0,node,if_pos rfl,?_,fun _ => .inl,.inl rfl,
          levelRefused empty (by rw [answers,refusedCons,if_pos rfl])⟩
        exact ⟨takenInv h 0 rest,supplySkip supply,fun _ _ => id,fun _ => id,
          fun _ changed => absurd rfl changed,fun _ => rfl⟩
      · obtain ⟨_,lowA,_⟩ := suppliedFresh h supply List.mem_cons_self refused
        have free := suppliedFree h supply List.mem_cons_self refused
        have cleared := clearWindow (takenInv h a rest) lowA
        have stored := storeWord (clearedInv (takenInv h a rest) free) page low hi (pointer a)
        have bits : a ||| ptePresent ||| pteWrite = pointer a := Nat.or_assoc a 1 2
        refine ⟨_,physToVirt a,_,?_,hungGrew h supply refused found short hi empty unshared,fun x mem => ?_,
          .inr ⟨a,rfl,Function.update_self _ _ _⟩,levelHung (windowNotNull lowA) empty ?_⟩
        · rw [if_neg refused,cleared,Option.bind_some,bits,stored,Option.bind_some]
          rfl
        · rcases List.mem_cons.mp mem with rfl | old
          · exact .inr ⟨i::p,List.forall_mem_cons.mpr ⟨hi,narrow⟩,Function.update_self _ _ _⟩
          · exact .inl old
        · rw [answers,refusedCons,if_neg refused]
          rfl

theorem nextGrows {b : Boot} {s : Mmu} {node : Node} (h : Inv b s node) (supply : Supply s s.answers)
    {p : List Nat} {t i : Nat} (found : node p = some t) (narrow : ∀ j ∈ p, j < 512) (short : p.length < 3)
    (hi : i < 512) (unshared : (layout b).sharedAt p i = false) :
    ∃ s' v node', ptNextLevel through s (physToVirt t + 8 * i) true = some (s',v) ∧ Grew b s node s' node' ∧
      Placed s s' node' ∧ (v = 0 ∨ ∃ c, v = physToVirt c ∧ node' (i::p) = some c) ∧
      Level s node (i::p) v s' node' := by
  cases child : node (i::p) with
  | some c =>
      exact ⟨s,_,node,nextFound h found short hi child true,grewRefl h supply,fun _ => .inl,.inr ⟨c,rfl,child⟩,
        levelFound (windowNotNull (tablePage h child).2) child⟩
  | none =>
      obtain ⟨page,low⟩ := tablePage h found
      have absent : ptNextLevel through s (physToVirt t + 8 * i) true = newLevel through s (physToVirt t + 8 * i) := by
        rw [ptNextLevel,loadWord h page low hi,emptyEntry h found short hi child unshared,Option.bind_some,
          if_neg zeroAbsent,if_pos rfl]
      rw [absent]
      exact newLevelGrows h supply found narrow short hi child unshared

theorem protExact (flags : Nat) : frame (protOf flags) = 0 ∧ present (protOf flags) := by
  unfold protOf
  split <;> split <;> split <;> decide

theorem leafExact (pa flags va : Nat) :
    leaf (frame pa ||| protOf flags) va = some (frame pa + va % 2^12) := by
  obtain ⟨clear,up⟩ := protExact flags
  have here : present (frame pa ||| protOf flags) := by
    rw [presentExact] at up ⊢
    rw [Nat.or_mod_two_eq_one]
    exact .inr up
  have place : frame (frame pa ||| protOf flags) = frame pa := by
    have twice : frame (frame pa) = frame pa := by
      rw [frame,frame,Nat.and_assoc,Nat.and_self]
    rw [frame,Nat.and_or_distrib_right]
    show frame (frame pa) ||| frame (protOf flags) = _
    rw [twice,clear,Nat.or_zero]
  rw [leaf,if_pos here,place]

structure Stored (b : Boot) (s : Mmu) (node : Node) (va v : Nat) (s' : Mmu) : Prop where
  inv : Inv b s' node
  answers : s'.answers = s.answers
  tables : s'.tables = s.tables
  freed : s'.freed = s.freed
  written : ∀ a, s'.phys a ≠ s.phys a → ∃ t ∈ s'.tables, t ≤ a ∧ a < t + pageSize
  walks : ∀ va', walk s'.phys s'.pml4 va' =
    if va' / 2^12 = va / 2^12 then leaf v va' else walk s.phys s.pml4 va'

theorem storeLeaf {b : Boot} {s : Mmu} {node : Node} (h : Inv b s node) {va t : Nat}
    (canonical : Canonical va) (found : node (path va) = some t) (v : Nat) :
    ∃ s', store through s (physToVirt t + 8 * index 12 va) v = some s' ∧ Stored b s node va v s' := by
  obtain ⟨page,low⟩ := tablePage h found
  have hi := indexLt 12 va
  have inv : Inv b {s with phys := update s.phys (t + 8 * index 12 va) v} node :=
    {h with tree := treeSetLeaf h.tree found rfl hi v}
  refine ⟨_,storeWord h page low hi v,inv,rfl,rfl,rfl,fun a changed => ?_,fun va' => ?_⟩
  · have there : a = t + 8 * index 12 va := by
      by_contra other
      exact changed (Function.update_of_ne other _ _)
    refine ⟨t,h.listed _ t found,?_⟩
    unfold pageSize
    omega
  · rw [walkExact inv,walkExact h,lookSetLeaf h.tree found]
    have same := samePage canonical va'
    by_cases reach : Canonical va'
    · rw [if_pos reach,if_pos reach]
      exact if_congr (by rw [← same]; exact ⟨fun both => ⟨reach,both⟩,fun all => all.2⟩) rfl rfl
    · rw [if_neg reach,if_neg reach,if_neg (fun eq => reach (same.mpr eq).1)]

structure PageDone (b : Boot) (s : Mmu) (va pa : Nat) (s' : Mmu) (code : Int) : Prop where
  inv : ∃ node, Inv b s' node
  supply : Supply s' s'.answers
  tables : ∀ t ∈ s.tables, t ∈ s'.tables
  written : ∀ a, s'.phys a ≠ s.phys a → ∃ t ∈ s'.tables, t ≤ a ∧ a < t + pageSize
  walks : code = 0 → ∀ va', walk s'.phys s'.pml4 va' =
    if va' / 2^12 = va / 2^12 then some (frame pa + va' % 2^12) else walk s.phys s.pml4 va'

theorem pageStored {b : Boot} {s s' s'' : Mmu} {node node' : Node} (grew : Grew b s node s' node')
    {va pa flags : Nat} (stored : Stored b s' node' va (frame pa ||| protOf flags) s'') :
    PageDone b s va pa s'' 0 where
  inv := ⟨node',stored.inv⟩
  supply := by
    obtain ⟨distinct,each⟩ := grew.supply
    rw [stored.answers]
    refine ⟨distinct,?_⟩
    rw [stored.tables,stored.freed]
    exact each
  tables := by
    rw [stored.tables]
    exact grew.tables
  written := writtenTrans (fun _ mem => stored.tables ▸ mem) grew.written stored.written
  walks _ va' := by rw [stored.walks,leafExact,grew.walks]

/-! The three tables under the root on the way to a page, and how many of them are not there yet. -/

def ways (va : Nat) : List (List Nat) := [[index 39 va],[index 30 va,index 39 va],path va]

def missing (node : Node) (va : Nat) : Nat := (ways va).countP (fun p => node p = none)

theorem missingSum (node : Node) (va : Nat) : missing node va =
    (if node [index 39 va] = none then 1 else 0) +
      (if node [index 30 va,index 39 va] = none then 1 else 0) + if node (path va) = none then 1 else 0 := by
  simp only [missing,ways,List.countP_cons,List.countP_nil,decide_eq_true_eq]
  omega

def Ended (b : Boot) (s : Mmu) (node : Node) (va v : Nat) (s' : Mmu) (code : Int) : Prop :=
  ∃ s1 node1, Grew b s node s1 node1 ∧ Placed s s1 node1 ∧
    ((code = -enomem ∧ s' = s1 ∧ refusedAt s.answers < missing node va) ∨
      (code = 0 ∧ Stored b s1 node1 va v s' ∧ refusedAt s.answers = refusedAt s1.answers + missing node va ∧
        ∀ p, node1 p = none ↔ node p = none ∧ p ∉ ways va))

theorem mapPageEnds {b : Boot} {s : Mmu} {node : Node} (h : Inv b s node) (supply : Supply s s.answers)
    {va : Nat} (plain : Plain va) (pa flags : Nat) :
    ∃ s' code, mapPage through s va pa (protOf flags) = some (s',code) ∧
      Ended b s node va (frame pa ||| protOf flags) s' code := by
  have unshared := plainUnshared (b := b) plain
  have failed : ∀ {s1 : Mmu} {node1 : Node}, Grew b s node s1 node1 → Placed s s1 node1 →
      refusedAt s.answers < missing node va →
      ∃ s' code, some (s1,-(enomem : Int)) = some (s',code) ∧
        Ended b s node va (frame pa ||| protOf flags) s' code :=
    fun grew placed few => ⟨_,-enomem,rfl,_,_,grew,placed,.inl ⟨rfl,rfl,few⟩⟩
  have total := missingSum node va
  obtain ⟨s1,v1,node1,ran1,grew1,placed1,down1,level1⟩ :=
    nextGrows h supply h.tree.rooted (by simp) (by decide) (indexLt 39 va) rfl
  rw [show (layout b).root = s.pml4 from h.root.symm] at ran1
  rw [mapPage,ran1,Option.bind_some]
  by_cases null1 : v1 = 0
  · rw [if_pos null1]
    obtain ⟨empty,refused⟩ := level1.failed null1
    rw [if_pos empty] at total
    exact failed grew1 placed1 (by omega)
  obtain ⟨t1,rfl,found1⟩ := down1.resolve_left null1
  have spent1 := level1.spent null1
  have second : node1 [index 30 va,index 39 va] = none ↔ node [index 30 va,index 39 va] = none := by
    simp [level1.nodes null1]
  obtain ⟨s2,v2,node2,ran2,grew2,placed2,down2,level2⟩ :=
    nextGrows grew1.inv grew1.supply found1 (by simp [indexLt]) (by simp) (indexLt 30 va) unshared
  have grew12 := grewTrans grew1 grew2
  have placed12 := placedTrans placed1 grew2.nodes placed2
  rw [if_neg null1,ran2,Option.bind_some]
  by_cases null2 : v2 = 0
  · rw [if_pos null2]
    obtain ⟨empty,refused⟩ := level2.failed null2
    rw [if_pos (second.mp empty)] at total
    exact failed grew12 placed12 (by omega)
  obtain ⟨t2,rfl,found2⟩ := down2.resolve_left null2
  have spent2 := level2.spent null2
  rw [if_congr second rfl rfl] at spent2
  have third : node2 (path va) = none ↔ node (path va) = none := by
    simp [level2.nodes null2,level1.nodes null1,path]
  obtain ⟨s3,v3,node3,ran3,grew3,placed3,down3,level3⟩ :=
    nextGrows grew2.inv grew2.supply found2 (by simp [indexLt]) (by simp) (indexLt 21 va) rfl
  have grew := grewTrans grew12 grew3
  have placed := placedTrans placed12 grew3.nodes placed3
  rw [if_neg null2,ran3,Option.bind_some]
  by_cases null3 : v3 = 0
  · rw [if_pos null3]
    obtain ⟨empty,refused⟩ := level3.failed null3
    rw [if_pos (third.mp empty)] at total
    exact failed grew placed (by omega)
  obtain ⟨t3,rfl,found3⟩ := down3.resolve_left null3
  have spent3 : refusedAt s2.answers = refusedAt s3.answers + if node2 (path va) = none then 1 else 0 :=
    level3.spent null3
  rw [if_congr third rfl rfl] at spent3
  obtain ⟨s4,ran4,stored⟩ := storeLeaf grew3.inv plain.1 found3 (frame pa ||| protOf flags)
  rw [if_neg null3,ran4,Option.map_some]
  refine ⟨s4,0,rfl,_,_,grew,placed,.inr ⟨rfl,stored,by omega,fun p => ?_⟩⟩
  rw [level3.nodes null3,level2.nodes null2,level1.nodes null1]
  simp only [ways,path,List.mem_cons,List.not_mem_nil,or_false,not_or,and_assoc]

theorem mapPageSpec {b : Boot} {s : Mmu} {node : Node} (h : Inv b s node) (supply : Supply s s.answers)
    {va : Nat} (plain : Plain va) (pa flags : Nat) :
    ∃ s' code, mapPage through s va pa (protOf flags) = some (s',code) ∧ PageDone b s va pa s' code := by
  obtain ⟨s',code,ran,s1,node1,grew,_,ended⟩ := mapPageEnds h supply plain pa flags
  refine ⟨s',code,ran,?_⟩
  rcases ended with ⟨rfl,rfl,_⟩ | ⟨rfl,stored,_⟩
  · exact ⟨⟨node1,grew.inv⟩,grew.supply,grew.tables,grew.written,fun zero => absurd zero (by decide)⟩
  · exact pageStored grew stored

structure PageGone (b : Boot) (s : Mmu) (va : Nat) (s' : Mmu) : Prop where
  inv : ∃ node, Inv b s' node
  tables : s'.tables = s.tables
  walks : ∀ va', walk s'.phys s'.pml4 va' =
    if va' / 2^12 = va / 2^12 then none else walk s.phys s.pml4 va'

def behind (s : Mmu) (va : Nat) : List Nat := ((walk s.phys s.pml4 va).map alignDown).toList

structure PageCleared (b : Boot) (s : Mmu) (node : Node) (va : Nat) (freePhys : Bool) (s' : Mmu) : Prop where
  inv : Inv b s' node
  answers : s'.answers = s.answers
  tables : s'.tables = s.tables
  freed : s'.freed = (if freePhys = true then behind s va else []) ++ s.freed
  walks : ∀ va', walk s'.phys s'.pml4 va' =
    if va' / 2^12 = va / 2^12 then none else walk s.phys s.pml4 va'

theorem walkAbsent {b : Boot} {s : Mmu} {node : Node} (h : Inv b s node) {va va' : Nat} (plain : Plain va)
    (absent : node (path va) = none) (same : va' / 2^12 = va / 2^12) : walk s.phys s.pml4 va' = none := by
  obtain ⟨canonical,samePath,_⟩ := (samePage plain.1 va').mpr same
  have upper := (List.cons.inj samePath).2
  have i30 : index 30 va' = index 30 va := (List.cons.inj upper).1
  have i39 : index 39 va' = index 39 va := (List.cons.inj (List.cons.inj upper).2).1
  rw [walkExact h,if_pos canonical,look,samePath,absent]
  dsimp only
  rw [i30,i39,plainUnshared plain]
  rfl

theorem pageAbsent {b : Boot} {s : Mmu} {node : Node} (h : Inv b s node) {va : Nat} (plain : Plain va)
    (absent : node (path va) = none) (freePhys : Bool) : PageCleared b s node va freePhys s where
  inv := h
  answers := rfl
  tables := rfl
  freed := by simp [behind,walkAbsent h plain absent rfl]
  walks va' := by
    by_cases same : va' / 2^12 = va / 2^12
    · rw [if_pos same,walkAbsent h plain absent same]
    · rw [if_neg same]

theorem walkLeaf {b : Boot} {s : Mmu} {node : Node} (h : Inv b s node) {va t : Nat} (canonical : Canonical va)
    (found : node (path va) = some t) :
    walk s.phys s.pml4 va = leaf (entry s.phys t (index 12 va)) va := by
  rw [walkExact h,if_pos canonical,look,found]

theorem frameAligned (e off : Nat) (small : off < 2^12) : alignDown (frame e + off) = frame e := by
  rw [frameExact,alignDown,pageSize]
  omega

theorem clearEntrySpec {b : Boot} {s : Mmu} {node : Node} (h : Inv b s node) {va t : Nat} (plain : Plain va)
    (found : node (path va) = some t) {freePhys : Bool}
    (unowned : freePhys = true → ∀ pa ∈ walk s.phys s.pml4 va, alignDown pa ∉ s.tables) :
    ∃ s', clearEntry through s (physToVirt t + 8 * index 12 va) freePhys = some s' ∧
      PageCleared b s node va freePhys s' := by
  obtain ⟨page,low⟩ := tablePage h found
  have mapped := walkLeaf h plain.1 found
  rw [clearEntry,loadWord h page low (indexLt 12 va),Option.bind_some]
  have finish : ∀ freed, freed = (if freePhys = true then behind s va else []) ++ s.freed → Inv b {s with freed} node →
      ∃ s', store through {s with freed} (physToVirt t + 8 * index 12 va) 0 = some s' ∧
        PageCleared b s node va freePhys s' := by
    intro freed given inv
    obtain ⟨s',ran,stored⟩ := storeLeaf inv plain.1 found 0
    exact ⟨s',ran,stored.inv,stored.answers,stored.tables,stored.freed.trans given,stored.walks⟩
  split
  · rename_i both
    rw [leaf,if_pos both.2] at mapped
    have off : va % 2^12 < 2^12 := Nat.mod_lt _ (by decide)
    have given : behind s va = [frame (entry s.phys t (index 12 va))] := by
      rw [behind,mapped,Option.map_some,frameAligned _ _ off]
      rfl
    refine finish (frame (entry s.phys t (index 12 va))::s.freed) (by rw [if_pos both.1,given]; rfl)
      {h with kept := fun t' mem freed => ?_}
    rcases List.mem_cons.mp freed with rfl | old
    · have clash := unowned both.1 _ (Option.mem_def.mpr mapped)
      rw [frameAligned _ _ off] at clash
      exact clash mem
    · exact h.kept t' mem old
  · rename_i kept
    refine finish s.freed ?_ h
    split
    · rename_i frees
      rw [leaf,if_neg (fun up => kept ⟨frees,up⟩)] at mapped
      rw [behind,mapped]
      rfl
    · rfl

theorem unmapPageReaches {b : Boot} {s : Mmu} {node : Node} (h : Inv b s node) {va : Nat} (plain : Plain va)
    (freePhys : Bool) :
    (node (path va) = none ∧ unmapPage through s va freePhys = some s) ∨
    ∃ t, node (path va) = some t ∧
      unmapPage through s va freePhys = clearEntry through s (physToVirt t + 8 * index 12 va) freePhys := by
  have unshared := plainUnshared (b := b) plain
  have root : s.pml4 = (layout b).root := h.root
  have closed := h.tree.closed
  rw [unmapPage,root]
  cases first : node [index 39 va] with
  | none =>
      rw [nextAbsent h h.tree.rooted (by decide) (indexLt 39 va) first rfl,Option.bind_some,if_pos rfl]
      exact .inl ⟨closed _ _ (closed _ _ first),rfl⟩
  | some t1 =>
      rw [nextFound h h.tree.rooted (by decide) (indexLt 39 va) first,Option.bind_some,
        if_neg (windowNotNull (tablePage h first).2)]
      cases second : node [index 30 va,index 39 va] with
      | none =>
          rw [nextAbsent h first (by simp) (indexLt 30 va) second unshared,Option.bind_some,if_pos rfl]
          exact .inl ⟨closed _ _ second,rfl⟩
      | some t2 =>
          rw [nextFound h first (by simp) (indexLt 30 va) second,Option.bind_some,
            if_neg (windowNotNull (tablePage h second).2)]
          cases third : node [index 21 va,index 30 va,index 39 va] with
          | none =>
              rw [nextAbsent h second (by simp) (indexLt 21 va) third rfl,Option.bind_some,if_pos rfl]
              exact .inl ⟨third,rfl⟩
          | some t3 =>
              rw [nextFound h second (by simp) (indexLt 21 va) third,Option.bind_some,
                if_neg (windowNotNull (tablePage h third).2)]
              exact .inr ⟨t3,third,rfl⟩

theorem unmapPageClears {b : Boot} {s : Mmu} {node : Node} (h : Inv b s node) {va : Nat} (plain : Plain va)
    {freePhys : Bool} (unowned : freePhys = true → ∀ pa ∈ walk s.phys s.pml4 va, alignDown pa ∉ s.tables) :
    ∃ s', unmapPage through s va freePhys = some s' ∧ PageCleared b s node va freePhys s' := by
  rcases unmapPageReaches h plain freePhys with ⟨absent,ran⟩ | ⟨t,found,ran⟩
  · exact ⟨s,ran,pageAbsent h plain absent freePhys⟩
  · rw [ran]
    exact clearEntrySpec h plain found unowned

theorem unmapPageSpec {b : Boot} {s : Mmu} {node : Node} (h : Inv b s node) {va : Nat} (plain : Plain va)
    {freePhys : Bool} (unowned : freePhys = true → ∀ pa ∈ walk s.phys s.pml4 va, alignDown pa ∉ s.tables) :
    ∃ s', unmapPage through s va freePhys = some s' ∧ PageGone b s va s' := by
  obtain ⟨s',ran,gone⟩ := unmapPageClears h plain unowned
  exact ⟨s',ran,⟨node,gone.inv⟩,gone.tables,gone.walks⟩

end Nekros.PageTableSteps
