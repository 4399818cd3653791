import Nekros.PageRights
import Nekros.PageTable

/-! The permissions vmm_map of mm/vmm.c gives, from an empty PML4 on. An empty PML4
maps nothing, so its tables are edited through a window that is mapped elsewhere. -/
namespace Nekros.PagePermissions
open Words Paging PageRights Errno
open PageTable (Mmu pmmAllocPage pmmFreePage ptePresent pteWrite pteUser pteNx vmmWrite vmmUser vmmExec
  protOf pageAt load store clear newLevel ptNextLevel mapPage mapPages vmmMap clearEntry unmapPage unmapPages
  vmmUnmap)
open GuardedRun (run Guarded)
open Function (update)

def window (_ : Mmu) (va : Nat) : Option Nat := some (virtToPhys va)

/- The pages the allocator answers with are no tables yet; an answer of 0 is an allocation that
fails, and so is the end of the list. -/
def Supply (s : Mmu) (answers : List Nat) : Prop :=
  (answers.filter (fun a => a ≠ 0)).Nodup ∧ ∀ a ∈ answers, a ≠ 0 → Page a ∧ a ∉ s.tables
instance (s answers) : Decidable (Supply s answers) := by unfold Supply; infer_instance

/- A table whose kernel address is NULL is taken for a missing one; the root is never asked. -/
structure Inv (s : Mmu) (level : Nat → Option Nat) : Prop where
  levels : Levels s.phys s.pml4 level
  listed : ∀ t n, level t = some n → t ∈ s.tables
  null : ∀ t n, level t = some n → n < 4 → physToVirt t = 0 → ∀ i < 512, entry s.phys t i = 0

theorem windowWord {t i : Nat} (page : Page t) (hi : i < 512) : virtToPhys (physToVirt t + 8 * i) = t + 8 * i := by
  unfold Page at page
  unfold virtToPhys physToVirt sub64 wrap kernelBase
  omega

theorem loadWord (s : Mmu) {t i : Nat} (page : Page t) (hi : i < 512) :
    load window s (physToVirt t + 8 * i) = some (entry s.phys t i) := by
  rw [load,window,windowWord page hi]
  rfl

theorem storeWord (s : Mmu) {t i : Nat} (page : Page t) (hi : i < 512) (v : Nat) :
    store window s (physToVirt t + 8 * i) v = some {s with phys := update s.phys (t + 8 * i) v} := by
  rw [store,window,windowWord page hi]
  rfl

theorem clearWord (s : Mmu) {c : Nat} (page : Page c) :
    clear window s (physToVirt c) = some {s with phys := clearPage s.phys c} := by
  rw [clear,window,virtToPhysToVirt (Nat.lt_trans page.2 (by decide))]
  rfl

theorem pointerBits (c : Nat) : c ||| ptePresent ||| pteWrite = pointer c := by
  rw [Nat.or_assoc]
  rfl

structure Grew (s : Mmu) (level : Nat → Option Nat) (s' : Mmu) (level' : Nat → Option Nat) : Prop where
  inv : Inv s' level'
  supply : Supply s' s'.answers
  root : s'.pml4 = s.pml4
  kept : ∀ t n, level t = some n → level' t = some n
  pointers : ∀ t n i c, level t = some (n+2) → i < 512 → entry s.phys t i = pointer c →
    entry s'.phys t i = pointer c
  access : ∀ va, granted s'.phys s'.pml4 va = granted s.phys s.pml4 va

theorem grewRefl {s : Mmu} {level : Nat → Option Nat} (h : Inv s level) (supply : Supply s s.answers) :
    Grew s level s level :=
  ⟨h,supply,rfl,fun _ _ => id,fun _ _ _ _ _ _ => id,fun _ => rfl⟩

theorem grewTrans {s s' s'' : Mmu} {level level' level'' : Nat → Option Nat} (first : Grew s level s' level')
    (second : Grew s' level' s'' level'') : Grew s level s'' level'' where
  inv := second.inv
  supply := second.supply
  root := second.root.trans first.root
  kept t n here := second.kept t n (first.kept t n here)
  pointers t n i c here hi found := second.pointers t n i c (first.kept t _ here) hi (first.pointers t n i c here hi found)
  access va := (second.access va).trans (first.access va)

theorem allocRest {s : Mmu} {level : Nat → Option Nat} (h : Inv s level) (supply : Supply s s.answers) :
    Grew s level (pmmAllocPage s).1 level := by
  unfold pmmAllocPage
  cases answers : s.answers with
  | nil => exact grewRefl h supply
  | cons a rest =>
      refine ⟨⟨h.levels,h.listed,h.null⟩,?_,rfl,fun _ _ => id,fun _ _ _ _ _ _ => id,fun _ => rfl⟩
      rw [answers] at supply
      obtain ⟨nodup,fresh⟩ := supply
      refine ⟨?_,fun x mem => fresh x (List.mem_cons_of_mem a mem)⟩
      rw [List.filter_cons] at nodup
      split at nodup
      · exact (List.nodup_cons.mp nodup).2
      · exact nodup

theorem allocFresh {s : Mmu} (supply : Supply s s.answers) (got : (pmmAllocPage s).2 ≠ 0) :
    Page (pmmAllocPage s).2 ∧ (pmmAllocPage s).2 ∉ s.tables ∧
      (pmmAllocPage s).2 ∉ (pmmAllocPage s).1.answers ∧ (pmmAllocPage s).1.tables = s.tables ∧
      (pmmAllocPage s).1.phys = s.phys ∧ (pmmAllocPage s).1.pml4 = s.pml4 := by
  unfold pmmAllocPage at *
  cases answers : s.answers with
  | nil =>
      rw [answers] at got
      exact absurd rfl got
  | cons a rest =>
      rw [answers] at got supply
      obtain ⟨page,out⟩ := supply.2 a List.mem_cons_self got
      refine ⟨page,out,fun again => ?_,rfl,rfl,rfl⟩
      have nodup := supply.1
      rw [List.filter_cons,if_pos (by simpa using got)] at nodup
      exact (List.nodup_cons.mp nodup).1 (List.mem_filter.mpr ⟨again,by simpa using got⟩)

def hung (s : Mmu) (t i : Nat) : Mmu :=
  {(pmmAllocPage s).1 with
    phys := hang s.phys t i (pmmAllocPage s).2,
    tables := (pmmAllocPage s).2::s.tables}

theorem newLevelHung {s : Mmu} {t i : Nat} (supply : Supply s s.answers) (got : (pmmAllocPage s).2 ≠ 0)
    (page : Page t) (hi : i < 512) :
    newLevel window s (physToVirt t + 8 * i) = some (hung s t i,physToVirt (pmmAllocPage s).2) := by
  obtain ⟨new,_,_,tables,phys,_⟩ := allocFresh supply got
  rw [newLevel,if_neg got,clearWord _ new,Option.bind_some,pointerBits,storeWord _ page hi,Option.bind_some,tables,phys]
  rfl

section Hung
variable {s : Mmu} {level : Nat → Option Nat} {t i n : Nat} (h : Inv s level) (supply : Supply s s.answers)
  (got : (pmmAllocPage s).2 ≠ 0)

include h supply got in
theorem newUnlevelled : level (pmmAllocPage s).2 = none := by
  cases found : level (pmmAllocPage s).2 with
  | none => rfl
  | some m => exact absurd (h.listed _ m found) (allocFresh supply got).2.1

include h supply got in
theorem hungInv (here : level t = some (n+2)) (hi : i < 512) (asked : n + 2 < 4 → physToVirt t ≠ 0) :
    Inv (hung s t i) (update level (pmmAllocPage s).2 (some (n+1))) := by
  obtain ⟨new,_,_,_,_,root⟩ := allocFresh supply got
  have fresh := newUnlevelled h supply got
  refine ⟨?_,fun t' m at_t => ?_,fun t' m at_t inner null j hj => ?_⟩
  · show Levels (hang s.phys t i _) (pmmAllocPage s).1.pml4 _
    rw [root]
    exact levelsHang h.levels fresh new here hi
  · rcases hungCases at_t with ⟨rfl,_⟩ | ⟨_,old⟩
    · exact List.mem_cons_self
    · exact List.mem_cons_of_mem _ (h.listed t' m old)
  · show entry (hang s.phys t i _) t' j = 0
    rcases hungCases at_t with ⟨rfl,_⟩ | ⟨_,old⟩
    · exact hangEmpty h.levels fresh new here hi hj
    · rw [hangEntries h.levels fresh new here hi old hj,if_neg ?_]
      · exact h.null t' m old inner null j hj
      · rintro ⟨rfl,_⟩
        rw [here] at old
        cases old
        exact asked inner null

include h supply got in
theorem hungSupply : Supply (hung s t i) (hung s t i).answers := by
  obtain ⟨_,_,spent,tables,_,_⟩ := allocFresh supply got
  have rest := allocRest h supply
  refine ⟨rest.supply.1,fun a mem some' => ?_⟩
  obtain ⟨page,notTable⟩ := rest.supply.2 a mem some'
  rw [tables] at notTable
  refine ⟨page,fun listed => ?_⟩
  rcases List.mem_cons.mp listed with same | old
  · exact spent (same ▸ mem)
  · exact notTable old

include h supply got in
theorem hungGrew (here : level t = some (n+2)) (hi : i < 512) (empty : entry s.phys t i = 0)
    (asked : n + 2 < 4 → physToVirt t ≠ 0) :
    Grew s level (hung s t i) (update level (pmmAllocPage s).2 (some (n+1))) := by
  obtain ⟨new,_,_,_,_,root⟩ := allocFresh supply got
  have fresh := newUnlevelled h supply got
  refine ⟨hungInv h supply got here hi asked,hungSupply h supply got,root,fun t' m old => hungOld _ fresh old,
    fun t' m j c old hj found => ?_,fun va => ?_⟩
  · show entry (hang s.phys t i _) t' j = pointer c
    rw [hangEntries h.levels fresh new here hi old hj,if_neg ?_]
    · exact found
    · rintro ⟨rfl,rfl⟩
      rw [empty] at found
      exact pointerNotZero c found.symm
  · show granted (hang s.phys t i _) (pmmAllocPage s).1.pml4 va = _
    rw [root]
    exact rightsHang h.levels fresh new here hi empty h.levels.root va

end Hung

theorem nextLevelAlloc {s : Mmu} {level : Nat → Option Nat} {t i n : Nat} (h : Inv s level)
    (supply : Supply s s.answers) (here : level t = some (n+2)) (hi : i < 512)
    (asked : n + 2 < 4 → physToVirt t ≠ 0) :
    ∃ s' r level', ptNextLevel window s (physToVirt t + 8 * i) true = some (s',r) ∧ Grew s level s' level' ∧
      (r ≠ 0 → ∃ c, r = physToVirt c ∧ level' c = some (n+1) ∧ entry s'.phys t i = pointer c) := by
  have page := h.levels.page t _ here
  rw [ptNextLevel,loadWord s page hi,Option.bind_some]
  rcases h.levels.inner t n here i hi with empty | ⟨c,below,found⟩
  · rw [empty,if_neg zeroAbsent,if_pos rfl]
    by_cases got : (pmmAllocPage s).2 = 0
    · refine ⟨(pmmAllocPage s).1,0,level,?_,allocRest h supply,fun away => absurd rfl away⟩
      rw [newLevel]
      exact if_pos got
    · refine ⟨_,_,_,newLevelHung supply got page hi,hungGrew h supply got here hi empty asked,fun _ => ?_⟩
      exact ⟨_,rfl,Function.update_self _ _ _,entryHere _ _ _ _⟩
  · obtain ⟨up,_,place⟩ := pointerExact (h.levels.page c _ below)
    rw [found,if_pos up,place]
    exact ⟨s,_,level,rfl,grewRefl h supply,fun _ => ⟨c,rfl,below,found⟩⟩

theorem nextLevelLook {s : Mmu} {level : Nat → Option Nat} {t n shift : Nat} (h : Inv s level)
    (here : level t = some (n+2)) (small : n < 3) (va : Nat) (place : shift = shiftOf (n+1)) :
    (ptNextLevel window s (physToVirt t + 8 * index shift va) false = some (s,0) ∧
        rights s.phys (n+2) t va = none) ∨
      ∃ c, level c = some (n+1) ∧ physToVirt c ≠ 0 ∧ entry s.phys t (index shift va) = pointer c ∧
        ptNextLevel window s (physToVirt t + 8 * index shift va) false = some (s,physToVirt c) := by
  subst place
  have hi := indexLt (shiftOf (n+1)) va
  rw [ptNextLevel,loadWord s (h.levels.page t _ here) hi,Option.bind_some]
  rcases h.levels.inner t n here _ hi with empty | ⟨c,below,found⟩
  · refine .inl ⟨?_,rightsZero empty⟩
    rw [empty,if_neg zeroAbsent]
    rfl
  · have page := h.levels.page c _ below
    obtain ⟨up,_,place⟩ := pointerExact page
    rw [found,if_pos up,place]
    by_cases null : physToVirt c = 0
    · refine .inl ⟨by rw [null],?_⟩
      rw [rightsPointer page found,rightsZero (h.null c (n+1) below (by omega) null _ (indexLt _ va))]
      rfl
    · exact .inr ⟨c,below,null,rfl,rfl⟩

def requested (flags : Nat) : Access :=
  ⟨decide (flags &&& vmmWrite ≠ 0),decide (flags &&& vmmUser ≠ 0),decide (flags &&& vmmExec ≠ 0)⟩

def supervisor (flags : Nat) : Access := {requested flags with user := false}

theorem supervisorExact (flags : Nat) : supervisor flags = requested flags ↔ flags &&& vmmUser = 0 := by
  simp [supervisor,requested]

theorem frameBit (pa : Nat) {k : Nat} (out : k < 12 ∨ 52 ≤ k) : (frame pa).testBit k = false := by
  refine pageBit ⟨?_,?_⟩ out
  · rw [frameExact]
    exact Nat.mul_mod_left _ _
  · rw [frameExact]
    omega

theorem protWord : ∀ write user nx : Bool,
    (ptePresent ||| (if write then pteWrite else 0) ||| (if user then pteUser else 0) |||
      (if nx then pteNx else 0)).testBit 0 = true ∧
    (ptePresent ||| (if write then pteWrite else 0) ||| (if user then pteUser else 0) |||
      (if nx then pteNx else 0)).testBit 1 = write ∧
    (ptePresent ||| (if write then pteWrite else 0) ||| (if user then pteUser else 0) |||
      (if nx then pteNx else 0)).testBit 63 = nx := by decide

theorem protBits (flags : Nat) : (protOf flags).testBit 0 = true ∧
    (protOf flags).testBit 1 = decide (flags &&& vmmWrite ≠ 0) ∧
    (protOf flags).testBit 63 = decide (flags &&& vmmExec = 0) := by
  have word := protWord (decide (flags &&& vmmWrite ≠ 0)) (decide (flags &&& vmmUser ≠ 0))
    (decide (flags &&& vmmExec = 0))
  simp only [decide_eq_true_eq] at word
  exact word

theorem leafEntry (pa flags : Nat) : leafAccess (frame pa ||| protOf flags) = some (supervisor flags) := by
  have bits : ∀ k, k < 12 ∨ 52 ≤ k → (frame pa ||| protOf flags).testBit k = (protOf flags).testBit k := by
    intro k out
    rw [Nat.testBit_or,frameBit pa out,Bool.false_or]
  obtain ⟨first,write,exec⟩ := protBits flags
  have up : present (frame pa ||| protOf flags) := by
    rw [← bits 0 (.inl (by decide)),Nat.testBit_zero] at first
    exact (presentExact _).mpr (of_decide_eq_true first)
  rw [leafAccess,if_pos up,bits 1 (.inl (by decide)),bits 63 (.inr (by decide)),write,exec,supervisor,
    requested,decide_not]
  simp

theorem grantedPage (phys : Nat → Nat) (root : Nat) {va va' : Nat} (same : pageOf va = pageOf va') :
    granted phys root va = granted phys root va' := by
  obtain ⟨i3,i2,i1,i0⟩ := (pageOfExact va va').mp same
  simp only [granted,rights,i3,i2,i1,i0]

theorem missing {phys : Nat → Nat} {root va : Nat} (none' : granted phys root va = none) (va' : Nat) :
    granted phys root va' = if pageOf va' = pageOf va then none else granted phys root va' := by
  split
  · rename_i same
    rw [grantedPage phys root same,none']
  · rfl

theorem leafDown {phys : Nat → Nat} {root va t3 t2 t1 : Nat} (page3 : Page t3) (page2 : Page t2) (page1 : Page t1)
    (e4 : entry phys root (index 39 va) = pointer t3) (e3 : entry phys t3 (index 30 va) = pointer t2)
    (e2 : entry phys t2 (index 21 va) = pointer t1) : leafTable phys 4 root va = some t1 := by
  rw [leafPointer (n := 2) page3 e4,leafPointer (n := 1) page2 e3,leafPointer (n := 0) page1 e2]
  rfl

theorem leafStored {s : Mmu} {level : Nat → Option Nat} {t va : Nat} (h : Inv s level)
    (found : leafTable s.phys 4 s.pml4 va = some t) (notNull : physToVirt t ≠ 0) (v : Nat) :
    Inv {s with phys := update s.phys (t + 8 * index 12 va) v} level ∧
      ∀ va', granted (update s.phys (t + 8 * index 12 va) v) s.pml4 va' =
        if pageOf va' = pageOf va then leafAccess v else granted s.phys s.pml4 va' := by
  have leaf := leafLevel h.levels h.levels.root found
  have hi := indexLt 12 va
  refine ⟨⟨levelsLeaf h.levels v leaf hi,h.listed,fun t' n here inner null j hj => ?_⟩,grantedLeaf h.levels v found⟩
  have away : t' ≠ t := by
    rintro rfl
    exact notNull null
  show entry (update s.phys _ v) t' j = 0
  rw [entryUpdate (h.levels.page t' _ here) (h.levels.page t _ leaf) hj hi (.inl away)]
  exact h.null t' n here inner null j hj

theorem mapPageSpec {s : Mmu} {level : Nat → Option Nat} (h : Inv s level) (supply : Supply s s.answers)
    (va pa flags : Nat) :
    ∃ s' r level', mapPage window s va pa (protOf flags) = some (s',r) ∧ Inv s' level' ∧ Supply s' s'.answers ∧
      s'.pml4 = s.pml4 ∧ (r ≠ 0 → ∀ va', granted s'.phys s'.pml4 va' = granted s.phys s.pml4 va') ∧
      (r = 0 → ∀ va', granted s'.phys s'.pml4 va' =
        if pageOf va' = pageOf va then some (supervisor flags) else granted s.phys s.pml4 va') := by
  have failed : -(enomem : Int) ≠ 0 := by decide
  rw [mapPage]
  obtain ⟨s1,r1,level1,step1,grew1,down1⟩ := nextLevelAlloc h supply h.levels.root (indexLt 39 va)
    (fun small => absurd small (by decide))
  rw [step1,Option.bind_some]
  dsimp only
  split
  · exact ⟨s1,_,level1,rfl,grew1.inv,grew1.supply,grew1.root,fun _ => grew1.access,fun zero => absurd zero failed⟩
  next open1 =>
  obtain ⟨t3,rfl,here3,e4⟩ := down1 open1
  obtain ⟨s2,r2,level2,step2,grew2,down2⟩ := nextLevelAlloc grew1.inv grew1.supply here3 (indexLt 30 va)
    (fun _ => open1)
  have grew12 := grewTrans grew1 grew2
  rw [step2,Option.bind_some]
  dsimp only
  split
  · exact ⟨s2,_,level2,rfl,grew12.inv,grew12.supply,grew12.root,fun _ => grew12.access,fun zero => absurd zero failed⟩
  next open2 =>
  obtain ⟨t2,rfl,here2,e3⟩ := down2 open2
  obtain ⟨s3,r3,level3,step3,grew3,down3⟩ := nextLevelAlloc grew2.inv grew2.supply here2 (indexLt 21 va)
    (fun _ => open2)
  have grew := grewTrans grew12 grew3
  rw [step3,Option.bind_some]
  dsimp only
  split
  · exact ⟨s3,_,level3,rfl,grew.inv,grew.supply,grew.root,fun _ => grew.access,fun zero => absurd zero failed⟩
  next open3 =>
  obtain ⟨t1,rfl,here1,e2⟩ := down3 open3
  -- the pointers of the upper levels are still there at the end
  have root1 : level1 s.pml4 = some 4 := grew1.kept _ _ h.levels.root
  have root2 : level2 s.pml4 = some 4 := grew12.kept _ _ h.levels.root
  have top := grew3.pointers _ _ _ _ root2 (indexLt 39 va) (grew2.pointers _ _ _ _ root1 (indexLt 39 va) e4)
  have middle := grew3.pointers _ _ _ _ (grew2.kept _ _ here3) (indexLt 30 va) e3
  have pages := grew.inv.levels.page
  have found : leafTable s3.phys 4 s3.pml4 va = some t1 := by
    rw [grew.root]
    exact leafDown (pages _ _ (grew3.kept _ _ (grew2.kept _ _ here3))) (pages _ _ (grew3.kept _ _ here2))
      (pages _ _ here1) top middle e2
  obtain ⟨inv,access⟩ := leafStored grew.inv found open3 (frame pa ||| protOf flags)
  rw [storeWord _ (pages _ _ here1) (indexLt 12 va)]
  refine ⟨_,0,level3,rfl,inv,grew.supply,grew.root,fun away => absurd rfl away,fun _ va' => ?_⟩
  rw [access va',leafEntry,grew.access]

theorem unmapPageSpec {s : Mmu} {level : Nat → Option Nat} (h : Inv s level) (va : Nat) (freePhys : Bool) :
    ∃ s', unmapPage window s va freePhys = some s' ∧ Inv s' level ∧ s'.pml4 = s.pml4 ∧
      ∀ va', granted s'.phys s'.pml4 va' = if pageOf va' = pageOf va then none else granted s.phys s.pml4 va' := by
  have pages := h.levels.page
  have gone : ∀ none' : granted s.phys s.pml4 va = none, ∃ s', some s = some s' ∧ Inv s' level ∧ s'.pml4 = s.pml4 ∧
      ∀ va', granted s'.phys s'.pml4 va' = if pageOf va' = pageOf va then none else granted s.phys s.pml4 va' :=
    fun none' => ⟨s,rfl,h,rfl,missing none'⟩
  rw [unmapPage]
  rcases nextLevelLook h h.levels.root (by decide) va (show 39 = shiftOf 3 from rfl) with
    ⟨looked,absent⟩ | ⟨t3,here3,open3,e4,looked⟩
  · rw [looked]
    exact gone absent
  have down4 : granted s.phys s.pml4 va = _ := rightsPointer (n := 3) (pages _ _ here3) e4
  rw [looked,Option.bind_some]
  dsimp only
  rw [if_neg open3]
  rcases nextLevelLook h here3 (by decide) va (show 30 = shiftOf 2 from rfl) with
    ⟨looked,absent⟩ | ⟨t2,here2,open2,e3,looked⟩
  · rw [looked]
    refine gone ?_
    rw [down4,absent]
    rfl
  have down3 := rightsPointer (n := 2) (pages _ _ here2) e3
  rw [looked,Option.bind_some]
  dsimp only
  rw [if_neg open2]
  rcases nextLevelLook h here2 (by decide) va (show 21 = shiftOf 1 from rfl) with
    ⟨looked,absent⟩ | ⟨t1,here1,open1,e2,looked⟩
  · rw [looked]
    refine gone ?_
    rw [down4,down3,absent]
    rfl
  rw [looked,Option.bind_some]
  dsimp only
  rw [if_neg open1]
  have found := leafDown (pages _ _ here3) (pages _ _ here2) (pages _ _ here1) e4 e3 e2
  obtain ⟨inv,access⟩ := leafStored h found open1 0
  rw [clearEntry,loadWord _ (pages _ _ here1) (indexLt 12 va),Option.bind_some,
    storeWord _ (pages _ _ here1) (indexLt 12 va)]
  have nothing : leafAccess 0 = none := by decide
  rw [nothing] at access
  refine ⟨_,rfl,?_⟩
  split
  · exact ⟨⟨inv.levels,inv.listed,inv.null⟩,rfl,access⟩
  · exact ⟨inv,rfl,access⟩

def Covered (virt first count page : Nat) : Prop := ∃ k < count, page = pageOf (pageAt virt (first + k))
instance (virt first count page) : Decidable (Covered virt first count page) := by unfold Covered; infer_instance

theorem coveredNone (virt first page : Nat) : ¬ Covered virt first 0 page := by
  rintro ⟨k,lt,_⟩
  exact Nat.not_lt_zero k lt

theorem coveredCons (virt first count page : Nat) : Covered virt first (count+1) page ↔
    page = pageOf (pageAt virt first) ∨ Covered virt (first+1) count page := by
  constructor
  · rintro ⟨k,lt,same⟩
    cases k with
    | zero => exact .inl same
    | succ k => exact .inr ⟨k,Nat.lt_of_succ_lt_succ lt,by rw [same,Nat.add_assoc,Nat.add_comm 1 k]⟩
  · rintro (same | ⟨k,lt,same⟩)
    · exact ⟨0,Nat.succ_pos count,same⟩
    · exact ⟨k+1,Nat.succ_lt_succ lt,by rw [same,Nat.add_assoc,Nat.add_comm 1 k]⟩

def turns (virt phys prot : Nat) : (left i : Nat) → Mmu → Nat
  | 0,_,_ => 0
  | left+1,i,s =>
      match mapPage window s (pageAt virt i) (pageAt phys i) prot with
      | some (s',r) => if r = 0 then turns virt phys prot left (i+1) s' + 1 else 0
      | none => 0

theorem mapPagesSpec {s : Mmu} {level : Nat → Option Nat} (h : Inv s level) (supply : Supply s s.answers)
    (virt phys flags left i : Nat) :
    ∃ s' r level', mapPages window virt phys (protOf flags) left i s = some (s',r) ∧ Inv s' level' ∧
      (r = 0 → turns virt phys (protOf flags) left i s = left) ∧
      ∀ va, granted s'.phys s'.pml4 va =
        if Covered virt i (turns virt phys (protOf flags) left i s) (pageOf va) then some (supervisor flags)
        else granted s.phys s.pml4 va := by
  induction left generalizing s level i with
  | zero =>
      refine ⟨s,0,level,rfl,h,fun _ => rfl,fun va => ?_⟩
      rw [turns,if_neg (coveredNone virt i _)]
  | succ left ih =>
      obtain ⟨s1,r,level1,mapped,inv1,supply1,_,failed,done⟩ :=
        mapPageSpec h supply (pageAt virt i) (pageAt phys i) flags
      rw [mapPages,mapped,Option.bind_some]
      by_cases zero : r = 0
      · have count : turns virt phys (protOf flags) (left+1) i s = turns virt phys (protOf flags) left (i+1) s1 + 1 := by
          rw [turns,mapped]
          exact if_pos zero
        rw [if_pos zero,count]
        obtain ⟨s',r',level',rest,inv',all,access⟩ := ih inv1 supply1 (i+1)
        refine ⟨s',r',level',rest,inv',fun ok => by rw [all ok],fun va => ?_⟩
        rw [access va,done zero va]
        simp only [coveredCons]
        by_cases later : Covered virt (i+1) (turns virt phys (protOf flags) left (i+1) s1) (pageOf va)
        · rw [if_pos later,if_pos (.inr later)]
        · rw [if_neg later]
          simp only [later,or_false]
      · have count : turns virt phys (protOf flags) (left+1) i s = 0 := by
          rw [turns,mapped]
          exact if_neg zero
        rw [if_neg zero,count]
        refine ⟨s1,r,level1,rfl,inv1,fun ok => absurd ok zero,fun va => ?_⟩
        rw [if_neg (coveredNone virt i _)]
        exact failed zero va

theorem unmapPagesSpec {s : Mmu} {level : Nat → Option Nat} (h : Inv s level) (virt : Nat) (freePhys : Bool)
    (left i : Nat) :
    ∃ s', unmapPages window virt freePhys left i s = some s' ∧ Inv s' level ∧
      ∀ va, granted s'.phys s'.pml4 va =
        if Covered virt i left (pageOf va) then none else granted s.phys s.pml4 va := by
  induction left generalizing s i with
  | zero =>
      refine ⟨s,rfl,h,fun va => ?_⟩
      rw [if_neg (coveredNone virt i _)]
  | succ left ih =>
      obtain ⟨s1,unmapped,inv1,_,access1⟩ := unmapPageSpec h (pageAt virt i) freePhys
      obtain ⟨s',rest,inv',access⟩ := ih inv1 (i+1)
      rw [unmapPages,unmapped,Option.bind_some]
      refine ⟨s',rest,inv',fun va => ?_⟩
      rw [access va,access1 va]
      simp only [coveredCons]
      by_cases later : Covered virt (i+1) left (pageOf va)
      · rw [if_pos later,if_pos (.inr later)]
      · rw [if_neg later]
        simp only [later,or_false]

structure Blank where
  phys : Nat → Nat
  root : Nat
  page : Page root
  zero : ∀ i < 512, entry phys root i = 0

/- `wanted` is a record: the flags of the call that mapped a page last, until it is unmapped. -/
structure World where
  mmu : Mmu
  wanted : Nat → Option Nat

def start (b : Blank) : World := ⟨⟨b.phys,b.root,[],[b.root],[]⟩,fun _ => none⟩

inductive Event where
  | map (virt phys pages flags : Nat) (answers : List Nat)
  | unmap (virt pages : Nat) (freePhys : Bool)

def step (w : World) : Event → Option World
  | .map virt phys pages flags answers =>
      let s := {w.mmu with answers}
      let count := turns virt phys (protOf flags) pages 0 s
      (vmmMap window s virt phys pages flags).map (fun r =>
        ⟨r.1,fun page => if Covered virt 0 count page then some flags else w.wanted page⟩)
  | .unmap virt pages freePhys =>
      (vmmUnmap window w.mmu virt pages freePhys).map (fun s =>
        ⟨s,fun page => if Covered virt 0 pages page then none else w.wanted page⟩)

def Supplied (w : World) : Event → Prop
  | .map _ _ _ _ answers => Supply w.mmu answers
  | .unmap _ _ _ => True
instance (w e) : Decidable (Supplied w e) := by cases e <;> unfold Supplied <;> infer_instance

structure Kept (w : World) : Prop where
  inv : ∃ level, Inv w.mmu level
  access : ∀ va, granted w.mmu.phys w.mmu.pml4 va = (w.wanted (pageOf va)).map supervisor

theorem startKept (b : Blank) : Kept (start b) := by
  refine ⟨⟨update (fun _ => none) b.root (some 4),⟨⟨Function.update_self _ _ _,fun t n here => ?_,
    fun t n here i hi => ?_,fun t t' n n' i i' c here here' hi hi' found found' => ?_⟩,fun t n here => ?_,
    fun t n here inner => ?_⟩⟩,fun va => rightsZero (n := 3) (b.zero _ (indexLt _ va))⟩
  all_goals
    have rooted : t = b.root := by
      by_contra away
      rw [Function.update_of_ne away] at here
      cases here
    subst rooted
  · exact b.page
  · exact .inl (b.zero i hi)
  · have zero := b.zero i hi
    exact absurd (found.symm.trans zero) (pointerNotZero c)
  · exact List.mem_singleton.mpr rfl
  · rw [Function.update_self] at here
    cases here
    exact absurd inner (by decide)

theorem stepKept {w : World} {e : Event} (h : Kept w) (supplied : Supplied w e) :
    ∃ w', step w e = some w' ∧ Kept w' := by
  obtain ⟨level,inv⟩ := h.inv
  cases e with
  | map virt phys pages flags answers =>
      have inv' : Inv {w.mmu with answers} level := ⟨inv.levels,inv.listed,inv.null⟩
      obtain ⟨s',r,level',mapped,kept,_,access⟩ := mapPagesSpec inv' supplied virt phys flags pages 0
      refine ⟨_,by rw [step,vmmMap,mapped]; rfl,⟨level',kept⟩,fun va => ?_⟩
      dsimp only
      rw [access va,h.access va]
      split <;> rfl
  | unmap virt pages freePhys =>
      obtain ⟨s',unmapped,kept,access⟩ := unmapPagesSpec inv virt freePhys pages 0
      refine ⟨_,by rw [step,vmmUnmap,unmapped]; rfl,⟨level,kept⟩,fun va => ?_⟩
      dsimp only
      rw [access va,h.access va]
      split <;> rfl

theorem mappedAccess {w : World} (h : Kept w) {virt phys pages flags : Nat} {answers : List Nat} {s' : Mmu}
    (supply : Supply w.mmu answers) (mapped : vmmMap window {w.mmu with answers} virt phys pages flags = some (s',0))
    {i : Nat} (hi : i < pages) :
    granted s'.phys s'.pml4 (pageAt virt i) = some (supervisor flags) := by
  obtain ⟨level,inv⟩ := h.inv
  have inv' : Inv {w.mmu with answers} level := ⟨inv.levels,inv.listed,inv.null⟩
  obtain ⟨s1,r,_,mapped',_,all,access⟩ := mapPagesSpec inv' supply virt phys flags pages 0
  rw [vmmMap,mapped'] at mapped
  cases mapped
  rw [access,all rfl,if_pos ⟨i,hi,by rw [Nat.zero_add]⟩]

theorem accessExceptUser (b : Blank) (events : List Event) (guarded : Guarded step Supplied (start b) events) :
    ∃ w, run step (start b) events = some w ∧
      (∀ va, granted w.mmu.phys w.mmu.pml4 va = (w.wanted (pageOf va)).map supervisor) ∧
      ∀ virt phys pages flags answers s', Supply w.mmu answers →
        vmmMap window {w.mmu with answers} virt phys pages flags = some (s',0) → ∀ i < pages,
          granted s'.phys s'.pml4 (pageAt virt i) = some {requested flags with user := false} ∧
            (granted s'.phys s'.pml4 (pageAt virt i) = some (requested flags) ↔ flags &&& vmmUser = 0) := by
  obtain ⟨w,ran,kept⟩ := GuardedRun.guardedReturns Kept (fun _ _ h supplied => stepKept h supplied)
    (startKept b) guarded
  refine ⟨w,ran,kept.access,fun virt phys pages flags answers s' supply mapped i hi => ?_⟩
  have access := mappedAccess kept supply mapped hi
  refine ⟨access,?_⟩
  rw [access,Option.some_inj]
  exact supervisorExact flags

def blank : Blank := ⟨fun _ => 0,0x1000,by decide,fun _ _ => rfl⟩

def sharedTables : List Event :=
  [.map 0xFFFF000000000000 0x200000 1 vmmExec [0x2000,0x3000,0x4000],.map 0xFFFF000000001000 0x300000 2 vmmWrite []]

theorem accessShared : ∃ w s', run step (start blank) sharedTables = some w ∧
    vmmMap window {w.mmu with answers := []} 0xFFFF000000000000 0x200000 1 (vmmWrite ||| vmmExec) = some (s',0) ∧
    granted s'.phys s'.pml4 0xFFFF000000000000 = some (requested (vmmWrite ||| vmmExec)) ∧
    granted w.mmu.phys w.mmu.pml4 0xFFFF000000001000 = some ⟨true,false,false⟩ := by
  obtain ⟨w,ran,access,mapping⟩ := accessExceptUser blank sharedTables (by decide +kernel)
  have again : (run step (start blank) sharedTables).map (fun w =>
      (w.wanted (pageOf 0xFFFF000000001000),
        (vmmMap window {w.mmu with answers := []} 0xFFFF000000000000 0x200000 1 (vmmWrite ||| vmmExec)).map Prod.snd)) =
        some (some vmmWrite,some 0) := by decide +kernel
  rw [ran] at again
  simp only [Option.map_some,Option.some.injEq,Prod.mk.injEq] at again
  obtain ⟨wanted,returned⟩ := again
  obtain ⟨⟨s',r⟩,mapped,rfl⟩ := Option.map_eq_some_iff.mp returned
  refine ⟨w,s',ran,mapped,?_,?_⟩
  · have first : pageAt 0xFFFF000000000000 0 = 0xFFFF000000000000 := by decide
    have here := (mapping _ _ 1 _ [] s' ⟨List.nodup_nil,fun a mem => absurd mem List.not_mem_nil⟩ mapped 0 (by decide)).2
    rw [first] at here
    exact here.mpr (by decide)
  · rw [access,wanted]
    decide

def userMapping : Event := .map 0x400000 0x200000 1 (vmmWrite ||| vmmUser) [0x2000,0x3000,0x4000]

theorem userPageDenied : Guarded step Supplied (start blank) [userMapping] ∧
    (vmmMap window {(start blank).mmu with answers := [0x2000,0x3000,0x4000]} 0x400000 0x200000 1
      (vmmWrite ||| vmmUser)).map (fun r => (r.2,granted r.1.phys r.1.pml4 0x400000)) =
        some (0,some ⟨true,false,false⟩) ∧
    requested (vmmWrite ||| vmmUser) = ⟨true,true,false⟩ := by
  decide +kernel

end Nekros.PagePermissions
