import Nekros.PageTableSteps

/-! vmm_map and vmm_unmap over ranges, and over whole runs from the boot tables. A run is
safe when no call reaches into the two gigabytes that are mapped with 2 MB pages; the code
takes the frame of such an entry for a page table. -/
namespace Nekros.PageTableRuns
open Words Loops Paging PageTable PageTableSteps
open Function (update)

theorem pageAtSame {virt phys i j : Nat} (same : pageAt virt i / 2^12 = pageAt virt j / 2^12) :
    pageAt phys i = pageAt phys j := by
  unfold pageAt wrap pageSize at *
  omega

def Among (virt i left va : Nat) : Prop := ∃ k, i ≤ k ∧ k < i + left ∧ va / 2^12 = pageAt virt k / 2^12

theorem amongNone (virt i va : Nat) : ¬ Among virt i 0 va := by
  rintro ⟨k,le,lt,_⟩
  omega

theorem amongStep (virt i left va : Nat) :
    Among virt i (left+1) va ↔ va / 2^12 = pageAt virt i / 2^12 ∨ Among virt (i+1) left va := by
  constructor
  · rintro ⟨k,le,lt,there⟩
    rcases Nat.eq_or_lt_of_le le with rfl | more
    · exact .inl there
    · exact .inr ⟨k,more,by omega,there⟩
  · rintro (here | ⟨k,le,lt,there⟩)
    · exact ⟨i,Nat.le_refl i,by omega,here⟩
    · exact ⟨k,by omega,by omega,there⟩

structure RangeDone (b : Boot) (s : Mmu) (virt phys i left : Nat) (s' : Mmu) (code : Int) : Prop where
  inv : ∃ node, Inv b s' node
  tables : ∀ t ∈ s.tables, t ∈ s'.tables
  written : ∀ a, s'.phys a ≠ s.phys a → ∃ t ∈ s'.tables, t ≤ a ∧ a < t + pageSize
  inside : code = 0 → ∀ k, i ≤ k → k < i + left → ∀ va, va / 2^12 = pageAt virt k / 2^12 →
    walk s'.phys s'.pml4 va = some (frame (pageAt phys k) + va % 2^12)
  outside : code = 0 → ∀ va, ¬ Among virt i left va → walk s'.phys s'.pml4 va = walk s.phys s.pml4 va

theorem rangeStopped {b : Boot} {s s' : Mmu} {virt phys i : Nat} (left : Nat) {code : Int}
    (done : PageDone b s (pageAt virt i) (pageAt phys i) s' code) (failed : code ≠ 0) :
    RangeDone b s virt phys i left s' code :=
  ⟨done.inv,done.tables,done.written,fun zero => absurd zero failed,fun zero => absurd zero failed⟩

theorem rangeStep {b : Boot} {s s' s'' : Mmu} {virt phys i left : Nat} {code : Int}
    (done : PageDone b s (pageAt virt i) (pageAt phys i) s' 0)
    (rest : RangeDone b s' virt phys (i+1) left s'' code) : RangeDone b s virt phys i (left+1) s'' code where
  inv := rest.inv
  tables t mem := rest.tables t (done.tables t mem)
  written := writtenTrans rest.tables done.written rest.written
  inside zero k le lt va here := by
    -- a page met again later in the loop is mapped again to the same frame
    by_cases again : Among virt (i+1) left va
    · obtain ⟨j,lej,ltj,there⟩ := again
      rw [rest.inside zero j lej ltj va there,pageAtSame (here.symm.trans there)]
    · have first : k = i := by
        by_contra other
        exact again ⟨k,by omega,by omega,here⟩
      subst first
      rw [rest.outside zero va again,done.walks rfl,if_pos here]
  outside zero va away := by
    obtain ⟨notFirst,notLater⟩ := not_or.mp (fun h => away ((amongStep virt i left va).mpr h))
    rw [rest.outside zero va notLater,done.walks rfl,if_neg notFirst]

theorem mapPagesSpec {b : Boot} (virt phys flags left : Nat) {i : Nat} {s : Mmu} (h : ∃ node, Inv b s node)
    (supply : Supply s s.answers) (plain : ∀ k, i ≤ k → k < i + left → Plain (pageAt virt k)) :
    ∃ s' code, mapPages through virt phys (protOf flags) left i s = some (s',code) ∧
      RangeDone b s virt phys i left s' code := by
  induction left generalizing i s with
  | zero =>
      refine ⟨s,0,rfl,h,fun _ => id,fun _ changed => absurd rfl changed,fun _ k le lt => ?_,fun _ _ _ => rfl⟩
      omega
  | succ left ih =>
      obtain ⟨node,inv⟩ := h
      obtain ⟨s1,code,ran,done⟩ := mapPageSpec inv supply (plain i (Nat.le_refl i) (by omega)) (pageAt phys i) flags
      rw [mapPages,ran,Option.bind_some]
      by_cases zero : code = 0
      · subst zero
        obtain ⟨s2,code,ran2,rest⟩ := ih (i := i+1) done.inv done.supply
          (fun k le lt => plain k (by omega) (by omega))
        rw [if_pos rfl,ran2]
        exact ⟨s2,code,rfl,rangeStep done rest⟩
      · rw [if_neg zero]
        exact ⟨s1,code,rfl,rangeStopped _ done zero⟩

structure RangeGone (b : Boot) (s : Mmu) (virt i left : Nat) (s' : Mmu) : Prop where
  inv : ∃ node, Inv b s' node
  tables : s'.tables = s.tables
  inside : ∀ va, Among virt i left va → walk s'.phys s'.pml4 va = none
  outside : ∀ va, ¬ Among virt i left va → walk s'.phys s'.pml4 va = walk s.phys s.pml4 va

theorem goneStep {b : Boot} {s s' s'' : Mmu} {virt i left : Nat} (gone : PageGone b s (pageAt virt i) s')
    (rest : RangeGone b s' virt (i+1) left s'') : RangeGone b s virt i (left+1) s'' where
  inv := rest.inv
  tables := rest.tables.trans gone.tables
  inside va member := by
    by_cases again : Among virt (i+1) left va
    · exact rest.inside va again
    · have first := ((amongStep virt i left va).mp member).resolve_right again
      rw [rest.outside va again,gone.walks,if_pos first]
  outside va away := by
    obtain ⟨notFirst,notLater⟩ := not_or.mp (fun h => away ((amongStep virt i left va).mpr h))
    rw [rest.outside va notLater,gone.walks,if_neg notFirst]

theorem unmapPagesSpec {b : Boot} (virt left : Nat) (freePhys : Bool) {i : Nat} {s : Mmu} (h : ∃ node, Inv b s node)
    (plain : ∀ k, i ≤ k → k < i + left → Plain (pageAt virt k))
    (unowned : freePhys = true → ∀ k, i ≤ k → k < i + left → ∀ pa ∈ walk s.phys s.pml4 (pageAt virt k),
      alignDown pa ∉ s.tables) :
    ∃ s', unmapPages through virt freePhys left i s = some s' ∧ RangeGone b s virt i left s' := by
  induction left generalizing i s with
  | zero => exact ⟨s,rfl,h,rfl,fun va among => absurd among (amongNone virt i va),fun _ _ => rfl⟩
  | succ left ih =>
      obtain ⟨node,inv⟩ := h
      obtain ⟨s1,ran,gone⟩ := unmapPageSpec inv (plain i (Nat.le_refl i) (by omega))
        (fun frees => unowned frees i (Nat.le_refl i) (by omega))
      -- what the first turn leaves mapped was mapped before
      have remaining : freePhys = true → ∀ k, i+1 ≤ k → k < i+1+left →
          ∀ pa ∈ walk s1.phys s1.pml4 (pageAt virt k), alignDown pa ∉ s1.tables := by
        intro frees k le lt pa mapped
        rw [gone.walks] at mapped
        rw [gone.tables]
        split at mapped
        · cases mapped
        · exact unowned frees k (by omega) (by omega) pa mapped
      obtain ⟨s2,ran2,rest⟩ := ih (i := i+1) gone.inv (fun k le lt => plain k (by omega) (by omega)) remaining
      rw [unmapPages,ran,Option.bind_some,ran2]
      exact ⟨s2,rfl,goneStep gone rest⟩

theorem stepInv {b : Boot} {s : Mmu} {e : Event} (h : ∃ node, Inv b s node) (safe : Safe s e) :
    ∃ s', step s e = some s' ∧ ∃ node, Inv b s' node := by
  cases e with
  | map virt phys pages flags answers =>
      obtain ⟨node,inv⟩ := h
      have ready : Inv b {s with answers} node := {inv with}
      obtain ⟨s',code,ran,done⟩ := mapPagesSpec virt phys flags pages (i := 0) ⟨node,ready⟩
        safe.2 (fun k _ lt => safe.1 k (by omega))
      refine ⟨s',?_,done.inv⟩
      rw [step,vmmMap,ran]
      rfl
  | unmap virt pages freePhys =>
      obtain ⟨s',ran,gone⟩ := unmapPagesSpec virt pages freePhys (i := 0) h
        (fun k _ lt => safe.1 k (by omega)) (fun frees k _ lt => safe.2 frees k (by omega))
      exact ⟨s',ran,gone.inv⟩
  | other phys =>
      obtain ⟨node,inv⟩ := h
      have same : ∀ t ∈ s.tables, ∀ i < 512, entry phys t i = entry s.phys t i :=
        fun t mem => safe t mem (inv.kept t mem)
      refine ⟨_,rfl,node,{inv with tree := treeFrame inv.tree (fun p t _ found => ?_) ?_}⟩
      · exact same t (inv.listed p t found)
      · exact same b.pd inv.directory

def bootNode (b : Boot) : Node
  | [] => some b.pml4
  | [0] => some b.pdptLo
  | [511] => some b.pdptHi
  | _ => none

theorem bootPage (b : Boot) {t : Nat} (mem : t ∈ [b.pml4,b.pdptLo,b.pdptHi,b.pd]) : Page t := by
  obtain ⟨aligned,low⟩ := b.pages t mem
  exact ⟨aligned,Nat.lt_trans low (by decide)⟩

theorem bootOffPd (b : Boot) {t : Nat} (mem : t ∈ [b.pml4,b.pdptLo,b.pdptHi]) : t ≠ b.pd := by
  have distinct := b.distinct
  simp only [List.nodup_cons,List.mem_cons,List.not_mem_nil,or_false,not_or] at distinct
  simp only [List.mem_cons,List.not_mem_nil,or_false] at mem
  rintro rfl
  rcases mem with same | same | same
  · exact distinct.1.2.2 same.symm
  · exact distinct.2.1.2 same.symm
  · exact distinct.2.2.1 same.symm

theorem fillDirectory (pd : Nat) (m : Nat → Nat) :
    (∀ k < 512, upTo 512 (fun k m => update m (pd + 8 * k) ((k <<< 21) ||| 0x83)) m (pd + 8 * k) = largePage k) ∧
      ∀ a, (∀ k < 512, a ≠ pd + 8 * k) →
        upTo 512 (fun k m => update m (pd + 8 * k) ((k <<< 21) ||| 0x83)) m a = m a := by
  refine upToInvariant _ (fun n (m' : Nat → Nat) => (∀ k < n, m' (pd + 8 * k) = largePage k) ∧
    ∀ a, (∀ k < n, a ≠ pd + 8 * k) → m' a = m a) ⟨by simp,fun _ _ => rfl⟩ (fun n m' _ now => ?_)
  obtain ⟨filled,others⟩ := now
  constructor
  · intro k lt
    by_cases last : k = n
    · rw [last]
      exact Function.update_self _ _ _
    · rw [Function.update_of_ne (by omega)]
      exact filled k (by omega)
  · intro a away
    rw [Function.update_of_ne (away n (Nat.lt_succ_self n))]
    exact others a (fun k lt => away k (Nat.lt_succ_of_lt lt))

theorem bootDirectory (b : Boot) {k : Nat} (hk : k < 512) : entry (setupPaging b) b.pd k = largePage k :=
  (fillDirectory b.pd (setupUpper b)).1 k hk

theorem bootEntry (b : Boot) {t i : Nat} (mem : t ∈ [b.pml4,b.pdptLo,b.pdptHi]) (hi : i < 512) :
    entry (setupPaging b) t i =
      if t = b.pdptHi ∧ i = 510 then pointer b.pd else if t = b.pdptLo ∧ i = 0 then pointer b.pd
      else if t = b.pml4 ∧ i = 511 then pointer b.pdptHi else if t = b.pml4 ∧ i = 0 then pointer b.pdptLo
      else 0 := by
  have all : t ∈ [b.pml4,b.pdptLo,b.pdptHi,b.pd] := List.mem_append_left [b.pd] mem
  have page := bootPage b all
  have outside : ∀ k < 512, t + 8 * i ≠ b.pd + 8 * k :=
    fun k hk => wordsDiffer page (bootPage b (by simp)) hi hk (.inl (bootOffPd b mem))
  have place : ∀ t' ∈ [b.pml4,b.pdptLo,b.pdptHi,b.pd], ∀ j < 512,
      (t + 8 * i = t' + 8 * j ↔ t = t' ∧ i = j) := by
    intro t' mem' j hj
    constructor
    · intro same
      by_contra other
      exact wordsDiffer page (bootPage b mem') hi hj (not_and_or.mp other) same
    · rintro ⟨rfl,rfl⟩
      rfl
  have word := (fillDirectory b.pd (setupUpper b)).2 (t + 8 * i) outside
  rw [entry,setupPaging,word]
  simp only [setupUpper,Function.update_apply]
  have hi510 := place b.pdptHi (by simp) 510 (by decide)
  have lo0 := place b.pdptLo (by simp) 0 (by decide)
  have hi511 := place b.pml4 (by simp) 511 (by decide)
  have root0 := place b.pml4 (by simp) 0 (by decide)
  have zero := b.zero t mem i hi
  rw [zero]
  simp only [Nat.mul_zero,Nat.add_zero] at lo0 root0
  exact if_congr hi510 rfl (if_congr lo0 rfl (if_congr hi511 rfl (if_congr root0 rfl rfl)))

theorem bootCases {b : Boot} {p : List Nat} {t : Nat} (found : bootNode b p = some t) :
    (p = [] ∧ t = b.pml4) ∨ (p = [0] ∧ t = b.pdptLo) ∨ (p = [511] ∧ t = b.pdptHi) := by
  unfold bootNode at found
  split at found
  · exact .inl ⟨rfl,(Option.some.inj found).symm⟩
  · exact .inr (.inl ⟨rfl,(Option.some.inj found).symm⟩)
  · exact .inr (.inr ⟨rfl,(Option.some.inj found).symm⟩)
  · cases found

theorem bootDeep (b : Boot) (i j : Nat) (p : List Nat) : bootNode b (i::j::p) = none := by
  simp [bootNode]

theorem bootShared {b : Boot} {j i : Nat} :
    (layout b).shared j i = true ↔ (j = 0 ∧ i = 0) ∨ (j = 511 ∧ i = 510) := by
  simp [layout]

theorem bootLinks (b : Boot) {p : List Nat} {t i : Nat} (found : bootNode b p = some t) (hi : i < 512) :
    entry (setupPaging b) t i = (layout b).link (bootNode b) p i := by
  have distinct := b.distinct
  simp only [List.nodup_cons,List.mem_cons,List.not_mem_nil,or_false,not_or] at distinct
  obtain ⟨⟨rootLo,rootHi,_⟩,⟨loHi,_⟩,_⟩ := distinct
  rcases bootCases found with ⟨rfl,rfl⟩ | ⟨rfl,rfl⟩ | ⟨rfl,rfl⟩
  · rw [bootEntry b (by simp) hi]
    by_cases low : i = 0
    · subst low
      simp [rootLo,rootHi,Layout.link,bootNode]
    · by_cases high : i = 511
      · subst high
        simp [rootHi,Layout.link,bootNode]
      · have absent : bootNode b [i] = none := by
          unfold bootNode
          split <;> simp_all
        simp [rootLo,rootHi,low,high,Layout.link,absent,Layout.sharedAt]
  · rw [bootEntry b (by simp) hi]
    simp [loHi,Ne.symm rootLo,Layout.link,bootDeep,Layout.sharedAt,layout]
  · rw [bootEntry b (by simp) hi]
    simp [Ne.symm loHi,Ne.symm rootHi,Layout.link,bootDeep,Layout.sharedAt,layout]

theorem startInv (b : Boot) : Inv b (start b) (bootNode b) := by
  have member : ∀ p t, bootNode b p = some t → t ∈ [b.pml4,b.pdptLo,b.pdptHi] := by
    intro p t found
    rcases bootCases found with ⟨_,rfl⟩ | ⟨_,rfl⟩ | ⟨_,rfl⟩ <;> simp
  have distinct := b.distinct
  simp only [List.nodup_cons,List.mem_cons,List.not_mem_nil,or_false,not_or] at distinct
  refine {
    tree := {
      rooted := rfl
      page := fun p t found =>
        ⟨bootPage b (List.mem_append_left [b.pd] (member p t found)),bootOffPd b (member p t found)⟩
      injective := ?_
      closed := ?_
      depth := ?_
      entries := fun p t _ found i hi => bootLinks b found hi
      sharedParent := ?_
      sharedLeaf := fun j i _ => bootDeep b i j []
      directory := ⟨bootPage b (by simp [layout]),fun k hk => bootDirectory b hk⟩}
    root := rfl
    listed := fun p t found => List.mem_append_left [b.pd] (member p t found)
    directory := by simp [start]
    low := fun t mem => (b.pages t mem).2
    kept := fun t _ => List.not_mem_nil}
  · intro p q t at_p at_q
    rcases bootCases at_p with ⟨rfl,rfl⟩ | ⟨rfl,rfl⟩ | ⟨rfl,rfl⟩ <;>
      rcases bootCases at_q with ⟨rfl,same⟩ | ⟨rfl,same⟩ | ⟨rfl,same⟩ <;> first | rfl | simp_all
  · intro p i absent
    cases p with
    | nil => cases absent
    | cons j rest => exact bootDeep b i j rest
  · intro p t found
    rcases bootCases found with ⟨rfl,_⟩ | ⟨rfl,_⟩ | ⟨rfl,_⟩ <;> simp
  · intro j i shared
    rcases bootShared.mp shared with ⟨rfl,_⟩ | ⟨rfl,_⟩ <;> simp [bootNode]

theorem runInv {b : Boot} {events : List Event}
    (safe : GuardedRun.Guarded step Safe (start b) events) :
    ∃ s, GuardedRun.run step (start b) events = some s ∧ ∃ node, Inv b s node :=
  GuardedRun.guardedReturns _ (fun _ _ => stepInv) ⟨_,startInv b⟩ safe

def InRange (virt pages va : Nat) : Prop := ∃ i < pages, va / pageSize = pageAt virt i / pageSize

structure Mapped (s s' : Mmu) (virt phys pages : Nat) : Prop where
  inside : ∀ i < pages, walk s'.phys s'.pml4 (pageAt virt i) = some (pageAt phys i)
  outside : ∀ va, ¬ InRange virt pages va → walk s'.phys s'.pml4 va = walk s.phys s.pml4 va
  written : ∀ a, s'.phys a ≠ s.phys a → ∃ t ∈ s'.tables, t ≤ a ∧ a < t + pageSize

structure Unmapped (s s' : Mmu) (virt pages : Nat) : Prop where
  inside : ∀ va, InRange virt pages va → walk s'.phys s'.pml4 va = none
  outside : ∀ va, ¬ InRange virt pages va → walk s'.phys s'.pml4 va = walk s.phys s.pml4 va

theorem inRangeAmong (virt pages va : Nat) : InRange virt pages va ↔ Among virt 0 pages va := by
  constructor
  · rintro ⟨i,lt,there⟩
    exact ⟨i,Nat.zero_le i,by omega,there⟩
  · rintro ⟨i,_,lt,there⟩
    exact ⟨i,by omega,there⟩

theorem rangeMapped {b : Boot} {s s' : Mmu} {virt phys pages : Nat}
    (done : RangeDone b s virt phys 0 pages s' 0) (aligned : virt % pageSize = 0 ∧ phys % pageSize = 0)
    (physical : ∀ i < pages, pageAt phys i < 2^52) : Mapped s s' virt phys pages where
  inside i lt := by
    rw [done.inside rfl i (Nat.zero_le i) (by omega) _ rfl,frameExact]
    have small := physical i lt
    congr 1
    unfold pageAt wrap pageSize at *
    omega
  outside va away := done.outside rfl va (fun among => away ((inRangeAmong virt pages va).mpr among))
  written := done.written

theorem rangeUnmapped {b : Boot} {s s' : Mmu} {virt pages : Nat} (gone : RangeGone b s virt 0 pages s') :
    Unmapped s s' virt pages where
  inside va member := gone.inside va ((inRangeAmong virt pages va).mp member)
  outside va away := gone.outside va (fun among => away ((inRangeAmong virt pages va).mpr among))

theorem mappingSound (b : Boot) (events : List Event) (s : Mmu)
    (valid : GuardedRun.Guarded step Safe (start b) events)
    (ran : GuardedRun.run step (start b) events = some s)
    (virt phys pages flags : Nat) (answers : List Nat)
    (safe : Safe s (.map virt phys pages flags answers))
    (aligned : virt % pageSize = 0 ∧ phys % pageSize = 0)
    (physical : ∀ i < pages, pageAt phys i < 2^52) :
    ∃ s' code, vmmMap through {s with answers} virt phys pages flags = some (s',code) ∧
      (code = 0 → Mapped s s' virt phys pages ∧
        ∃ s'', vmmUnmap through s' virt pages false = some s'' ∧ Unmapped s' s'' virt pages) := by
  obtain ⟨s1,ran1,node,inv⟩ := runInv valid
  obtain rfl : s1 = s := Option.some.inj (ran1.symm.trans ran)
  have ready : Inv b {s1 with answers} node := {inv with}
  have plain : ∀ k, 0 ≤ k → k < 0 + pages → Plain (pageAt virt k) := fun k _ lt => safe.1 k (by omega)
  obtain ⟨s',code,mapped,done⟩ := mapPagesSpec virt phys flags pages ⟨node,ready⟩ safe.2 plain
  refine ⟨s',code,mapped,fun zero => ?_⟩
  subst zero
  obtain ⟨s'',unmapped,gone⟩ := unmapPagesSpec virt pages false done.inv plain (fun frees => by cases frees)
  have whole := rangeMapped done aligned physical
  exact ⟨⟨whole.inside,whole.outside,whole.written⟩,s'',unmapped,rangeUnmapped gone⟩

def sampleBoot : Boot where
  mem := fun _ => 0
  pml4 := 0x101000
  pdptLo := 0x102000
  pdptHi := 0x103000
  pd := 0x104000
  pages := by decide
  distinct := by decide
  zero := fun _ _ _ _ => rfl

def sampleRun : List Event :=
  [.map 0x8000000000 0x5000000 1 vmmWrite [0x1000000,0x1001000,0x1002000],.unmap 0x8000000000 1 true]

theorem mappingSoundSample : ∃ s s' s'', GuardedRun.run step (start sampleBoot) sampleRun = some s ∧
    vmmMap through {s with answers := [0x1003000]} 0x8000200000 0x6000000 2 vmmWrite = some (s',0) ∧
    Mapped s s' 0x8000200000 0x6000000 2 ∧ vmmUnmap through s' 0x8000200000 2 false = some s'' ∧
    Unmapped s' s'' 0x8000200000 2 := by
  have evaluated : (GuardedRun.run step (start sampleBoot) sampleRun).map (fun s => (s.tables,s.freed,
      (vmmMap through {s with answers := [0x1003000]} 0x8000200000 0x6000000 2 vmmWrite).map Prod.snd)) =
      some ([0x1002000,0x1001000,0x1000000,0x101000,0x102000,0x103000,0x104000],[0x5000000],some 0) := by
    decide +kernel
  obtain ⟨s,ran,facts⟩ := Option.map_eq_some_iff.mp evaluated
  simp only [Prod.mk.injEq] at facts
  obtain ⟨tables,freed,returned⟩ := facts
  have safe : Safe s (.map 0x8000200000 0x6000000 2 vmmWrite [0x1003000]) := by
    refine ⟨by decide +kernel,?_⟩
    unfold Supply
    rw [tables,freed]
    decide +kernel
  obtain ⟨s',code,mapped,sound⟩ := mappingSound sampleBoot sampleRun s (by decide +kernel) ran
    0x8000200000 0x6000000 2 vmmWrite [0x1003000] safe (by decide) (by decide +kernel)
  rw [mapped,Option.map_some] at returned
  obtain rfl : code = 0 := Option.some.inj returned
  obtain ⟨inside,s'',unmapped,gone⟩ := sound rfl
  exact ⟨s,s',s'',ran,mapped,inside,unmapped,gone⟩

theorem largePageOverwritten : ∃ s,
    vmmMap through (start sampleBoot) 0x200000 0x5000000 1 vmmWrite = some (s,0) ∧
    walk s.phys s.pml4 0x200000 = some 0x200000 ∧ s.phys 0x200000 = 2^63 + 0x5000003 ∧
    s.tables = (start sampleBoot).tables ∧ ¬ Mapped (start sampleBoot) s 0x200000 0x5000000 1 := by
  have evaluated : (vmmMap through (start sampleBoot) 0x200000 0x5000000 1 vmmWrite).map (fun r =>
      (r.2,walk r.1.phys r.1.pml4 0x200000,r.1.phys 0x200000,r.1.tables)) =
      some (0,some 0x200000,2^63 + 0x5000003,(start sampleBoot).tables) := by
    decide +kernel
  obtain ⟨⟨s,code⟩,ran,facts⟩ := Option.map_eq_some_iff.mp evaluated
  simp only [Prod.mk.injEq] at facts
  obtain ⟨rfl,translated,word,tables⟩ := facts
  refine ⟨s,ran,translated,word,tables,fun mapped => ?_⟩
  have wanted := mapped.inside 0 (by decide)
  have place : pageAt 0x200000 0 = 0x200000 ∧ pageAt 0x5000000 0 = 0x5000000 := by decide
  rw [place.1,place.2,translated] at wanted
  cases wanted

end Nekros.PageTableRuns
