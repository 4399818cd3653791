import Nekros.PageTableRuns
import Nekros.SecureFree
import Nekros.Vmalloc

/-! Where the frames go that `vmm_alloc` takes: into page tables, behind the pages of its
range, or nowhere. On failure it unmaps the range and so finds what it has mapped; the frame
it was about to map when a table was refused is in no table yet. -/
namespace Nekros.FrameConservation
open Words Paging PageTable PageTableSteps Errno
open SecureMemory (World backPages vmmAlloc vmmFree)
open Vmalloc (windowStart windowEnd)
open Function (update)

/- The tables are indexed by 36 bits of the address; the window, whose addresses are not
canonical, shares its entries with the canonical addresses below 512 GB. -/
def lowered (va : Nat) : Nat := va % 2^48

theorem indexLowered (va : Nat) : index 39 (lowered va) = index 39 va ∧ index 30 (lowered va) = index 30 va ∧
    index 21 (lowered va) = index 21 va ∧ index 12 (lowered va) = index 12 va := by
  simp only [indexExact,lowered]
  omega

theorem mapPageLowered (s : Mmu) (va pa prot : Nat) : mapPage through s va pa prot = mapPage through s (lowered va) pa prot := by
  obtain ⟨i39,i30,i21,i12⟩ := indexLowered va
  simp only [mapPage,i39,i30,i21,i12]

theorem unmapPageLowered (s : Mmu) (va : Nat) (freePhys : Bool) :
    unmapPage through s va freePhys = unmapPage through s (lowered va) freePhys := by
  obtain ⟨i39,i30,i21,i12⟩ := indexLowered va
  simp only [unmapPage,i39,i30,i21,i12]

def pageNo (virt j : Nat) : Nat := lowered (pageAt virt j) / 2^12

structure Took (s s' : Mmu) (used tables : List Nat) : Prop where
  answers : s.answers = used ++ s'.answers
  tables : s'.tables = tables ++ s.tables
  freed : s'.freed = s.freed.filter (fun f => f ∉ used)

def frames (used : List Nat) : List Nat := used.filter (fun a => a ≠ 0)

theorem tookNone {s s' : Mmu} (answers : s'.answers = s.answers) (tables : s'.tables = s.tables)
    (freed : s'.freed = s.freed) : Took s s' [] [] :=
  ⟨answers.symm,tables,by rw [freed]; simp⟩

theorem tookTrans {s s' s'' : Mmu} {used used' tables tables' : List Nat} (first : Took s s' used tables)
    (second : Took s' s'' used' tables') : Took s s'' (used ++ used') (tables' ++ tables) where
  answers := by rw [first.answers,second.answers,List.append_assoc]
  tables := by rw [second.tables,first.tables,List.append_assoc]
  freed := by
    rw [second.freed,first.freed,List.filter_filter]
    congr 1
    funext f
    simp [Bool.and_comm]

theorem allocTook {s s' : Mmu} {a : Nat} (took : pmmAllocPage s = (s',a)) :
    ∃ used, Took s s' used [] ∧ frames used = if a = 0 then [] else [a] := by
  unfold pmmAllocPage at took
  split at took
  · cases took
    exact ⟨[],tookNone rfl rfl rfl,rfl⟩
  · next pa rest answers =>
      cases took
      refine ⟨[a],⟨answers,rfl,by simp⟩,?_⟩
      by_cases zero : a = 0 <;> simp [frames,zero]

theorem storeTook {s s' : Mmu} {va v : Nat} (ok : store through s va v = some s') : Took s s' [] [] := by
  obtain ⟨pa,_,rfl⟩ := Option.map_eq_some_iff.mp ok
  exact tookNone rfl rfl rfl

theorem clearTook {s s' : Mmu} {va : Nat} (ok : clear through s va = some s') : Took s s' [] [] := by
  obtain ⟨pa,_,rfl⟩ := Option.map_eq_some_iff.mp ok
  exact tookNone rfl rfl rfl

def Tabled (s s' : Mmu) : Prop := ∃ used tables, Took s s' used tables ∧ tables.Perm (frames used)

theorem tabledRefl (s : Mmu) : Tabled s s := ⟨[],[],tookNone rfl rfl rfl,List.Perm.refl _⟩

theorem tabledTrans {s s' s'' : Mmu} (first : Tabled s s') (second : Tabled s' s'') : Tabled s s'' := by
  obtain ⟨used,tables,took,all⟩ := first
  obtain ⟨used',tables',took',all'⟩ := second
  refine ⟨_,_,tookTrans took took',?_⟩
  rw [frames,List.filter_append]
  exact List.perm_append_comm.trans (all.append all')

theorem nextTabled {s s' : Mmu} {p v : Nat} (ok : ptNextLevel through s p true = some (s',v)) : Tabled s s' := by
  obtain ⟨e,_,last⟩ := Option.bind_eq_some_iff.mp ok
  split at last
  · cases last
    exact tabledRefl s
  · rw [if_pos rfl,newLevel] at last
    rcases took : pmmAllocPage s with ⟨s1,a⟩
    obtain ⟨used,first,got⟩ := allocTook took
    rw [took] at last
    dsimp only at last
    split at last
    · next zero =>
        cases last
        rw [if_pos zero] at got
        exact ⟨used,[],first,by rw [got]⟩
    · next nonzero =>
        rw [if_neg nonzero] at got
        obtain ⟨s2,cleared,last⟩ := Option.bind_eq_some_iff.mp last
        obtain ⟨s3,stored,last⟩ := Option.bind_eq_some_iff.mp last
        cases last
        have both := tookTrans (tookTrans first (clearTook cleared)) (storeTook stored)
        simp only [List.append_nil] at both
        refine ⟨used,[a],⟨both.answers,?_,both.freed⟩,by rw [got]⟩
        show a::s3.tables = a::s.tables
        rw [both.tables,List.nil_append]

theorem mapPageTabled {s s' : Mmu} {va pa prot : Nat} {code : Int} (ok : mapPage through s va pa prot = some (s',code)) :
    Tabled s s' := by
  obtain ⟨⟨s1,v1⟩,ran1,ok⟩ := Option.bind_eq_some_iff.mp ok
  have first := nextTabled ran1
  split at ok
  · cases ok
    exact first
  obtain ⟨⟨s2,v2⟩,ran2,ok⟩ := Option.bind_eq_some_iff.mp ok
  have second := tabledTrans first (nextTabled ran2)
  split at ok
  · cases ok
    exact second
  obtain ⟨⟨s3,v3⟩,ran3,ok⟩ := Option.bind_eq_some_iff.mp ok
  have third := tabledTrans second (nextTabled ran3)
  split at ok
  · cases ok
    exact third
  obtain ⟨s4,stored,same⟩ := Option.map_eq_some_iff.mp ok
  cases same
  exact tabledTrans third ⟨[],[],storeTook stored,List.Perm.refl _⟩

theorem vmmMapOne {va pa : Nat} (s : Mmu) (flags : Nat) (word : va < 2^64) (word' : pa < 2^64) :
    vmmMap through s va pa 1 flags = mapPage through s va pa (protOf flags) := by
  have here : pageAt va 0 = va := by rw [pageAt,Nat.zero_mul,Nat.add_zero,wrapOfLt word]
  have there : pageAt pa 0 = pa := by rw [pageAt,Nat.zero_mul,Nat.add_zero,wrapOfLt word']
  rw [vmmMap,mapPages,here,there]
  cases mapPage through s va pa (protOf flags) with
  | none => rfl
  | some r =>
      obtain ⟨s',code⟩ := r
      rw [Option.bind_some]
      split
      · next zero =>
          have zero : code = 0 := zero
          rw [mapPages,zero]
      · rfl

theorem allocTaken {s s' : Mmu} {a : Nat} (took : pmmAllocPage s = (s',a)) (nonzero : a ≠ 0) :
    ∃ rest, s.answers = a::rest ∧ s' = taken s a rest := by
  unfold pmmAllocPage at took
  split at took
  · cases took
    exact absurd rfl nonzero
  · next pa rest answers =>
      cases took
      exact ⟨rest,answers,rfl⟩

theorem allocRefused {b : Boot} {s s' : Mmu} {node : Node} (h : Inv b s node) (supply : Supply s s.answers)
    (took : pmmAllocPage s = (s',0)) : Inv b s' node ∧ Supply s' s'.answers ∧ s'.phys = s.phys ∧ s'.pml4 = s.pml4 := by
  unfold pmmAllocPage at took
  split at took
  · cases took
    exact ⟨h,supply,rfl,rfl⟩
  · next pa rest answers =>
      cases took
      rw [answers] at supply
      exact ⟨takenInv h 0 rest,supplySkip supply,rfl,rfl⟩

theorem allocRefusedAt {s s' : Mmu} (took : pmmAllocPage s = (s',0)) : refusedAt s.answers = 0 := by
  unfold pmmAllocPage at took
  split at took
  · next answers =>
      rw [answers]
      rfl
  · next pa rest answers =>
      cases took
      rw [answers,refusedCons,if_pos rfl]

theorem supplyTaken {s : Mmu} {a : Nat} {rest : List Nat} (supply : Supply s (a::rest)) (nonzero : a ≠ 0) :
    Supply (taken s a rest) rest := by
  obtain ⟨distinct,each⟩ := supplyRest supply nonzero s.phys
  refine ⟨distinct,fun x mem nz => ?_⟩
  obtain ⟨page,low,fresh⟩ := each x mem nz
  exact ⟨page,low,fresh.imp_left (fun unused used => unused (List.mem_cons_of_mem _ used))⟩

theorem frameOfPage {a : Nat} (page : a % 2^12 = 0) (low : a < 2^30) : frame a = a := by
  rw [frameExact]
  omega

structure Turn (s : Mmu) (node : Node) (va a : Nat) (b : Boot) (s' : Mmu) (node' : Node) (code : Int)
    (used tables : List Nat) : Prop where
  inv : Inv b s' node'
  supply : Supply s' s'.answers
  nodes : ∀ p t, node p = some t → node' p = some t
  placed : Placed s s' node'
  took : Took s s' used tables
  split : (a::tables).Perm (frames used)
  walks : (code = -enomem ∧ (∀ va', walk s'.phys s'.pml4 va' = walk s.phys s.pml4 va') ∧
      0 < refusedAt s.answers ∧ refusedAt s.answers < 1 + missing node (lowered va)) ∨
    (code = 0 ∧ (∀ va', walk s'.phys s'.pml4 va' =
        if va' / 2^12 = lowered va / 2^12 then some (a + va' % 2^12) else walk s.phys s.pml4 va') ∧
      refusedAt s.answers = 1 + missing node (lowered va) + refusedAt s'.answers ∧
      ∀ p, node' p = none ↔ node p = none ∧ p ∉ ways (lowered va))

theorem turnEnds {b : Boot} {s s0 : Mmu} {node : Node} (h : Inv b s node) (supply : Supply s s.answers)
    {va a : Nat} (plain : Plain (lowered va)) (word : va < 2^64) (flags : Nat)
    (got : pmmAllocPage s = (s0,a)) (nonzero : a ≠ 0) :
    ∃ s' code node' used tables, vmmMap through s0 va a 1 flags = some (s',code) ∧
      Turn s node va a b s' node' code used tables := by
  obtain ⟨rest,answers,rfl⟩ := allocTaken got nonzero
  obtain ⟨used0,took0,frames0⟩ := allocTook got
  rw [if_neg nonzero] at frames0
  rw [answers] at supply
  obtain ⟨page,low,_⟩ := suppliedFresh h supply List.mem_cons_self nonzero
  obtain ⟨s',code,ran,s1,node1,grew,placed,ended⟩ :=
    mapPageEnds (takenInv h a rest) (supplyTaken supply nonzero) plain a flags
  rw [vmmMapOne _ flags word (Nat.lt_trans low (by decide)),mapPageLowered]
  obtain ⟨used,tables,took,all⟩ := mapPageTabled ran
  have both := tookTrans took0 took
  rw [List.append_nil] at both
  have split : (a::tables).Perm (frames (used0 ++ used)) := by
    rw [frames,List.filter_append]
    change (a::tables).Perm (frames used0 ++ frames used)
    rw [frames0]
    exact all.cons a
  refine ⟨s',code,node1,used0 ++ used,tables,ran,?_⟩
  have first : refusedAt s.answers = refusedAt rest + 1 := by rw [answers,refusedCons,if_neg nonzero]
  rcases ended with ⟨rfl,rfl,few⟩ | ⟨rfl,stored,spent,hung⟩
  · have few : refusedAt rest < missing node (lowered va) := few
    exact ⟨grew.inv,grew.supply,grew.nodes,placed,both,split,.inl ⟨rfl,grew.walks,by omega,by omega⟩⟩
  · have done := pageStored grew stored
    have spent : refusedAt rest = refusedAt s1.answers + missing node (lowered va) := spent
    refine ⟨stored.inv,done.supply,grew.nodes,?_,both,split,.inr ⟨rfl,fun va' => ?_,?_,hung⟩⟩
    · intro t mem
      rw [stored.tables] at mem
      exact placed t mem
    · rw [done.walks rfl va',frameOfPage page low]
      rfl
    · rw [stored.answers]
      omega

/- A page wants its frame, and then the tables on its way that are neither there before the call nor
on the way to an earlier page. -/
def wanted (node : Node) (virt i : Nat) : Nat :=
  (ways (lowered (pageAt virt i))).countP
    (fun p => node p = none ∧ ∀ j < i, p ∉ ways (lowered (pageAt virt j)))

def asked (node : Node) (virt : Nat) : (i count : Nat) → Nat
  | _,0 => 0
  | i,count+1 => 1 + wanted node virt i + asked node virt (i+1) count

def Grown (base : Node) (virt i : Nat) (node : Node) : Prop :=
  ∀ p, node p = none ↔ base p = none ∧ ∀ j < i, p ∉ ways (lowered (pageAt virt j))

theorem grownFirst (node : Node) (virt : Nat) : Grown node virt 0 node :=
  fun _ => ⟨fun none => ⟨none,fun _ lt => absurd lt (Nat.not_lt_zero _)⟩,And.left⟩

theorem grownNext {base node node' : Node} {virt i : Nat} (grown : Grown base virt i node)
    (hung : ∀ p, node' p = none ↔ node p = none ∧ p ∉ ways (lowered (pageAt virt i))) :
    Grown base virt (i+1) node' := by
  intro p
  rw [hung,grown p,and_assoc]
  refine and_congr_right fun _ => ⟨fun ⟨before,here⟩ j lt => ?_,fun all => ⟨?_,all i (Nat.lt_succ_self i)⟩⟩
  · rcases Nat.lt_succ_iff_lt_or_eq.mp lt with earlier | rfl
    · exact before j earlier
    · exact here
  · exact fun j lt => all j (Nat.lt_succ_of_lt lt)

theorem grownMissing {base node : Node} {virt i : Nat} (grown : Grown base virt i node) :
    missing node (lowered (pageAt virt i)) = wanted base virt i := by
  refine List.countP_congr fun p _ => ?_
  simp only [decide_eq_true_eq]
  exact grown p

/- The refused request is the one for the frame of a page. -/
def AtFrame (base : Node) (virt left i : Nat) (s : Mmu) : Prop :=
  ∃ k < left, refusedAt s.answers = asked base virt i k
instance (base virt left i s) : Decidable (AtFrame base virt left i s) := by unfold AtFrame; infer_instance

theorem atFrameRefused {base : Node} {virt left i : Nat} {s : Mmu} (refused : refusedAt s.answers = 0) :
    AtFrame base virt (left+1) i s := ⟨0,Nat.succ_pos left,refused⟩

theorem notAtFrame {base : Node} {virt left i : Nat} {s : Mmu} (some : 0 < refusedAt s.answers)
    (few : refusedAt s.answers < 1 + wanted base virt i) : ¬ AtFrame base virt left i s := by
  rintro ⟨k,_,here⟩
  cases k with
  | zero =>
      rw [asked] at here
      omega
  | succ k =>
      rw [asked] at here
      omega

theorem atFrameNext {base : Node} {virt left i : Nat} {s s' : Mmu}
    (spent : refusedAt s.answers = 1 + wanted base virt i + refusedAt s'.answers) :
    AtFrame base virt (left+1) i s ↔ AtFrame base virt left (i+1) s' := by
  constructor
  · rintro ⟨k,lt,here⟩
    cases k with
    | zero =>
        rw [asked] at here
        omega
    | succ k =>
        rw [asked] at here
        exact ⟨k,Nat.lt_of_succ_lt_succ lt,by omega⟩
  · rintro ⟨k,lt,here⟩
    refine ⟨k+1,Nat.succ_lt_succ lt,?_⟩
    rw [asked]
    omega

structure Backed (b : Boot) (virt left i : Nat) (s : Mmu) (node : Node) (lost : List Nat) (s' : Mmu)
    (ok : Bool) (node' : Node) (used tables data : List Nat) : Prop where
  inv : Inv b s' node'
  supply : Supply s' s'.answers
  nodes : ∀ p t, node p = some t → node' p = some t
  placed : Placed s s' node'
  took : Took s s' used tables
  split : (tables ++ data ++ lost).Perm (frames used)
  few : data.length ≤ left
  whole : ok = true → data.length = left ∧ lost = []
  mapped : ∀ k f, data[k]? = some f → ∀ va', va' / 2^12 = pageNo virt (i + k) →
    walk s'.phys s'.pml4 va' = some (f + va' % 2^12)
  others : ∀ va', (∀ k < data.length, va' / 2^12 ≠ pageNo virt (i + k)) →
    walk s'.phys s'.pml4 va' = walk s.phys s.pml4 va'

section Range
variable {b : Boot} {virt n : Nat} (plain : ∀ j < n, Plain (lowered (pageAt virt j)))
  (apart : ∀ j < n, ∀ k < n, pageNo virt j = pageNo virt k → j = k)

theorem backedRefused {left i : Nat} {s s0 : Mmu} {node : Node} {used : List Nat} (h : Inv b s node)
    (supply : Supply s s.answers) (got : pmmAllocPage s = (s0,0)) (took : Took s s0 used []) (none : frames used = []) :
    Backed b virt left i s node [] s0 false node used [] [] := by
  obtain ⟨inv,supply',phys,pml4⟩ := allocRefused h supply got
  refine ⟨inv,supply',fun _ _ => id,?_,took,?_,Nat.zero_le _,(nomatch ·),?_,fun _ _ => by rw [phys,pml4]⟩
  · intro t mem
    rw [took.tables] at mem
    exact .inl mem
  · rw [none]
    exact List.Perm.refl _
  · intro k f found
    cases found

theorem backedFailed {left i a : Nat} {s s1 : Mmu} {node node1 : Node} {code : Int} {used tables : List Nat}
    (turn : Turn s node (pageAt virt i) a b s1 node1 code used tables)
    (walks : ∀ va', walk s1.phys s1.pml4 va' = walk s.phys s.pml4 va') :
    Backed b virt left i s node [a] s1 false node1 used tables [] := by
  refine ⟨turn.inv,turn.supply,turn.nodes,turn.placed,turn.took,?_,Nat.zero_le _,(nomatch ·),?_,fun va' _ => walks va'⟩
  · rw [List.append_nil]
    exact List.perm_append_comm.trans turn.split
  · intro k f found
    cases found

include apart in
theorem backedTurn {left i a : Nat} {s s1 s' : Mmu} {node node1 node' : Node} {code : Int} {ok : Bool}
    {used1 tables1 lost used tables data : List Nat} (bound : i + (left + 1) ≤ n)
    (turn : Turn s node (pageAt virt i) a b s1 node1 code used1 tables1)
    (walks : ∀ va', walk s1.phys s1.pml4 va' =
      if va' / 2^12 = pageNo virt i then some (a + va' % 2^12) else walk s.phys s.pml4 va')
    (backed : Backed b virt left (i+1) s1 node1 lost s' ok node' used tables data) :
    Backed b virt (left+1) i s node lost s' ok node' (used1 ++ used) (tables ++ tables1) (a::data) := by
  have few := backed.few
  refine ⟨backed.inv,backed.supply,fun p t found => backed.nodes p t (turn.nodes p t found),
    placedTrans turn.placed backed.nodes backed.placed,tookTrans turn.took backed.took,?_,Nat.succ_le_succ few,?_,?_,?_⟩
  · rw [List.perm_iff_count]
    intro f
    have first := turn.split.count_eq f
    have second := backed.split.count_eq f
    simp only [frames,List.filter_append,List.count_append,List.count_cons] at first second ⊢
    omega
  · intro all
    rw [List.length_cons,(backed.whole all).1]
    exact ⟨rfl,(backed.whole all).2⟩
  · intro k f found va' here
    cases k with
    | zero =>
        cases found
        have later : ∀ k < data.length, va' / 2^12 ≠ pageNo virt (i + 1 + k) := by
          intro k lt same
          have := apart i (by omega) (i + 1 + k) (by omega) (here.symm.trans same)
          omega
        rw [backed.others va' later,walks]
        exact if_pos here
    | succ k =>
        rw [show i + (k + 1) = i + 1 + k by omega] at here
        exact backed.mapped k f found va' here
  · intro va' away
    have later : ∀ k < data.length, va' / 2^12 ≠ pageNo virt (i + 1 + k) := by
      intro k lt same
      refine away (k+1) (Nat.succ_lt_succ lt) ?_
      rw [same]
      congr 1
      omega
    rw [backed.others va' later,walks]
    exact if_neg (away 0 (Nat.succ_pos _))

include plain apart in
theorem backPagesEnds (base : Node) (flags : Nat) : ∀ left i s node, i + left ≤ n → Inv b s node →
    Supply s s.answers → Grown base virt i node →
    ∃ s' ok node' lost used tables data, backPages virt flags left i s = some (s',ok) ∧
      Backed b virt left i s node lost s' ok node' used tables data ∧
      (ok = true ↔ asked base virt i left ≤ refusedAt s.answers) ∧
      (ok = false → (lost = [] ↔ AtFrame base virt left i s)) := by
  intro left
  induction left with
  | zero =>
      intro i s node _ h supply _
      refine ⟨s,true,node,[],[],[],[],rfl,⟨h,supply,fun _ _ => id,fun _ => .inl,tookNone rfl rfl rfl,
        List.Perm.refl _,Nat.le_refl _,fun _ => ⟨rfl,rfl⟩,?_,fun _ _ => rfl⟩,
        iff_of_true rfl (Nat.zero_le _),fun no => by cases no⟩
      intro k f found
      cases found
  | succ left ih =>
      intro i s node bound h supply grown
      have same := grownMissing grown
      rcases got : pmmAllocPage s with ⟨s0,a⟩
      by_cases zero : a = 0
      · subst zero
        obtain ⟨used,took,none⟩ := allocTook got
        have refused := allocRefusedAt got
        refine ⟨s0,false,node,[],used,[],[],by simp [backPages,got],backedRefused h supply got took none,
          iff_of_false Bool.false_ne_true ?_,fun _ => iff_of_true rfl (atFrameRefused refused)⟩
        rw [asked,refused]
        omega
      · obtain ⟨s1,code,node1,used1,tables1,ran,turn⟩ :=
          turnEnds h supply (plain i (by omega)) (wrapLt _) flags got zero
        rcases turn.walks with ⟨rfl,walks,some,few⟩ | ⟨rfl,walks,spent,hung⟩
        · have code : enomem ≠ 0 := by decide
          rw [same] at few
          refine ⟨s1,false,node1,[a],used1,tables1,[],by simp [backPages,got,zero,ran,code],
            backedFailed turn walks,iff_of_false Bool.false_ne_true ?_,
            fun _ => iff_of_false (List.cons_ne_nil _ _) (notAtFrame some few)⟩
          rw [asked]
          omega
        · rw [same] at spent
          obtain ⟨s',ok,node',lost,used,tables,data,rest,backed,enough,place⟩ :=
            ih (i+1) s1 node1 (by omega) turn.inv turn.supply (grownNext grown hung)
          have ran' : backPages virt flags (left+1) i s = some (s',ok) := by
            simp [backPages,got,zero,ran,rest]
          refine ⟨s',ok,node',lost,_,_,_,ran',backedTurn apart bound turn walks backed,?_,fun failed => ?_⟩
          · rw [enough,asked]
            omega
          · rw [place failed,atFrameNext spent]

def behindRange (virt : Nat) (s : Mmu) : (left i : Nat) → List Nat
  | 0,_ => []
  | left+1,i => behindRange virt s left (i+1) ++ behind s (lowered (pageAt virt i))

theorem behindSame {s s' : Mmu} : ∀ left i, (∀ j, i ≤ j → j < i + left →
    walk s'.phys s'.pml4 (lowered (pageAt virt j)) = walk s.phys s.pml4 (lowered (pageAt virt j))) →
    behindRange virt s' left i = behindRange virt s left i := by
  intro left
  induction left with
  | zero =>
      intro i _
      rfl
  | succ left ih =>
      intro i same
      rw [behindRange,behindRange,ih (i+1) (fun j ge lt => same j (by omega) (by omega)),behind,behind,
        same i (Nat.le_refl i) (by omega)]

theorem memBehindRange {s : Mmu} {f : Nat} : ∀ left i, f ∈ behindRange virt s left i →
    ∃ j, i ≤ j ∧ j < i + left ∧ f ∈ behind s (lowered (pageAt virt j)) := by
  intro left
  induction left with
  | zero =>
      intro i mem
      cases mem
  | succ left ih =>
      intro i mem
      rcases List.mem_append.mp mem with later | here
      · obtain ⟨j,ge,lt,mem⟩ := ih (i+1) later
        exact ⟨j,by omega,by omega,mem⟩
      · exact ⟨i,Nat.le_refl i,by omega,here⟩

theorem behindBacked {s s' : Mmu} : ∀ (data : List Nat) (left i : Nat), data.length ≤ left →
    (∀ (k f : Nat), data[k]? = some f → behind s' (lowered (pageAt virt (i + k))) = [f]) →
    (∀ j, i + data.length ≤ j → j < i + left →
      walk s'.phys s'.pml4 (lowered (pageAt virt j)) = walk s.phys s.pml4 (lowered (pageAt virt j))) →
    behindRange virt s' left i =
      behindRange virt s (left - data.length) (i + data.length) ++ data.reverse := by
  intro data
  induction data with
  | nil =>
      intro left i _ _ others
      rw [List.reverse_nil,List.append_nil]
      exact behindSame left i others
  | cons f data ih =>
      intro left i few mapped others
      obtain ⟨left,rfl⟩ : ∃ n, left = n + 1 := ⟨left - 1,by rw [List.length_cons] at few; omega⟩
      rw [List.length_cons] at few others ⊢
      have later : ∀ (k g : Nat), data[k]? = some g → behind s' (lowered (pageAt virt (i + 1 + k))) = [g] := by
        intro k g found
        rw [show i + 1 + k = i + (k + 1) by omega]
        exact mapped (k+1) g found
      rw [behindRange,ih left (i+1) (by omega) later (fun j ge lt => others j (by omega) (by omega)),
        show behind s' (lowered (pageAt virt i)) = [f] from mapped 0 f rfl,List.reverse_cons,List.append_assoc,
        show left + 1 - (data.length + 1) = left - data.length by omega,
        show i + (data.length + 1) = i + 1 + data.length by omega]

include plain apart in
theorem unmapPagesClears : ∀ left i s node, i + left ≤ n → Inv b s node →
    (∀ j, i ≤ j → j < i + left → ∀ f ∈ behind s (lowered (pageAt virt j)), f ∉ s.tables) →
    ∃ s', unmapPages through virt true left i s = some s' ∧ Inv b s' node ∧ s'.answers = s.answers ∧
      s'.tables = s.tables ∧ s'.freed = behindRange virt s left i ++ s.freed := by
  intro left
  induction left with
  | zero =>
      intro i s node _ h _
      exact ⟨s,rfl,h,rfl,rfl,rfl⟩
  | succ left ih =>
      intro i s node bound h unowned
      have here : ∀ pa ∈ walk s.phys s.pml4 (lowered (pageAt virt i)), alignDown pa ∉ s.tables := by
        intro pa mapped
        refine unowned i (Nat.le_refl i) (by omega) _ ?_
        rw [behind,Option.mem_toList]
        exact Option.mem_map_of_mem alignDown mapped
      obtain ⟨s1,ran,gone⟩ := unmapPageClears h (plain i (by omega)) (fun (_ : true = true) => here)
      have walks : ∀ j, i + 1 ≤ j → j < i + 1 + left →
          walk s1.phys s1.pml4 (lowered (pageAt virt j)) = walk s.phys s.pml4 (lowered (pageAt virt j)) := by
        intro j ge lt
        rw [gone.walks,if_neg]
        intro same
        have := apart j (by omega) i (by omega) same
        omega
      obtain ⟨s',rest,inv,answers,tables,freed⟩ := ih (i+1) s1 node (by omega) gone.inv (by
        intro j ge lt f mem
        rw [behind,walks j ge lt] at mem
        rw [gone.tables]
        exact unowned j (by omega) (by omega) f mem)
      refine ⟨s',?_,inv,answers.trans gone.answers,tables.trans gone.tables,?_⟩
      · rw [unmapPages,unmapPageLowered,ran,Option.bind_some,rest]
      · rw [freed,gone.freed,behindSame left (i+1) walks,if_pos rfl,behindRange,List.append_assoc]

end Range

def Reaches (phys : Nat → Nat) (root : Nat) : Nat → Nat → Prop
  | 0,t => t = root
  | d+1,t => ∃ u, Reaches phys root d u ∧ ∃ i < 512, present (entry phys u i) ∧ ¬ large (entry phys u i) ∧
      frame (entry phys u i) = t

def TablePage (s : Mmu) (t : Nat) : Prop := ∃ d ≤ 3, Reaches s.phys s.pml4 d t

theorem nodeReaches {b : Boot} {s : Mmu} {node : Node} (h : Inv b s node) : ∀ p t, (∀ i ∈ p, i < 512) →
    node p = some t → Reaches s.phys s.pml4 p.length t := by
  intro p
  induction p with
  | nil =>
      intro t _ found
      rw [h.tree.rooted] at found
      rw [List.length_nil,Reaches,h.root]
      exact (Option.some.inj found).symm
  | cons i p ih =>
      intro t narrow found
      have deep := h.tree.depth _ t found
      rw [List.length_cons] at deep
      obtain ⟨hi,narrow⟩ := List.forall_mem_cons.mp narrow
      cases above : node p with
      | none =>
          rw [h.tree.closed p i above] at found
          cases found
      | some u =>
          obtain ⟨up,small,here⟩ := pointerExact (h.tree.page _ t found).1
          refine ⟨u,ih u narrow above,i,hi,?_⟩
          rw [h.tree.entries p u (by omega) above i hi,linkSome found]
          exact ⟨up,small,here⟩

theorem reachesNode {b : Boot} {s : Mmu} {node : Node} (h : Inv b s node) : ∀ d t, d ≤ 3 →
    Reaches s.phys s.pml4 d t → (∃ p, p.length = d ∧ node p = some t) ∨ t = b.pd := by
  intro d
  induction d with
  | zero =>
      intro t _ root
      refine .inl ⟨[],rfl,?_⟩
      rw [h.tree.rooted,show t = s.pml4 from root,h.root]
      rfl
  | succ d ih =>
      intro t shallow ⟨u,above,i,hi,up,small,here⟩
      rcases ih u (by omega) above with ⟨p,length,found⟩ | rfl
      · rw [h.tree.entries p u (by omega) found i hi] at up small here
        cases child : node (i::p) with
        | some c =>
            rw [linkSome child,(pointerExact (h.tree.page _ c child).1).2.2] at here
            exact .inl ⟨i::p,by rw [List.length_cons,length],here ▸ child⟩
        | none =>
            cases shared : (layout b).sharedAt p i with
            | true =>
                rw [linkShared child shared,(pointerExact h.tree.directory.1).2.2] at here
                exact .inr here.symm
            | false =>
                rw [linkNone child shared] at up
                exact absurd up zeroAbsent
      · -- the directory of the boot tables has no tables below it
        have word : entry s.phys b.pd i = largePage i := h.tree.directory.2 i hi
        rw [word] at small
        exact absurd (largePageExact hi).2.1 small

theorem tablePageListed {b : Boot} {s : Mmu} {node : Node} (h : Inv b s node) {t : Nat} (held : TablePage s t) :
    t ∈ s.tables := by
  obtain ⟨d,shallow,reaches⟩ := held
  rcases reachesNode h d t shallow reaches with ⟨p,_,found⟩ | rfl
  · exact h.listed p t found
  · exact h.directory

def obtained (s s' : Mmu) : List Nat := frames (s.answers.take (s.answers.length - s'.answers.length))

def Conserved (s s' : Mmu) : Prop :=
  ∀ f ∈ obtained s s', s'.freed.count f = 1 ∨ (s'.freed.count f = 0 ∧ TablePage s' f)

theorem obtainedTook {s s' : Mmu} {used : List Nat} (answers : s.answers = used ++ s'.answers) :
    obtained s s' = frames used := by
  rw [obtained,answers,List.length_append,Nat.add_sub_cancel,List.take_left]

/- The tree, the supply and the range a call starts from. A frame that some page of the range
still leads to is not one the allocator can give, nor a page table. -/
structure Ready (b : Boot) (s : Mmu) (node : Node) (virt pages : Nat) : Prop where
  inv : Inv b s node
  supply : Supply s s.answers
  plain : ∀ j < pages, Plain (lowered (pageAt virt j))
  apart : ∀ j < pages, ∀ k < pages, pageNo virt j = pageNo virt k → j = k
  unowned : ∀ j < pages, ∀ f ∈ behind s (lowered (pageAt virt j)), f ∉ s.answers ∧ f ∉ s.tables

section Balance
variable {b : Boot} {virt pages : Nat} {s s1 : Mmu} {node node1 : Node} {lost : List Nat} {ok : Bool}
  {used tables data : List Nat} (ready : Ready b s node virt pages)
  (backed : Backed b virt pages 0 s node lost s1 ok node1 used tables data)
include ready backed

theorem splitNodup : (tables ++ data ++ lost).Nodup := by
  refine backed.split.nodup_iff.mpr ?_
  have all := ready.supply.1
  rw [backed.took.answers,List.filter_append] at all
  exact all.of_append_left

theorem obtainedFresh {f : Nat} (mem : f ∈ frames used) :
    f ∈ s.answers ∧ f % 2^12 = 0 ∧ f < 2^30 ∧ f ∉ s.tables := by
  obtain ⟨inUsed,nonzero⟩ := List.mem_filter.mp mem
  have supplied : f ∈ s.answers := by
    rw [backed.took.answers]
    exact List.mem_append_left _ inUsed
  exact ⟨supplied,suppliedFresh ready.inv ready.supply supplied (by simpa using nonzero)⟩

theorem behindData (k f : Nat) (found : data[k]? = some f) :
    behind s1 (lowered (pageAt virt (0 + k))) = [f] := by
  have mem : f ∈ frames used := backed.split.subset
    (List.mem_append_left _ (List.mem_append_right _ (List.mem_of_getElem? found)))
  obtain ⟨_,page,low,_⟩ := obtainedFresh ready backed mem
  have off : lowered (pageAt virt (0 + k)) % 2^12 < 2^12 := Nat.mod_lt _ (by decide)
  rw [behind,backed.mapped k f found _ rfl,Option.map_some]
  have down := frameAligned f _ off
  rw [frameOfPage page low] at down
  rw [down]
  rfl

theorem walkBeyond {j : Nat} (ge : 0 + data.length ≤ j) (lt : j < 0 + pages) :
    walk s1.phys s1.pml4 (lowered (pageAt virt j)) = walk s.phys s.pml4 (lowered (pageAt virt j)) := by
  refine backed.others _ (fun k small same => ?_)
  have := ready.apart j (by omega) (0 + k) (by omega) same
  omega

theorem rangeCleared : ∃ s2, unmapPages through virt true pages 0 s1 = some s2 ∧ Inv b s2 node1 ∧
    obtained s s2 = frames used ∧ s2.tables = tables ++ s.tables ∧
    (∀ f ∈ frames used, s2.freed.count f = data.count f) := by
  have distinct := splitNodup ready backed
  have unowned : ∀ j, 0 ≤ j → j < 0 + pages → ∀ f ∈ behind s1 (lowered (pageAt virt j)), f ∉ s1.tables := by
    intro j _ lt f mem used
    rw [backed.took.tables,List.mem_append] at used
    by_cases new : j < data.length
    · have here := behindData ready backed j data[j] (List.getElem?_eq_getElem new)
      rw [Nat.zero_add] at here
      rw [here,List.mem_singleton] at mem
      have inData : f ∈ data := mem ▸ List.getElem_mem new
      rcases used with table | old
      · exact (List.nodup_append.mp distinct.of_append_left).2.2 f table f inData rfl
      · exact (obtainedFresh ready backed (backed.split.subset
          (List.mem_append_left _ (List.mem_append_right _ inData)))).2.2.2 old
    · rw [behind,walkBeyond ready backed (by omega) lt] at mem
      obtain ⟨unsupplied,unlisted⟩ := ready.unowned j (by omega) f mem
      rcases used with table | old
      · exact unsupplied (obtainedFresh ready backed (backed.split.subset
          (List.mem_append_left _ (List.mem_append_left _ table)))).1
      · exact unlisted old
  obtain ⟨s2,ran,inv,answers,tables2,freed⟩ :=
    unmapPagesClears ready.plain ready.apart pages 0 s1 node1 (by omega) backed.inv unowned
  refine ⟨s2,ran,inv,?_,tables2.trans backed.took.tables,fun f mem => ?_⟩
  · refine obtainedTook ?_
    rw [answers]
    exact backed.took.answers
  · have supplied := (obtainedFresh ready backed mem).1
    have stale : f ∉ behindRange virt s (pages - data.length) (0 + data.length) := by
      intro mem
      obtain ⟨j,_,lt,here⟩ := memBehindRange _ _ mem
      exact (ready.unowned j (by omega) f here).1 supplied
    have old : f ∉ s.freed.filter (fun f => f ∉ used) := by
      intro kept
      have unused : f ∉ used := by simpa using (List.mem_filter.mp kept).2
      exact unused (List.mem_of_mem_filter mem)
    rw [freed,behindBacked data pages 0 backed.few (behindData ready backed)
      (fun j ge lt => walkBeyond ready backed ge lt),backed.took.freed,List.count_append,List.count_append,
      List.count_eq_zero_of_not_mem stale,List.count_eq_zero_of_not_mem old,List.count_reverse]
    omega

theorem rangeConserved : ∃ s2, unmapPages through virt true pages 0 s1 = some s2 ∧ (Conserved s s2 ↔ lost = []) := by
  obtain ⟨s2,ran,inv,got,tables2,counts⟩ := rangeCleared ready backed
  have distinct := splitNodup ready backed
  obtain ⟨kept,_,keptLost⟩ := List.nodup_append.mp distinct
  obtain ⟨_,dataOnce,tablesData⟩ := List.nodup_append.mp kept
  refine ⟨s2,ran,fun conserved => ?_,?_⟩
  · rw [List.eq_nil_iff_forall_not_mem]
    intro f inLost
    have mem : f ∈ frames used := backed.split.subset (List.mem_append_right _ inLost)
    have outside : f ∉ tables ++ data := fun inside => keptLost f inside f inLost rfl
    rw [List.mem_append,not_or] at outside
    rcases conserved f (got ▸ mem) with once | ⟨_,held⟩
    · rw [counts f mem,List.count_eq_zero_of_not_mem outside.2] at once
      cases once
    · have listed := tablePageListed inv held
      rw [tables2,List.mem_append] at listed
      exact listed.elim outside.1 (obtainedFresh ready backed mem).2.2.2
  · rintro rfl f mem
    rw [got] at mem
    have place := backed.split.symm.subset mem
    rw [List.append_nil,List.mem_append] at place
    rw [counts f mem]
    rcases place with table | inData
    · refine .inr ⟨List.count_eq_zero_of_not_mem (fun inData => tablesData f table f inData rfl),?_⟩
      have listed : f ∈ s1.tables := by
        rw [backed.took.tables]
        exact List.mem_append_left _ table
      obtain ⟨p,narrow,found⟩ := (backed.placed f listed).resolve_left (obtainedFresh ready backed mem).2.2.2
      exact ⟨p.length,inv.tree.depth p f found,nodeReaches inv p f narrow found⟩
    · exact .inl (List.count_eq_one_of_mem dataOnce inData)

end Balance

theorem windowShort {virt pages : Nat} (low : windowStart ≤ virt) (high : virt ≤ windowEnd)
    (plain : ∀ j < pages, Plain (lowered (pageAt virt j))) : pages ≤ 2^35 := by
  by_contra long
  obtain ⟨canonical,_⟩ := plain (2^35) (by omega)
  unfold Canonical lowered pageAt wrap pageSize at canonical
  unfold windowStart at low
  unfold windowEnd at high
  omega

theorem windowApart {virt pages : Nat} (short : pages ≤ 2^35) :
    ∀ j < pages, ∀ k < pages, pageNo virt j = pageNo virt k → j = k := by
  intro j hj k hk same
  unfold pageNo lowered pageAt wrap pageSize at same
  omega

def NoRoom (w : World) (pages : Nat) : Prop := (CcProc.vmmAlloc w.cc pages true).2 = none
instance (w pages) : Decidable (NoRoom w pages) := by unfold NoRoom; infer_instance

theorem conservedRefl (s : Mmu) : Conserved s s := by
  intro f mem
  rw [obtained,Nat.sub_self] at mem
  cases mem

theorem allocBalanced {b : Boot} {w : World} {node : Node} {pages : Nat}
    (ready : Ready b w.mmu node w.cc.vmallocNext pages) (flags : Nat) :
    ∃ w' result, vmmAlloc w pages flags = some (w',result) ∧
      (result = none ↔
        NoRoom w pages ∨ refusedAt w.mmu.answers < asked node w.cc.vmallocNext 0 pages) ∧
      (result = none → (Conserved w.mmu w'.mmu ↔
        NoRoom w pages ∨ AtFrame node w.cc.vmallocNext pages 0 w.mmu)) ∧
      ∀ base, result = some base → ∃ w'', vmmFree w' base pages = some w'' ∧ Conserved w.mmu w''.mmu := by
  obtain ⟨n,_,_,place⟩ := CcProc.vmmAllocSame w.cc pages true
  rcases moved : CcProc.vmmAlloc w.cc pages true with ⟨cc,result⟩
  rw [moved] at place
  cases result with
  | none =>
      have full : NoRoom w pages := by rw [NoRoom,moved]
      refine ⟨w,none,by rw [vmmAlloc,moved],iff_of_true rfl (.inl full),fun _ => ?_,fun base found => by cases found⟩
      exact iff_of_true (conservedRefl w.mmu) (.inl full)
  | some virt =>
      cases place virt rfl
      have room : ¬ NoRoom w pages := by
        rw [NoRoom,moved]
        exact Option.some_ne_none _
      obtain ⟨s1,ok,node1,lost,used,tables,data,ran,backed,enough,atFrame⟩ :=
        backPagesEnds ready.plain ready.apart node flags pages 0 w.mmu node (by omega) ready.inv ready.supply
          (grownFirst node _)
      obtain ⟨s2,gone,balance⟩ := rangeConserved ready backed
      cases ok with
      | false =>
          have short : ¬ asked node w.cc.vmallocNext 0 pages ≤ refusedAt w.mmu.answers :=
            fun le => Bool.false_ne_true (enough.mpr le)
          refine ⟨{w with cc,mmu := s2},none,?_,iff_of_true rfl (.inr (Nat.lt_of_not_le short)),fun _ => ?_,
            fun base found => by cases found⟩
          · rw [vmmAlloc,moved]
            dsimp only
            rw [ran,Option.bind_some,if_neg Bool.false_ne_true,vmmUnmap,gone]
            rfl
          · rw [balance,atFrame rfl]
            exact (or_iff_right room).symm
      | true =>
          refine ⟨{w with cc,mmu := s1},some w.cc.vmallocNext,?_,?_,(fun no => by cases no),fun base found => ?_⟩
          · rw [vmmAlloc,moved]
            dsimp only
            rw [ran,Option.bind_some,if_pos rfl]
          · exact iff_of_false (Option.some_ne_none _)
              (not_or.mpr ⟨room,Nat.not_lt.mpr (enough.mp rfl)⟩)
          · cases found
            refine ⟨{w with cc,mmu := s2},?_,balance.mpr (backed.whole rfl).2⟩
            rw [vmmFree,vmmUnmap,gone]
            rfl

def sampleWorld (answers : List Nat) : World :=
  ⟨{CcProc.plainInit with vmallocNext := windowStart + 2^30},[],{start PageTableRuns.sampleBoot with answers},fun _ => 0⟩

theorem sampleInv (answers : List Nat) :
    Inv PageTableRuns.sampleBoot (sampleWorld answers).mmu (PageTableRuns.bootNode PageTableRuns.sampleBoot) :=
  {PageTableRuns.startInv PageTableRuns.sampleBoot with}

end Nekros.FrameConservation
