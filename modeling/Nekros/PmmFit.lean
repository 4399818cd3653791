import Nekros.PmmRestore

/-! Which block `pmm_alloc_pages` of mm/pmm.c takes, over free lists of any make. Nothing is
assumed of the node ranges, the counters or the bitmap: the lists alone decide. The shape the
lists have along a run does speak of node ranges, so a request is followed in a copy of the
state whose nodes span all addresses. -/
namespace Nekros.PmmFit
open Words Pmm Spans PmmShape PmmLoops PmmBitmap PmmBuddies
open LinkChain (Chain)
open DyadicBlocks (In sizeDvd inStart)
open Function (update)

/- Lists of blocks that start at multiples of their size and do not meet. Address 0 is the
answer of a request that fails, so no block starts there. -/
structure FreeLists (s : State) (lists : Lists) : Prop where
  nodes : s.nnodes ≤ maxNodes
  chain : ∀ i < s.nnodes, ∀ o ≤ maxOrder,
    Chain s.mem 0 ((s.nodes i).free o) ((lists (i,o)).map physToVirt)
  unused : ∀ k ∈ keys, s.nnodes ≤ k.1 → lists k = []
  aligned : ∀ k ∈ keys, ∀ pa ∈ lists k, blockSize k.2 ∣ pa
  placed : ∀ k ∈ keys, ∀ pa ∈ lists k, 0 < pa ∧ pa + blockSize k.2 < 2^64
  packed : Packed (freeSpans lists)

def spread (s : State) (i : Nat) : PmmNode :=
  {s.nodes i with free := if i < s.nnodes then (s.nodes i).free else fun _ => 0,base := 0,limit := 2^64 - 1}

def spanning (s : State) : State := {s with nodes := spread s}

theorem spanningNode {s : State} {i : Nat} (count : i < s.nnodes) :
    (spanning s).nodes i = {s.nodes i with base := 0,limit := 2^64 - 1} := by
  unfold spanning spread
  dsimp only
  rw [if_pos count]

theorem spanningFree {s : State} {i : Nat} (count : i < s.nnodes) :
    ((spanning s).nodes i).free = (s.nodes i).free := by
  rw [spanningNode count]

theorem spanningSet {s : State} {i : Nat} (nd : PmmNode) (count : i < s.nnodes) :
    setNode (spanning s) i {nd with base := 0,limit := 2^64 - 1} = spanning (setNode s i nd) := by
  have same : update (spread s) i {nd with base := 0,limit := 2^64 - 1} = spread (setNode s i nd) := by
    funext j
    unfold spread setNode
    by_cases here : j = i
    · subst here
      simp only [Function.update_self,if_pos count]
    · simp only [Function.update_of_ne here]
  unfold spanning setNode at *
  rw [same]

theorem spanningHead {s : State} {i ord : Nat} (mem : Nat → Nat) (p : Nat) (count : i < s.nnodes) :
    setHead {spanning s with mem} i ord p = spanning (setHead {s with mem} i ord p) := by
  have set := spanningSet (s := {s with mem})
    {s.nodes i with free := update (s.nodes i).free ord p} count
  rw [setHead,setHead,← set]
  dsimp only
  rw [spanningNode count]
  rfl

theorem spanningPush {s : State} {i ord pa : Nat} (count : i < s.nnodes) :
    flPush (spanning s) i ord pa = spanning (flPush s i ord pa) := by
  rw [flPush,flPush,spanningFree count]
  exact spanningHead _ _ count

theorem spanningPop {s : State} {i ord : Nat} (count : i < s.nnodes) :
    flPop (spanning s) i ord = (spanning (flPop s i ord).1,(flPop s i ord).2) := by
  rw [flPop,flPop,spanningFree count]
  dsimp only
  split
  · rfl
  · rw [spanningHead _ _ count]
    rfl

theorem spanningSplit {s : State} {i pa ord : Nat} (count : i < s.nnodes) (avail : Nat) :
    splitDown (spanning s) i pa ord avail = spanning (splitDown s i pa ord avail) := by
  induction avail generalizing s with
  | zero => rfl
  | succ avail ih =>
      rw [splitDown,splitDown]
      split
      · rw [spanningPush count]
        exact ih (s := flPush s i avail (wrap (pa + blockSize avail))) count
      · rfl

theorem splitCount (s : State) (i pa ord avail : Nat) : (splitDown s i pa ord avail).nnodes = s.nnodes := by
  induction avail generalizing s with
  | zero => rfl
  | succ avail ih =>
      rw [splitDown]
      split
      · exact ih _
      · rfl

theorem popCount (s : State) (i ord : Nat) : (flPop s i ord).1.nnodes = s.nnodes := by
  rw [flPop]
  split <;> rfl

theorem spanningRest (s : State) (bitmap : Bitmap) (gFreeRamPages : Nat) :
    spanning {s with bitmap,gFreeRamPages} = {spanning s with bitmap,gFreeRamPages} := rfl

theorem spanningHandOut {s : State} {i : Nat} (pa ord : Nat) (count : i < s.nnodes) :
    handOut (spanning s) i pa ord = spanning (handOut s i pa ord) := by
  have counted : subFreePages (spanning s) i (1 <<< ord) = spanning (subFreePages s i (1 <<< ord)) := by
    rw [subFreePages,subFreePages,← spanningSet _ count,spanningNode count]
  have bitmap : (spanning s).bitmap = s.bitmap := rfl
  have free : (spanning s).gFreeRamPages = s.gFreeRamPages := rfl
  rw [handOut,counted,bitmap,free]
  exact (spanningRest (subFreePages s i (1 <<< ord)) _ _).symm

theorem spanningAlloc {s : State} {i : Nat} (ord avail : Nat) (count : i < s.nnodes) :
    allocAt (spanning s) i ord avail =
      (spanning (allocAt s i ord avail).1,(allocAt s i ord avail).2) := by
  rw [allocAt,allocAt,spanningPop count]
  dsimp only
  rw [spanningSplit (popCount s i avail ▸ count),spanningHandOut]
  rw [splitCount,popCount]
  exact count

theorem spanningShape {s : State} {lists : Lists} (h : FreeLists s lists) : Shape (spanning s) lists [] where
  chain := by
    intro k hk
    rcases Nat.lt_or_ge k.1 s.nnodes with count | unused
    · rw [spanningFree count]
      exact h.chain k.1 count k.2 (memKeys.mp hk).2
    · rw [h.unused k hk unused]
      exact congrFun (if_neg (Nat.not_lt.mpr unused)) k.2
  inNode := by
    intro k hk pa mem
    obtain ⟨_,small⟩ := h.placed k hk pa mem
    refine ⟨?_,?_,Nat.zero_le _,Nat.le_sub_one_of_lt small⟩
    · by_contra unused
      rw [h.unused k hk (Nat.not_lt.mp unused)] at mem
      cases mem
    · have pages := blockSizePages k.2
      exact Nat.mod_eq_zero_of_dvd (Nat.dvd_trans (Nat.dvd_of_mod_eq_zero pages) (h.aligned k hk pa mem))
  bounded := fun _ _ => by
    show 2^64 - 1 < 2^64
    decide
  small := fun _ mem => by cases mem
  packed := by
    rw [List.append_nil]
    exact h.packed

theorem shapeFreeLists {s : State} {lists : Lists} {hand : List Span} (nodes : s.nnodes ≤ maxNodes)
    (shape : Shape (spanning s) lists hand) (aligned : ∀ k ∈ keys, ∀ pa ∈ lists k, blockSize k.2 ∣ pa)
    (nonzero : ∀ k ∈ keys, ∀ pa ∈ lists k, 0 < pa) : FreeLists s lists where
  nodes := nodes
  chain := by
    intro i count o top
    have chain := shape.chain (i,o) (memKeys.mpr ⟨Nat.lt_of_lt_of_le count nodes,top⟩)
    rwa [spanningFree count] at chain
  unused := by
    intro k hk unused
    refine List.eq_nil_iff_forall_not_mem.mpr fun pa mem => ?_
    exact Nat.not_lt.mpr unused (shape.inNode k hk pa mem).1
  aligned := aligned
  placed := by
    intro k hk pa mem
    have high : pa + blockSize k.2 ≤ 2^64 - 1 := (shape.inNode k hk pa mem).2.2.2
    exact ⟨nonzero k hk pa mem,by omega⟩
  packed := packedSublist (List.sublist_append_left _ _) shape.packed

theorem reachedFreeLists {origin : Lists} {bitmap : Bitmap} {w : PmmRestore.World} {lists : Lists}
    (o : PmmRestore.Origin origin) (h : PmmRestore.Inv origin bitmap w lists) :
    FreeLists w.callers.pmm lists where
  nodes := h.callers.laid.count
  chain := fun i count o top =>
    h.shape.chain (i,o) (memKeys.mpr ⟨Nat.lt_of_lt_of_le count h.callers.laid.count,top⟩)
  unused := by
    intro k hk unused
    refine List.eq_nil_iff_forall_not_mem.mpr fun pa mem => ?_
    exact Nat.not_lt.mpr unused (h.shape.inNode k hk pa mem).1
  aligned := h.listed
  placed := by
    intro k hk pa mem
    obtain ⟨count,_,inside⟩ := h.shape.inNode k hk pa mem
    have small := h.shape.bounded k.1 count
    have high : pa + blockSize k.2 ≤ (w.callers.pmm.nodes k.1).limit := inside.2
    have free : Covers (freeSpans lists) pa := coversFree.mpr ⟨k,hk,pa,mem,inStart blocksDouble _ _⟩
    obtain ⟨j,hj,block,home,_,near⟩ := PmmRestore.homeOf o ((h.covers pa).mp (.inl free))
    have low := (o.place _ (memKeys.mpr ⟨hj,Nat.le_refl _⟩) block home).1
    exact ⟨Nat.lt_of_lt_of_le (Nat.pos_of_ne_zero low) near.1,by omega⟩
  packed := packedSublist (List.sublist_append_left _ _) h.shape.packed

theorem availOrderNone {nd : PmmNode} {ord : Nat} :
    availOrder nd ord = none ↔ ∀ o, ord ≤ o → o ≤ maxOrder → nd.free o = 0 := by
  rw [availOrder,List.find?_range'_eq_none]
  constructor
  · intro none o ge top
    simpa using none o ge (by omega)
  · intro none o ge lt
    simp [none o ge (by omega)]

theorem availOrderSmallest {nd : PmmNode} {ord avail : Nat} (found : availOrder nd ord = some avail) :
    ∀ o, ord ≤ o → o < avail → nd.free o = 0 := by
  intro o ge less
  simpa using (List.find?_range'_eq_some.mp found).2.2 o ge less

theorem allocFromFirst (s : State) (ord a n : Nat) :
    ((∀ i, a ≤ i → i < a + n → availOrder (s.nodes i) ord = none) ∧ allocFrom s ord (List.range' a n) = (s,0)) ∨
      ∃ i avail, i < a + n ∧ availOrder (s.nodes i) ord = some avail ∧
        (∀ j, a ≤ j → j < i → availOrder (s.nodes j) ord = none) ∧
        allocFrom s ord (List.range' a n) = allocAt s i ord avail := by
  induction n generalizing a with
  | zero => exact .inl ⟨fun i ge lt => absurd lt (by omega),rfl⟩
  | succ n ih =>
      rw [List.range'_succ,allocFrom]
      cases here : availOrder (s.nodes a) ord with
      | some avail => exact .inr ⟨a,avail,by omega,here,fun j ge lt => absurd lt (by omega),rfl⟩
      | none =>
          have first (j : Nat) (same : j = a) : availOrder (s.nodes j) ord = none := same ▸ here
          rcases ih (a+1) with ⟨none,same⟩ | ⟨i,avail,lt,found,before,same⟩
          · refine .inl ⟨fun i ge lt => ?_,same⟩
            rcases Nat.eq_or_lt_of_le ge with here | later
            · exact first i here.symm
            · exact none i later (by omega)
          · refine .inr ⟨i,avail,by omega,found,fun j ge lt => ?_,same⟩
            rcases Nat.eq_or_lt_of_le ge with here | later
            · exact first j here.symm
            · exact before j later lt

structure Served (s : State) (lists : Lists) (ord : Nat) (result : State × Nat) (lists' : Lists)
    (i avail block : Nat) : Prop where
  node : i < s.nnodes
  order : ord ≤ avail ∧ avail ≤ maxOrder
  listed : block ∈ lists (i,avail)
  part : Within (spanOf ord result.2) (spanOf avail block)
  firstNode : ∀ j < i, ∀ o, ord ≤ o → o ≤ maxOrder → lists (j,o) = []
  smallest : ∀ o, ord ≤ o → o < avail → lists (i,o) = []
  aligned : blockSize ord ∣ result.2
  taken : ∀ x, In blockSize ord result.2 x → Covers (freeSpans lists) x
  left : ∀ x, Covers (freeSpans lists') x ↔ Covers (freeSpans lists) x ∧ ¬ In blockSize ord result.2 x
  kept : FreeLists result.1 lists'

theorem headEmpty {s : State} {lists : Lists} (h : FreeLists s lists) {i o : Nat} (count : i < s.nnodes)
    (top : o ≤ maxOrder) : (s.nodes i).free o = 0 ↔ lists (i,o) = [] := by
  have empty := listEmpty (memKeys.mpr ⟨Nat.lt_of_lt_of_le count h.nodes,top⟩) (spanningShape h)
  rwa [spanningFree count] at empty

theorem nothingListed {s : State} {lists : Lists} (h : FreeLists s lists) {i ord : Nat} (count : i < s.nnodes) :
    availOrder (s.nodes i) ord = none ↔ ∀ o, ord ≤ o → o ≤ maxOrder → lists (i,o) = [] := by
  rw [availOrderNone]
  exact forall_congr' fun o => forall_congr' fun _ => forall_congr' fun top => headEmpty h count top

theorem allocCount (s : State) (i ord avail : Nat) : (allocAt s i ord avail).1.nnodes = s.nnodes := by
  have split := splitCount (flPop s i avail).1 i (flPop s i avail).2 ord avail
  exact split.trans (popCount s i avail)

section Served
variable {s s' t : State} {lists : Lists} {ord i avail pa : Nat} {rest : List Nat} (h : FreeLists s lists)
  (got : Allocated (spanning s) lists [] ord (spanning s',pa) i avail rest t)

include h got in
theorem servedLeft (x : Nat) :
    Covers (freeSpans (splitLists (update lists (i,avail) rest) i pa ord avail)) x ↔
      Covers (freeSpans lists) x ∧ ¬ In blockSize ord pa x := by
  have covers := servedCovers (s := spanning s) h.nodes (spanningShape h) h.aligned got x
  have packed := packedPerm List.perm_append_comm (PmmSafety.allocatedShape got).packed
  rw [covers]
  constructor
  · intro free
    exact ⟨.inl free,fun inside => coversOnce packed inside.1 inside.2 free⟩
  · rintro ⟨free | inside,outside⟩
    · exact free
    · exact absurd inside outside

include h got in
theorem servedFreeLists (count : s'.nnodes = s.nnodes) :
    FreeLists s' (splitLists (update lists (i,avail) rest) i pa ord avail) := by
  have member {k : Nat × Nat} {q : Nat} :=
    servedMember (s := spanning s) h.nodes (spanningShape h) h.aligned got (k := k) (q := q)
  have key := servedKey (s := spanning s) h.nodes got
  have listed : pa ∈ lists (i,avail) := servedListed got
  refine shapeFreeLists (count ▸ h.nodes) (PmmSafety.allocatedShape got) ?_ ?_
  · intro k hk q mem
    rcases member.mp mem with ⟨_,_,less,rfl⟩ | old
    · have divides := Nat.dvd_trans (sizeDvd blocksDouble (Nat.le_of_lt less)) (h.aligned _ key _ listed)
      exact Nat.dvd_add divides (Nat.dvd_refl _)
    · exact h.aligned k hk q (servedRest got old)
  · intro k hk q mem
    rcases member.mp mem with ⟨_,_,_,rfl⟩ | old
    · exact Nat.lt_of_lt_of_le (blockSizePos _) (Nat.le_add_left _ _)
    · exact (h.placed k hk q (servedRest got old)).1

end Served

theorem allocAtServed {s : State} {lists : Lists} (h : FreeLists s lists) {i ord avail : Nat} (count : i < s.nnodes)
    (found : availOrder (s.nodes i) ord = some avail)
    (before : ∀ j < i, availOrder (s.nodes j) ord = none) :
    (allocAt s i ord avail).2 ≠ 0 ∧
      ∃ lists', Served s lists ord (allocAt s i ord avail) lists' i avail (allocAt s i ord avail).2 := by
  obtain ⟨le,top,head⟩ := availOrderFound found
  obtain ⟨rest,t,got⟩ := allocAtServes (s := spanning s) h.nodes (spanningShape h) count le top
    (by rwa [spanningFree count])
  have kept := allocCount s i ord avail
  rw [spanningAlloc ord avail count] at got
  generalize allocAt s i ord avail = result at got kept ⊢
  obtain ⟨s',pa⟩ := result
  have key := servedKey (s := spanning s) h.nodes got
  have listed : pa ∈ lists (i,avail) := servedListed got
  have smaller : blockSize ord ≤ blockSize avail := Nat.le_of_dvd (blockSizePos _) (sizeDvd blocksDouble le)
  have covers := servedCovers (s := spanning s) h.nodes (spanningShape h) h.aligned got
  refine ⟨Nat.ne_of_gt (h.placed _ key _ listed).1,
    splitLists (update lists (i,avail) rest) i pa ord avail,?_⟩
  exact
    { node := count
      order := ⟨le,top⟩
      listed := listed
      part := ⟨Nat.le_refl _,Nat.add_le_add_left smaller _⟩
      firstNode := fun j less => (nothingListed h (Nat.lt_trans less count)).mp (before j less)
      smallest := fun o ge less =>
        (headEmpty h count (Nat.le_trans (Nat.le_of_lt less) top)).mp (availOrderSmallest found o ge less)
      aligned := Nat.dvd_trans (sizeDvd blocksDouble le) (h.aligned _ key _ listed)
      taken := fun x inside => (covers x).mpr (.inr inside)
      left := servedLeft h got
      kept := servedFreeLists h got kept }

def NothingFits (s : State) (lists : Lists) (ord : Nat) : Prop :=
  ∀ i < s.nnodes, ∀ o, ord ≤ o → o ≤ maxOrder → lists (i,o) = []

theorem fittingServed {s : State} {lists : Lists} (h : FreeLists s lists) {ord : Nat} (top : ord ≤ maxOrder) :
    ((pmmAllocPages s ord).2 = 0 ↔ NothingFits s lists ord) ∧
      ((pmmAllocPages s ord).2 = 0 → pmmAllocPages s ord = (s,0)) ∧
      ((pmmAllocPages s ord).2 ≠ 0 →
        ∃ lists' i avail block, Served s lists ord (pmmAllocPages s ord) lists' i avail block) := by
  have called : pmmAllocPages s ord = allocFrom s ord (List.range' 0 s.nnodes) := by
    rw [pmmAllocPages,if_neg (by omega),List.range_eq_range']
    rfl
  rw [called]
  rcases allocFromFirst s ord 0 s.nnodes with ⟨none,same⟩ | ⟨i,avail,low,found,before,same⟩
  · rw [same]
    refine ⟨iff_of_true rfl fun i count => ?_,fun _ => rfl,fun some => absurd rfl some⟩
    exact (nothingListed h count).mp (none i (Nat.zero_le i) (by omega))
  · have count : i < s.nnodes := by omega
    obtain ⟨nonzero,lists',served⟩ := allocAtServed h count found (fun j less => before j (Nat.zero_le j) less)
    rw [same]
    refine ⟨iff_of_false nonzero fun nothing => ?_,fun zero => absurd zero nonzero,
      fun _ => ⟨lists',i,avail,_,served⟩⟩
    rw [(nothingListed h count).mpr (nothing i count)] at found
    cases found

def oneBlock : State :=
  {boot (fun _ => 0) (fun _ => true) with
    nnodes := 1
    nodes := fun _ => ⟨fun o => if o = 10 then physToVirt 0x1000000 else 0,1024,1024,0x1000000,0x1400000⟩}

def oneList : Lists := fun k => if k = (0,10) then [0x1000000] else []

theorem oneBlockFree : FreeLists oneBlock oneList where
  nodes := by decide
  chain := by
    intro i count o _
    obtain rfl : i = 0 := Nat.lt_one_iff.mp count
    by_cases ten : o = 10
    · subst ten
      exact ⟨rfl,by decide +kernel,rfl,rfl⟩
    · have none : oneList (0,o) = [] := if_neg (by simp [ten])
      rw [none]
      exact if_neg ten
  unused := by
    intro k _ unused
    refine if_neg ?_
    rintro rfl
    exact absurd unused (by decide)
  aligned := by decide
  placed := by decide
  packed := ⟨by decide,by decide⟩

theorem fittingServedOne : ∃ lists' i avail block,
    Served oneBlock oneList 0 (pmmAllocPages oneBlock 0) lists' i avail block :=
  (fittingServed oneBlockFree (Nat.zero_le _)).2.2 (by decide +kernel)

end Nekros.PmmFit
