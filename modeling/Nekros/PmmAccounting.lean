import Mathlib.Algebra.BigOperators.Group.Finset.Basic
import Mathlib.Algebra.Order.BigOperators.Group.Finset
import Nekros.PmmSafety

/-! The page counters of mm/pmm.c: a node's `free_pages` against the blocks on its
lists, and the two global counters that `pmm_stats` reports against the nodes. -/
namespace Nekros.PmmAccounting
open Words Pmm Spans PmmShape PmmLoops PmmSafety
open Function (update)
open GuardedRun (run Guarded)

def NodeCounted (s : State) (i : Nat) : Prop :=
  ∃ lens : Nat → Nat, (∀ ord ≤ maxOrder, LinkChain.Length s.mem ((s.nodes i).free ord) (lens ord)) ∧
    (s.nodes i).freePages = ∑ ord ∈ Finset.range (maxOrder+1), lens ord * 2^ord

structure Accounted (s : State) : Prop where
  node : ∀ i < s.nnodes, NodeCounted s i
  sum : (pmmStats s).2 = ∑ i ∈ Finset.range s.nnodes, (s.nodes i).freePages
  bound : (pmmStats s).2 ≤ (pmmStats s).1

/- The steps after which the counters still agree. A region is either ignored or
comes while no other node has a free page; a freed block stays as it is. -/
def Counted (w : World) : Event → Prop
  | .addRegion base length =>
      regionEmpty base length = true ∨
        (base + pageSize - 1 < 2^64 ∧ NoWrap (regionStart base) (regionStop base length) ∧
          (maxNodes ≤ w.pmm.nnodes ∨
            ¬ (regionStart base ≤ 0x80000000 ∧ 0x80000000 < regionStop base length) ∧
              ∀ i < w.pmm.nnodes, (w.pmm.nodes i).freePages = 0))
  | .free b => ∀ i ∈ pmmNodeOf w.pmm b.pa, b.ord = maxOrder ∨
      ¬ ((w.pmm.nodes i).base ≤ buddyOf b.pa b.ord (w.pmm.nodes i).base ∧
        buddyOf b.pa b.ord (w.pmm.nodes i).base < (w.pmm.nodes i).limit ∧
        buddyFree (bitmapClearBlock w.pmm.bitmap b.pa b.ord)
          (buddyOf b.pa b.ord (w.pmm.nodes i).base) b.ord = true)
  | .alloc _ => True
  | .write _ _ => True
instance (w) : (e : Event) → Decidable (Counted w e)
  | .addRegion .. | .alloc _ | .free _ | .write .. => by unfold Counted; infer_instance

theorem sumShift {f g : Nat → Nat} {n i a b : Nat} (hi : i < n) (same : ∀ j, j ≠ i → g j = f j)
    (shift : g i + a = f i + b) :
    (∑ j ∈ Finset.range n, g j) + a = (∑ j ∈ Finset.range n, f j) + b := by
  have mem := Finset.mem_range.mpr hi
  have rest : ∑ j ∈ (Finset.range n).erase i, g j = ∑ j ∈ (Finset.range n).erase i, f j :=
    Finset.sum_congr rfl (fun j hj => same j (Finset.ne_of_mem_erase hj))
  rw [← Finset.add_sum_erase _ g mem,← Finset.add_sum_erase _ f mem,rest]
  omega

def pagesOf (lists : Lists) (i : Nat) : Nat :=
  ∑ ord ∈ Finset.range (maxOrder+1), (lists (i,ord)).length * 2^ord

theorem pagesUpdate {lists : Lists} {i ord a b : Nat} {l : List Nat} (top : ord ≤ maxOrder)
    (shift : l.length * 2^ord + a = (lists (i,ord)).length * 2^ord + b) :
    pagesOf (update lists (i,ord) l) i + a = pagesOf lists i + b := by
  refine sumShift (i := ord) (Nat.lt_succ_of_le top) (fun j hj => ?_) ?_
  · rw [Function.update_of_ne (by simpa using hj)]
  · rw [Function.update_self]
    exact shift

theorem pagesOther {lists : Lists} {i j ord : Nat} {l : List Nat} (different : j ≠ i) :
    pagesOf (update lists (i,ord) l) j = pagesOf lists j := by
  refine Finset.sum_congr rfl (fun o _ => ?_)
  rw [Function.update_of_ne (by simp [different])]

theorem pagesPushed {lists : Lists} {i ord pa : Nat} (top : ord ≤ maxOrder)
    (nonnull : physToVirt pa ≠ 0) : pagesOf (pushed lists (i,ord) pa) i = pagesOf lists i + 2^ord := by
  unfold pushed
  rw [if_neg nonnull]
  have shift : (pa::lists (i,ord)).length * 2^ord + 0 = (lists (i,ord)).length * 2^ord + 2^ord := by
    rw [List.length_cons,Nat.succ_mul,Nat.add_zero]
  have total := pagesUpdate top shift
  rw [Nat.add_zero] at total
  exact total

theorem pagesSplit (lists : Lists) (i pa : Nat) {ord avail : Nat} (top : avail ≤ maxOrder) (le : ord ≤ avail)
    (small : pa + blockSize avail ≤ 2^64)
    (nonnull : ¬ (pa ≤ 0x80000000 ∧ 0x80000000 < pa + blockSize avail)) :
    pagesOf (splitLists lists i pa ord avail) i + 2^ord = pagesOf lists i + 2^avail := by
  induction avail generalizing lists with
  | zero =>
      obtain rfl : ord = 0 := by omega
      rw [splitLists]
  | succ avail ih =>
      unfold splitLists
      have size := blockSizeSucc avail
      have pos := blockSizePos avail
      by_cases more : ord < avail+1
      · rw [if_pos more,ih _ (by omega) (by omega) (by omega) (by omega),
          pagesPushed (by omega) (fun null => ?_),Nat.pow_succ]
        · omega
        · have := (physToVirtNull (by omega)).mp null
          omega
      · obtain rfl : ord = avail+1 := by omega
        rw [if_neg more]

theorem splitOther {lists : Lists} {i j pa ord avail : Nat} (different : j ≠ i) :
    pagesOf (splitLists lists i pa ord avail) j = pagesOf lists j := by
  induction avail generalizing lists with
  | zero => rfl
  | succ avail ih =>
      unfold splitLists
      split
      · rw [ih]
        exact pagesOther different
      · rfl

theorem pagesCarve {fuel : Nat} (lists : Lists) (i : Nat) {pa stop : Nat} (small : stop < 2^64)
    (aligned : pa % pageSize = 0) (whole : stop % pageSize = 0) (flat : NoWrap pa stop)
    (enough : stop - pa ≤ fuel * pageSize) (nonnull : ¬ (pa ≤ 0x80000000 ∧ 0x80000000 < stop)) :
    pagesOf (carveLists fuel lists i pa stop) i = pagesOf lists i + (stop-pa)/pageSize := by
  induction fuel generalizing lists pa with
  | zero =>
      rw [show stop-pa = 0 by omega,Nat.zero_div,Nat.add_zero,carveLists]
  | succ fuel ih =>
      unfold carveLists
      by_cases more : pa < stop
      case neg =>
        rw [if_neg more,show stop-pa = 0 by omega,Nat.zero_div,Nat.add_zero]
      rw [if_pos more]
      obtain ⟨top,fits⟩ := carveOrderFits (Nat.le_refl maxOrder) small more aligned whole flat
      generalize carveOrder pa stop maxOrder = ord at top fits ⊢
      dsimp only
      have pos := blockSizePos ord
      have bytes := blockSizeEq ord
      have pages := blockSizePages ord
      rw [ih _ (by simp [Nat.add_mod,aligned,pages]) (fun o ho => by have := flat o ho; omega)
          (by unfold pageSize at *; rw [Nat.succ_mul] at enough; omega) (by omega),
        pagesPushed top (fun null => ?_)]
      · rw [show stop-pa = pageSize * 2^ord + (stop-(pa + blockSize ord)) by omega,
          Nat.mul_add_div (by decide),Nat.add_assoc]
      · have := (physToVirtNull (by omega)).mp null
        omega

theorem carveOther {fuel : Nat} {lists : Lists} {i j pa stop : Nat} (different : j ≠ i) :
    pagesOf (carveLists fuel lists i pa stop) j = pagesOf lists j := by
  induction fuel generalizing lists pa with
  | zero => rfl
  | succ fuel ih =>
      unfold carveLists
      split
      · dsimp only
        rw [ih]
        exact pagesOther different
      · rfl

theorem countedSound {w : World} {e : Event} (h : Counted w e) : Sound w e := by
  cases e with
  | addRegion base length => exact h.imp_right (fun ok => ⟨ok.1,ok.2.1⟩)
  | alloc ord => trivial
  | write pa value => trivial
  | free b =>
      intro i found
      rcases h i found with top | stays
      · rw [top,Nat.sub_self]
        trivial
      · cases maxOrder - b.ord with
        | zero => trivial
        | succ fuel => exact fun accepted => absurd accepted stays

def liveSum (live : List Block) : Nat := (live.map (fun b => 2^b.ord)).sum

def nodePages (s : State) (i : Nat) : Nat := ((s.nodes i).limit - (s.nodes i).base) / pageSize

structure Tally (w : World) (lists : Lists) : Prop where
  shape : Shape w.pmm lists (w.live.map Block.span)
  pages : ∀ i, (w.pmm.nodes i).freePages = pagesOf lists i
  sum : w.pmm.gFreeRamPages = ∑ i ∈ Finset.range w.pmm.nnodes, (w.pmm.nodes i).freePages
  ram : w.pmm.gTotalRamPages = w.pmm.gFreeRamPages + liveSum w.live
  room : w.pmm.gTotalRamPages = ∑ i ∈ Finset.range w.pmm.nnodes, nodePages w.pmm i
  high : ∀ i < w.pmm.nnodes, 0x1000000 ≤ (w.pmm.nodes i).base ∧
    ¬ ((w.pmm.nodes i).base ≤ 0x80000000 ∧ 0x80000000 < (w.pmm.nodes i).limit)

theorem tallyAccounted {w : World} {lists : Lists} (laid : Laid w.pmm w.regions) (h : Tally w lists) :
    Accounted w.pmm := by
  refine ⟨?_,h.sum,?_⟩
  · intro i hi
    refine ⟨fun ord => (lists (i,ord)).length,?_,h.pages i⟩
    intro ord top
    have chain := h.shape.chain (i,ord) (memKeys.mpr ⟨Nat.lt_of_lt_of_le hi laid.count,top⟩)
    have length := LinkChain.chainLength chain
    rw [List.length_map] at length
    exact length
  · show w.pmm.gFreeRamPages ≤ w.pmm.gTotalRamPages
    rw [h.ram]
    exact Nat.le_add_right _ _

theorem totalSmall {s : State} {lists : Lists} {hand : List Span} (shape : Shape s lists hand)
    (count : s.nnodes ≤ maxNodes) : ∑ i ∈ Finset.range s.nnodes, nodePages s i ≤ 2^55 := by
  have each : ∀ i ∈ Finset.range s.nnodes, nodePages s i ≤ 2^52 := by
    intro i hi
    have limit := shape.bounded i (Finset.mem_range.mp hi)
    unfold nodePages pageSize
    omega
  have bound := Finset.sum_le_card_nsmul _ _ _ each
  rw [Finset.card_range,nsmul_eq_mul,Nat.cast_id] at bound
  exact Nat.le_trans bound (Nat.mul_le_mul_right (2^52) count)

theorem nodeLeGlobal {w : World} {lists : Lists} (h : Tally w lists) {i : Nat} (hi : i < w.pmm.nnodes) :
    (w.pmm.nodes i).freePages ≤ w.pmm.gFreeRamPages := by
  rw [h.sum]
  exact Finset.single_le_sum (f := fun i => (w.pmm.nodes i).freePages) (fun _ _ => Nat.zero_le _)
    (Finset.mem_range.mpr hi)

theorem tallyMove {w w' : World} {lists lists' : Lists} {i a b : Nat} (h : Tally w lists)
    (hi : i < w.pmm.nnodes) (shape : Shape w'.pmm lists' (w'.live.map Block.span))
    (nodes : SameNodes w.pmm w'.pmm) (total : w'.pmm.gTotalRamPages = w.pmm.gTotalRamPages)
    (here : (w'.pmm.nodes i).freePages + a = (w.pmm.nodes i).freePages + b)
    (away : ∀ j, j ≠ i → (w'.pmm.nodes j).freePages = (w.pmm.nodes j).freePages)
    (pages : pagesOf lists' i + a = pagesOf lists i + b)
    (others : ∀ j, j ≠ i → pagesOf lists' j = pagesOf lists j)
    (free : w'.pmm.gFreeRamPages + a = w.pmm.gFreeRamPages + b)
    (live : liveSum w'.live + b = liveSum w.live + a) : Tally w' lists' := by
  refine ⟨shape,?_,?_,?_,?_,?_⟩
  · intro j
    by_cases same : j = i
    · subst same
      have := h.pages j
      omega
    · rw [away j same,others j same]
      exact h.pages j
  · have shift := sumShift hi away here
    have sum := h.sum
    rw [nodes.1]
    omega
  · have ram := h.ram
    omega
  · have same : ∀ j, nodePages w'.pmm j = nodePages w.pmm j := by
      intro j
      unfold nodePages
      rw [(nodes.2 j).1,(nodes.2 j).2]
    rw [total,h.room,nodes.1]
    exact Finset.sum_congr rfl (fun j _ => (same j).symm)
  · intro j hj
    rw [(nodes.2 j).1,(nodes.2 j).2]
    exact h.high j (nodes.1 ▸ hj)

theorem freeSmall {w : World} {lists : Lists} (count : w.pmm.nnodes ≤ maxNodes) (h : Tally w lists) :
    w.pmm.gFreeRamPages + liveSum w.live ≤ 2^55 := by
  rw [← h.ram,h.room]
  exact totalSmall h.shape count

theorem allocPages {w : World} {lists : Lists} {hand : List Span} {ord i avail : Nat} {result : State × Nat}
    {rest : List Nat} {t : State} (laid : Laid w.pmm w.regions) (h : Tally w lists)
    (got : Allocated w.pmm lists hand ord result i avail rest t) :
    pagesOf (splitLists (update lists (i,avail) rest) i result.2 ord avail) i + 2^ord =
      pagesOf lists i + 0 := by
  have node : i < maxNodes := Nat.lt_of_lt_of_le got.node laid.count
  have member : result.2 ∈ lists (i,avail) := by rw [got.listed]; exact List.mem_cons_self
  obtain ⟨_,_,block⟩ := h.shape.inNode (i,avail) (memKeys.mpr ⟨node,got.orders.2⟩) _ member
  have low : (w.pmm.nodes i).base ≤ result.2 := got.inside.1
  have blockStop : result.2 + blockSize avail ≤ (w.pmm.nodes i).limit := block.2
  have limit := h.shape.bounded i got.node
  have popped : pagesOf (update lists (i,avail) rest) i + 2^avail = pagesOf lists i + 0 := by
    refine pagesUpdate got.orders.2 ?_
    rw [got.listed,List.length_cons,Nat.succ_mul,Nat.add_zero]
  have split := pagesSplit (update lists (i,avail) rest) i result.2 got.orders.2 got.orders.1
    (by omega) (fun null => (h.high i got.node).2 ⟨by omega,by omega⟩)
  omega

theorem allocTally {w w' : World} {lists : Lists} {ord : Int} (laid : Laid w.pmm w.regions)
    (h : Tally w lists) (stepped : step w (.alloc ord) = some w') : ∃ lists', Tally w' lists' := by
  cases Option.some.inj stepped
  rcases allocCases laid.count h.shape ord with none | ⟨_,_,i,avail,rest,t,got⟩
  · simp only [none]
    exact ⟨lists,h.shape,h.pages,h.sum,h.ram,h.room,h.high⟩
  · have shape := allocatedShape got
    generalize pmmAllocPages w.pmm ord = result at got shape ⊢
    generalize ord.toNat = ord at *
    have low : (w.pmm.nodes i).base ≤ result.2 := got.inside.1
    have nonzero : result.2 ≠ 0 := by
      have := (h.high i got.node).1
      omega
    have pages := allocPages laid h got
    have bound := freeSmall laid.count h
    have share := nodeLeGlobal h got.node
    have counted := h.pages i
    have tnode : (t.nodes i).freePages = (w.pmm.nodes i).freePages := by rw [got.frame.node]
    have tfree : t.gFreeRamPages = w.pmm.gFreeRamPages := by rw [got.frame.rest]
    refine ⟨_,tallyMove (i := i) (a := 2^ord) (b := 0) h got.node ?_ ?_ ?_ ?_ ?_ pages ?_ ?_ ?_⟩
    · rw [if_neg nonzero]
      exact shape
    · rw [got.state]
      exact nodesTrans (frameNodes got.frame) (handOutNodes _ _ _ _)
    · rw [got.state]
      show t.gTotalRamPages = _
      rw [got.frame.rest]
    · rw [got.state]
      simp only [handOut,subFreePages,setNode,Function.update_self,Nat.one_shiftLeft]
      rw [tnode,sub64OfLe (by omega) (by omega)]
      omega
    · intro j hj
      rw [got.state]
      simp only [handOut,subFreePages,setNode,Function.update_of_ne hj]
      rw [got.frame.node]
    · intro j hj
      rw [splitOther hj,pagesOther hj]
    · rw [got.state]
      simp only [handOut,Nat.one_shiftLeft]
      rw [tfree,sub64OfLe (by omega) (by omega)]
      omega
    · rw [if_neg nonzero]
      simp only [liveSum,List.map_cons,List.sum_cons]
      omega

theorem coalesceStays {s : State} {i pa ord fuel : Nat}
    (stays : fuel = 0 ∨ ¬ ((s.nodes i).base ≤ buddyOf pa ord (s.nodes i).base ∧
      buddyOf pa ord (s.nodes i).base < (s.nodes i).limit ∧
      buddyFree s.bitmap (buddyOf pa ord (s.nodes i).base) ord = true)) :
    coalesce fuel s i pa ord = (s,pa,ord) := by
  cases fuel with
  | zero => rfl
  | succ fuel =>
      unfold coalesce
      dsimp only
      split
      · rfl
      · rename_i inside
        split
        · rename_i free
          exact absurd ⟨by omega,by omega,free⟩ (stays.resolve_left (by omega))
        · rfl

theorem liveErase {live : List Block} {b : Block} (mem : b ∈ live) :
    liveSum (live.erase b) + 2^b.ord = liveSum live := by
  have perm := ((List.perm_cons_erase mem).map (fun b : Block => 2^b.ord)).sum_eq
  simp only [List.map_cons,List.sum_cons] at perm
  unfold liveSum
  omega

theorem freeUnmerged {w : World} {b : Block} {i : Nat} (nonzero : b.pa ≠ 0) (top : b.ord ≤ maxOrder)
    (node : pmmNodeOf w.pmm b.pa = some i) (counted : Counted w (.free b)) :
    pmmFreePages w.pmm b.pa b.ord = takeBack (flPush (unmark w.pmm b.pa b.ord) i b.ord b.pa) i b.ord := by
  unfold pmmFreePages
  rw [if_neg (by omega),node]
  show freeIn w.pmm i b.pa b.ord = _
  unfold freeIn
  rw [coalesceStays]
  exact (counted i node).imp_left (fun same => by rw [same,Nat.sub_self])

theorem freeTally {w w' : World} {lists : Lists} {b : Block} (inv : Inv w) (h : Tally w lists)
    (valid : Valid w (.free b)) (counted : Counted w (.free b))
    (stepped : step w (.free b) = some w') : ∃ lists', Tally w' lists' := by
  obtain ⟨top,aligned,i,count,inside⟩ := inv.held b valid
  cases Option.some.inj stepped
  have pos := blockSizePos b.ord
  have limit := h.shape.bounded i count
  have low : (w.pmm.nodes i).base ≤ b.pa := inside.1
  have stop : b.pa + blockSize b.ord ≤ (w.pmm.nodes i).limit := inside.2
  have high := h.high i count
  have node : pmmNodeOf w.pmm b.pa = some i := nodeOfInside inv.laid count low (by omega)
  have nodeSmall : i < maxNodes := Nat.lt_of_lt_of_le count inv.laid.count
  have freed := freeUnmerged (by omega) top node counted
  have taken : Shape w.pmm lists (spanOf b.ord b.pa::(w.live.erase b).map Block.span) :=
    shapePerm ((List.perm_cons_erase valid).map Block.span) h.shape
  have unmarked : Shape (unmark w.pmm b.pa b.ord) lists
      (spanOf b.ord b.pa::(w.live.erase b).map Block.span) :=
    shapeCongr (s := w.pmm) rfl rfl (fun _ => rfl) (fun _ => ⟨rfl,rfl⟩) taken
  obtain ⟨shape,frame⟩ := pushShape (s := unmark w.pmm b.pa b.ord) (k := (i,b.ord))
    (memKeys.mpr ⟨nodeSmall,top⟩) count aligned inside unmarked
  have pages : pagesOf (pushed lists (i,b.ord) b.pa) i + 0 = pagesOf lists i + 2^b.ord := by
    rw [Nat.add_zero,pagesPushed top]
    intro null
    have := (physToVirtNull (by omega)).mp null
    omega
  have bound := freeSmall inv.laid.count h
  have share := nodeLeGlobal h count
  have erased := liveErase valid
  have tnode : ∀ j, ((flPush (unmark w.pmm b.pa b.ord) i b.ord b.pa).nodes j).freePages =
      (w.pmm.nodes j).freePages := fun j => by rw [frame.node]; rfl
  simp only [freed]
  generalize flPush (unmark w.pmm b.pa b.ord) i b.ord b.pa = t at shape frame tnode
  have tfree : t.gFreeRamPages = w.pmm.gFreeRamPages := by rw [frame.rest]; rfl
  have merged := frameNodes frame
  refine ⟨pushed lists (i,b.ord) b.pa,
    tallyMove (i := i) (a := 0) (b := 2^b.ord) h count ?_ ?_ ?_ ?_ ?_ pages ?_ ?_ ?_⟩
  · exact shapeCongr (s := addFreePages t i (1 <<< b.ord)) rfl rfl (fun _ => rfl)
      (fun _ => ⟨rfl,rfl⟩) (setNodeShape rfl rfl rfl shape)
  · exact nodesTrans (s := w.pmm) ⟨merged.1,merged.2⟩ (takeBackNodes t i b.ord)
  · show t.gTotalRamPages = _
    rw [frame.rest]
    rfl
  · simp only [takeBack,addFreePages,setNode,Function.update_self,Nat.one_shiftLeft]
    rw [tnode,wrapOfLt (by omega),Nat.add_zero]
  · intro j hj
    simp only [takeBack,addFreePages,setNode,Function.update_of_ne hj]
    exact tnode j
  · intro j hj
    exact pagesOther hj
  · simp only [takeBack,Nat.one_shiftLeft]
    rw [tfree,wrapOfLt (by omega),Nat.add_zero]
  · exact erased

theorem unopenedPages {s : State} {lists : Lists} {hand : List Span} {i : Nat} (shape : Shape s lists hand)
    (small : i < maxNodes) (unopened : s.nnodes ≤ i) : pagesOf lists i = 0 := by
  refine Finset.sum_eq_zero (fun ord ho => ?_)
  have top : ord ≤ maxOrder := Nat.le_of_lt_succ (Finset.mem_range.mp ho)
  have none : lists (i,ord) = [] := by
    refine List.eq_nil_iff_forall_not_mem.mpr (fun pa mem => ?_)
    have := (shape.inNode (i,ord) (memKeys.mpr ⟨small,top⟩) pa mem).1
    omega
  rw [none,List.length_nil,Nat.zero_mul]

theorem filledRoom {w : World} {lists : Lists} {base length start stop : Nat} {t : State}
    (f : Filled w lists base length start stop t) :
    ∑ i ∈ Finset.range t.nnodes, nodePages t i =
      ∑ i ∈ Finset.range w.pmm.nnodes, nodePages w.pmm i + (stop-start)/pageSize := by
  have same : ∀ i ∈ Finset.range w.pmm.nnodes, nodePages t i = nodePages w.pmm i := by
    intro i hi
    unfold nodePages
    rw [filledOther f (Nat.ne_of_lt (Finset.mem_range.mp hi))]
  have new : nodePages t w.pmm.nnodes = (stop-start)/pageSize := by
    unfold nodePages
    rw [(filledNew f).1,(filledNew f).2.1]
  rw [filledCount f,Finset.sum_range_succ,Finset.sum_congr rfl same,new]

theorem filledTotal {w : World} {lists : Lists} {base length start stop : Nat} {t : State}
    (laid : Laid w.pmm w.regions) (h : Tally w lists) (f : Filled w lists base length start stop t)
    (small : stop < 2^64) : t.gTotalRamPages = w.pmm.gTotalRamPages + (stop-start)/pageSize := by
  have bound := totalSmall h.shape laid.count
  rw [← h.room] at bound
  rw [f.frame.rest]
  show wrap (w.pmm.gTotalRamPages + (stop-start)/pageSize) = _
  refine wrapOfLt ?_
  unfold pageSize
  omega

theorem filledTally {w : World} {lists : Lists} {base length : Nat} {t : State}
    (laid : Laid w.pmm w.regions) (h : Tally w lists)
    (f : Filled w lists base length (regionStart base) (regionStop base length) t)
    (word : length < 2^64) (kept : regionEmpty base length = false)
    (counted : Counted w (.addRegion base length)) :
    ∃ lists', Tally {w with pmm := {t with gFreeRamPages := (t.nodes w.pmm.nnodes).freePages},
                            regions := ⟨base,length⟩::w.regions} lists' := by
  obtain ⟨fits,flat,others⟩ := counted.resolve_left (by rw [kept]; decide)
  obtain ⟨null,empty⟩ := others.resolve_left (Nat.not_le.mpr f.room)
  obtain ⟨_,less,_,startAligned,stopAligned,above⟩ := regionBounds kept fits word
  have small : regionStop base length < 2^64 := Nat.lt_of_le_of_lt (alignDownLe _) (wrapLt _)
  have enough : regionStop base length - regionStart base ≤
      (regionStop base length - regionStart base)/pageSize * pageSize := by
    unfold pageSize at *
    omega
  have carved := pagesCarve lists w.pmm.nnodes small startAligned stopAligned flat enough null
  generalize regionStart base = start at *
  generalize regionStop base length = stop at *
  have unopened := unopenedPages h.shape f.room (Nat.le_refl _)
  have fresh : (t.nodes w.pmm.nnodes).freePages = (stop-start)/pageSize := by
    have zero := h.pages w.pmm.nnodes
    rw [(filledNew f).2.2,zero,unopened,Nat.zero_add,wrapOfLt]
    unfold pageSize
    omega
  have old : ∀ j, j ≠ w.pmm.nnodes → (t.nodes j).freePages = (w.pmm.nodes j).freePages :=
    fun j hj => by rw [filledOther f hj]
  have count := filledCount f
  have noneFree : ∑ i ∈ Finset.range w.pmm.nnodes, (w.pmm.nodes i).freePages = 0 :=
    Finset.sum_eq_zero (fun i hi => empty i (Finset.mem_range.mp hi))
  have total := filledTotal laid h f small
  refine ⟨_,shapeCongr (s := t) rfl rfl (fun _ => rfl) (fun _ => ⟨rfl,rfl⟩) f.shape,?_,?_,?_,?_,?_⟩
  · intro j
    show (t.nodes j).freePages = _
    by_cases new : j = w.pmm.nnodes
    · subst new
      rw [fresh,carved,unopened,Nat.zero_add]
    · rw [old j new,carveOther new]
      exact h.pages j
  · show (t.nodes w.pmm.nnodes).freePages = ∑ i ∈ Finset.range t.nnodes, (t.nodes i).freePages
    rw [count,Finset.sum_range_succ,Finset.sum_congr rfl
      (fun i hi => old i (Nat.ne_of_lt (Finset.mem_range.mp hi))),noneFree,Nat.zero_add]
  · show t.gTotalRamPages = (t.nodes w.pmm.nnodes).freePages + liveSum w.live
    have ram := h.ram
    have sum := h.sum
    omega
  · show t.gTotalRamPages = ∑ i ∈ Finset.range t.nnodes, nodePages t i
    rw [total,filledRoom f,h.room]
  · intro i hi
    show 0x1000000 ≤ (t.nodes i).base ∧
      ¬ ((t.nodes i).base ≤ 0x80000000 ∧ 0x80000000 < (t.nodes i).limit)
    rcases filledEnds f hi with ⟨_,low,high⟩ | ⟨before,low,high⟩
    · rw [low,high]
      exact ⟨above,null⟩
    · rw [low,high]
      exact h.high i before

def Inv (w : World) : Prop := PmmSafety.Inv w ∧ ∃ lists, Tally w lists

theorem stepTally {w w' : World} {e : Event} (h : Inv w) (valid : Valid w e) (counted : Counted w e)
    (stepped : step w e = some w') : Inv w' := by
  obtain ⟨inv,lists,tally⟩ := h
  refine ⟨(stepInv inv valid (countedSound counted) stepped).1,?_⟩
  cases e with
  | addRegion base length =>
      obtain ⟨s,added,rfl⟩ := Option.map_eq_some_iff.mp stepped
      rcases addRegionCases inv tally.shape valid (countedSound counted) added with rfl | ⟨kept,t,f,rfl⟩
      · exact ⟨lists,tally.shape,tally.pages,tally.sum,tally.ram,tally.room,tally.high⟩
      · exact filledTally inv.laid tally f valid.2.1 kept counted
  | alloc ord => exact allocTally inv.laid tally stepped
  | free b => exact freeTally inv tally valid counted stepped
  | write pa value =>
      obtain ⟨b,mem,low,high⟩ := valid
      cases Option.some.inj stepped
      exact ⟨lists,writeShape value (List.mem_map_of_mem mem) low high tally.shape,tally.pages,
        tally.sum,tally.ram,tally.room,tally.high⟩

theorem startTally (mem : Nat → Nat) (bits : Nat → Bool) (bitmapPa bitmapSize : Nat) :
    Inv (start mem bits bitmapPa bitmapSize) := by
  have inv := startInv mem bits bitmapPa bitmapSize
  refine ⟨inv,fun _ => [],⟨fun k _ => rfl,by simp,inv.shape.choose_spec.bounded,by simp [start],?_⟩,
    ?_,rfl,rfl,rfl,fun i hi => absurd hi (Nat.not_lt_zero i)⟩
  · have none : freeSpans (fun _ => []) = [] := by simp [freeSpans]
    rw [none]
    exact packedNil
  · intro i
    simp [pagesOf,start,pmmInit,boot]

theorem runAccounted {mem : Nat → Nat} {bits : Nat → Bool} {bitmapPa bitmapSize : Nat}
    {events : List Event} {w : World}
    (guarded : Guarded step (fun w e => Valid w e ∧ Counted w e)
      (start mem bits bitmapPa bitmapSize) events)
    (ran : run step (start mem bits bitmapPa bitmapSize) events = some w) : Accounted w.pmm := by
  obtain ⟨inv,lists,tally⟩ := GuardedRun.guardedInvariant Inv
    (fun _ _ _ h guard stepped => stepTally h guard.1 guard.2 stepped)
    (startTally mem bits bitmapPa bitmapSize) guarded ran
  exact tallyAccounted inv.laid tally

def usedUpRun : List Event :=
  [.addRegion 0x1000000 0x2000,.alloc 1,.addRegion 0x2000000 0x4000,.alloc 0,.free ⟨0x2000000,0⟩]

theorem runAccountedUsedUp : ∃ w, run step booted usedUpRun = some w ∧ pmmStats w.pmm = (6,4) ∧
    Accounted w.pmm := by
  have stats : (run step booted usedUpRun).map (fun w => pmmStats w.pmm) = some (6,4) := by
    decide +kernel
  obtain ⟨w,ran,same⟩ := Option.map_eq_some_iff.mp stats
  exact ⟨w,ran,same,runAccounted (by decide +kernel) ran⟩

def doubleCountRun : List Event :=
  [.addRegion 0x1000000 0x2000,.alloc 0,.alloc 0,.free ⟨0x1000000,0⟩,.free ⟨0x1001000,0⟩]

theorem doubleCountUnaccounted : Guarded step Valid booted doubleCountRun ∧
    ∃ w, run step booted doubleCountRun = some w ∧ pmmStats w.pmm = (2,3) ∧ ¬ Accounted w.pmm := by
  have stats : (run step booted doubleCountRun).map (fun w => pmmStats w.pmm) = some (2,3) := by
    decide +kernel
  obtain ⟨w,ran,same⟩ := Option.map_eq_some_iff.mp stats
  refine ⟨by decide +kernel,w,ran,same,fun accounted => ?_⟩
  have bound := accounted.bound
  rw [same] at bound
  exact absurd bound (by decide)

end Nekros.PmmAccounting
