import Nekros.PmmShape

/-! The loops of mm/pmm.c keep the shape of the free lists: splitting a block,
merging a freed block with its buddies, and carving a region into blocks. What
the lists become is said by functions on `Lists`; the memory follows them. -/
namespace Nekros.PmmLoops
open Words Pmm Spans PmmShape
open Function (update)

def splitLists (lists : Lists) (i pa ord : Nat) : Nat → Lists
  | 0 => lists
  | avail+1 =>
      if ord < avail+1 then splitLists (pushed lists (i,avail) (pa + blockSize avail)) i pa ord avail
      else lists

theorem splitShape {s lists hand i pa ord avail} (node : i < maxNodes) (count : i < s.nnodes)
    (top : avail ≤ maxOrder) (le : ord ≤ avail) (aligned : pa % pageSize = 0)
    (inside : InNode s i (spanOf avail pa)) (h : Shape s lists (spanOf avail pa::hand)) :
    Shape (splitDown s i pa ord avail) (splitLists lists i pa ord avail) (spanOf ord pa::hand) ∧
      Frame s (splitDown s i pa ord avail) hand := by
  induction avail generalizing s lists with
  | zero =>
      obtain rfl : ord = 0 := by omega
      exact ⟨h,frameRefl s hand⟩
  | succ avail ih =>
      unfold splitDown splitLists
      by_cases more : ord < avail+1
      · rw [if_pos more,if_pos more]
        have limit := h.bounded i count
        have size := blockSizeSucc avail
        have pos := blockSizePos avail
        have pages := blockSizePages avail
        have low : (s.nodes i).base ≤ pa := inside.1
        have high : pa + blockSize (avail+1) ≤ (s.nodes i).limit := inside.2
        rw [wrapOfLt (by omega)]
        have halves : Shape s lists (spanOf avail (pa + blockSize avail)::spanOf avail pa::hand) := by
          have split : Packed (spanOf avail pa::spanOf avail (pa + blockSize avail)::
              (hand ++ freeSpans lists)) := by
            refine packedSplit pos pos ?_
            rw [← size]
            exact packedPerm List.perm_append_comm h.packed
          refine shapeHand ?_ ?_ h
          · refine List.forall_mem_cons.mpr ⟨?_,List.forall_mem_cons.mpr ⟨?_,(shapeTail h).small⟩⟩ <;>
              simp only [spanOf,Span.stop] <;> omega
          · have swapped : (spanOf avail (pa + blockSize avail)::spanOf avail pa::hand ++
                freeSpans lists).Perm (freeSpans lists ++
                  spanOf avail (pa + blockSize avail)::spanOf avail pa::hand) := List.perm_append_comm
            exact packedPerm ((List.Perm.swap _ _ _).trans swapped) split
        have upper : InNode s i (spanOf avail (pa + blockSize avail)) := by
          constructor <;> simp only [spanOf,Span.stop] <;> omega
        have lower : InNode s i (spanOf avail pa) := by
          constructor <;> simp only [spanOf,Span.stop] <;> omega
        have pushes := pushShape (k := (i,avail)) (memKeys.mpr ⟨node,by omega⟩) count
          (by simp [Nat.add_mod,aligned,pages]) upper halves
        have rest := ih (frameCount pushes.2 ▸ count) (by omega) (by omega)
          ((frameInNode pushes.2).mpr lower) pushes.1
        exact ⟨rest.1,frameTrans (frameTail pushes.2) rest.2⟩
      · obtain rfl : ord = avail+1 := by omega
        rw [if_neg more,if_neg more]
        exact ⟨h,frameRefl s hand⟩

theorem availOrderFound {nd : PmmNode} {ord avail : Nat} (h : availOrder nd ord = some avail) :
    ord ≤ avail ∧ avail ≤ maxOrder ∧ nd.free avail ≠ 0 := by
  have mem := List.mem_of_find?_eq_some h
  have found := List.find?_some h
  rw [List.mem_range'_1] at mem
  exact ⟨by omega,by omega,by simpa using found⟩

theorem allocFromCases (s : State) (ord : Nat) (order : List Nat) :
    allocFrom s ord order = (s,0) ∨ ∃ i ∈ order, ∃ avail, ord ≤ avail ∧ avail ≤ maxOrder ∧
      (s.nodes i).free avail ≠ 0 ∧ allocFrom s ord order = allocAt s i ord avail := by
  induction order with
  | nil => exact .inl rfl
  | cons i rest ih =>
      cases found : availOrder (s.nodes i) ord with
      | some avail =>
          obtain ⟨le,top,some⟩ := availOrderFound found
          exact .inr ⟨i,List.mem_cons_self,avail,le,top,some,by simp only [allocFrom,found]⟩
      | none =>
          have same : allocFrom s ord (i::rest) = allocFrom s ord rest := by
            simp only [allocFrom,found]
          rw [same]
          rcases ih with none | ⟨j,mem,later⟩
          · exact .inl none
          · exact .inr ⟨j,List.mem_cons_of_mem _ mem,later⟩

theorem allocFromServes {s : State} {ord i avail : Nat} {order : List Nat} (mem : i ∈ order) (le : ord ≤ avail)
    (top : avail ≤ maxOrder) (found : (s.nodes i).free avail ≠ 0) :
    ∃ j ∈ order, ∃ avail', ord ≤ avail' ∧ avail' ≤ maxOrder ∧ (s.nodes j).free avail' ≠ 0 ∧
      allocFrom s ord order = allocAt s j ord avail' := by
  induction order with
  | nil => cases mem
  | cons j rest ih =>
      cases here : availOrder (s.nodes j) ord with
      | some avail' =>
          obtain ⟨le',top',some'⟩ := availOrderFound here
          exact ⟨j,List.mem_cons_self,avail',le',top',some',by simp only [allocFrom,here]⟩
      | none =>
          have other : i ≠ j := by
            rintro rfl
            have missed := List.find?_eq_none.mp here avail (List.mem_range'_1.mpr ⟨le,by omega⟩)
            simp [found] at missed
          obtain ⟨k,listed,later⟩ := ih ((List.mem_cons.mp mem).resolve_left other)
          refine ⟨k,List.mem_cons_of_mem _ listed,?_⟩
          simpa only [allocFrom,here] using later

structure Allocated (s : State) (lists : Lists) (hand : List Span) (ord : Nat)
    (result : State × Nat) (i avail : Nat) (rest : List Nat) (t : State) : Prop where
  node : i < s.nnodes
  orders : ord ≤ avail ∧ avail ≤ maxOrder
  listed : lists (i,avail) = result.2::rest
  aligned : result.2 % pageSize = 0
  inside : InNode s i (spanOf ord result.2)
  shape : Shape t (splitLists (update lists (i,avail) rest) i result.2 ord avail)
    (spanOf ord result.2::hand)
  frame : Frame s t hand
  state : result.1 = handOut t i result.2 ord

theorem allocAtServes {s lists hand ord i avail} (nodes : s.nnodes ≤ maxNodes) (h : Shape s lists hand)
    (count : i < s.nnodes) (le : ord ≤ avail) (top : avail ≤ maxOrder) (found : (s.nodes i).free avail ≠ 0) :
    ∃ rest t, Allocated s lists hand ord (allocAt s i ord avail) i avail rest t := by
  have node : i < maxNodes := Nat.lt_of_lt_of_le count nodes
  have hk : (i,avail) ∈ keys := memKeys.mpr ⟨node,top⟩
  obtain ⟨pa,rest,listed,popped,shape,frame⟩ := popShape (k := (i,avail)) hk found h
  have member : pa ∈ lists (i,avail) := by rw [listed]; exact List.mem_cons_self
  obtain ⟨_,aligned,inside⟩ := h.inNode _ hk pa member
  obtain ⟨splitShape,splitFrame⟩ := splitShape node (frameCount frame ▸ count) top le aligned
    ((frameInNode frame).mpr inside) shape
  have smaller : blockSize ord ≤ blockSize avail := by
    rw [blockSizeEq,blockSizeEq]
    exact Nat.mul_le_mul_left _ (Nat.pow_le_pow_right (by decide) le)
  have result : allocAt s i ord avail =
      (handOut (splitDown (flPop s i avail).1 i pa ord avail) i pa ord,pa) := by
    rw [← popped]
    rfl
  refine ⟨rest,splitDown (flPop s i avail).1 i pa ord avail,?_⟩
  rw [result]
  exact ⟨count,⟨le,top⟩,listed,aligned,
    ⟨inside.1,Nat.le_trans (Nat.add_le_add_left smaller pa) inside.2⟩,splitShape,
    frameTrans frame splitFrame,rfl⟩

theorem allocCases {s lists hand} (nodes : s.nnodes ≤ maxNodes) (h : Shape s lists hand) (ord : Int) :
    pmmAllocPages s ord = (s,0) ∨ (0 ≤ ord ∧ ord ≤ maxOrder ∧
      ∃ i avail rest t, Allocated s lists hand ord.toNat (pmmAllocPages s ord) i avail rest t) := by
  unfold pmmAllocPages
  by_cases outside : ord < 0 ∨ maxOrder < ord
  · exact .inl (if_pos outside)
  · rw [if_neg outside]
    rcases allocFromCases s ord.toNat (List.range s.nnodes) with
      none | ⟨i,mem,avail,le,top,found,same⟩
    · exact .inl none
    · obtain ⟨rest,t,got⟩ := allocAtServes nodes h (List.mem_range.mp mem) le top found
      rw [same]
      exact .inr ⟨by omega,by omega,i,avail,rest,t,got⟩

/- What the merging loop takes for granted: a buddy that passes the range check and
the bitmap is on the list of its order. `listed` says which blocks are. -/
def Merges (listed : Nat → Nat → Prop) (base limit : Nat) (b : Bitmap) : Nat → (pa ord : Nat) → Prop
  | 0,_,_ => True
  | fuel+1,pa,ord =>
      base ≤ buddyOf pa ord base ∧ buddyOf pa ord base < limit ∧
          buddyFree b (buddyOf pa ord base) ord = true →
        listed ord (buddyOf pa ord base) ∧
          Merges listed base limit b fuel (min pa (buddyOf pa ord base)) (ord+1)

instance decidableMerges (listed : Nat → Nat → Prop) [∀ ord pa, Decidable (listed ord pa)]
    (base limit : Nat) (b : Bitmap) : ∀ fuel pa ord, Decidable (Merges listed base limit b fuel pa ord)
  | 0,_,_ => .isTrue trivial
  | fuel+1,pa,ord =>
      letI := decidableMerges listed base limit b fuel (min pa (buddyOf pa ord base)) (ord+1)
      inferInstanceAs (Decidable (base ≤ buddyOf pa ord base ∧ buddyOf pa ord base < limit ∧
          buddyFree b (buddyOf pa ord base) ord = true →
        listed ord (buddyOf pa ord base) ∧
          Merges listed base limit b fuel (min pa (buddyOf pa ord base)) (ord+1)))

theorem mergesImp {P Q : Nat → Nat → Prop} {base limit : Nat} {b : Bitmap} {fuel pa ord top : Nat}
    (bound : ord + fuel ≤ top) (imp : ∀ o x, o < top → x < 2^64 → P o x → Q o x)
    (h : Merges P base limit b fuel pa ord) : Merges Q base limit b fuel pa ord := by
  induction fuel generalizing pa ord with
  | zero => trivial
  | succ fuel ih =>
      intro accepted
      obtain ⟨here,later⟩ := h accepted
      exact ⟨imp _ _ (by omega) (wrapLt _) here,ih (by omega) later⟩

def Linked (s : State) (i ord pa : Nat) : Prop :=
  ∃ n < (s.nodes i).totalPages, LinkChain.node s.mem ((s.nodes i).free ord) n = some (physToVirt pa)
instance (s i ord pa) : Decidable (Linked s i ord pa) := by unfold Linked; infer_instance

theorem linkedListed {s lists hand i ord pa} (hk : (i,ord) ∈ keys) (small : pa < 2^64)
    (h : Shape s lists hand) (linked : Linked s i ord pa) : pa ∈ lists (i,ord) := by
  obtain ⟨n,_,found⟩ := linked
  rw [LinkChain.chainNode (h.chain _ hk) n] at found
  obtain ⟨x,mem,same⟩ := List.mem_map.mp (List.mem_of_getElem? found)
  exact physToVirtInjective (addressSmall h hk mem) small same ▸ mem

theorem buddyCases {pa ord base : Nat} (low : base ≤ pa) (high : pa + blockSize ord < 2^64) :
    buddyOf pa ord base = pa + blockSize ord ∨ buddyOf pa ord base + blockSize ord = pa := by
  have power : blockSize ord = 2^(12+ord) := by
    rw [blockSizeEq,Nat.pow_add]
    rfl
  unfold buddyOf
  rw [sub64OfLe low (by omega),power]
  rw [power] at high
  rcases xorTwoPow (pa-base) (12+ord) with up | ⟨le,down⟩
  · left
    rw [up,wrapOfLt (by omega)]
    omega
  · right
    rw [down,wrapOfLt (by omega)]
    omega

theorem joinBuddies {ord pa buddy : Nat} {pool : List Span}
    (next : buddy = pa + blockSize ord ∨ buddy + blockSize ord = pa)
    (h : Packed (spanOf ord buddy::spanOf ord pa::pool)) :
    Packed (spanOf (ord+1) (min pa buddy)::pool) := by
  unfold spanOf
  rw [blockSizeSucc]
  rcases next with rfl | rfl
  · rw [Nat.min_eq_left (by omega)]
    exact packedJoin (packedPerm (List.Perm.swap _ _ _) h)
  · rw [Nat.min_eq_right (by omega)]
    exact packedJoin h

structure Merged (s : State) (lists : Lists) (hand : List Span) (i : Nat)
    (result : State × Nat × Nat) : Prop where
  shape : Shape result.1 lists (spanOf result.2.2 result.2.1::hand)
  frame : Frame s result.1 hand
  top : result.2.2 ≤ maxOrder
  aligned : result.2.1 % pageSize = 0
  inside : InNode s i (spanOf result.2.2 result.2.1)

theorem joinShape {s lists hand i pa buddy ord} (node : i < maxNodes) (count : i < s.nnodes)
    (top : ord ≤ maxOrder) (aligned : pa % pageSize = 0) (inside : InNode s i (spanOf ord pa))
    (next : buddy = pa + blockSize ord ∨ buddy + blockSize ord = pa) (member : buddy ∈ lists (i,ord))
    (h : Shape s lists (spanOf ord pa::hand)) :
    Shape (flRemove s i ord buddy) (update lists (i,ord) ((lists (i,ord)).erase buddy))
        (spanOf (ord+1) (min pa buddy)::hand) ∧
      Frame s (flRemove s i ord buddy) hand ∧ min pa buddy % pageSize = 0 ∧
      InNode s i (spanOf (ord+1) (min pa buddy)) := by
  have hk : (i,ord) ∈ keys := memKeys.mpr ⟨node,top⟩
  obtain ⟨_,buddyAligned,buddyInside⟩ := h.inNode _ hk buddy member
  have low : (s.nodes i).base ≤ pa := inside.1
  have high : pa + blockSize ord ≤ (s.nodes i).limit := inside.2
  have blow : (s.nodes i).base ≤ buddy := buddyInside.1
  have bhigh : buddy + blockSize ord ≤ (s.nodes i).limit := buddyInside.2
  obtain ⟨removed,frame⟩ := removeShape (k := (i,ord)) hk member h
  have size := blockSizeSucc ord
  have merged : InNode s i (spanOf (ord+1) (min pa buddy)) := by
    constructor <;> simp only [spanOf,Span.stop] <;> omega
  refine ⟨?_,frameTail frame,?_,merged⟩
  · have packed := joinBuddies next (packedPerm (List.perm_append_comm) removed.packed)
    refine shapeHand ?_ (packedPerm List.perm_append_comm packed) removed
    refine List.forall_mem_cons.mpr ⟨?_,(shapeTail h).small⟩
    exact Nat.lt_of_le_of_lt merged.2 (h.bounded i count)
  · rcases Nat.le_total pa buddy with le | le
    · rw [Nat.min_eq_left le]; exact aligned
    · rw [Nat.min_eq_right le]; exact buddyAligned

theorem joinCovers {ord pa buddy : Nat} {pool : List Span} {x : Nat}
    (next : buddy = pa + blockSize ord ∨ buddy + blockSize ord = pa) :
    Covers (spanOf ord buddy::spanOf ord pa::pool) x ↔ Covers (spanOf (ord+1) (min pa buddy)::pool) x := by
  unfold spanOf
  rw [blockSizeSucc]
  rcases next with rfl | rfl
  · rw [Nat.min_eq_left (by omega),coversPerm (List.Perm.swap _ _ _) x]
    exact coversSplit
  · rw [Nat.min_eq_right (by omega)]
    exact coversSplit

theorem joinWithin {ord pa buddy : Nat} (next : buddy = pa + blockSize ord ∨ buddy + blockSize ord = pa) :
    Within (spanOf ord pa) (spanOf (ord+1) (min pa buddy)) := by
  have size := blockSizeSucc ord
  simp only [Within,Span.stop,spanOf]
  omega

structure Coalesced (s : State) (lists : Lists) (hand : List Span) (i pa ord : Nat)
    (result : State × Nat × Nat) (lists' : Lists) : Prop where
  merged : Merged s lists' hand i result
  above : ∀ o, result.2.2 ≤ o → lists' (i,o) = lists (i,o)
  covers : ∀ x, Covers (spanOf result.2.2 result.2.1::freeSpans lists') x ↔
    Covers (spanOf ord pa::freeSpans lists) x
  reached : ord ≤ result.2.2
  within : Within (spanOf ord pa) (spanOf result.2.2 result.2.1)

def mergeLists (b : Bitmap) (base limit i : Nat) : Nat → Lists → (pa ord : Nat) → Lists
  | 0,lists,_,_ => lists
  | fuel+1,lists,pa,ord =>
      let buddy := buddyOf pa ord base
      if buddy < base ∨ limit ≤ buddy then lists
      else if buddyFree b buddy ord then
        mergeLists b base limit i fuel (update lists (i,ord) ((lists (i,ord)).erase buddy)) (min pa buddy) (ord+1)
      else lists

def mergeEnd (b : Bitmap) (base limit : Nat) : Nat → (pa ord : Nat) → Nat × Nat
  | 0,pa,ord => (pa,ord)
  | fuel+1,pa,ord =>
      let buddy := buddyOf pa ord base
      if buddy < base ∨ limit ≤ buddy then (pa,ord)
      else if buddyFree b buddy ord then mergeEnd b base limit fuel (min pa buddy) (ord+1)
      else (pa,ord)

theorem removeEnds (s : State) (i ord pa : Nat) :
    ((flRemove s i ord pa).nodes i).base = (s.nodes i).base ∧
      ((flRemove s i ord pa).nodes i).limit = (s.nodes i).limit ∧ (flRemove s i ord pa).bitmap = s.bitmap := by
  simp [flRemove,setHead,setNode]

theorem coalesceEnd (fuel : Nat) (s : State) (i pa ord : Nat) :
    (coalesce fuel s i pa ord).2 = mergeEnd s.bitmap (s.nodes i).base (s.nodes i).limit fuel pa ord := by
  induction fuel generalizing s pa ord with
  | zero => rfl
  | succ fuel ih =>
      rw [coalesce,mergeEnd]
      split
      · rfl
      · split
        · obtain ⟨base,limit,bitmap⟩ := removeEnds s i ord (buddyOf pa ord (s.nodes i).base)
          rw [ih,base,limit,bitmap]
        · rfl

theorem coalesceKeeps {s : State} {lists old : Lists} {hand i pa ord fuel} (node : i < maxNodes) (count : i < s.nnodes)
    (top : ord + fuel ≤ maxOrder) (aligned : pa % pageSize = 0) (inside : InNode s i (spanOf ord pa))
    (above : ∀ o, ord ≤ o → lists (i,o) = old (i,o))
    (merges : Merges (fun o x => x ∈ old (i,o)) (s.nodes i).base (s.nodes i).limit s.bitmap fuel pa ord)
    (h : Shape s lists (spanOf ord pa::hand)) :
    Coalesced s lists hand i pa ord (coalesce fuel s i pa ord)
      (mergeLists s.bitmap (s.nodes i).base (s.nodes i).limit i fuel lists pa ord) := by
  induction fuel generalizing s lists pa ord with
  | zero =>
      exact ⟨⟨h,frameRefl s hand,top,aligned,inside⟩,fun _ _ => rfl,fun _ => Iff.rfl,Nat.le_refl _,
          Nat.le_refl _,Nat.le_refl _⟩
  | succ fuel ih =>
      have small : ord ≤ maxOrder := by omega
      have stays : Coalesced s lists hand i pa ord (s,pa,ord) lists :=
        ⟨⟨h,frameRefl s hand,small,aligned,inside⟩,fun _ _ => rfl,fun _ => Iff.rfl,Nat.le_refl _,
          Nat.le_refl _,Nat.le_refl _⟩
      unfold coalesce mergeLists
      by_cases out : buddyOf pa ord (s.nodes i).base < (s.nodes i).base ∨
          (s.nodes i).limit ≤ buddyOf pa ord (s.nodes i).base
      · rw [if_pos out,if_pos out]
        exact stays
      rw [if_neg out,if_neg out]
      by_cases free : buddyFree s.bitmap (buddyOf pa ord (s.nodes i).base) ord = true
      case neg =>
        rw [if_neg free,if_neg free]
        exact stays
      rw [if_pos free,if_pos free]
      obtain ⟨listed,later⟩ := merges ⟨by omega,by omega,free⟩
      have low : (s.nodes i).base ≤ pa := inside.1
      have next := buddyCases low (Nat.lt_of_le_of_lt inside.2 (h.bounded i count))
      generalize buddyOf pa ord (s.nodes i).base = buddy at *
      have member : buddy ∈ lists (i,ord) := by rw [above ord (Nat.le_refl _)]; exact listed
      obtain ⟨joined,frame,minAligned,mergedInside⟩ := joinShape node count small aligned inside next member h
      obtain ⟨base,limit,bitmap⟩ := removeEnds s i ord buddy
      have rest := ih (frameCount frame ▸ count) (by omega) minAligned
        ((frameInNode frame).mpr mergedInside)
        (fun o ho => by
          rw [Function.update_of_ne (by simp; omega)]
          exact above o (by omega))
        (by rw [base,limit,bitmap]; exact later) joined
      rw [base,limit,bitmap] at rest
      obtain ⟨merged,kept,covers,reached,within⟩ := rest
      have moved : (spanOf ord buddy::spanOf ord pa::
          freeSpans (update lists (i,ord) ((lists (i,ord)).erase buddy))).Perm
          (spanOf ord pa::freeSpans lists) :=
        (List.Perm.swap _ _ _).trans
          ((freeTake (memKeys.mpr ⟨node,small⟩) (List.perm_cons_erase member)).symm.cons _)
      refine ⟨⟨merged.shape,frameTrans frame merged.frame,merged.top,merged.aligned,
        (frameInNode frame).mp merged.inside⟩,?_,?_,by omega,withinTrans (joinWithin next) within⟩
      · intro o ho
        rw [kept o ho,Function.update_of_ne (by simp; omega)]
      · intro x
        rw [covers x,← joinCovers next]
        exact coversPerm moved x

theorem setNodeShape {s lists hand i} {nd : PmmNode} (free : nd.free = (s.nodes i).free)
    (base : nd.base = (s.nodes i).base) (limit : nd.limit = (s.nodes i).limit)
    (h : Shape s lists hand) : Shape (setNode s i nd) lists hand := by
  refine shapeCongr (s := s) rfl rfl (fun j => ?_) (fun j => ?_) h <;> by_cases same : j = i
  · subst same; simpa [setNode] using free
  · simp [setNode,Function.update_of_ne same]
  · subst same; simpa [setNode] using ⟨base,limit⟩
  · simp [setNode,Function.update_of_ne same]

theorem mergesListed {s lists hand i pa ord} (node : i < maxNodes) (top : ord ≤ maxOrder) {b : Bitmap}
    (merges : Merges (Linked s i) (s.nodes i).base (s.nodes i).limit b (maxOrder-ord) pa ord)
    (h : Shape s lists hand) : Merges (fun o x => x ∈ lists (i,o)) (s.nodes i).base (s.nodes i).limit b
      (maxOrder-ord) pa ord := by
  refine mergesImp (Nat.le_of_eq (Nat.add_sub_of_le top)) (fun o x ho hx linked => ?_) merges
  exact linkedListed (memKeys.mpr ⟨node,Nat.le_of_lt ho⟩) hx h linked

def freedLists (s : State) (lists : Lists) (i pa ord : Nat) : Lists :=
  mergeLists (bitmapClearBlock s.bitmap pa ord) (s.nodes i).base (s.nodes i).limit i (maxOrder-ord) lists pa ord

def freedEnd (s : State) (i pa ord : Nat) : Nat × Nat :=
  mergeEnd (bitmapClearBlock s.bitmap pa ord) (s.nodes i).base (s.nodes i).limit (maxOrder-ord) pa ord

section Freed
variable {s : State} {lists : Lists} {hand : List Span} {i pa ord : Nat} (node : i < maxNodes) (count : i < s.nnodes)
  (top : ord ≤ maxOrder) (aligned : pa % pageSize = 0) (inside : InNode s i (spanOf ord pa))
  (h : Shape s lists (spanOf ord pa::hand))
include node count top aligned inside h

theorem freeMerged (merges : Merges (fun o x => x ∈ lists (i,o)) (s.nodes i).base (s.nodes i).limit
      (bitmapClearBlock s.bitmap pa ord) (maxOrder-ord) pa ord) :
    Coalesced (unmark s pa ord) lists hand i pa ord (coalesce (maxOrder-ord) (unmark s pa ord) i pa ord)
      (freedLists s lists i pa ord) := by
  have unmarked : Shape (unmark s pa ord) lists (spanOf ord pa::hand) :=
    shapeCongr (s := s) rfl rfl (fun _ => rfl) (fun _ => ⟨rfl,rfl⟩) h
  exact coalesceKeeps (s := unmark s pa ord) node count (by omega) aligned inside (fun _ _ => rfl)
    merges unmarked

theorem freeCoalesced (merges : Merges (Linked s i) (s.nodes i).base (s.nodes i).limit
      (bitmapClearBlock s.bitmap pa ord) (maxOrder-ord) pa ord) :
    ∃ lists', Coalesced (unmark s pa ord) lists hand i pa ord
      (coalesce (maxOrder-ord) (unmark s pa ord) i pa ord) lists' :=
  ⟨_,freeMerged node count top aligned inside h (mergesListed node top merges h)⟩

theorem freeShape (merges : Merges (fun o x => x ∈ lists (i,o)) (s.nodes i).base (s.nodes i).limit
      (bitmapClearBlock s.bitmap pa ord) (maxOrder-ord) pa ord) :
    ∃ t, Shape t (pushed (freedLists s lists i pa ord) (i,(freedEnd s i pa ord).2) (freedEnd s i pa ord).1) hand ∧
      Frame (unmark s pa ord) t hand ∧ freeIn s i pa ord = takeBack t i (freedEnd s i pa ord).2 := by
  have merged := (freeMerged node count top aligned inside h merges).merged
  have pushes := pushShape (k := (i,(coalesce (maxOrder-ord) (unmark s pa ord) i pa ord).2.2))
    (memKeys.mpr ⟨node,merged.top⟩) (frameCount merged.frame ▸ count) merged.aligned
    ((frameInNode merged.frame).mpr merged.inside) merged.shape
  have ends : (coalesce (maxOrder-ord) (unmark s pa ord) i pa ord).2 = freedEnd s i pa ord :=
    coalesceEnd _ _ _ _ _
  rw [← ends]
  exact ⟨_,pushes.1,frameTrans merged.frame pushes.2,rfl⟩

end Freed

def NoWrap (start stop : Nat) : Prop :=
  ∀ ord ≤ maxOrder, ¬ (start ≤ 2^64 - blockSize ord ∧ 2^64 - blockSize ord < stop)
instance (start stop) : Decidable (NoWrap start stop) := by unfold NoWrap; infer_instance

theorem blockSizeLe {ord : Nat} (top : ord ≤ maxOrder) : blockSize ord ∣ 2^64 ∧ blockSize ord ≤ 2^22 := by
  have power : blockSize ord = 2^(12+ord) := by
    rw [blockSizeEq,Nat.pow_add]
    rfl
  unfold maxOrder at top
  rw [power]
  exact ⟨Nat.pow_dvd_pow 2 (by omega),Nat.pow_le_pow_right (by decide) (by omega)⟩

theorem carveOrderFits {pa stop ord : Nat} (top : ord ≤ maxOrder) (small : stop < 2^64)
    (less : pa < stop) (aligned : pa % pageSize = 0) (whole : stop % pageSize = 0)
    (flat : NoWrap pa stop) :
    carveOrder pa stop ord ≤ maxOrder ∧ pa + blockSize (carveOrder pa stop ord) ≤ stop := by
  induction ord with
  | zero =>
      refine ⟨Nat.zero_le _,?_⟩
      show pa + pageSize <<< 0 ≤ stop
      unfold pageSize at *
      omega
  | succ ord ih =>
      unfold carveOrder
      split
      · exact ih (by omega)
      · rename_i fits
        obtain ⟨divides,fits⟩ := not_or.mp fits
        obtain ⟨even,size⟩ := blockSizeLe top
        have pos := blockSizePos (ord+1)
        have clear := flat (ord+1) top
        refine ⟨top,?_⟩
        -- pa is a multiple of the size and below 2^64, so the block ends at 2^64 at the latest
        have room : pa + blockSize (ord+1) ≤ 2^64 := by
          obtain ⟨n,hn⟩ := even
          obtain ⟨m,hm⟩ := Nat.dvd_of_mod_eq_zero (not_not.mp divides)
          have lt : m < n := by
            refine Nat.lt_of_mul_lt_mul_left (a := blockSize (ord+1)) ?_
            omega
          have := Nat.mul_le_mul_left (blockSize (ord+1)) lt
          rw [Nat.mul_succ] at this
          omega
        rw [wrapOfLt (by omega)] at fits
        omega

def leftover (pa stop : Nat) : List Span := if pa < stop then [⟨pa,stop-pa⟩] else []

theorem leftoverTake {pa stop size : Nat} {pool : List Span} (pos : 0 < size) (fits : pa + size ≤ stop)
    (h : Packed (leftover pa stop ++ pool)) :
    Packed (⟨pa,size⟩::(leftover (pa+size) stop ++ pool)) := by
  unfold leftover at *
  rw [if_pos (by omega)] at h
  by_cases last : pa + size < stop
  · rw [if_pos last]
    refine packedSplit pos (by omega) ?_
    rw [show size + (stop-(pa+size)) = stop-pa by omega]
    exact h
  · rw [if_neg last,show size = stop-pa by omega]
    exact h

def carveLists : Nat → Lists → (i pa stop : Nat) → Lists
  | 0,lists,_,_,_ => lists
  | fuel+1,lists,i,pa,stop =>
      if pa < stop then
        let ord := carveOrder pa stop maxOrder
        carveLists fuel (pushed lists (i,ord) pa) i (pa + blockSize ord) stop
      else lists

theorem addFreeNone {s : State} {i : Nat} (word : (s.nodes i).freePages < 2^64) :
    addFreePages s i 0 = s := by
  unfold addFreePages setNode
  rw [Nat.add_zero,wrapOfLt word,Function.update_eq_self]

theorem addFreeTwice (s : State) (i a b : Nat) :
    addFreePages (addFreePages s i a) i b = addFreePages s i (a+b) := by
  simp only [addFreePages,setNode,Function.update_self,Function.update_idem]
  have sum : wrap (wrap ((s.nodes i).freePages + a) + b) = wrap ((s.nodes i).freePages + (a+b)) := by
    unfold wrap
    omega
  rw [sum]

theorem frameAddFree {s t hand} (i n : Nat) (h : Frame s t hand) :
    Frame (addFreePages s i n) (addFreePages t i n) hand := by
  refine ⟨?_,?_,h.kept⟩
  · unfold addFreePages setNode
    rw [h.rest]
  · intro j
    by_cases same : j = i
    · subst same
      simp only [addFreePages,setNode,Function.update_self]
      rw [h.node]
    · simp only [addFreePages,setNode,Function.update_of_ne same]
      exact h.node j

theorem leftoverShape {s lists hand pa stop ord} (fits : pa + blockSize ord ≤ stop) (small : stop < 2^64)
    (h : Shape s lists (leftover pa stop ++ hand)) :
    Shape s lists (spanOf ord pa::(leftover (pa + blockSize ord) stop ++ hand)) := by
  have pos := blockSizePos ord
  refine shapeHand ?_ ?_ h
  · refine List.forall_mem_cons.mpr ⟨Nat.lt_of_le_of_lt fits small,?_⟩
    intro sp hsp
    rcases List.mem_append.mp hsp with left | right
    · unfold leftover at left
      split at left
      · obtain rfl := List.mem_singleton.mp left
        simp only [Span.stop]
        omega
      · simp at left
    · exact h.small sp (List.mem_append_right _ right)
  · have packed : Packed (leftover pa stop ++ (hand ++ freeSpans lists)) := by
      rw [← List.append_assoc]
      exact packedPerm List.perm_append_comm h.packed
    refine packedPerm ?_ (leftoverTake pos fits packed)
    rw [← List.append_assoc,← List.cons_append]
    exact List.perm_append_comm

theorem carveShape {fuel s lists hand i pa stop} (node : i < maxNodes) (count : i < s.nnodes)
    (word : (s.nodes i).freePages < 2^64) (aligned : pa % pageSize = 0) (whole : stop % pageSize = 0)
    (enough : stop - pa ≤ fuel * pageSize) (low : (s.nodes i).base ≤ pa)
    (high : stop ≤ (s.nodes i).limit) (flat : NoWrap pa stop)
    (h : Shape s lists (leftover pa stop ++ hand)) :
    ∃ t, carve fuel s i pa stop = some t ∧ Shape t (carveLists fuel lists i pa stop) hand ∧
      Frame (addFreePages s i ((stop-pa)/pageSize)) t hand := by
  induction fuel generalizing s lists pa with
  | zero =>
      have done : ¬ pa < stop := by omega
      refine ⟨s,by rw [carve,if_neg done],?_,?_⟩
      · simpa [leftover,done,carveLists] using h
      · rw [show stop-pa = 0 by omega,Nat.zero_div,addFreeNone word]
        exact frameRefl s hand
  | succ fuel ih =>
      unfold carve carveLists
      by_cases more : pa < stop
      case neg =>
        rw [if_neg more,if_neg more]
        refine ⟨s,rfl,by simpa [leftover,more] using h,?_⟩
        rw [show stop-pa = 0 by omega,Nat.zero_div,addFreeNone word]
        exact frameRefl s hand
      rw [if_pos more,if_pos more]
      have limit := h.bounded i count
      obtain ⟨top,fits⟩ := carveOrderFits (Nat.le_refl maxOrder) (by omega) more aligned whole flat
      generalize carveOrder pa stop maxOrder = ord at top fits ⊢
      dsimp only
      have pos := blockSizePos ord
      have pages := blockSizePages ord
      have bytes := blockSizeEq ord
      have hk : (i,ord) ∈ keys := memKeys.mpr ⟨node,top⟩
      have inside : InNode s i (spanOf ord pa) := ⟨low,Nat.le_trans fits high⟩
      have taken := leftoverShape fits (Nat.lt_of_le_of_lt high limit) h
      obtain ⟨shape,frame⟩ := pushShape (k := (i,ord)) hk count aligned inside taken
      have node' : (flPush s i ord pa).nodes i =
          {s.nodes i with free := ((flPush s i ord pa).nodes i).free} := frame.node i
      have counted : Shape (addFreePages (flPush s i ord pa) i (1 <<< ord)) (pushed lists (i,ord) pa)
          (leftover (pa + blockSize ord) stop ++ hand) := setNodeShape rfl rfl rfl shape
      rw [wrapOfLt (by omega)]
      have self : ∀ n, (addFreePages (flPush s i ord pa) i n).nodes i =
          {(flPush s i ord pa).nodes i with
            freePages := wrap (((flPush s i ord pa).nodes i).freePages + n)} := by
        intro n
        simp [addFreePages,setNode]
      obtain ⟨t,result,last,lastFrame⟩ := ih (s := addFreePages (flPush s i ord pa) i (1 <<< ord))
        (frameCount frame ▸ count)
        (by rw [self]; exact wrapLt _) (by simp [Nat.add_mod,aligned,pages])
        (by unfold pageSize at *; rw [Nat.succ_mul] at enough; omega)
        (by rw [self,node']; exact Nat.le_trans low (Nat.le_add_right _ _))
        (by rw [self,node']; exact high)
        (fun o ho => by have := flat o ho; omega) counted
      refine ⟨t,result,last,?_⟩
      rw [addFreeTwice] at lastFrame
      have total : (stop-pa)/pageSize = (1 <<< ord) + (stop-(pa + blockSize ord))/pageSize := by
        rw [Nat.one_shiftLeft,show stop-pa = pageSize * 2^ord + (stop-(pa + blockSize ord)) by omega,
          Nat.mul_add_div (by decide)]
      rw [total]
      have outer : Frame s (flPush s i ord pa) hand :=
        ⟨frame.rest,frame.node,fun sp hsp => frame.kept sp (List.mem_append_right _ hsp)⟩
      exact frameTrans (frameAddFree i _ outer) lastFrame

theorem regionBounds {base length : Nat} (kept : regionEmpty base length = false)
    (fits : base + pageSize - 1 < 2^64) (word : length < 2^64) :
    base ≤ regionStart base ∧ regionStart base < regionStop base length ∧
      regionStop base length ≤ base + length ∧ regionStart base % pageSize = 0 ∧
      regionStop base length % pageSize = 0 ∧ 0x1000000 ≤ regionStart base := by
  simp only [regionEmpty,Bool.or_eq_false_iff,decide_eq_false_iff_not,Nat.not_le] at kept
  have up := alignGe fits
  have aligned := alignAligned base
  have start : base ≤ regionStart base ∧ regionStart base % pageSize = 0 ∧
      0x1000000 ≤ regionStart base := by
    unfold regionStart
    split
    · exact ⟨by omega,by decide,Nat.le_refl _⟩
    · exact ⟨up,aligned,by omega⟩
  have down : regionStop base length ≤ wrap (base + length) := alignDownLe _
  -- a sum that wrapped would end below its own base
  have flat : wrap (base + length) = base + length := by
    unfold wrap at *
    omega
  exact ⟨start.1,kept.2,flat ▸ down,start.2.1,alignDownAligned _,start.2.2⟩

theorem openShape {s lists hand start stop} (small : stop < 2^64) (h : Shape s lists hand) :
    Shape (openNode s start stop) lists hand := by
  have old : ∀ j, j ≠ s.nnodes → (openNode s start stop).nodes j = s.nodes j := by
    intro j hj
    simp [openNode,setNode,Function.update_of_ne hj]
  have free : ∀ j, ((openNode s start stop).nodes j).free = (s.nodes j).free := by
    intro j
    by_cases new : j = s.nnodes
    · subst new
      simp [openNode,setNode]
    · rw [old j new]
  refine ⟨?_,?_,?_,h.small,h.packed⟩
  · intro k hk
    rw [free]
    exact h.chain k hk
  · intro k hk pa mem
    obtain ⟨count,aligned,inside⟩ := h.inNode k hk pa mem
    refine ⟨Nat.lt_succ_of_lt count,aligned,?_⟩
    rw [InNode,old _ (by omega)]
    exact inside
  · intro i hi
    by_cases new : i = s.nnodes
    · subst new
      simpa [openNode,setNode] using small
    · rw [old i new]
      exact h.bounded i (by have : i < s.nnodes + 1 := hi; omega)

def opened (s : State) (start stop : Nat) : State :=
  countPages (openNode s start stop) s.nnodes ((stop-start)/pageSize)

theorem openedNode (s : State) (start stop : Nat) : (opened s start stop).nodes s.nnodes =
    ⟨(s.nodes s.nnodes).free,(s.nodes s.nnodes).freePages,
      wrap ((s.nodes s.nnodes).totalPages + (stop-start)/pageSize),start,stop⟩ := by
  simp [opened,countPages,openNode,setNode]

theorem openedOther (s : State) (start stop : Nat) {j : Nat} (hj : j ≠ s.nnodes) :
    (opened s start stop).nodes j = s.nodes j := by
  simp [opened,countPages,openNode,setNode,Function.update_of_ne hj]

theorem fillShape {s lists hand start stop} (less : start < stop) (small : stop < 2^64)
    (aligned : start % pageSize = 0) (whole : stop % pageSize = 0) (flat : NoWrap start stop)
    (room : s.nnodes < maxNodes) (free : (s.nodes s.nnodes).freePages < 2^64)
    (apart : ∀ x ∈ freeSpans lists ++ hand, Apart ⟨start,stop-start⟩ x) (h : Shape s lists hand) :
    ∃ t, Shape t (carveLists ((stop-start)/pageSize) lists s.nnodes start stop) hand ∧
      Frame (addFreePages (opened s start stop) s.nnodes ((stop-start)/pageSize)) t hand ∧
      fillNode (openNode s start stop) s.nnodes start stop =
        some {t with gFreeRamPages := (t.nodes s.nnodes).freePages} := by
  have held : Shape (opened s start stop) lists (leftover start stop ++ hand) := by
    have node : Shape (opened s start stop) lists hand :=
      shapeCongr (s := setNode (openNode s start stop) s.nnodes
          {(openNode s start stop).nodes s.nnodes with
            totalPages := wrap (((openNode s start stop).nodes s.nnodes).totalPages +
              (stop-start)/pageSize)})
        rfl rfl (fun _ => rfl) (fun _ => ⟨rfl,rfl⟩) (setNodeShape rfl rfl rfl (openShape small h))
    rw [leftover,if_pos less]
    refine shapeHand ?_ ?_ node
    · refine List.forall_mem_cons.mpr ⟨?_,h.small⟩
      simp only [Span.stop]
      omega
    · exact packedPerm List.perm_middle.symm (packedCons (Nat.sub_pos_of_lt less) apart h.packed)
  have enough : stop-start ≤ (stop-start)/pageSize * pageSize := by
    unfold pageSize at *
    omega
  obtain ⟨t,result,shape,frame⟩ := carveShape (s := opened s start stop) room (Nat.lt_succ_self _)
    (by rw [openedNode]; exact free) aligned whole enough (by rw [openedNode]) (by rw [openedNode])
    flat held
  refine ⟨t,shape,frame,?_⟩
  unfold opened at result
  simp only [fillNode,result,Option.map_some]

end Nekros.PmmLoops
