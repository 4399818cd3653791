import Mathlib.Data.List.ProdSigma
import Nekros.Pmm
import Nekros.Spans

/-! What the free lists of a state hold, and how the list operations change it.
`Shape s lists hand` says that every list head leads through memory along exactly
the blocks of `lists`, inside its node, and that these blocks and the spans in
`hand` (blocks held by a caller or by an operation under way) never meet. -/
namespace Nekros.PmmShape
open Words Pmm Spans
open LinkChain (Chain Nodes Changes)
open Function (update)

theorem blockSizeEq (ord : Nat) : blockSize ord = pageSize * 2^ord := Nat.shiftLeft_eq _ _

theorem blockSizePos (ord : Nat) : 0 < blockSize ord := by
  rw [blockSizeEq]
  exact Nat.mul_pos (by decide) (Nat.two_pow_pos ord)

theorem blockSizeSucc (ord : Nat) : blockSize (ord+1) = blockSize ord + blockSize ord := by
  rw [blockSizeEq,blockSizeEq,Nat.pow_succ,← Nat.mul_assoc]
  omega

theorem pageLeBlock (ord : Nat) : pageSize ≤ blockSize ord := by
  rw [blockSizeEq]
  exact Nat.le_mul_of_pos_right _ (Nat.two_pow_pos ord)

theorem blockSizePages (ord : Nat) : blockSize ord % pageSize = 0 := by
  rw [blockSizeEq]
  exact Nat.mul_mod_right _ _

def spanOf (ord pa : Nat) : Span := ⟨pa,blockSize ord⟩

def keys : List (Nat × Nat) := List.range maxNodes ×ˢ List.range (maxOrder+1)

theorem memKeys {i o : Nat} : (i,o) ∈ keys ↔ i < maxNodes ∧ o ≤ maxOrder := by
  simp only [keys,List.mem_product,List.mem_range,Nat.lt_succ_iff]

theorem keysNodup : keys.Nodup := List.nodup_range.product List.nodup_range

abbrev Lists := Nat × Nat → List Nat

def freeSpans (lists : Lists) : List Span := keys.flatMap (fun k => (lists k).map (spanOf k.2))

def InNode (s : State) (i : Nat) (sp : Span) : Prop :=
  (s.nodes i).base ≤ sp.start ∧ sp.stop ≤ (s.nodes i).limit

structure Shape (s : State) (lists : Lists) (hand : List Span) : Prop where
  chain : ∀ k ∈ keys, Chain s.mem 0 ((s.nodes k.1).free k.2) ((lists k).map physToVirt)
  inNode : ∀ k ∈ keys, ∀ pa ∈ lists k,
    k.1 < s.nnodes ∧ pa % pageSize = 0 ∧ InNode s k.1 (spanOf k.2 pa)
  bounded : ∀ i < s.nnodes, (s.nodes i).limit < 2^64
  small : ∀ sp ∈ hand, sp.stop < 2^64
  packed : Packed (freeSpans lists ++ hand)

theorem shapeHand {s lists hand hand'} (small : ∀ sp ∈ hand', sp.stop < 2^64)
    (packed : Packed (freeSpans lists ++ hand')) (h : Shape s lists hand) : Shape s lists hand' :=
  ⟨h.chain,h.inNode,h.bounded,small,packed⟩

theorem shapeTail {s lists sp hand} (h : Shape s lists (sp::hand)) : Shape s lists hand :=
  shapeHand (fun x hx => h.small x (List.mem_cons_of_mem _ hx))
    (packedSublist ((List.sublist_cons_self sp hand).append_left _) h.packed) h

theorem shapePerm {s lists hand hand'} (perm : hand.Perm hand') (h : Shape s lists hand) :
    Shape s lists hand' :=
  shapeHand (fun x hx => h.small x (perm.mem_iff.mpr hx)) (packedPerm (perm.append_left _) h.packed) h

theorem shapeCongr {s s' lists hand} (mem : s'.mem = s.mem) (count : s'.nnodes = s.nnodes)
    (heads : ∀ i, (s'.nodes i).free = (s.nodes i).free)
    (ends : ∀ i, (s'.nodes i).base = (s.nodes i).base ∧ (s'.nodes i).limit = (s.nodes i).limit)
    (h : Shape s lists hand) : Shape s' lists hand := by
  refine ⟨?_,?_,?_,h.small,h.packed⟩
  · intro k hk
    rw [mem,heads]
    exact h.chain k hk
  · intro k hk pa hpa
    simpa only [InNode,count,ends] using h.inNode k hk pa hpa
  · intro i hi
    rw [(ends i).2]
    exact h.bounded i (by omega)

theorem addressSmall {s lists hand} (h : Shape s lists hand) {k : Nat × Nat} (hk : k ∈ keys)
    {pa : Nat} (mem : pa ∈ lists k) : pa < 2^64 := by
  obtain ⟨count,_,inside⟩ := h.inNode k hk pa mem
  have limit := h.bounded k.1 count
  have stop : pa + blockSize k.2 ≤ (s.nodes k.1).limit := inside.2
  omega

theorem listNodup {s lists hand} (h : Shape s lists hand) {k : Nat × Nat} (hk : k ∈ keys) :
    (lists k).Nodup := by
  have apart := (List.pairwise_flatMap.mp (List.pairwise_append.mp h.packed.apart).1).1 k hk
  refine (List.pairwise_map.mp apart).imp (fun {a b} away same => ?_)
  subst same
  exact notApartSelf (blockSizePos k.2) away

theorem crossApart {lists : Lists} {hand : List Span} (h : Packed (freeSpans lists ++ hand))
    {k k' : Nat × Nat} (hk : k ∈ keys) (hk' : k' ∈ keys) (different : k ≠ k') {pa pa' : Nat}
    (mem : pa ∈ lists k) (mem' : pa' ∈ lists k') : Apart (spanOf k.2 pa) (spanOf k'.2 pa') := by
  have cross := (List.pairwise_flatMap.mp (List.pairwise_append.mp h.apart).1).2
  have symm : Std.Symm (fun a b : Nat × Nat => ∀ x ∈ (lists a).map (spanOf a.2),
      ∀ y ∈ (lists b).map (spanOf b.2), Apart x y) :=
    ⟨fun a b away x hx y hy => apartSymm (away y hy x hx)⟩
  exact cross.forall hk hk' different _ (List.mem_map_of_mem mem) _ (List.mem_map_of_mem mem')

theorem listsApart {s lists hand} (h : Shape s lists hand) {k k' : Nat × Nat} (hk : k ∈ keys)
    (hk' : k' ∈ keys) (different : k ≠ k') {pa : Nat} (mem : pa ∈ lists k) : pa ∉ lists k' := by
  intro mem'
  have away := crossApart h.packed hk hk' different mem mem'
  have pos := blockSizePos k.2
  have pos' := blockSizePos k'.2
  simp only [Apart,Span.stop,spanOf] at away
  omega

theorem vaAligned {pa : Nat} (aligned : pa % pageSize = 0) : physToVirt pa % 16 = 0 := by
  have page := physToVirtAligned aligned
  unfold pageSize at page
  omega

theorem nodesAligned {s lists hand} (h : Shape s lists hand) {k : Nat × Nat} (hk : k ∈ keys) :
    ∀ p ∈ (lists k).map physToVirt, p % 16 = 0 := by
  intro p hp
  obtain ⟨pa,mem,rfl⟩ := List.mem_map.mp hp
  exact vaAligned (h.inNode k hk pa mem).2.1

theorem listNodes {s lists hand} (h : Shape s lists hand) {k : Nat × Nat} (hk : k ∈ keys) :
    Nodes ((lists k).map physToVirt) := by
  refine ⟨?_,nodesAligned h hk⟩
  exact List.Nodup.map_on (fun a ha b hb same =>
    physToVirtInjective (addressSmall h hk ha) (addressSmall h hk hb) same) (listNodup h hk)

theorem freeTake {lists : Lists} {k : Nat × Nat} {pa : Nat} {rest : List Nat} (hk : k ∈ keys)
    (take : (lists k).Perm (pa::rest)) :
    (freeSpans lists).Perm (spanOf k.2 pa::freeSpans (update lists k rest)) := by
  refine gatherTake keysNodup hk (fun j hj => by rw [Function.update_of_ne hj]) ?_
  rw [Function.update_self]
  exact take.map (spanOf k.2)

structure Frame (s s' : State) (hand : List Span) : Prop where
  rest : s' = {s with nodes := s'.nodes,mem := s'.mem}
  node : ∀ i, s'.nodes i = {s.nodes i with free := (s'.nodes i).free}
  kept : ∀ sp ∈ hand, ∀ pa, sp.start ≤ pa → pa < sp.stop →
    s'.mem (physToVirt pa) = s.mem (physToVirt pa)

theorem frameRefl (s : State) (hand : List Span) : Frame s s hand :=
  ⟨rfl,fun _ => rfl,fun _ _ _ _ _ => rfl⟩

theorem frameTrans {s t u hand} (h : Frame s t hand) (g : Frame t u hand) : Frame s u hand := by
  refine ⟨?_,?_,?_⟩
  · rw [g.rest,h.rest]
  · intro i
    rw [g.node,h.node]
  · intro sp hsp pa low high
    exact (g.kept sp hsp pa low high).trans (h.kept sp hsp pa low high)

theorem frameTail {s t sp hand} (h : Frame s t (sp::hand)) : Frame s t hand :=
  ⟨h.rest,h.node,fun sp hsp => h.kept sp (List.mem_cons_of_mem _ hsp)⟩

theorem frameCount {s t hand} (h : Frame s t hand) : t.nnodes = s.nnodes := by rw [h.rest]

theorem frameInNode {s t hand i sp} (h : Frame s t hand) : InNode t i sp ↔ InNode s i sp := by
  unfold InNode
  rw [h.node]

structure ListStep (s s' : State) (k : Nat × Nat) (touched l : List Nat) : Prop where
  rest : s' = {s with nodes := s'.nodes,mem := s'.mem}
  node : ∀ i, s'.nodes i = {s.nodes i with free := (s'.nodes i).free}
  heads : ∀ j ≠ k, (s'.nodes j.1).free j.2 = (s.nodes j.1).free j.2
  changes : Changes s.mem s'.mem (touched.map physToVirt)
  chain : Chain s'.mem 0 ((s'.nodes k.1).free k.2) (l.map physToVirt)

theorem setHeadStep {s : State} {k : Nat × Nat} {m : Nat → Nat} {p : Nat} {touched l : List Nat}
    (changes : Changes s.mem m (touched.map physToVirt)) (chain : Chain m 0 p (l.map physToVirt)) :
    ListStep s (setHead {s with mem := m} k.1 k.2 p) k touched l := by
  refine ⟨rfl,?_,?_,changes,?_⟩
  · intro i
    by_cases hi : i = k.1
    · subst hi
      simp [setHead,setNode]
    · simp [setHead,setNode,Function.update_of_ne hi]
  · intro j hj
    by_cases hi : j.1 = k.1
    · have ho : j.2 ≠ k.2 := fun e => hj (Prod.ext hi e)
      simp [setHead,setNode,hi,Function.update_of_ne ho]
    · simp [setHead,setNode,Function.update_of_ne hi]
  · simpa [setHead,setNode] using chain

theorem listStepShape {s s' lists hand hand'} {k : Nat × Nat} {touched l : List Nat} (hk : k ∈ keys)
    (h : Shape s lists hand) (step : ListStep s s' k touched l)
    (own : ∀ pa ∈ touched, pa % pageSize = 0 ∧ pa < 2^64)
    (apart : ∀ j ∈ keys, k ≠ j → ∀ pa ∈ touched, pa ∉ lists j)
    (inside : ∀ pa ∈ l, k.1 < s.nnodes ∧ pa % pageSize = 0 ∧ InNode s k.1 (spanOf k.2 pa))
    (small : ∀ sp ∈ hand', sp.stop < 2^64)
    (packed : Packed (freeSpans (update lists k l) ++ hand')) :
    Shape s' (update lists k l) hand' := by
  have count : s'.nnodes = s.nnodes := by rw [step.rest]
  refine ⟨?_,?_,?_,small,packed⟩
  · intro j hj
    by_cases same : j = k
    · subst same
      rw [Function.update_self]
      exact step.chain
    · rw [Function.update_of_ne same,step.heads j same]
      refine LinkChain.changesApart step.changes ?_ (nodesAligned h hj) ?_ (h.chain j hj)
      · intro p hp
        obtain ⟨pa,mem,rfl⟩ := List.mem_map.mp hp
        exact vaAligned (own pa mem).1
      · intro p hp hp'
        obtain ⟨pa,mem,rfl⟩ := List.mem_map.mp hp
        obtain ⟨other,listed,eq⟩ := List.mem_map.mp hp'
        have eq := physToVirtInjective (addressSmall h hj listed) (own pa mem).2 eq
        exact apart j hj (Ne.symm same) pa mem (eq ▸ listed)
  · intro j hj pa hpa
    have old : j.1 < s.nnodes ∧ pa % pageSize = 0 ∧ InNode s j.1 (spanOf j.2 pa) := by
      by_cases same : j = k
      · subst same
        rw [Function.update_self] at hpa
        exact inside pa hpa
      · rw [Function.update_of_ne same] at hpa
        exact h.inNode j hj pa hpa
    rw [count,InNode,step.node]
    exact old
  · intro i hi
    rw [step.node]
    exact h.bounded i (by rw [← count]; exact hi)

theorem wordInPage {pa : Nat} (aligned : pa % pageSize = 0) :
    physToVirt pa + 8 = physToVirt (pa+8) := by
  unfold physToVirt wrap kernelBase
  unfold pageSize at aligned
  omega

theorem listStepFrame {s s' hand} {k : Nat × Nat} {touched l : List Nat}
    (step : ListStep s s' k touched l) (own : ∀ pa ∈ touched, pa % pageSize = 0 ∧ pa < 2^64)
    (small : ∀ sp ∈ hand, sp.stop < 2^64)
    (apart : ∀ pa ∈ touched, ∀ sp ∈ hand, Apart (spanOf k.2 pa) sp) : Frame s s' hand := by
  refine ⟨step.rest,step.node,fun sp hsp x low high => ?_⟩
  by_contra changed
  obtain ⟨p,hp,word⟩ := step.changes _ changed
  obtain ⟨pa,mem,rfl⟩ := List.mem_map.mp hp
  obtain ⟨aligned,bound⟩ := own pa mem
  have away := apart pa mem sp hsp
  have stop := small sp hsp
  have page := pageLeBlock k.2
  have near : x = pa ∨ x = pa+8 := by
    rcases word with same | same
    · exact .inl (physToVirtInjective (by omega) bound same)
    · rw [wordInPage aligned] at same
      refine .inr (physToVirtInjective (by omega) ?_ same)
      unfold pageSize at aligned
      omega
  simp only [Apart,Span.stop,spanOf] at away high
  unfold pageSize at page
  omega

/- What a push leaves on a list. The block whose kernel address is zero becomes a
null head: the list is lost, and nothing else is. -/
def pushed (lists : Lists) (k : Nat × Nat) (pa : Nat) : Lists :=
  update lists k (if physToVirt pa = 0 then [] else pa::lists k)

theorem pushedPacked {lists hand k pa} (hk : k ∈ keys)
    (h : Packed (freeSpans lists ++ spanOf k.2 pa::hand)) :
    Packed (freeSpans (pushed lists k pa) ++ hand) := by
  have full : Packed (spanOf k.2 pa::(freeSpans lists ++ hand)) := packedPerm List.perm_middle h
  unfold pushed
  split
  · have less : (freeSpans (update lists k [])).Sublist (freeSpans lists) := by
      refine List.Sublist.flatMap_right keys (fun j _ => ?_)
      by_cases same : j = k
      · subst same
        simp
      · rw [Function.update_of_ne same]
    exact packedSublist (less.append_right hand) (packedTail full)
  · have same : update (update lists k (pa::lists k)) k (lists k) = lists := by simp
    have taken : (freeSpans (update lists k (pa::lists k))).Perm (spanOf k.2 pa::freeSpans lists) := by
      rw [← congrArg freeSpans same]
      exact freeTake hk (by rw [Function.update_self])
    exact packedPerm (taken.symm.append_right hand) full

theorem freeMember {lists : Lists} {k : Nat × Nat} {pa : Nat} (hk : k ∈ keys) (mem : pa ∈ lists k) :
    spanOf k.2 pa ∈ freeSpans lists := List.mem_flatMap.mpr ⟨k,hk,List.mem_map_of_mem mem⟩

theorem listOwn {s lists hand} (h : Shape s lists hand) {k : Nat × Nat} (hk : k ∈ keys) :
    ∀ pa ∈ lists k, pa % pageSize = 0 ∧ pa < 2^64 :=
  fun pa mem => ⟨(h.inNode k hk pa mem).2.1,addressSmall h hk mem⟩

theorem listHandApart {s lists hand} (h : Shape s lists hand) {k : Nat × Nat} (hk : k ∈ keys) :
    ∀ pa ∈ lists k, ∀ sp ∈ hand, Apart (spanOf k.2 pa) sp :=
  fun _ mem sp hsp => (List.pairwise_append.mp h.packed.apart).2.2 _ (freeMember hk mem) sp hsp

theorem pushShape {s lists hand k pa} (hk : k ∈ keys) (count : k.1 < s.nnodes)
    (aligned : pa % pageSize = 0) (inside : InNode s k.1 (spanOf k.2 pa))
    (h : Shape s lists (spanOf k.2 pa::hand)) :
    Shape (flPush s k.1 k.2 pa) (pushed lists k pa) hand ∧ Frame s (flPush s k.1 k.2 pa) hand := by
  have limit := h.bounded k.1 count
  have stop : pa + blockSize k.2 ≤ (s.nodes k.1).limit := inside.2
  have bound : pa < 2^64 := by omega
  have full : Packed (spanOf k.2 pa::(freeSpans lists ++ hand)) := packedPerm List.perm_middle h.packed
  -- the block is not on any list yet: its span would meet itself
  have fresh : ∀ j ∈ keys, pa ∉ lists j := by
    intro j hj mem
    have away := packedHead full _ (List.mem_append_left _ (freeMember hj mem))
    have pos := blockSizePos k.2
    have pos' := blockSizePos j.2
    simp only [Apart,Span.stop,spanOf] at away
    omega
  have own : ∀ x ∈ pa::lists k, x % pageSize = 0 ∧ x < 2^64 :=
    List.forall_mem_cons.mpr ⟨⟨aligned,bound⟩,listOwn h hk⟩
  have chain : Chain (LinkChain.push s.mem ((s.nodes k.1).free k.2) (physToVirt pa)).1 0
      (physToVirt pa) ((if physToVirt pa = 0 then [] else pa::lists k).map physToVirt) := by
    split
    · assumption
    · rename_i nonzero
      refine LinkChain.pushChain nonzero ⟨?_,?_⟩ (h.chain k hk)
      · refine List.nodup_cons.mpr ⟨fun mem => ?_,(listNodes h hk).1⟩
        obtain ⟨other,mem,same⟩ := List.mem_map.mp mem
        exact fresh k hk (physToVirtInjective (addressSmall h hk mem) bound same ▸ mem)
      · exact List.forall_mem_cons.mpr ⟨vaAligned aligned,nodesAligned h hk⟩
  have step : ListStep s (flPush s k.1 k.2 pa) k (pa::lists k)
      (if physToVirt pa = 0 then [] else pa::lists k) :=
    setHeadStep (LinkChain.pushChanges (h.chain k hk)) chain
  refine ⟨listStepShape hk h step own ?_ ?_ (shapeTail h).small (pushedPacked hk h.packed),
    listStepFrame step own (shapeTail h).small ?_⟩
  · intro j hj different
    exact List.forall_mem_cons.mpr ⟨fresh j hj,fun x hx => listsApart h hk hj different hx⟩
  · intro x hx
    split at hx
    · simp at hx
    · rcases List.mem_cons.mp hx with rfl | hx
      · exact ⟨count,aligned,inside⟩
      · exact h.inNode k hk x hx
  · exact List.forall_mem_cons.mpr ⟨fun sp hsp => packedHead full sp (List.mem_append_right _ hsp),
      listHandApart (shapeTail h) hk⟩

theorem listEmpty {s lists hand k} (hk : k ∈ keys) (h : Shape s lists hand) :
    (s.nodes k.1).free k.2 = 0 ↔ lists k = [] := by
  have chain := h.chain k hk
  cases listed : lists k with
  | nil =>
      rw [listed] at chain
      exact iff_of_true chain rfl
  | cons y rest =>
      rw [listed] at chain
      refine iff_of_false ?_ (List.cons_ne_nil _ _)
      rw [chain.1]
      exact chain.2.1

theorem takePacked {lists hand k pa rest} (hk : k ∈ keys) (take : (lists k).Perm (pa::rest))
    (h : Packed (freeSpans lists ++ hand)) :
    Packed (freeSpans (update lists k rest) ++ spanOf k.2 pa::hand) := by
  have moved : (freeSpans lists ++ hand).Perm
      (spanOf k.2 pa::(freeSpans (update lists k rest) ++ hand)) :=
    (freeTake hk take).append_right hand
  exact packedPerm (moved.trans List.perm_middle.symm) h

theorem takeShape {s s' lists hand k pa rest} (hk : k ∈ keys) (take : (lists k).Perm (pa::rest))
    (step : ListStep s s' k (lists k) rest) (h : Shape s lists hand) :
    Shape s' (update lists k rest) (spanOf k.2 pa::hand) ∧ Frame s s' hand := by
  have mem : pa ∈ lists k := take.mem_iff.mpr List.mem_cons_self
  obtain ⟨count,_,inside⟩ := h.inNode k hk pa mem
  have limit := h.bounded k.1 count
  refine ⟨listStepShape hk h step (listOwn h hk) ?_ ?_ ?_ (takePacked hk take h.packed),
    listStepFrame step (listOwn h hk) h.small (listHandApart h hk)⟩
  · intro j hj different x hx
    exact listsApart h hk hj different hx
  · intro x hx
    exact h.inNode k hk x (take.mem_iff.mpr (List.mem_cons_of_mem _ hx))
  · exact List.forall_mem_cons.mpr ⟨Nat.lt_of_le_of_lt inside.2 limit,h.small⟩

theorem popShape {s lists hand k} (hk : k ∈ keys) (found : (s.nodes k.1).free k.2 ≠ 0)
    (h : Shape s lists hand) : ∃ pa rest, lists k = pa::rest ∧ (flPop s k.1 k.2).2 = pa ∧
      Shape (flPop s k.1 k.2).1 (update lists k rest) (spanOf k.2 pa::hand) ∧
      Frame s (flPop s k.1 k.2).1 hand := by
  obtain ⟨tail,split⟩ := LinkChain.chainHead (h.chain k hk) found
  obtain ⟨pa,rest,listed,head,rfl⟩ := List.map_eq_cons_iff.mp split
  have mem : pa ∈ lists k := by rw [listed]; exact List.mem_cons_self
  have chain := h.chain k hk
  have nodes := listNodes h hk
  rw [split] at chain nodes
  have step : ListStep s (flPop s k.1 k.2).1 k (lists k) rest := by
    rw [flPop,if_neg found]
    refine setHeadStep ?_ (LinkChain.popChain nodes chain)
    rw [split]
    exact LinkChain.popChanges chain
  refine ⟨pa,rest,listed,?_,takeShape hk (by rw [listed]) step h⟩
  rw [flPop,if_neg found]
  show virtToPhys ((s.nodes k.1).free k.2) = pa
  rw [← head,virtToPhysToVirt (addressSmall h hk mem)]

theorem mapErase {l : List Nat} {pa : Nat} (small : ∀ x ∈ l, x < 2^64) (pas : pa < 2^64) :
    (l.erase pa).map physToVirt = (l.map physToVirt).erase (physToVirt pa) := by
  induction l with
  | nil => rfl
  | cons x rest ih =>
      have xs := small x List.mem_cons_self
      have rest' := ih (fun y hy => small y (List.mem_cons_of_mem _ hy))
      by_cases same : x = pa
      · subst same
        simp
      · have different : physToVirt x ≠ physToVirt pa := fun e => same (physToVirtInjective xs pas e)
        rw [List.erase_cons_tail (by simpa using same),List.map_cons,List.map_cons,
          List.erase_cons_tail (by simpa using different),rest']

theorem removeShape {s lists hand k pa} (hk : k ∈ keys) (mem : pa ∈ lists k)
    (h : Shape s lists hand) :
    Shape (flRemove s k.1 k.2 pa) (update lists k ((lists k).erase pa)) (spanOf k.2 pa::hand) ∧
      Frame s (flRemove s k.1 k.2 pa) hand := by
  have nodes := listNodes h hk
  have chain := h.chain k hk
  have listed : physToVirt pa ∈ (lists k).map physToVirt := List.mem_map_of_mem mem
  have after := LinkChain.unlinkChain nodes chain listed
  rw [← mapErase (fun x hx => addressSmall h hk hx) (addressSmall h hk mem)] at after
  exact takeShape hk (List.perm_cons_erase mem)
    (setHeadStep (LinkChain.unlinkChanges nodes chain listed) after) h

end Nekros.PmmShape
