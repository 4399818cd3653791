import Nekros.PmmBuddies
import Nekros.PmmSafety

/-! What is left when every block has been given back. A page that was never handed out keeps
the bit that pmm_init set, so it looks used, and the blocks around it are never merged. -/
namespace Nekros.PmmRestore
open Words Pmm Spans PmmShape PmmLoops PmmBitmap PmmBuddies
open DyadicBlocks (In nested inStart sameOrder gathered sizeDvd)
open PmmSafety (Block Event Valid FreeAt Laid SameNodes)
open GuardedRun (run Guarded guardedInvariant)
open Function (update)

structure World where
  callers : PmmSafety.World
  handed : List Block

def given (s : State) : Event → List Block
  | .alloc ord => if (pmmAllocPages s ord).2 = 0 then [] else [⟨(pmmAllocPages s ord).2,ord.toNat⟩]
  | _ => []

def step (w : World) (e : Event) : Option World :=
  (PmmSafety.step w.callers e).map fun callers => ⟨callers,given w.callers.pmm e ++ w.handed⟩

def start (mem : Nat → Nat) (bits : Nat → Bool) (bitmapPa bitmapSize : Nat) : World :=
  ⟨PmmSafety.start mem bits bitmapPa bitmapSize,[]⟩

def Setup (w : World) : Event → Prop
  | .addRegion base length => base + length < 2^64 ∧ blockSize maxOrder ∣ base ∧
      blockSize maxOrder ∣ base + length ∧ ∀ r ∈ w.callers.regions, PmmSafety.Disjoint ⟨base,length⟩ r
  | _ => False
instance (w) : (e : Event) → Decidable (Setup w e)
  | .addRegion .. | .alloc _ | .free _ | .write .. => by unfold Setup; infer_instance

def Call (w : World) (e : Event) : Prop := Valid w.callers e ∧ (∀ base length, e ≠ .addRegion base length)

instance (w) : (e : Event) → Decidable (Call w e)
  | .addRegion base length => isFalse fun h => h.2 base length rfl
  | .alloc _ => isTrue ⟨trivial,fun _ _ => nofun⟩
  | .free b => decidable_of_iff (Valid w.callers (.free b)) ⟨fun v => ⟨v,fun _ _ => nofun⟩,And.left⟩
  | .write pa value =>
      decidable_of_iff (Valid w.callers (.write pa value)) ⟨fun v => ⟨v,fun _ _ => nofun⟩,And.left⟩

structure Restored (s t : State) : Prop where
  lists : ∀ i ord sp, (∃ n, FreeAt t i ord n sp) ↔ ∃ n, FreeAt s i ord n sp
  again : ∀ ord, (pmmAllocPages s ord).2 ≠ 0 → (pmmAllocPages t ord).2 ≠ 0

def OnlyWhole (handed : List Block) (block : Nat) : Prop :=
  ∀ b ∈ handed, Within b.span (spanOf maxOrder block) → b.ord = maxOrder

def Whole (origin : Bitmap) (handed : List Block) (block : Nat) : Prop :=
  OnlyWhole handed block ∨ ∀ x, In blockSize maxOrder block x →
    Known origin x ∧ (Clear origin x ∨ Covers (handed.map Block.span) x)

theorem coversBlocks {blocks : List Block} {x : Nat} :
    Covers (blocks.map Block.span) x ↔ ∃ b ∈ blocks, In blockSize b.ord b.pa x := by
  constructor
  · rintro ⟨sp,mem,inside⟩
    obtain ⟨b,listed,rfl⟩ := List.mem_map.mp mem
    exact ⟨b,listed,inside⟩
  · rintro ⟨b,listed,inside⟩
    exact ⟨_,List.mem_map_of_mem listed,inside⟩

structure Origin (origin : Lists) : Prop where
  order : ∀ k ∈ keys, ∀ pa ∈ origin k, k.2 = maxOrder
  aligned : ∀ k ∈ keys, ∀ pa ∈ origin k, blockSize maxOrder ∣ pa
  place : ∀ k ∈ keys, ∀ pa ∈ origin k, pa ≠ 0 ∧ pa ≠ 0x80000000

def InOne (w : World) (lists : Lists) (block : Nat) : Prop :=
  (∃ i < maxNodes, block ∈ lists (i,maxOrder)) ∨ ⟨block,maxOrder⟩ ∈ w.callers.live

structure Inv (origin : Lists) (bitmap : Bitmap) (w : World) (lists : Lists) : Prop where
  callers : PmmSafety.Inv w.callers
  shape : Shape w.callers.pmm lists (w.callers.live.map Block.span)
  even : ∀ i < w.callers.pmm.nnodes, blockSize maxOrder ∣ (w.callers.pmm.nodes i).base
  inNode : ∀ k ∈ keys, ∀ pa ∈ origin k,
    k.1 < w.callers.pmm.nnodes ∧ InNode w.callers.pmm k.1 (spanOf maxOrder pa)
  listed : ∀ k ∈ keys, ∀ pa ∈ lists k, blockSize k.2 ∣ pa
  live : ∀ b ∈ w.callers.live, blockSize b.ord ∣ b.pa ∧ b.pa ≠ 0 ∧ b ∈ w.handed
  covers : ∀ x, (Covers (freeSpans lists) x ∨ Covers (w.callers.live.map Block.span) x) ↔
    Covers (freeSpans origin) x
  known : ∀ x, Known w.callers.pmm.bitmap x ↔ Known bitmap x
  clear : ∀ x, Clear w.callers.pmm.bitmap x ↔ Known bitmap x ∧ ¬ Covers (w.callers.live.map Block.span) x ∧
    (Clear bitmap x ∨ Covers (w.handed.map Block.span) x)
  unmerged : ∀ i < maxNodes, ∀ o < maxOrder, ∀ pa, blockSize (o+1) ∣ pa → pa ∈ lists (i,o) →
    pa + blockSize o ∈ lists (i,o) → ¬ ∀ x, In blockSize (o+1) pa x → Clear w.callers.pmm.bitmap x
  whole : ∀ k ∈ keys, ∀ block ∈ origin k, InOne w lists block → Whole bitmap w.handed block
  plain : ∀ k ∈ keys, ∀ block ∈ origin k, OnlyWhole w.handed block → InOne w lists block

section Steps
variable {origin : Lists} {bitmap : Bitmap} {w : World} {lists : Lists}

theorem homeOf (o : Origin origin) {x : Nat} (covered : Covers (freeSpans origin) x) :
    ∃ i < maxNodes, ∃ block ∈ origin (i,maxOrder), blockSize maxOrder ∣ block ∧ In blockSize maxOrder block x := by
  obtain ⟨⟨i,top⟩,hk,block,mem,inside⟩ := coversFree.mp covered
  have whole := o.order _ hk block mem
  dsimp only at whole
  subst whole
  exact ⟨i,(memKeys.mp hk).1,block,mem,o.aligned _ hk block mem,inside⟩

theorem sameNode (h : Inv origin bitmap w lists) {i j o pa x : Nat} (hk : (j,o) ∈ keys) (mem : pa ∈ lists (j,o))
    (inside : In blockSize o pa x) (count : i < w.callers.pmm.nnodes) (low : (w.callers.pmm.nodes i).base ≤ x)
    (high : x < (w.callers.pmm.nodes i).limit) : j = i := by
  obtain ⟨countj,_,inj⟩ := h.shape.inNode _ hk pa mem
  have lowj : (w.callers.pmm.nodes j).base ≤ pa := inj.1
  have highj : pa + blockSize o ≤ (w.callers.pmm.nodes j).limit := inj.2
  unfold In at inside
  by_contra different
  have away := h.callers.laid.apart j countj i count different
  omega

theorem partNotNull (o : Origin origin) {k : Nat × Nat} {block ord pa : Nat} (hk : k ∈ keys) (mem : block ∈ origin k)
    (top : ord ≤ maxOrder) (aligned : blockSize ord ∣ pa) {x : Nat} (inside : In blockSize ord pa x)
    (near : In blockSize maxOrder block x) (small : pa < 2^64) : pa ≠ 0 ∧ physToVirt pa ≠ 0 := by
  obtain ⟨low,high⟩ := nested blocksDouble top aligned (o.aligned k hk block mem) inside near
  have start : In blockSize maxOrder block pa :=
    ⟨low,Nat.lt_of_lt_of_le (Nat.lt_add_of_pos_right (blockSizePos ord)) high⟩
  obtain ⟨nonzero,nonnull⟩ := o.place k hk block mem
  refine ⟨by omega,fun null => nonnull ?_⟩
  rw [physToVirtNull small] at null
  subst null
  have even : blockSize maxOrder ∣ 0x80000000 := by decide
  exact sameOrder blocksDouble (o.aligned k hk block mem) even start (inStart blocksDouble _ _)

theorem homeIn (o : Origin origin) (h : Inv origin bitmap w lists) {i x : Nat} (count : i < w.callers.pmm.nnodes)
    (low : (w.callers.pmm.nodes i).base ≤ x) (high : x < (w.callers.pmm.nodes i).limit)
    (covered : Covers (freeSpans origin) x) : ∃ block ∈ origin (i,maxOrder), In blockSize maxOrder block x := by
  obtain ⟨j,hj,block,mem,_,inside⟩ := homeOf o covered
  obtain ⟨countj,inj⟩ := h.inNode _ (memKeys.mpr ⟨hj,Nat.le_refl _⟩) block mem
  have lowj : (w.callers.pmm.nodes j).base ≤ block := inj.1
  have highj : block + blockSize maxOrder ≤ (w.callers.pmm.nodes j).limit := inj.2
  have same : j = i := by
    by_contra different
    have away := h.callers.laid.apart j countj i count different
    unfold In at inside
    omega
  exact ⟨block,same ▸ mem,inside⟩

end Steps

theorem blockPage {ord pa : Nat} (aligned : blockSize ord ∣ pa) : pa % pageSize = 0 :=
  Nat.mod_eq_zero_of_dvd (Nat.dvd_trans (Nat.dvd_of_mod_eq_zero (blockSizePages ord)) aligned)

section Freeing
variable {origin : Lists} {bitmap : Bitmap} {w : World} {lists : Lists} {b : Block} {i block : Nat}
  (o : Origin origin) (h : Inv origin bitmap w lists) (live : b ∈ w.callers.live)
  (back : PmmSafety.Returned w.callers lists b i) (mem : block ∈ origin (i,maxOrder))
  (home : In blockSize maxOrder block b.pa)

def unmarked (w : World) (b : Block) : Bitmap := bitmapClearBlock w.callers.pmm.bitmap b.pa b.ord

include h live in
theorem unmarkedClear (x : Nat) : Clear (unmarked w b) x ↔
    Clear w.callers.pmm.bitmap x ∨ (In blockSize b.ord b.pa x ∧ Known w.callers.pmm.bitmap x) :=
  clearBlockClear (blockPage (h.live b live).1) _ x

include h back in
theorem keyHere : (i,maxOrder) ∈ keys :=
  memKeys.mpr ⟨Nat.lt_of_lt_of_le back.count h.callers.laid.count,Nat.le_refl _⟩

include o h back mem home in
theorem aroundInside {ord pa : Nat} (top : ord ≤ maxOrder) (aligned : blockSize ord ∣ pa)
    (inside : In blockSize ord pa b.pa) : block ≤ pa ∧ pa + blockSize ord ≤ block + blockSize maxOrder ∧
      (w.callers.pmm.nodes i).base ≤ pa ∧ pa + blockSize ord ≤ (w.callers.pmm.nodes i).limit ∧
      pa + blockSize ord < 2^64 := by
  have hk := keyHere h back
  obtain ⟨low,high⟩ := nested blocksDouble top aligned (o.aligned _ hk block mem) inside home
  obtain ⟨count,inNode⟩ := h.inNode _ hk block mem
  have start : (w.callers.pmm.nodes i).base ≤ block := inNode.1
  have stop : block + blockSize maxOrder ≤ (w.callers.pmm.nodes i).limit := inNode.2
  have limit := h.shape.bounded i count
  exact ⟨low,high,by omega,by omega,by omega⟩

include o h live back mem home in
/- A buddy that looks free is on the list: nothing in it is live, so listed blocks cover it,
and no two halves of it are listed apart. -/
theorem buddyListed {ord pa p : Nat} (top : ord < maxOrder) (aligned : blockSize ord ∣ pa)
    (inside : In blockSize ord pa b.pa) (le : b.ord ≤ ord) (parent : Parent (w.callers.pmm.nodes i).base ord pa p)
    (free : ∀ x, In blockSize ord (buddyOf pa ord (w.callers.pmm.nodes i).base) x → Clear (unmarked w b) x) :
    buddyOf pa ord (w.callers.pmm.nodes i).base ∈ lists (i,ord) := by
  have node : i < maxNodes := Nat.lt_of_lt_of_le back.count h.callers.laid.count
  have next : ord + 1 ≤ maxOrder := top
  have around := aroundInside o h back mem home next parent.aligned ((inParent parent).mpr (.inl inside))
  have own := nested blocksDouble le (h.live b live).1 aligned (inStart blocksDouble _ _) inside
  have old : ∀ x, In blockSize ord (buddyOf pa ord (w.callers.pmm.nodes i).base) x →
      Clear w.callers.pmm.bitmap x := by
    intro x near
    rcases (unmarkedClear h live x).mp (free x near) with clear | ⟨here,_⟩
    · exact clear
    · refine absurd ?_ (buddyApart parent near)
      unfold In at *
      omega
  have covered : ∀ x, In blockSize ord (buddyOf pa ord (w.callers.pmm.nodes i).base) x →
      ∃ o' pa', (o' ≤ maxOrder ∧ pa' ∈ lists (i,o')) ∧ In blockSize o' pa' x := by
    intro x near
    have whole := (inParent parent).mpr (.inr near)
    have inBlock : In blockSize maxOrder block x := by
      unfold In at whole ⊢
      omega
    have dead := ((h.clear x).mp (old x near)).2.1
    have listed := ((h.covers x).mpr (coversFree.mpr ⟨_,keyHere h back,block,mem,inBlock⟩)).resolve_right dead
    obtain ⟨⟨j,o'⟩,hk,pa',found,here⟩ := coversFree.mp listed
    have same : j = i := sameNode h hk found here back.count (by unfold In at whole; omega)
      (by unfold In at whole; omega)
    subst same
    exact ⟨o',pa',⟨(memKeys.mp hk).2,found⟩,here⟩
  obtain ⟨o',pa',le',⟨top',found⟩,contains⟩ := gathered blocksDouble
    (fun o' pa' ok => h.listed _ (memKeys.mpr ⟨node,ok.1⟩) pa' ok.2)
    (fun o' pa' lt even low high => h.unmerged i node o' lt pa' even low.2 high.2)
    (Nat.le_of_lt top) parent.buddy covered old
  have here := contains _ (inStart blocksDouble ord _)
  have even := h.listed _ (memKeys.mpr ⟨node,top'⟩) pa' found
  rcases Nat.lt_or_eq_of_le le' with larger | rfl
  · -- a larger block around the buddy would contain the block that was given back
    exfalso
    have next : ord + 1 ≤ o' := larger
    have both := nested blocksDouble next parent.aligned even
      ((inParent parent).mpr (.inr (inStart blocksDouble ord _))) here
    have apart := listHandApart h.shape (memKeys.mpr ⟨node,top'⟩) pa' found _ (List.mem_map_of_mem live)
    have near := (inParent parent).mpr (.inl inside)
    have pos := blockSizePos b.ord
    simp only [Apart,Span.stop,spanOf,Block.span] at apart
    unfold In at near
    omega
  · rw [sameOrder blocksDouble parent.buddy even (inStart blocksDouble _ _) here]
    exact found

structure Ends (w : World) (b : Block) (i ord pa : Nat) (e : Nat × Nat) : Prop where
  top : e.2 ≤ maxOrder
  above : ord ≤ e.2
  aligned : blockSize e.2 ∣ e.1
  inside : In blockSize e.2 e.1 b.pa
  parts : ∀ x, In blockSize e.2 e.1 x → In blockSize ord pa x ∨ Clear (unmarked w b) x
  stops : e.2 < maxOrder → ¬ ∀ x, In blockSize e.2 (buddyOf e.1 e.2 (w.callers.pmm.nodes i).base) x →
    Clear (unmarked w b) x

include o h live back mem home in
theorem mergesFrom {fuel ord pa : Nat} (top : ord + fuel = maxOrder) (aligned : blockSize ord ∣ pa)
    (inside : In blockSize ord pa b.pa) (le : b.ord ≤ ord) :
    Merges (fun o x => x ∈ lists (i,o)) (w.callers.pmm.nodes i).base (w.callers.pmm.nodes i).limit (unmarked w b)
        fuel pa ord ∧
      Ends w b i ord pa (mergeEnd (unmarked w b) (w.callers.pmm.nodes i).base (w.callers.pmm.nodes i).limit
        fuel pa ord) := by
  induction fuel generalizing ord pa with
  | zero =>
      refine ⟨trivial,top.le,Nat.le_refl _,aligned,inside,fun _ => .inl,fun less => ?_⟩
      rw [mergeEnd] at less
      dsimp only at less
      omega
  | succ fuel ih =>
      have less : ord < maxOrder := by omega
      have next : ord + 1 ≤ maxOrder := less
      obtain ⟨_,_,low,_,high⟩ := aroundInside o h back mem home (Nat.le_of_lt less) aligned inside
      obtain ⟨p,parent⟩ := parentOf less (h.even i back.count) aligned low high
      have near := (inParent parent).mpr (.inl inside)
      obtain ⟨_,_,lowP,highP,_⟩ := aroundInside o h back mem home next parent.aligned near
      have reach := (inParent parent).mpr (.inr (inStart blocksDouble ord _))
      have within : ¬ (buddyOf pa ord (w.callers.pmm.nodes i).base < (w.callers.pmm.nodes i).base ∨
          (w.callers.pmm.nodes i).limit ≤ buddyOf pa ord (w.callers.pmm.nodes i).base) := by
        unfold In at reach
        omega
      rw [Merges,mergeEnd,if_neg within]
      by_cases free : buddyFree (unmarked w b) (buddyOf pa ord (w.callers.pmm.nodes i).base) ord = true
      · have clear := (buddyFreeClear (blockPage parent.buddy)).mp free
        have listed := buddyListed o h live back mem home less aligned inside le parent clear
        rw [if_pos free,parent.low]
        obtain ⟨merges,ends⟩ := ih (by omega) parent.aligned near (by omega)
        refine ⟨fun _ => ⟨listed,merges⟩,ends.top,by have := ends.above; omega,ends.aligned,ends.inside,
          fun x mem => ?_,ends.stops⟩
        rcases ends.parts x mem with whole | done
        · exact ((inParent parent).mp whole).imp id (clear x)
        · exact .inr done
      · rw [if_neg free]
        refine ⟨fun all => absurd all.2.2 free,Nat.le_of_lt less,Nat.le_refl _,aligned,inside,fun _ => .inl,
          fun _ clear => free ((buddyFreeClear (blockPage parent.buddy)).mpr clear)⟩

def freed (w : World) (b : Block) : World := ⟨PmmSafety.freedWorld w.callers b,w.handed⟩

def listsAfter (w : World) (lists : Lists) (b : Block) (i : Nat) : Lists :=
  pushed (freedLists w.callers.pmm lists i b.pa b.ord) (i,(freedEnd w.callers.pmm i b.pa b.ord).2)
    (freedEnd w.callers.pmm i b.pa b.ord).1

include h live in
theorem liveSplit (x : Nat) : (Covers (w.callers.live.map Block.span) x ↔
      In blockSize b.ord b.pa x ∨ Covers ((w.callers.live.erase b).map Block.span) x) ∧
    (In blockSize b.ord b.pa x → ¬ Covers ((w.callers.live.erase b).map Block.span) x) := by
  have perm : (w.callers.live.map Block.span).Perm (b.span::(w.callers.live.erase b).map Block.span) :=
    (List.perm_cons_erase live).map Block.span
  have packed := packedPerm perm (packedSublist (List.sublist_append_right _ _) h.shape.packed)
  refine ⟨?_,fun inside => coversOnce packed inside.1 inside.2⟩
  rw [coversPerm perm x,coversCons]
  exact Iff.rfl

include o h live back mem home in
theorem freedEnds : Merges (fun o x => x ∈ lists (i,o)) (w.callers.pmm.nodes i).base (w.callers.pmm.nodes i).limit
      (bitmapClearBlock w.callers.pmm.bitmap b.pa b.ord) (maxOrder-b.ord) b.pa b.ord ∧
    Ends w b i b.ord b.pa (freedEnd w.callers.pmm i b.pa b.ord) :=
  mergesFrom o h live back mem home (Nat.add_sub_of_le back.top) (h.live b live).1 (inStart blocksDouble _ _)
    (Nat.le_refl _)

include o h live back mem home in
theorem mergedWhole (top : (freedEnd w.callers.pmm i b.pa b.ord).2 = maxOrder) :
    (freedEnd w.callers.pmm i b.pa b.ord).1 = block ∧ (b = ⟨block,maxOrder⟩ ∨
      ∀ x, In blockSize maxOrder block x → Clear (unmarked w b) x) := by
  obtain ⟨_,ends⟩ := freedEnds o h live back mem home
  have hk := keyHere h back
  have same : (freedEnd w.callers.pmm i b.pa b.ord).1 = block :=
    sameOrder blocksDouble (top ▸ ends.aligned) (o.aligned _ hk block mem) (top ▸ ends.inside) home
  refine ⟨same,?_⟩
  have parts := ends.parts
  rw [top,same] at parts
  by_cases whole : b.ord = maxOrder
  · left
    have start := sameOrder blocksDouble (h.live b live).1 (whole ▸ o.aligned _ hk block mem)
      (inStart blocksDouble _ _) (whole ▸ home)
    cases b
    simp_all
  · right
    have less : b.ord + 1 ≤ maxOrder := by
      have := back.top
      omega
    -- some address of the block is outside the one given back, so the bitmap covers it
    obtain ⟨y,near,far⟩ : ∃ y, In blockSize maxOrder block y ∧ ¬ In blockSize b.ord b.pa y := by
      have size := Nat.le_of_dvd (blockSizePos _) (sizeDvd blocksDouble less)
      have double := blockSizeSucc b.ord
      have pos := blockSizePos b.ord
      by_cases first : b.pa = block
      · exact ⟨b.pa + blockSize b.ord,by unfold In; omega,by unfold In; omega⟩
      · exact ⟨block,inStart blocksDouble _ _,by unfold In at home ⊢; omega⟩
    have known : Known w.callers.pmm.bitmap y := by
      have clear := (parts y near).resolve_left far
      rw [unmarkedClear h live] at clear
      exact clear.elim clearKnown And.right
    intro x inside
    rcases parts x inside with here | clear
    · have seen := (knownUniform (o.aligned _ hk block mem) near inside).mp known
      exact (unmarkedClear h live x).mpr (.inr ⟨here,seen⟩)
    · exact clear

include o h live back mem home in
theorem endNotNull : physToVirt (freedEnd w.callers.pmm i b.pa b.ord).1 ≠ 0 := by
  obtain ⟨_,ends⟩ := freedEnds o h live back mem home
  obtain ⟨_,_,_,_,small⟩ := aroundInside o h back mem home ends.top ends.aligned ends.inside
  exact (partNotNull o (keyHere h back) mem ends.top ends.aligned ends.inside home (by omega)).2

include o h live back mem home in
theorem afterMember {k : Nat × Nat} {q : Nat} (found : q ∈ listsAfter w lists b i k) :
    (k = (i,(freedEnd w.callers.pmm i b.pa b.ord).2) ∧ q = (freedEnd w.callers.pmm i b.pa b.ord).1) ∨
      q ∈ lists k :=
  ((memPushed (endNotNull o h live back mem home)).mp found).imp_right mergeSubset

include o h live back mem home in
theorem afterInOne {block' : Nat} (one : InOne w lists block') :
    InOne (freed w b) (listsAfter w lists b i) block' := by
  have node : i < maxNodes := Nat.lt_of_lt_of_le back.count h.callers.laid.count
  obtain ⟨_,ends⟩ := freedEnds o h live back mem home
  have nonnull := endNotNull o h live back mem home
  rcases one with ⟨j,hj,listed⟩ | held
  · refine .inl ⟨j,hj,(memPushed nonnull).mpr (.inr ?_)⟩
    rw [freedLists,mergeTop (Nat.le_of_eq (Nat.add_sub_of_le back.top))]
    exact listed
  · by_cases this : ⟨block',maxOrder⟩ = b
    · -- the whole block goes back on the list of its order
      subst this
      have same : (freedEnd w.callers.pmm i block' maxOrder).2 = maxOrder :=
        Nat.le_antisymm ends.top ends.above
      refine .inl ⟨i,node,(memPushed nonnull).mpr (.inl ⟨by rw [same],?_⟩)⟩
      exact (sameOrder blocksDouble (same ▸ ends.aligned) (h.live _ live).1 (same ▸ ends.inside)
        (inStart blocksDouble _ _)).symm
    · exact .inr ((List.mem_erase_of_ne this).mpr held)

include o h live back mem home in
theorem afterCovers (x : Nat) : Covers (freeSpans (listsAfter w lists b i)) x ↔
    In blockSize b.ord b.pa x ∨ Covers (freeSpans lists) x := by
  have node : i < maxNodes := Nat.lt_of_lt_of_le back.count h.callers.laid.count
  obtain ⟨merges,ends⟩ := freedEnds o h live back mem home
  have coalesced := freeMerged node back.count back.top back.aligned back.inside back.taken merges
  have reached : (coalesce (maxOrder-b.ord) (unmark w.callers.pmm b.pa b.ord) i b.pa b.ord).2 =
      freedEnd w.callers.pmm i b.pa b.ord := coalesceEnd _ _ _ _ _
  have swap := coalesced.covers x
  rw [reached,coversCons,coversCons] at swap
  rw [listsAfter,coversPushed (memKeys.mpr ⟨node,ends.top⟩) (endNotNull o h live back mem home)]
  exact swap

include h live in
theorem afterClear (x : Nat) : Clear (unmarked w b) x ↔ Known bitmap x ∧
    ¬ Covers ((w.callers.live.erase b).map Block.span) x ∧ (Clear bitmap x ∨ Covers (w.handed.map Block.span) x) := by
  obtain ⟨split,once⟩ := liveSplit h live x
  have handed : In blockSize b.ord b.pa x → Covers (w.handed.map Block.span) x :=
    fun inside => coversBlocks.mpr ⟨b,(h.live b live).2.2,inside⟩
  rw [unmarkedClear h live,h.known,h.clear,split]
  constructor
  · rintro (⟨known,dead,seen⟩ | ⟨inside,known⟩)
    · exact ⟨known,fun held => dead (.inr held),seen⟩
    · exact ⟨known,once inside,.inr (handed inside)⟩
  · rintro ⟨known,dead,seen⟩
    by_cases inside : In blockSize b.ord b.pa x
    · exact .inr ⟨inside,known⟩
    · exact .inl ⟨known,fun held => held.elim inside dead,seen⟩

include h live in
theorem oldUnmerged {j ord pa : Nat} (hj : j < maxNodes) (lt : ord < maxOrder) (even : blockSize (ord+1) ∣ pa)
    (lower : pa ∈ lists (j,ord)) (upper : pa + blockSize ord ∈ lists (j,ord)) :
    ¬ ∀ x, In blockSize (ord+1) pa x → Clear (unmarked w b) x := by
  intro clear
  refine h.unmerged j hj ord lt pa even lower upper (fun x near => ?_)
  rcases (unmarkedClear h live x).mp (clear x near) with before | ⟨own,_⟩
  · exact before
  · exfalso
    have apart : ∀ q ∈ lists (j,ord), Apart (spanOf ord q) b.span := fun q mem =>
      listHandApart h.shape (memKeys.mpr ⟨hj,Nat.le_of_lt lt⟩) q mem _ (List.mem_map_of_mem live)
    have first := apart _ lower
    have second := apart _ upper
    have double := blockSizeSucc ord
    simp only [Apart,Span.stop,spanOf,Block.span] at first second
    unfold In at near own
    omega

include o h live back mem home in
theorem mergedStops {ord pa q : Nat} (order : (freedEnd w.callers.pmm i b.pa b.ord).2 = ord) (lt : ord < maxOrder)
    (even : blockSize (ord+1) ∣ pa) (start : (freedEnd w.callers.pmm i b.pa b.ord).1 = q)
    (either : q = pa ∨ q = pa + blockSize ord) :
    ¬ ∀ x, In blockSize (ord+1) pa x → Clear (unmarked w b) x := by
  intro clear
  obtain ⟨_,ends⟩ := freedEnds o h live back mem home
  have less : (freedEnd w.callers.pmm i b.pa b.ord).2 < maxOrder := order ▸ lt
  obtain ⟨_,_,base,_,limit⟩ := aroundInside o h back mem home ends.top ends.aligned ends.inside
  obtain ⟨p,parent⟩ := parentOf less (h.even i back.count) ends.aligned base limit
  refine ends.stops less (fun x near => clear x ?_)
  have whole := (inParent parent).mpr (.inr near)
  have there := (inParent parent).mpr (.inl (inStart blocksDouble _ _))
  have aligned := parent.aligned
  rw [order] at whole there aligned
  rw [start] at there
  have here : In blockSize (ord+1) pa q := by
    have double := blockSizeSucc ord
    have pos := blockSizePos ord
    unfold In
    omega
  rw [sameOrder blocksDouble even aligned here there]
  exact whole

include o h live back mem home in
theorem afterUnmerged {j ord pa : Nat} (hj : j < maxNodes) (lt : ord < maxOrder) (even : blockSize (ord+1) ∣ pa)
    (low : pa ∈ listsAfter w lists b i (j,ord)) (high : pa + blockSize ord ∈ listsAfter w lists b i (j,ord)) :
    ¬ ∀ x, In blockSize (ord+1) pa x → Clear (unmarked w b) x := by
  rcases afterMember o h live back mem home low with ⟨place,start⟩ | lower
  · exact mergedStops o h live back mem home (Prod.mk.inj place).2.symm lt even start.symm (.inl rfl)
  · rcases afterMember o h live back mem home high with ⟨place,start⟩ | upper
    · exact mergedStops o h live back mem home (Prod.mk.inj place).2.symm lt even start.symm (.inr rfl)
    · exact oldUnmerged h live hj lt even lower upper

include o h live back mem home in
theorem afterWhole {k : Nat × Nat} {block' : Nat} (hk : k ∈ keys) (mem' : block' ∈ origin k)
    (one : InOne (freed w b) (listsAfter w lists b i) block') : Whole bitmap w.handed block' := by
  by_cases before : InOne w lists block'
  · exact h.whole k hk block' mem' before
  -- the block has just been merged
  rcases one with ⟨j,hj,listed⟩ | held
  · rcases afterMember o h live back mem home listed with ⟨place,start⟩ | old
    · obtain ⟨this,merged⟩ := mergedWhole o h live back mem home (Prod.mk.inj place).2.symm
      rw [this] at start
      subst start
      rcases merged with rfl | clear
      · exact absurd (.inr live) before
      · refine .inr (fun x near => ?_)
        obtain ⟨known,_,seen⟩ := (afterClear h live x).mp (clear x near)
        exact ⟨known,seen⟩
    · exact absurd (.inl ⟨j,hj,old⟩) before
  · exact absurd (.inr (List.mem_of_mem_erase held)) before

include o h live back mem home in
theorem freeKeeps : Inv origin bitmap (freed w b) (listsAfter w lists b i) := by
  obtain ⟨merges,ends⟩ := freedEnds o h live back mem home
  obtain ⟨inv,_,same,rest⟩ := PmmSafety.freeListed h.callers back merges
  obtain ⟨marks,shape⟩ := rest (h.live b live).2.1
  have bits : (freed w b).callers.pmm.bitmap = unmarked w b := marks
  refine ⟨inv,shape,?_,?_,?_,fun x held => h.live x (List.mem_of_mem_erase held),?_,?_,?_,?_,?_,?_⟩
  · intro j hj
    rw [show ((freed w b).callers.pmm.nodes j).base = (w.callers.pmm.nodes j).base from (same.2 j).1]
    exact h.even j (same.1 ▸ hj)
  · intro k hk pa listed
    obtain ⟨count,inside⟩ := h.inNode k hk pa listed
    refine ⟨same.1.symm ▸ count,?_⟩
    unfold InNode at *
    rw [show ((freed w b).callers.pmm.nodes k.1).base = (w.callers.pmm.nodes k.1).base from (same.2 _).1,
      show ((freed w b).callers.pmm.nodes k.1).limit = (w.callers.pmm.nodes k.1).limit from (same.2 _).2]
    exact inside
  · intro k hk pa listed
    rcases afterMember o h live back mem home listed with ⟨rfl,rfl⟩ | old
    · exact ends.aligned
    · exact h.listed k hk pa old
  · intro x
    rw [afterCovers o h live back mem home,← h.covers x,(liveSplit h live x).1,or_comm (a := In _ _ _ _),or_assoc]
    exact Iff.rfl
  · intro x
    rw [bits,unmarked,clearBlockKnown]
    exact h.known x
  · intro x
    rw [bits]
    exact afterClear h live x
  · intro j hj ord lt pa even low high
    rw [bits]
    exact afterUnmerged o h live back mem home hj lt even low high
  · exact fun k hk block' listed one => afterWhole o h live back mem home hk listed one
  · exact fun k hk block' listed only => afterInOne o h live back mem home (h.plain k hk block' listed only)

end Freeing

section Allocating
variable {origin : Lists} {bitmap : Bitmap} {w : World} {lists : Lists} {ord i avail : Nat} {result : State × Nat}
  {rest : List Nat} {t : State} (o : Origin origin) (h : Inv origin bitmap w lists)
  (got : Allocated w.callers.pmm lists (w.callers.live.map Block.span) ord result i avail rest t)

def listsLeft (lists : Lists) (ord i avail pa : Nat) (rest : List Nat) : Lists :=
  splitLists (update lists (i,avail) rest) i pa ord avail

include h got in
theorem availKey : (i,avail) ∈ keys := servedKey h.callers.laid.count got

include h got in
theorem poppedAligned : blockSize avail ∣ result.2 := servedAligned h.callers.laid.count h.listed got

include o h got in
theorem poppedHome : ∃ k ∈ keys, ∃ block ∈ origin k, blockSize maxOrder ∣ block ∧
    Within (spanOf avail result.2) (spanOf maxOrder block) := by
  have start := inStart blocksDouble avail result.2
  have covered : Covers (freeSpans origin) result.2 :=
    (h.covers _).mp (.inl (coversFree.mpr ⟨_,availKey h got,_,servedListed got,start⟩))
  obtain ⟨j,hj,block,mem,even,inside⟩ := homeOf o covered
  exact ⟨_,memKeys.mpr ⟨hj,Nat.le_refl _⟩,block,mem,even,
    nested blocksDouble got.orders.2 (poppedAligned h got) even start inside⟩

include o h got in
theorem poppedNonzero : result.2 ≠ 0 := by
  obtain ⟨k,hk,block,mem,_,within⟩ := poppedHome o h got
  have low : block ≤ result.2 := within.1
  have nonzero := (o.place k hk block mem).1
  omega

include h got in
theorem leftMember {k : Nat × Nat} {q : Nat} : q ∈ listsLeft lists ord i avail result.2 rest k ↔
    (k.1 = i ∧ Half result.2 ord avail k.2 q) ∨ q ∈ update lists (i,avail) rest k :=
  servedMember h.callers.laid.count h.shape h.listed got

include h got in
theorem keptMember {k : Nat × Nat} {q : Nat} (mem : q ∈ lists k) :
    (k = (i,avail) ∧ q = result.2) ∨ q ∈ listsLeft lists ord i avail result.2 rest k :=
  servedKept h.callers.laid.count h.shape h.listed got mem

include h got in
theorem leftCovers (x : Nat) : Covers (freeSpans lists) x ↔
    Covers (freeSpans (listsLeft lists ord i avail result.2 rest)) x ∨ In blockSize ord result.2 x :=
  servedCovers h.callers.laid.count h.shape h.listed got x

def handedTo (w : World) (result : State × Nat) (ord : Nat) : World :=
  ⟨{w.callers with pmm := result.1,live := ⟨result.2,ord⟩::w.callers.live},⟨result.2,ord⟩::w.handed⟩

include got in
theorem handedBitmap : result.1.bitmap = bitmapSetBlock w.callers.pmm.bitmap result.2 ord := by
  rw [got.state,handOut]
  show bitmapSetBlock t.bitmap _ _ = _
  rw [got.frame.rest]

include h got in
theorem handedClear (x : Nat) : Clear result.1.bitmap x ↔ Known bitmap x ∧
    ¬ Covers ((handedTo w result ord).callers.live.map Block.span) x ∧
    (Clear bitmap x ∨ Covers ((handedTo w result ord).handed.map Block.span) x) := by
  have lives : Covers ((handedTo w result ord).callers.live.map Block.span) x ↔
      In blockSize ord result.2 x ∨ Covers (w.callers.live.map Block.span) x := coversCons
  have hands : Covers ((handedTo w result ord).handed.map Block.span) x ↔
      In blockSize ord result.2 x ∨ Covers (w.handed.map Block.span) x := coversCons
  rw [handedBitmap got,setBlockClear got.aligned,h.clear,lives,hands]
  constructor
  · rintro ⟨outside,known,dead,seen⟩
    exact ⟨known,fun held => held.elim outside dead,seen.imp_right .inr⟩
  · rintro ⟨known,dead,seen⟩
    rw [not_or] at dead
    exact ⟨dead.1,known,dead.2,seen.imp_right (Or.resolve_left · dead.1)⟩

include h got in
theorem leftUnmerged {j n pa : Nat} (hj : j < maxNodes) (lt : n < maxOrder) (even : blockSize (n+1) ∣ pa)
    (low : pa ∈ listsLeft lists ord i avail result.2 rest (j,n))
    (high : pa + blockSize n ∈ listsLeft lists ord i avail result.2 rest (j,n)) :
    ¬ ∀ x, In blockSize (n+1) pa x → Clear result.1.bitmap x := by
  intro clear
  have pos := blockSizePos n
  have double := blockSizeSucc n
  have marks : ∀ x, Clear result.1.bitmap x → ¬ In blockSize ord result.2 x ∧ Clear w.callers.pmm.bitmap x := by
    intro x
    rw [handedBitmap got,setBlockClear got.aligned]
    exact id
  rcases (leftMember h got).mp high with ⟨_,ge,less,place⟩ | upper
  · -- the other half is the one that was split on, and it is marked used now
    have place : pa + blockSize n = result.2 + blockSize n := place
    have same : pa = result.2 := by omega
    subst same
    exact (marks _ (clear _ (inStart blocksDouble _ _))).1 (inStart blocksDouble _ _)
  rcases (leftMember h got).mp low with ⟨_,ge,less,place⟩ | lower
  · -- an upper half is not the lower half of anything
    have next : n + 1 ≤ avail := less
    have first : blockSize (n+1) ∣ result.2 := Nat.dvd_trans (sizeDvd blocksDouble next) (poppedAligned h got)
    have half := (Nat.dvd_add_right first).mp (place ▸ even)
    have := Nat.le_of_dvd pos half
    omega
  · exact h.unmerged j hj n lt pa even (servedRest got lower) (servedRest got upper)
      (fun x near => (marks x (clear x near)).2)

theorem wholeApart {block : Nat} (apart : Apart (spanOf maxOrder block) (spanOf ord result.2))
    (whole : Whole bitmap w.handed block) : Whole bitmap (handedTo w result ord).handed block := by
  rcases whole with only | seen
  · left
    refine List.forall_mem_cons.mpr ⟨fun within => ?_,only⟩
    exfalso
    have pos := blockSizePos ord
    simp only [Within,Apart,Span.stop,spanOf,Block.span] at within apart
    omega
  · right
    intro x near
    obtain ⟨known,clear⟩ := seen x near
    exact ⟨known,clear.imp_right (fun old => coversCons.mpr (.inr old))⟩

include h got in
theorem leftWhole {k : Nat × Nat} {block : Nat} (hk : k ∈ keys) (mem : block ∈ origin k)
    (one : InOne (handedTo w result ord) (listsLeft lists ord i avail result.2 rest) block) :
    Whole bitmap (handedTo w result ord).handed block := by
  have shape := PmmSafety.allocatedShape got
  rcases one with ⟨j,hj,listed⟩ | held
  · have apart := listHandApart shape (memKeys.mpr ⟨hj,Nat.le_refl _⟩) block listed _ List.mem_cons_self
    refine wholeApart apart (h.whole k hk block mem (.inl ⟨j,hj,?_⟩))
    rcases (leftMember h got).mp listed with ⟨_,_,less,_⟩ | old
    · have := got.orders.2
      dsimp only at less
      omega
    · exact servedRest got old
  · rcases List.mem_cons.mp held with new | old
    · -- the block itself was handed out
      obtain ⟨place,order⟩ := Block.mk.inj new
      have top : avail = maxOrder := Nat.le_antisymm got.orders.2 (order ▸ got.orders.1)
      have node : i < maxNodes := Nat.lt_of_lt_of_le got.node h.callers.laid.count
      have before : InOne w lists block := .inl ⟨i,node,by rw [place,← top]; exact servedListed got⟩
      rcases h.whole k hk block mem before with only | seen
      · exact .inl (List.forall_mem_cons.mpr ⟨fun _ => order.symm,only⟩)
      · refine .inr (fun x near => ?_)
        obtain ⟨known,clear⟩ := seen x near
        exact ⟨known,clear.imp_right (fun old => coversCons.mpr (.inr old))⟩
    · have packed := packedSublist (List.sublist_append_right _ _) shape.packed
      exact wholeApart (apartSymm (packedHead packed _ (List.mem_map_of_mem old)))
        (h.whole k hk block mem (.inr old))

include h got in
theorem leftPlain {k : Nat × Nat} {block : Nat} (hk : k ∈ keys) (mem : block ∈ origin k)
    (only : OnlyWhole (handedTo w result ord).handed block) :
    InOne (handedTo w result ord) (listsLeft lists ord i avail result.2 rest) block := by
  obtain ⟨new,old⟩ := List.forall_mem_cons.mp only
  rcases h.plain k hk block mem old with ⟨j,hj,listed⟩ | held
  · rcases keptMember h got listed with ⟨place,rfl⟩ | left
    · -- popped whole, so handed out whole
      have smaller := Nat.le_of_dvd (blockSizePos maxOrder) (sizeDvd blocksDouble
        (Nat.le_trans got.orders.1 got.orders.2))
      have order : ord = maxOrder := new ⟨Nat.le_refl _,Nat.add_le_add_left smaller _⟩
      right
      rw [handedTo,order]
      exact List.mem_cons_self
    · exact .inl ⟨j,hj,left⟩
  · exact .inr (List.mem_cons_of_mem _ held)

include o h got in
theorem allocKeeps (inv : PmmSafety.Inv (handedTo w result ord).callers) :
    Inv origin bitmap (handedTo w result ord) (listsLeft lists ord i avail result.2 rest) := by
  have same : SameNodes w.callers.pmm result.1 := by
    rw [got.state]
    exact PmmSafety.nodesTrans (PmmSafety.frameNodes got.frame) (PmmSafety.handOutNodes _ _ _ _)
  refine ⟨inv,PmmSafety.allocatedShape got,?_,?_,?_,?_,?_,?_,handedClear h got,?_,?_,?_⟩
  · intro j hj
    rw [show ((handedTo w result ord).callers.pmm.nodes j).base = (w.callers.pmm.nodes j).base from (same.2 j).1]
    exact h.even j (same.1 ▸ hj)
  · intro k hk pa mem
    obtain ⟨count,inside⟩ := h.inNode k hk pa mem
    refine ⟨same.1.symm ▸ count,?_⟩
    unfold InNode at *
    rw [show ((handedTo w result ord).callers.pmm.nodes k.1).base = (w.callers.pmm.nodes k.1).base from (same.2 _).1,
      show ((handedTo w result ord).callers.pmm.nodes k.1).limit = (w.callers.pmm.nodes k.1).limit from (same.2 _).2]
    exact inside
  · intro k hk pa mem
    rcases (leftMember h got).mp mem with ⟨_,_,less,rfl⟩ | old
    · exact Nat.dvd_add (Nat.dvd_trans (sizeDvd blocksDouble (Nat.le_of_lt less)) (poppedAligned h got))
        (Nat.dvd_refl _)
    · exact h.listed k hk pa (servedRest got old)
  · refine List.forall_mem_cons.mpr ⟨⟨?_,poppedNonzero o h got,List.mem_cons_self⟩,fun b mem => ?_⟩
    · exact Nat.dvd_trans (sizeDvd blocksDouble got.orders.1) (poppedAligned h got)
    · obtain ⟨even,nonzero,handed⟩ := h.live b mem
      exact ⟨even,nonzero,List.mem_cons_of_mem _ handed⟩
  · intro x
    rw [← h.covers x,leftCovers h got,or_assoc]
    exact or_congr_right coversCons
  · intro x
    show Known result.1.bitmap x ↔ _
    rw [handedBitmap got,setBlockKnown]
    exact h.known x
  · exact fun j hj n lt pa even low high => leftUnmerged h got hj lt even low high
  · exact fun k hk block mem one => leftWhole h got hk mem one
  · exact fun k hk block mem only => leftPlain h got hk mem only

end Allocating

end Nekros.PmmRestore
