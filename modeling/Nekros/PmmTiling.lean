import Nekros.PmmBuddies
import Nekros.PmmWindow

/-! How `pmm_add_region` of mm/pmm.c cuts a range into blocks. It takes the largest block that
starts at the cursor and fits; the blocks then lie end to end, and each block that could be
taken from the range is part of one of them. -/
namespace Nekros.PmmTiling
open Words Pmm Spans PmmShape PmmLoops PmmBitmap PmmBuddies
open PmmSafety (Block)
open PmmWindow (carveLinks carveLinksExact)
open DyadicBlocks (In nested inStart)

def Tiles : Nat → List Block → Nat → Prop
  | lo,[],hi => lo = hi
  | lo,b::rest,hi => b.pa = lo ∧ Tiles (lo + blockSize b.ord) rest hi

theorem tilesLe {lo hi : Nat} {blocks : List Block} (h : Tiles lo blocks hi) : lo ≤ hi := by
  induction blocks generalizing lo with
  | nil => exact Nat.le_of_eq h
  | cons b rest ih => exact Nat.le_trans (Nat.le_add_right _ _) (ih h.2)

theorem tilesWithin {lo hi : Nat} {blocks : List Block} (h : Tiles lo blocks hi) :
    ∀ b ∈ blocks, lo ≤ b.pa ∧ b.span.stop ≤ hi := by
  induction blocks generalizing lo with
  | nil =>
      intro b mem
      cases mem
  | cons b rest ih =>
      obtain ⟨rfl,tail⟩ := h
      intro c mem
      rcases List.mem_cons.mp mem with rfl | later
      · exact ⟨Nat.le_refl _,tilesLe tail⟩
      · obtain ⟨low,high⟩ := ih tail c later
        exact ⟨Nat.le_trans (Nat.le_add_right _ _) low,high⟩

theorem tilesPacked {lo hi : Nat} {blocks : List Block} (h : Tiles lo blocks hi) :
    Packed (blocks.map Block.span) := by
  induction blocks generalizing lo with
  | nil => exact packedNil
  | cons b rest ih =>
      obtain ⟨rfl,tail⟩ := h
      refine packedCons (blockSizePos b.ord) ?_ (ih tail)
      intro sp mem
      obtain ⟨c,later,rfl⟩ := List.mem_map.mp mem
      exact .inl (tilesWithin tail c later).1

theorem tilesCover {lo hi : Nat} {blocks : List Block} (h : Tiles lo blocks hi) (x : Nat) :
    Covers (blocks.map Block.span) x ↔ lo ≤ x ∧ x < hi := by
  induction blocks generalizing lo with
  | nil =>
      have same : lo = hi := h
      refine iff_of_false ?_ (by omega)
      rintro ⟨sp,mem,_⟩
      cases mem
  | cons b rest ih =>
      obtain ⟨rfl,tail⟩ := h
      have le := tilesLe tail
      rw [List.map_cons,coversCons,ih tail]
      unfold Block.span spanOf Span.stop
      dsimp only
      omega

def pagesOf (blocks : List Block) : Nat := (blocks.map fun b => 2^b.ord).sum

theorem tilesPages {lo hi : Nat} {blocks : List Block} (h : Tiles lo blocks hi) :
    hi - lo = pageSize * pagesOf blocks := by
  induction blocks generalizing lo with
  | nil =>
      have same : lo = hi := h
      rw [same,Nat.sub_self]
      rfl
  | cons b rest ih =>
      have tail := ih h.2
      have le := tilesLe h.2
      have size := blockSizeEq b.ord
      rw [pagesOf,List.map_cons,List.sum_cons,Nat.mul_add]
      rw [pagesOf] at tail
      omega

structure Greedy (stop : Nat) (b : Block) : Prop where
  top : b.ord ≤ maxOrder
  aligned : blockSize b.ord ∣ b.pa
  largest : ∀ ord ≤ maxOrder, blockSize ord ∣ b.pa → b.pa + blockSize ord ≤ stop → ord ≤ b.ord

theorem carveOrderLargest {pa stop top ord : Nat} (le : ord ≤ top) (aligned : blockSize ord ∣ pa)
    (fits : wrap (pa + blockSize ord) ≤ stop) : ord ≤ carveOrder pa stop top := by
  induction top with
  | zero => exact Nat.le_trans le (Nat.zero_le _)
  | succ top ih =>
      unfold carveOrder
      split
      · next refused =>
          refine ih (Nat.lt_succ_iff.mp (Nat.lt_of_le_of_ne le ?_))
          rintro rfl
          rcases refused with odd | beyond
          · exact odd (Nat.mod_eq_zero_of_dvd aligned)
          · exact absurd fits (Nat.not_le_of_lt beyond)
      · exact le

section Carving
variable {stop : Nat} (small : stop < 2^64) (whole : stop % pageSize = 0)
include small whole

theorem carveTiles {fuel pa : Nat} (aligned : pa % pageSize = 0) (flat : NoWrap pa stop) (le : pa ≤ stop)
    (enough : stop - pa ≤ fuel * pageSize) :
    Tiles pa (carveLinks fuel pa stop) stop ∧ ∀ b ∈ carveLinks fuel pa stop, Greedy stop b := by
  induction fuel generalizing pa with
  | zero => exact ⟨show pa = stop by omega,fun b mem => by cases mem⟩
  | succ fuel ih =>
      rw [carveLinks]
      split
      · next more =>
          obtain ⟨top,fits⟩ := carveOrderFits (Nat.le_refl maxOrder) small more aligned whole flat
          have page := pageLeBlock (carveOrder pa stop maxOrder)
          have pages := blockSizePages (carveOrder pa stop maxOrder)
          dsimp only
          rw [wrapOfLt (Nat.lt_of_le_of_lt fits small)]
          obtain ⟨tail,greedy⟩ := ih (by simp [Nat.add_mod,aligned,pages])
            (fun o ho => by have := flat o ho; omega) fits (by rw [Nat.succ_mul] at enough; omega)
          refine ⟨⟨rfl,tail⟩,List.forall_mem_cons.mpr ⟨⟨top,carveOrderDvd aligned,?_⟩,greedy⟩⟩
          refine fun ord high divides inside => carveOrderLargest high divides ?_
          rwa [wrapOfLt (Nat.lt_of_le_of_lt inside small)]
      · exact ⟨show pa = stop by omega,fun b mem => by cases mem⟩

theorem carveReturns {fuel i pa : Nat} (s : State) (aligned : pa % pageSize = 0) (flat : NoWrap pa stop)
    (enough : stop - pa ≤ fuel * pageSize) : ∃ t, carve fuel s i pa stop = some t := by
  induction fuel generalizing s pa with
  | zero => exact ⟨s,if_neg (by omega)⟩
  | succ fuel ih =>
      rw [carve]
      split
      · next more =>
          obtain ⟨_,fits⟩ := carveOrderFits (Nat.le_refl maxOrder) small more aligned whole flat
          have page := pageLeBlock (carveOrder pa stop maxOrder)
          have pages := blockSizePages (carveOrder pa stop maxOrder)
          dsimp only
          rw [wrapOfLt (Nat.lt_of_le_of_lt fits small)]
          exact ih _ (by simp [Nat.add_mod,aligned,pages]) (fun o ho => by have := flat o ho; omega)
            (by rw [Nat.succ_mul] at enough; omega)
      · exact ⟨s,rfl⟩

end Carving

theorem carveOrderLe (pa stop top : Nat) : carveOrder pa stop top ≤ top := by
  induction top with
  | zero => exact Nat.le_refl _
  | succ top ih =>
      unfold carveOrder
      split
      · exact Nat.le_succ_of_le ih
      · exact Nat.le_refl _

/- The block that would end at 2^64 is taken for one that fits, since its end wraps to 0: the
cursor never gets past it. -/
theorem carveTurns {k pa stop : Nat} (top : k ≤ maxOrder) (aligned : pa % pageSize = 0)
    (below : pa ≤ 2^64 - blockSize k) :
    wrap (pa + blockSize (carveOrder pa stop maxOrder)) ≤ 2^64 - blockSize k ∧
      wrap (pa + blockSize (carveOrder pa stop maxOrder)) % pageSize = 0 := by
  have here : blockSize (carveOrder pa stop maxOrder) ∣ pa := carveOrderDvd aligned
  have pages := blockSizePages (carveOrder pa stop maxOrder)
  have low := carveOrderLe pa stop maxOrder
  have largest : blockSize k ∣ pa → wrap (pa + blockSize k) ≤ stop → k ≤ carveOrder pa stop maxOrder :=
    carveOrderLargest top
  generalize carveOrder pa stop maxOrder = ord at *
  obtain ⟨even,size⟩ := blockSizeLe top
  have pos := blockSizePos k
  have whole : wrap (pa + blockSize ord) % pageSize = 0 := by
    unfold wrap pageSize at *
    omega
  refine ⟨?_,whole⟩
  rcases Nat.lt_or_ge (2^64 - blockSize k) (pa + blockSize ord) with over' | inside
  case inr => rwa [wrapOfLt (by omega)]
  have there : blockSize k ∣ 2^64 - blockSize k := Nat.dvd_sub even (Nat.dvd_refl _)
  have last : pa + blockSize ord = 2^64 := by
    have space : blockSize 52 = 2^64 := by decide
    have room := nested blocksDouble (show ord ≤ 52 by unfold maxOrder at low; omega) here (Nat.dvd_zero _)
      (inStart blocksDouble ord pa) ⟨Nat.zero_le _,by omega⟩
    have meets : In blockSize ord pa (2^64 - blockSize k) := ⟨below,over'⟩
    have starts := inStart blocksDouble k (2^64 - blockSize k)
    rcases Nat.lt_or_ge ord k with smaller | larger
    · have within := nested blocksDouble (Nat.le_of_lt smaller) here there meets starts
      obtain rfl : pa = 2^64 - blockSize k := by omega
      have fits : wrap (2^64 - blockSize k + blockSize k) ≤ stop := by
        rw [Nat.sub_add_cancel (by omega)]
        exact Nat.zero_le _
      exact absurd (largest there fits) (Nat.not_le_of_lt smaller)
    · have within := nested blocksDouble larger there here starts meets
      omega
  rw [last]
  exact Nat.zero_le _

theorem carveEndless {k stop i fuel pa : Nat} (s : State) (top : k ≤ maxOrder) (near : 2^64 - blockSize k < stop)
    (aligned : pa % pageSize = 0) (below : pa ≤ 2^64 - blockSize k) : carve fuel s i pa stop = none := by
  have more : ∀ {q}, q ≤ 2^64 - blockSize k → q < stop := fun le => Nat.lt_of_le_of_lt le near
  induction fuel generalizing s pa with
  | zero => exact if_pos (more below)
  | succ fuel ih =>
      obtain ⟨back,whole⟩ := @carveTurns k pa stop top aligned below
      rw [carve,if_pos (more below)]
      exact ih _ whole back

/- A block that starts in one of the tiles lies in it: were it larger, the tile would start
where it does and would not have been the largest. -/
theorem admissibleInTile {lo hi : Nat} {blocks : List Block} (h : Tiles lo blocks hi)
    (greedy : ∀ b ∈ blocks, Greedy hi b) {pa ord : Nat} (top : ord ≤ maxOrder) (aligned : blockSize ord ∣ pa)
    (low : lo ≤ pa) (high : pa + blockSize ord ≤ hi) :
    ∃ b ∈ blocks, Within (spanOf ord pa) b.span := by
  have pos := blockSizePos ord
  obtain ⟨sp,mem,first,last⟩ := (tilesCover h pa).mpr ⟨low,by omega⟩
  obtain ⟨b,tile,rfl⟩ := List.mem_map.mp mem
  have start := inStart blocksDouble ord pa
  refine ⟨b,tile,?_⟩
  rcases Nat.le_total ord b.ord with smaller | larger
  · exact nested blocksDouble smaller aligned (greedy b tile).aligned start ⟨first,last⟩
  · obtain ⟨under,_⟩ := nested blocksDouble larger (greedy b tile).aligned aligned ⟨first,last⟩ start
    have same : b.pa = pa := Nat.le_antisymm first under
    have order : ord = b.ord :=
      Nat.le_antisymm ((greedy b tile).largest ord top (same ▸ aligned) (same ▸ high)) larger
    rw [← same,order]
    exact ⟨Nat.le_refl _,Nat.le_refl _⟩

structure Tiling (start stop : Nat) (blocks : List Block) : Prop where
  aligned : ∀ b ∈ blocks, blockSize b.ord ∣ b.pa ∧ b.ord ≤ maxOrder
  packed : Packed (blocks.map Block.span)
  covers : ∀ x, Covers (blocks.map Block.span) x ↔ start ≤ x ∧ x < stop
  largest : ∀ ord ≤ maxOrder, ∀ pa, blockSize ord ∣ pa → start ≤ pa → pa + blockSize ord ≤ stop →
    ∃ b ∈ blocks, Within (spanOf ord pa) b.span
  unjoined : ∀ b ∈ blocks, ∀ c ∈ blocks, b ≠ c → ∀ ord ≤ maxOrder, ∀ pa, blockSize ord ∣ pa →
    ¬ ∀ x, In blockSize ord pa x ↔ In blockSize b.ord b.pa x ∨ In blockSize c.ord c.pa x

theorem packedMeet {blocks : List Block} (packed : Packed (blocks.map Block.span)) {b c : Block}
    (first : b ∈ blocks) (second : c ∈ blocks) (meets : ¬ Apart b.span c.span) : b = c := by
  have symm : Std.Symm (fun b c : Block => Apart b.span c.span) := ⟨fun _ _ => apartSymm⟩
  by_contra other
  exact meets ((List.pairwise_map.mp packed.apart).forall first second other)

theorem tilesTiling {lo hi : Nat} {blocks : List Block} (h : Tiles lo blocks hi)
    (greedy : ∀ b ∈ blocks, Greedy hi b) : Tiling lo hi blocks where
  aligned := fun b mem => ⟨(greedy b mem).aligned,(greedy b mem).top⟩
  packed := tilesPacked h
  covers := tilesCover h
  largest := fun _ top _ aligned low high => admissibleInTile h greedy top aligned low high
  unjoined := by
    intro b first c second other ord top pa aligned union
    have inside (x : Nat) (mem : In blockSize ord pa x) : lo ≤ x ∧ x < hi := by
      rcases (union x).mp mem with near | near
      · obtain ⟨low,high⟩ := tilesWithin h b first
        exact ⟨Nat.le_trans low near.1,Nat.lt_of_lt_of_le near.2 high⟩
      · obtain ⟨low,high⟩ := tilesWithin h c second
        exact ⟨Nat.le_trans low near.1,Nat.lt_of_lt_of_le near.2 high⟩
    have pos := blockSizePos ord
    have low := inside pa (inStart blocksDouble ord pa)
    have high := inside (pa + blockSize ord - 1) ⟨by omega,by omega⟩
    obtain ⟨d,tile,within⟩ := admissibleInTile h greedy top aligned low.1 (by omega)
    -- both blocks lie in the one that holds the union
    have one (e : Block) (mem : e ∈ blocks) (part : In blockSize ord pa e.pa) : e = d := by
      refine packedMeet (tilesPacked h) mem tile fun apart => ?_
      have size := blockSizePos e.ord
      have size' := blockSizePos d.ord
      unfold Within Apart Block.span spanOf Span.stop at *
      obtain ⟨near,far⟩ := part
      dsimp only at *
      omega
    have left := one b first ((union b.pa).mpr (.inl (inStart blocksDouble _ _)))
    have right := one c second ((union c.pa).mpr (.inr (inStart blocksDouble _ _)))
    exact other (left.trans right.symm)

def pushAll (i : Nat) (blocks : List Block) (s : State) : State :=
  blocks.foldl (fun s b => addFreePages (flPush s i b.ord b.pa) i (1 <<< b.ord)) s

theorem pushAllTotals (i : Nat) (blocks : List Block) (s : State) :
    ((pushAll i blocks s).nodes i).totalPages = (s.nodes i).totalPages ∧
      (pushAll i blocks s).gTotalRamPages = s.gTotalRamPages := by
  induction blocks generalizing s with
  | nil => exact ⟨rfl,rfl⟩
  | cons b rest ih =>
      obtain ⟨node,all⟩ := ih (addFreePages (flPush s i b.ord b.pa) i (1 <<< b.ord))
      refine ⟨node.trans ?_,all⟩
      simp [addFreePages,flPush,setHead,setNode]

theorem addRegionNew {s : State} {base length : Nat} (kept : regionEmpty base length = false)
    (new : pmmNodeOf s (regionStart base) = none) (room : s.nnodes < maxNodes) :
    pmmAddRegion s base length =
      (carve ((regionStop base length - regionStart base) / pageSize)
        (opened s (regionStart base) (regionStop base length)) s.nnodes (regionStart base)
        (regionStop base length)).map (fun t => {t with gFreeRamPages := (t.nodes s.nnodes).freePages}) := by
  rw [pmmAddRegion,if_neg (by simp [kept])]
  dsimp only
  rw [new]
  dsimp only
  rw [if_neg (Nat.not_le.mpr room)]
  rfl

theorem carveTiling {start stop : Nat} (s : State) (i : Nat) (less : start ≤ stop) (limit : stop ≤ 2^52)
    (aligned : start % pageSize = 0) (whole : stop % pageSize = 0) :
    ∃ blocks, carve ((stop - start) / pageSize) s i start stop = some (pushAll i blocks s) ∧
      Tiling start stop blocks ∧ (stop - start) / pageSize = pagesOf blocks := by
  have small : stop < 2^64 := by omega
  have flat : NoWrap start stop := by
    intro ord top
    have size := (blockSizeLe top).2
    omega
  have enough : stop - start ≤ (stop - start) / pageSize * pageSize := by
    unfold pageSize at *
    omega
  obtain ⟨tiles,greedy⟩ := carveTiles small whole aligned flat less enough
  obtain ⟨t,ran⟩ := carveReturns small whole (i := i) s aligned flat enough
  refine ⟨_,ran.trans (congrArg some (carveLinksExact ran)),tilesTiling tiles greedy,?_⟩
  exact (congrArg (· / pageSize) (tilesPages tiles)).trans
    (Nat.mul_div_cancel_left _ (show 0 < pageSize by decide))

theorem regionTiled {s : State} {base length : Nat} (limit : base + length ≤ 2^52)
    (kept : regionEmpty base length = false) (new : pmmNodeOf s (regionStart base) = none)
    (room : s.nnodes < maxNodes) :
    ∃ t blocks, pmmAddRegion s base length = some t ∧
      Tiling (max (align base) 0x1000000) (alignDown (base + length)) blocks ∧
      t = (let filled := pushAll s.nnodes blocks (opened s (regionStart base) (regionStop base length))
        {filled with gFreeRamPages := (filled.nodes s.nnodes).freePages}) ∧
      (t.nodes s.nnodes).totalPages = wrap ((s.nodes s.nnodes).totalPages + pagesOf blocks) ∧
      t.gTotalRamPages = wrap (s.gTotalRamPages + pagesOf blocks) := by
  have page : pageSize = 4096 := rfl
  obtain ⟨_,less,high,aligned,whole,_⟩ := regionBounds kept (by omega) (by omega)
  have first : regionStart base = max (align base) 0x1000000 := by
    unfold regionStart
    split <;> omega
  have last : regionStop base length = alignDown (base + length) := by
    rw [regionStop,wrapOfLt (by omega)]
  obtain ⟨blocks,carved,tiling,count⟩ := carveTiling (opened s (regionStart base) (regionStop base length)) s.nnodes
    (Nat.le_of_lt less) (Nat.le_trans high limit) aligned whole
  obtain ⟨node,all⟩ := pushAllTotals s.nnodes blocks (opened s (regionStart base) (regionStop base length))
  refine ⟨_,blocks,?_,first ▸ last ▸ tiling,rfl,?_,?_⟩
  · rw [addRegionNew kept new room,carved]
    rfl
  · refine node.trans ?_
    rw [openedNode,count]
  · refine all.trans ?_
    rw [opened,count]
    rfl

theorem regionTiledBoot : ∃ t blocks,
    pmmAddRegion (boot (fun _ => 0) (fun _ => true)) 0x1001000 0x803000 = some t ∧
      Tiling 0x1001000 0x1804000 blocks := by
  obtain ⟨t,blocks,added,tiling,_⟩ := regionTiled (s := boot (fun _ => 0) (fun _ => true))
    (show 0x1001000 + 0x803000 ≤ 2^52 by decide) (by decide) rfl (by decide)
  exact ⟨t,blocks,added,tiling⟩

end Nekros.PmmTiling
