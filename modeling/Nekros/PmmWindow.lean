import Nekros.PmmSafety
import Nekros.PageTableRuns

/-! Which kernel addresses the page allocator uses. It writes its links at phys_to_virt of
every block it handles, and the tables of entry.S map one gigabyte there; nothing in
pmm_add_region keeps a region below that gigabyte. -/
namespace Nekros.PmmWindow
open Words Pmm Spans PmmShape PmmLoops
open PmmSafety (Block Event Valid Sound Inv)
open GuardedRun (run Guarded guardedInvariant)

def windowLow : Nat := 0xFFFFFFFF80000000

def windowHigh : Nat := 0xFFFFFFFFC0000000

def InWindow (va : Nat) : Prop := windowLow ≤ va ∧ va < windowHigh
instance (va) : Decidable (InWindow va) := by unfold InWindow; infer_instance

def carveLinks : Nat → (pa stop : Nat) → List Block
  | 0,_,_ => []
  | fuel+1,pa,stop =>
      if pa < stop then
        let ord := carveOrder pa stop maxOrder
        ⟨pa,ord⟩::carveLinks fuel (wrap (pa + blockSize ord)) stop
      else []

def splitLinks (pa ord : Nat) : Nat → List Block
  | 0 => []
  | avail+1 =>
      if ord < avail+1 then ⟨wrap (pa + blockSize avail),avail⟩::splitLinks pa ord avail else []

theorem carveLinksExact {fuel : Nat} {s t : State} {i pa stop : Nat} (ran : carve fuel s i pa stop = some t) :
    t = (carveLinks fuel pa stop).foldl
      (fun s b => addFreePages (flPush s i b.ord b.pa) i (1 <<< b.ord)) s := by
  induction fuel generalizing s pa with
  | zero =>
      rw [carve] at ran
      split at ran
      · cases ran
      · exact (Option.some.inj ran).symm
  | succ fuel ih =>
      rw [carve] at ran
      rw [carveLinks]
      split at ran
      · next more =>
          rw [if_pos more]
          exact ih ran
      · next last =>
          rw [if_neg last]
          exact (Option.some.inj ran).symm

theorem splitLinksExact (s : State) (i pa ord avail : Nat) :
    splitDown s i pa ord avail = (splitLinks pa ord avail).foldl (fun s b => flPush s i b.ord b.pa) s := by
  induction avail generalizing s with
  | zero => rfl
  | succ avail ih =>
      rw [splitDown,splitLinks]
      split
      · exact ih _
      · rfl

def accepts (s : State) (base length : Nat) : Bool :=
  !regionEmpty base length && ((pmmNodeOf s (regionStart base)).isSome || decide (s.nnodes < maxNodes))

def servedFrom (s : State) (ord : Nat) : List Nat → List Block
  | [] => []
  | i::rest =>
      match availOrder (s.nodes i) ord with
      | some avail =>
          ⟨virtToPhys ((s.nodes i).free avail),ord⟩::splitLinks (virtToPhys ((s.nodes i).free avail)) ord avail
      | none => servedFrom s ord rest

def handled (s : State) : Event → List Block
  | .addRegion base length =>
      if accepts s base length then
        carveLinks ((regionStop base length - regionStart base) / pageSize) (regionStart base)
          (regionStop base length)
      else []
  | .alloc ord => if ord < 0 ∨ maxOrder < ord then [] else servedFrom s ord.toNat (List.range s.nnodes)
  | .free b =>
      if b.pa = 0 ∨ maxOrder < b.ord then [] else
        (pmmNodeOf s b.pa).toList.map fun i =>
          let merged := coalesce (maxOrder-b.ord) (unmark s b.pa b.ord) i b.pa b.ord
          ⟨merged.2.1,merged.2.2⟩
  | .write _ _ => []

/- `taken` are the spans of the regions that were accepted, `seen` the blocks that ever were
linked into a free list or returned. -/
structure World where
  callers : PmmSafety.World
  taken : List Span
  seen : List Block

def takenBy (s : State) : Event → List Span
  | .addRegion base length =>
      if accepts s base length then [⟨regionStart base,regionStop base length - regionStart base⟩] else []
  | _ => []

def step (w : World) (e : Event) : Option World :=
  (PmmSafety.step w.callers e).map fun callers =>
    ⟨callers,takenBy w.callers.pmm e ++ w.taken,handled w.callers.pmm e ++ w.seen⟩

def start (mem : Nat → Nat) (bits : Nat → Bool) (bitmapPa bitmapSize : Nat) : World :=
  ⟨PmmSafety.start mem bits bitmapPa bitmapSize,[],[]⟩

def Seen (w : World) (pa : Nat) : Prop := ∃ b ∈ w.seen, b.pa ≤ pa ∧ pa < b.span.stop

structure Addressable (w : World) : Prop where
  window : ∀ pa, Seen w pa → InWindow (physToVirt pa)
  mapped : ∀ (b : PageTable.Boot) pa, Seen w pa →
    Paging.walk (PageTable.start b).phys (PageTable.start b).pml4 (physToVirt pa) = some pa
  back : ∀ pa, Seen w pa → virtToPhys (physToVirt pa) = pa
  distinct : ∀ pa pa', Seen w pa → Seen w pa' → physToVirt pa = physToVirt pa' → pa = pa'

theorem inWindowExact {pa : Nat} (small : pa < 2^64) : InWindow (physToVirt pa) ↔ pa < 2^30 := by
  unfold InWindow windowLow windowHigh physToVirt wrap kernelBase
  omega

theorem upperHalfMapped (b : PageTable.Boot) {va : Nat} (upper : 2^64 - 2^47 ≤ va) (word : va < 2^64) :
    (Paging.walk (PageTable.start b).phys (PageTable.start b).pml4 va).isSome ↔ InWindow va := by
  have canonical : Paging.Canonical va := .inr ⟨upper,word⟩
  have deep : PageTableRuns.bootNode b (Paging.path va) = none := PageTableRuns.bootDeep b _ _ _
  rw [PageTableSteps.walkExact (PageTableRuns.startInv b),if_pos canonical,Paging.look,deep]
  have shared : (PageTableSteps.layout b).shared (Paging.index 39 va) (Paging.index 30 va) = true ↔
      InWindow va := by
    simp only [PageTableSteps.layout,Paging.indexExact,Bool.or_eq_true,Bool.and_eq_true,beq_iff_eq,
      InWindow,windowLow,windowHigh]
    omega
  rw [← shared]
  dsimp only
  split <;> simp_all

theorem carveLinksWithin {fuel pa stop : Nat} (small : stop < 2^64) (aligned : pa % pageSize = 0)
    (whole : stop % pageSize = 0) (flat : NoWrap pa stop) :
    ∀ b ∈ carveLinks fuel pa stop, pa ≤ b.pa ∧ b.span.stop ≤ stop := by
  induction fuel generalizing pa with
  | zero =>
      intro b mem
      cases mem
  | succ fuel ih =>
      intro b mem
      rw [carveLinks] at mem
      split at mem
      · next more =>
          obtain ⟨_,fits⟩ := carveOrderFits (Nat.le_refl maxOrder) small more aligned whole flat
          have pages := blockSizePages (carveOrder pa stop maxOrder)
          dsimp only at mem
          rw [wrapOfLt (Nat.lt_of_le_of_lt fits small)] at mem
          rcases List.mem_cons.mp mem with rfl | later
          · exact ⟨Nat.le_refl _,fits⟩
          · obtain ⟨low,high⟩ := ih (by simp [Nat.add_mod,aligned,pages])
              (fun o ho => by have := flat o ho; omega) b later
            exact ⟨Nat.le_trans (Nat.le_add_right _ _) low,high⟩
      · cases mem

theorem carveLinksLast {fuel pa stop : Nat} (small : stop < 2^64) (aligned : pa % pageSize = 0)
    (whole : stop % pageSize = 0) (flat : NoWrap pa stop) (enough : stop - pa ≤ fuel * pageSize)
    (less : pa < stop) : ∃ b ∈ carveLinks fuel pa stop, b.span.stop = stop := by
  induction fuel generalizing pa with
  | zero => omega
  | succ fuel ih =>
      obtain ⟨_,fits⟩ := carveOrderFits (Nat.le_refl maxOrder) small less aligned whole flat
      rw [carveLinks,if_pos less]
      dsimp only
      rw [wrapOfLt (Nat.lt_of_le_of_lt fits small)]
      generalize carveOrder pa stop maxOrder = ord at fits ⊢
      have page := pageLeBlock ord
      have pages := blockSizePages ord
      rcases Nat.lt_or_ge (pa + blockSize ord) stop with more | last
      · obtain ⟨b,mem,ends⟩ := ih (by simp [Nat.add_mod,aligned,pages])
          (fun o ho => by have := flat o ho; omega) (by rw [Nat.succ_mul] at enough; omega) more
        exact ⟨b,List.mem_cons_of_mem _ mem,ends⟩
      · exact ⟨⟨pa,ord⟩,List.mem_cons_self,Nat.le_antisymm fits last⟩

theorem splitLinksWithin {pa ord avail : Nat} (small : pa + blockSize avail < 2^64) :
    ∀ b ∈ splitLinks pa ord avail, Within b.span (spanOf avail pa) := by
  induction avail with
  | zero =>
      intro b mem
      cases mem
  | succ avail ih =>
      intro b mem
      rw [splitLinks] at mem
      have size := blockSizeSucc avail
      split at mem
      · rcases List.mem_cons.mp mem with rfl | later
        · rw [wrapOfLt (by omega)]
          simp only [Within,Block.span,spanOf,Span.stop]
          omega
        · have inside := ih (by omega) b later
          simp only [Within,spanOf,Span.stop] at inside ⊢
          omega
      · cases mem

theorem servedWithin {w : PmmSafety.World} {lists : Lists} (h : Inv w)
    (shape : Shape w.pmm lists (w.live.map Block.span)) {ord : Nat} : ∀ (order : List Nat),
    (∀ i ∈ order, i < w.pmm.nnodes) → ∀ b ∈ servedFrom w.pmm ord order,
    ∃ i < w.pmm.nnodes, InNode w.pmm i b.span := by
  intro order
  induction order with
  | nil =>
      intro _ b mem
      cases mem
  | cons i rest ih =>
      intro nodes b mem
      obtain ⟨count,nodes⟩ := List.forall_mem_cons.mp nodes
      rw [servedFrom] at mem
      cases found : availOrder (w.pmm.nodes i) ord with
      | none =>
          rw [found] at mem
          exact ih nodes b mem
      | some avail =>
          rw [found] at mem
          obtain ⟨le,top,nonzero⟩ := availOrderFound found
          have hk : (i,avail) ∈ keys := memKeys.mpr ⟨Nat.lt_of_lt_of_le count h.laid.count,top⟩
          obtain ⟨pa,tail,listed,popped,_⟩ := popShape (k := (i,avail)) hk nonzero shape
          rw [flPop,if_neg nonzero] at popped
          have here : virtToPhys ((w.pmm.nodes i).free avail) = pa := popped
          obtain ⟨_,_,inside⟩ := shape.inNode _ hk pa (by rw [listed]; exact List.mem_cons_self)
          have limit := shape.bounded i count
          have within : Within b.span (spanOf avail pa) := by
            dsimp only at mem
            rw [here] at mem
            rcases List.mem_cons.mp mem with rfl | half
            · refine ⟨Nat.le_refl _,Nat.add_le_add_left ?_ pa⟩
              show blockSize ord ≤ blockSize avail
              rw [blockSizeEq,blockSizeEq]
              exact Nat.mul_le_mul_left _ (Nat.pow_le_pow_right (by decide) le)
            · exact splitLinksWithin (Nat.lt_of_le_of_lt inside.2 limit) b half
          exact ⟨i,count,Nat.le_trans inside.1 within.1,Nat.le_trans within.2 inside.2⟩

theorem allocNodes {w : PmmSafety.World} (h : Inv w) (ord : Int) :
    PmmSafety.SameNodes w.pmm (pmmAllocPages w.pmm ord).1 := by
  obtain ⟨lists,shape⟩ := h.shape
  rcases allocCases h.laid.count shape ord with none | ⟨_,_,i,avail,rest,t,got⟩
  · rw [none]
    exact ⟨rfl,fun _ => ⟨rfl,rfl⟩⟩
  · rw [got.state]
    exact PmmSafety.nodesTrans (PmmSafety.frameNodes got.frame) (PmmSafety.handOutNodes _ _ _ _)

theorem freeNodes {w : PmmSafety.World} {b : Block} (h : Inv w) (valid : b ∈ w.live)
    (sound : Sound w (.free b)) : PmmSafety.SameNodes w.pmm (pmmFreePages w.pmm b.pa b.ord) := by
  obtain ⟨lists,shape⟩ := h.shape
  obtain ⟨i,given⟩ := PmmSafety.freeReturned h shape valid
  have merges := mergesListed (Nat.lt_of_lt_of_le given.count h.laid.count) given.top (sound i given.node) shape
  exact (PmmSafety.freeListed h given merges).2.2.1

theorem mergedWithin {w : PmmSafety.World} {b : Block} (h : Inv w) (valid : b ∈ w.live)
    (sound : Sound w (.free b)) : ∀ x ∈ handled w.pmm (.free b), ∃ i < w.pmm.nnodes, InNode w.pmm i x.span := by
  obtain ⟨lists,shape⟩ := h.shape
  obtain ⟨i,count,node,top,aligned,inside,taken⟩ := PmmSafety.freeReturned h shape valid
  obtain ⟨_,kept⟩ := freeCoalesced (Nat.lt_of_lt_of_le count h.laid.count) count top aligned inside taken
    (sound i node)
  intro x mem
  rw [handled] at mem
  split at mem
  · cases mem
  · rw [node] at mem
    cases List.mem_singleton.mp mem
    exact ⟨i,count,kept.merged.inside⟩

structure Tracked (w : World) : Prop where
  callers : Inv w.callers
  nodes : ∀ i < w.callers.pmm.nnodes, ∃ r ∈ w.taken,
    r.start ≤ (w.callers.pmm.nodes i).base ∧ (w.callers.pmm.nodes i).limit ≤ r.stop
  seen : ∀ b ∈ w.seen, ∃ r ∈ w.taken, Within b.span r
  taken : ∀ r ∈ w.taken, r.stop < 2^64 ∧ ∃ b ∈ w.seen, b.span.stop = r.stop

theorem trackedSame {w : World} {callers : PmmSafety.World} {blocks : List Block} (h : Tracked w)
    (inv : Inv callers) (same : PmmSafety.SameNodes w.callers.pmm callers.pmm)
    (inside : ∀ b ∈ blocks, ∃ i < w.callers.pmm.nnodes, InNode w.callers.pmm i b.span) :
    Tracked ⟨callers,w.taken,blocks ++ w.seen⟩ := by
  refine ⟨inv,?_,?_,?_⟩
  · intro i hi
    rw [(same.2 i).1,(same.2 i).2]
    exact h.nodes i (same.1 ▸ hi)
  · intro b mem
    rcases List.mem_append.mp mem with new | old
    · obtain ⟨i,count,low,high⟩ := inside b new
      obtain ⟨r,listed,below,above⟩ := h.nodes i count
      exact ⟨r,listed,Nat.le_trans below low,Nat.le_trans high above⟩
    · exact h.seen b old
  · intro r mem
    obtain ⟨small,b,listed,ends⟩ := h.taken r mem
    exact ⟨small,b,List.mem_append_right _ listed,ends⟩

theorem addRegionTracked {w : World} {base length : Nat} {s : State} (h : Tracked w)
    (valid : Valid w.callers (.addRegion base length)) (sound : Sound w.callers (.addRegion base length))
    (added : pmmAddRegion w.callers.pmm base length = some s)
    (inv : Inv {w.callers with pmm := s,regions := ⟨base,length⟩::w.callers.regions}) :
    Tracked ⟨{w.callers with pmm := s,regions := ⟨base,length⟩::w.callers.regions},
      takenBy w.callers.pmm (.addRegion base length) ++ w.taken,
      handled w.callers.pmm (.addRegion base length) ++ w.seen⟩ := by
  obtain ⟨lists,shape⟩ := h.callers.shape
  have cases := PmmSafety.addRegionCases h.callers shape valid sound added
  rw [takenBy,handled]
  cases accepted : accepts w.callers.pmm base length with
  | false =>
      rw [if_neg Bool.false_ne_true,if_neg Bool.false_ne_true]
      rcases cases with rfl | ⟨kept,t,filled,_⟩
      · exact trackedSame h inv ⟨rfl,fun _ => ⟨rfl,rfl⟩⟩ (by simp)
      · -- a region that fills a node was accepted
        have room := filled.room
        simp [accepts,kept,room] at accepted
  | true =>
      have kept : regionEmpty base length = false := by
        rw [accepts,Bool.and_eq_true,Bool.not_eq_true'] at accepted
        exact accepted.1
      obtain ⟨fits,flat⟩ := sound.resolve_left (by rw [kept]; decide)
      obtain ⟨_,less,_,startAligned,stopAligned,_⟩ := regionBounds kept fits valid.2.1
      have small : regionStop base length < 2^64 := Nat.lt_of_le_of_lt (alignDownLe _) (wrapLt _)
      rw [if_pos rfl,if_pos rfl]
      generalize regionStart base = start at *
      generalize regionStop base length = stop at *
      have ends : (⟨start,stop-start⟩ : Span).stop = stop := by
        simp only [Span.stop]
        omega
      refine ⟨inv,?_,?_,?_⟩
      · intro i hi
        have old : i < w.callers.pmm.nnodes → (s.nodes i).base = (w.callers.pmm.nodes i).base →
            (s.nodes i).limit = (w.callers.pmm.nodes i).limit → ∃ r ∈ [⟨start,stop-start⟩] ++ w.taken,
            r.start ≤ (s.nodes i).base ∧ (s.nodes i).limit ≤ r.stop := by
          intro count low high
          obtain ⟨r,listed,inside⟩ := h.nodes i count
          rw [low,high]
          exact ⟨r,List.mem_append_right _ listed,inside⟩
        rcases cases with rfl | ⟨_,t,filled,rfl⟩
        · exact old hi rfl rfl
        · rcases PmmSafety.filledEnds filled hi with ⟨_,low,high⟩ | ⟨count,low,high⟩
          · exact ⟨_,List.mem_append_left _ (List.mem_singleton.mpr rfl),Nat.le_of_eq low.symm,
              ends.symm ▸ Nat.le_of_eq high⟩
          · exact old count low high
      · intro b mem
        rcases List.mem_append.mp mem with new | seen
        · obtain ⟨low,high⟩ := carveLinksWithin small startAligned stopAligned flat b new
          exact ⟨_,List.mem_append_left _ (List.mem_singleton.mpr rfl),low,ends.symm ▸ high⟩
        · obtain ⟨r,listed,inside⟩ := h.seen b seen
          exact ⟨r,List.mem_append_right _ listed,inside⟩
      · intro r mem
        rcases List.mem_append.mp mem with new | old
        · cases List.mem_singleton.mp new
          have enough : stop-start ≤ (stop-start)/pageSize * pageSize := by
            unfold pageSize at *
            omega
          obtain ⟨b,listed,last⟩ := carveLinksLast small startAligned stopAligned flat enough less
          rw [ends]
          exact ⟨small,b,List.mem_append_left _ listed,last⟩
        · obtain ⟨bound,b,listed,last⟩ := h.taken r old
          exact ⟨bound,b,List.mem_append_right _ listed,last⟩

theorem stepTracked {w w' : World} {e : Event} (h : Tracked w)
    (guard : Valid w.callers e ∧ Sound w.callers e) (stepped : step w e = some w') : Tracked w' := by
  obtain ⟨callers,moved,rfl⟩ := Option.map_eq_some_iff.mp stepped
  have inv := (PmmSafety.stepInv h.callers guard.1 guard.2 moved).1
  obtain ⟨lists,shape⟩ := h.callers.shape
  cases e with
  | addRegion base length =>
      obtain ⟨s,added,rfl⟩ := Option.map_eq_some_iff.mp moved
      exact addRegionTracked h guard.1 guard.2 added inv
  | alloc ord =>
      cases Option.some.inj moved
      refine trackedSame h inv (allocNodes h.callers ord) (fun b mem => ?_)
      rw [handled] at mem
      split at mem
      · cases mem
      · exact servedWithin h.callers shape _ (fun i listed => List.mem_range.mp listed) b mem
  | free b =>
      cases Option.some.inj moved
      exact trackedSame h inv (freeNodes h.callers guard.1 guard.2) (mergedWithin h.callers guard.1 guard.2)
  | write pa value =>
      cases Option.some.inj moved
      exact trackedSame h inv ⟨rfl,fun _ => ⟨rfl,rfl⟩⟩ (fun b mem => by cases mem)

theorem startTracked (mem : Nat → Nat) (bits : Nat → Bool) (bitmapPa bitmapSize : Nat) :
    Tracked (start mem bits bitmapPa bitmapSize) :=
  ⟨PmmSafety.startInv mem bits bitmapPa bitmapSize,fun i hi => absurd hi (Nat.not_lt_zero i),
    (fun b mem => by cases mem),fun r mem => by cases mem⟩

theorem seenSmall {w : World} (h : Tracked w) {pa : Nat} (seen : Seen w pa) : ∃ r ∈ w.taken, pa < r.stop ∧
    r.stop < 2^64 := by
  obtain ⟨b,mem,_,high⟩ := seen
  obtain ⟨r,listed,_,inside⟩ := h.seen b mem
  exact ⟨r,listed,Nat.lt_of_lt_of_le high inside,(h.taken r listed).1⟩

def booted : World := start (fun _ => 0) (fun _ => false) 0x200000 0x100000

end Nekros.PmmWindow
