import Nekros.PmmRestore

/-! Regions of whole 4 MB blocks are added, blocks come and go, and none is held at the end:
when the free lists are as they were right after the regions were added. -/
namespace Nekros.PmmRestore
open Words Pmm Spans PmmShape PmmLoops PmmBitmap PmmBuddies
open DyadicBlocks (In inStart sameOrder gathered)
open PmmSafety (Block Event Valid Sound FreeAt)
open GuardedRun (run Guarded guardedInvariant)
open Function (update)

theorem writeKeeps {origin : Lists} {bitmap : Bitmap} {w : World} {lists : Lists} {pa value : Nat}
    (h : Inv origin bitmap w lists) (valid : Valid w.callers (.write pa value))
    (inv : PmmSafety.Inv {w.callers with pmm := {w.callers.pmm with mem := update w.callers.pmm.mem (physToVirt pa) value}}) :
    Inv origin bitmap
      ⟨{w.callers with pmm := {w.callers.pmm with mem := update w.callers.pmm.mem (physToVirt pa) value}},w.handed⟩
      lists := by
  obtain ⟨b,held,low,high⟩ := valid
  exact ⟨inv,PmmSafety.writeShape value (List.mem_map_of_mem held) low high h.shape,h.even,h.inNode,h.listed,h.live,
    h.covers,h.known,h.clear,h.unmerged,h.whole,h.plain⟩

theorem stepKeeps {origin : Lists} {bitmap : Bitmap} (o : Origin origin) {w w' : World} {e : Event}
    (h : ∃ lists, Inv origin bitmap w lists) (call : Call w e) (stepped : step w e = some w') :
    ∃ lists, Inv origin bitmap w' lists := by
  obtain ⟨lists,h⟩ := h
  obtain ⟨valid,kind⟩ := call
  obtain ⟨callers,moved,rfl⟩ := Option.map_eq_some_iff.mp stepped
  cases e with
  | addRegion base length => exact absurd rfl (kind base length)
  | alloc ord =>
      have inv := (PmmSafety.allocStep h.callers moved).1
      cases Option.some.inj moved
      rcases allocCases h.callers.laid.count h.shape ord with none | ⟨_,_,i,avail,rest,t,got⟩
      · rw [given,if_pos (by rw [none])]
        simp only [none]
        exact ⟨lists,h⟩
      · have nonzero := poppedNonzero o h got
        rw [given,if_neg nonzero]
        simp only [if_neg nonzero] at inv ⊢
        exact ⟨_,allocKeeps o h got inv⟩
  | free b =>
      cases Option.some.inj moved
      obtain ⟨i,back⟩ := PmmSafety.freeReturned h.callers h.shape valid
      have start := inStart blocksDouble b.ord b.pa
      have covered := (h.covers b.pa).mp (.inr (coversBlocks.mpr ⟨b,valid,start⟩))
      have low : (w.callers.pmm.nodes i).base ≤ b.pa := back.inside.1
      have high : b.pa < (w.callers.pmm.nodes i).limit := Nat.lt_of_lt_of_le start.2 back.inside.2
      obtain ⟨block,mem,home⟩ := homeIn o h back.count low high covered
      exact ⟨_,freeKeeps o h valid back mem home⟩
  | write pa value =>
      have inv := (PmmSafety.writeStep h.callers valid moved).1
      cases Option.some.inj moved
      exact ⟨lists,writeKeeps h valid inv⟩

structure Fresh (bitmap : Bitmap) (w : World) (lists : Lists) : Prop where
  origin : Origin lists
  callers : PmmSafety.Inv w.callers
  shape : Shape w.callers.pmm lists []
  even : ∀ i < w.callers.pmm.nnodes, blockSize maxOrder ∣ (w.callers.pmm.nodes i).base
  live : w.callers.live = []
  handed : w.handed = []
  bitmap : w.callers.pmm.bitmap = bitmap

theorem carveOrderWhole {pa stop : Nat} (aligned : blockSize maxOrder ∣ pa) (fits : pa + blockSize maxOrder ≤ stop)
    (small : stop < 2^64) : carveOrder pa stop maxOrder = maxOrder := by
  have even : pa % blockSize maxOrder = 0 := Nat.mod_eq_zero_of_dvd aligned
  have wraps := wrapOfLt (Nat.lt_of_le_of_lt fits small)
  change carveOrder pa stop (9+1) = 9+1
  rw [carveOrder,if_neg]
  change ¬ (pa % blockSize maxOrder ≠ 0 ∨ stop < wrap (pa + blockSize maxOrder))
  rw [wraps]
  omega

theorem carveMember {fuel i pa stop : Nat} {lists : Lists} (aligned : blockSize maxOrder ∣ pa)
    (whole : blockSize maxOrder ∣ stop) (small : stop < 2^64) {k : Nat × Nat} {q : Nat}
    (mem : q ∈ carveLists fuel lists i pa stop k) :
    q ∈ lists k ∨ (k.2 = maxOrder ∧ blockSize maxOrder ∣ q ∧ pa ≤ q ∧ q ≠ 0x80000000) := by
  induction fuel generalizing lists pa with
  | zero => exact .inl mem
  | succ fuel ih =>
      rw [carveLists] at mem
      split at mem
      · rename_i more
        have fits : pa + blockSize maxOrder ≤ stop := by
          have gap := Nat.le_of_dvd (Nat.sub_pos_of_lt more) (Nat.dvd_sub whole aligned)
          omega
        rw [carveOrderWhole aligned fits small] at mem
        rcases ih (Nat.dvd_add aligned (Nat.dvd_refl _)) mem with old | ⟨top,even,low,nonnull⟩
        · rcases pushedMember old with ⟨rfl,rfl,null⟩ | before
          · refine .inr ⟨rfl,aligned,Nat.le_refl _,fun place => null ?_⟩
            exact (physToVirtNull (by omega)).mpr place
          · exact .inl before
        · exact .inr ⟨top,even,Nat.le_trans (Nat.le_add_right _ _) low,nonnull⟩
      · exact .inl mem

theorem setupSound {w : World} {base length : Nat} (ok : Setup w (.addRegion base length)) :
    Valid w.callers (.addRegion base length) ∧ Sound w.callers (.addRegion base length) ∧
      blockSize maxOrder ∣ regionStart base ∧ blockSize maxOrder ∣ regionStop base length := by
  obtain ⟨small,even,whole,clear⟩ := ok
  have size : blockSize maxOrder = 2^22 := by decide
  rw [size] at even whole ⊢
  have up : align base = base := by
    unfold align wrap alignDown pageSize
    omega
  have down : regionStop base length = base + length := by
    unfold regionStop wrap alignDown pageSize
    omega
  have first : 2^22 ∣ regionStart base := by
    unfold regionStart
    rw [up]
    split
    · decide
    · exact even
  refine ⟨⟨by omega,by omega,clear⟩,.inr ⟨by unfold pageSize; omega,?_⟩,first,by rw [down]; exact whole⟩
  intro ord top
  have := (blockSizeLe top).2
  rw [down]
  omega

theorem setupFresh {bitmap : Bitmap} {w w' : World} {e : Event} (h : ∃ lists, Fresh bitmap w lists)
    (ok : Setup w e) (stepped : step w e = some w') : ∃ lists, Fresh bitmap w' lists := by
  obtain ⟨lists,h⟩ := h
  cases e with
  | addRegion base length =>
      obtain ⟨valid,sound,first,last⟩ := setupSound ok
      obtain ⟨callers,moved,rfl⟩ := Option.map_eq_some_iff.mp stepped
      have inv := (PmmSafety.stepInv h.callers valid sound moved).1
      obtain ⟨s,added,rfl⟩ := Option.map_eq_some_iff.mp moved
      have shape : Shape w.callers.pmm lists (w.callers.live.map Block.span) := by
        rw [h.live]
        exact h.shape
      rcases PmmSafety.addRegionCases h.callers shape valid sound added with rfl | ⟨_,t,f,rfl⟩
      · exact ⟨lists,h.origin,inv,h.shape,h.even,h.live,h.handed,h.bitmap⟩
      · have filled := f.shape
        rw [h.live] at filled
        have small : regionStop base length < 2^64 := Nat.lt_of_le_of_lt (alignDownLe _) (wrapLt _)
        have above := f.above
        refine ⟨_,⟨fun k hk pa mem => ?_,fun k hk pa mem => ?_,fun k hk pa mem => ?_⟩,inv,
          shapeCongr (s := t) rfl rfl (fun _ => rfl) (fun _ => ⟨rfl,rfl⟩) filled,fun i hi => ?_,h.live,h.handed,?_⟩
        · exact (carveMember first last small mem).elim (h.origin.order k hk pa) And.left
        · exact (carveMember first last small mem).elim (h.origin.aligned k hk pa) (fun new => new.2.1)
        · exact (carveMember first last small mem).elim (h.origin.place k hk pa)
            (fun new => ⟨by have := new.2.2.1; omega,new.2.2.2⟩)
        · rcases PmmSafety.filledEnds f hi with ⟨_,base',_⟩ | ⟨old,base',_⟩
          · exact base' ▸ first
          · exact base' ▸ h.even i old
        · rw [← h.bitmap]
          show t.bitmap = _
          rw [f.frame.rest]
          rfl
  | alloc ord => exact absurd ok id
  | free b => exact absurd ok id
  | write pa value => exact absurd ok id

theorem startFresh (mem : Nat → Nat) (bits : Nat → Bool) (bitmapPa bitmapSize : Nat) :
    Fresh (start mem bits bitmapPa bitmapSize).callers.pmm.bitmap (start mem bits bitmapPa bitmapSize) (fun _ => []) := by
  refine ⟨⟨?_,?_,?_⟩,PmmSafety.startInv mem bits bitmapPa bitmapSize,⟨fun _ _ => rfl,?_,?_,?_,?_⟩,?_,rfl,rfl,rfl⟩
  · exact fun _ _ _ mem => by cases mem
  · exact fun _ _ _ mem => by cases mem
  · exact fun _ _ _ mem => by cases mem
  · exact fun _ _ _ mem => by cases mem
  · exact fun i hi => absurd hi (Nat.not_lt_zero i)
  · exact fun _ mem => by cases mem
  · have none : freeSpans (fun _ => []) = [] := by simp [freeSpans]
    rw [none]
    exact packedNil
  · exact fun i hi => absurd hi (Nat.not_lt_zero i)

theorem freshInv {bitmap : Bitmap} {w : World} {lists : Lists} (h : Fresh bitmap w lists) :
    Inv lists bitmap w lists := by
  have nothing : ∀ x, ¬ Covers (([] : List Block).map Block.span) x := fun x ⟨_,mem,_⟩ => by cases mem
  refine ⟨h.callers,by rw [h.live]; exact h.shape,h.even,?_,?_,?_,?_,?_,?_,?_,?_,?_⟩
  · intro k hk pa mem
    obtain ⟨count,_,inside⟩ := h.shape.inNode k hk pa mem
    rw [h.origin.order k hk pa mem] at inside
    exact ⟨count,inside⟩
  · intro k hk pa mem
    rw [h.origin.order k hk pa mem]
    exact h.origin.aligned k hk pa mem
  · intro b held
    rw [h.live] at held
    cases held
  · intro x
    rw [h.live]
    exact ⟨fun either => either.resolve_right (nothing x),.inl⟩
  · intro x
    rw [h.bitmap]
  · intro x
    rw [h.bitmap,h.live,h.handed]
    exact ⟨fun clear => ⟨clearKnown clear,nothing x,.inl clear⟩,fun all => all.2.2.resolve_right (nothing x)⟩
  · intro i hi o lt pa _ low
    have := h.origin.order _ (memKeys.mpr ⟨hi,Nat.le_of_lt lt⟩) pa low
    dsimp only at this
    omega
  · intro k hk block mem _
    rw [h.handed]
    exact .inl (fun b none => by cases none)
  · intro k hk block mem _
    obtain ⟨i,top⟩ := k
    have whole := h.origin.order _ hk block mem
    dsimp only at whole
    subst whole
    exact .inl ⟨i,(memKeys.mp hk).1,mem⟩

theorem freeAtMember {s : State} {lists : Lists} {hand : List Span} {i ord : Nat} {sp : Span}
    (count : s.nnodes ≤ maxNodes) (h : Shape s lists hand) :
    (∃ n, FreeAt s i ord n sp) ↔ (i,ord) ∈ keys ∧ ∃ pa ∈ lists (i,ord), sp = spanOf ord pa := by
  constructor
  · rintro ⟨n,found⟩
    obtain ⟨hk,pa,listed,place⟩ := PmmSafety.freeAtListed count h found
    exact ⟨hk,pa,List.mem_of_getElem? listed,place⟩
  · rintro ⟨hk,pa,listed,rfl⟩
    obtain ⟨n,position⟩ := List.getElem?_of_mem listed
    refine ⟨n,(h.inNode _ hk pa listed).1,(memKeys.mp hk).2,physToVirt pa,?_,?_⟩
    · rw [LinkChain.chainNode (h.chain _ hk),List.getElem?_map,position]
      rfl
    · rw [virtToPhysToVirt (addressSmall h hk listed)]

theorem wholeListed {origin : Lists} {bitmap : Bitmap} {w : World} {lists : Lists} (o : Origin origin)
    (h : Inv origin bitmap w lists) (idle : w.callers.live = []) {k : Nat × Nat} {block : Nat} (hk : k ∈ keys)
    (mem : block ∈ origin k) (whole : Whole bitmap w.handed block) : block ∈ lists k := by
  obtain ⟨i,top⟩ := k
  have order := o.order _ hk block mem
  dsimp only at order
  subst order
  have even := o.aligned _ hk block mem
  obtain ⟨count,inside⟩ := h.inNode _ hk block mem
  have low : (w.callers.pmm.nodes i).base ≤ block := inside.1
  have high : block + blockSize maxOrder ≤ (w.callers.pmm.nodes i).limit := inside.2
  have node := (memKeys.mp hk).1
  rcases whole with only | seen
  · rcases h.plain _ hk block mem only with ⟨j,hj,listed⟩ | held
    · have start := inStart blocksDouble maxOrder block
      have same : j = i := sameNode h (memKeys.mpr ⟨hj,Nat.le_refl _⟩) listed start count low
        (Nat.lt_of_lt_of_le start.2 high)
      exact same ▸ listed
    · rw [idle] at held
      cases held
  · have dead : ∀ x, ¬ Covers (w.callers.live.map Block.span) x := by
      rw [idle]
      exact fun x ⟨_,held,_⟩ => by cases held
    have clear : ∀ x, In blockSize maxOrder block x → Clear w.callers.pmm.bitmap x :=
      fun x near => (h.clear x).mpr ⟨(seen x near).1,dead x,(seen x near).2⟩
    have covered : ∀ x, In blockSize maxOrder block x →
        ∃ o' pa', (o' ≤ maxOrder ∧ pa' ∈ lists (i,o')) ∧ In blockSize o' pa' x := by
      intro x near
      have listed := ((h.covers x).mpr (coversFree.mpr ⟨_,hk,block,mem,near⟩)).resolve_right (dead x)
      obtain ⟨⟨j,o'⟩,hk',pa',found,here⟩ := coversFree.mp listed
      have same : j = i := sameNode h hk' found here count (by unfold In at near; omega) (by unfold In at near; omega)
      subst same
      exact ⟨o',pa',⟨(memKeys.mp hk').2,found⟩,here⟩
    obtain ⟨o',pa',le,⟨top,found⟩,contains⟩ := gathered blocksDouble
      (fun o' pa' ok => h.listed _ (memKeys.mpr ⟨node,ok.1⟩) pa' ok.2)
      (fun o' pa' lt even low high => h.unmerged i node o' lt pa' even low.2 high.2)
      (Nat.le_refl maxOrder) even covered clear
    obtain rfl : maxOrder = o' := Nat.le_antisymm le top
    have here := contains block (inStart blocksDouble _ _)
    rw [sameOrder blocksDouble even (h.listed _ hk pa' found) (inStart blocksDouble _ _) here]
    exact found

theorem nothingElse {origin : Lists} {bitmap : Bitmap} {w : World} {lists : Lists} (o : Origin origin)
    (h : Inv origin bitmap w lists) (all : ∀ k ∈ keys, ∀ block ∈ origin k, block ∈ lists k) {k : Nat × Nat} {pa : Nat}
    (hk : k ∈ keys) (mem : pa ∈ lists k) : pa ∈ origin k := by
  have start := inStart blocksDouble k.2 pa
  have covered := (h.covers pa).mp (.inl (coversFree.mpr ⟨k,hk,pa,mem,start⟩))
  obtain ⟨j,hj,block,from',_,near⟩ := homeOf o covered
  have hk' : (j,maxOrder) ∈ keys := memKeys.mpr ⟨hj,Nat.le_refl _⟩
  have listed := all _ hk' block from'
  obtain ⟨i,ord⟩ := k
  have count := h.callers.laid.count
  obtain ⟨n,found⟩ := (freeAtMember count h.shape).mpr ⟨hk,pa,mem,rfl⟩
  obtain ⟨n',found'⟩ := (freeAtMember count h.shape).mpr ⟨hk',block,listed,rfl⟩
  by_cases same : (i,ord,n) = (j,maxOrder,n')
  · cases same
    obtain ⟨_,_,p,here,place⟩ := found
    obtain ⟨_,_,p',here',place'⟩ := found'
    cases Option.some.inj (here.symm.trans here')
    cases (Span.mk.inj (place.trans place'.symm)).1
    exact from'
  · exfalso
    have apart := (PmmSafety.invSafe h.callers).freeApart i ord n _ j maxOrder n' _ found found' same
    have pos := blockSizePos ord
    simp only [Apart,Span.stop,spanOf] at apart
    unfold In at near
    omega

theorem servedExact {origin : Lists} {bitmap : Bitmap} {w : World} {lists : Lists} (o : Origin origin)
    (h : Inv origin bitmap w lists) (ord : Int) : (pmmAllocPages w.callers.pmm ord).2 ≠ 0 ↔
    0 ≤ ord ∧ ord ≤ maxOrder ∧ ∃ k ∈ keys, ord.toNat ≤ k.2 ∧ lists k ≠ [] := by
  have count := h.callers.laid.count
  constructor
  · intro served
    rcases allocCases count h.shape ord with none | ⟨low,high,i,avail,rest,t,got⟩
    · rw [none] at served
      exact absurd rfl served
    · exact ⟨low,high,_,availKey h got,got.orders.1,by rw [got.listed]; exact List.cons_ne_nil _ _⟩
  · rintro ⟨low,high,⟨i,avail⟩,hk,le,some⟩
    obtain ⟨pa,rest,listed⟩ := List.exists_cons_of_ne_nil some
    have node : i < w.callers.pmm.nnodes :=
      (h.shape.inNode _ hk pa (by rw [listed]; exact List.mem_cons_self)).1
    have head : (w.callers.pmm.nodes i).free avail ≠ 0 := fun none => some ((listEmpty hk h.shape).mp none)
    obtain ⟨j,mem,avail',le',top',found,served⟩ :=
      allocFromServes (List.mem_range.mpr node) le (memKeys.mp hk).2 head
    have hk' : (j,avail') ∈ keys := memKeys.mpr ⟨by have := List.mem_range.mp mem; omega,top'⟩
    obtain ⟨pa',rest',listed',popped,_⟩ := popShape (k := (j,avail')) hk' found h.shape
    have first : pa' ∈ lists (j,avail') := by rw [listed']; exact List.mem_cons_self
    have start := inStart blocksDouble avail' pa'
    have covered := (h.covers pa').mp (.inl (coversFree.mpr ⟨_,hk',pa',first,start⟩))
    obtain ⟨n,hn,block,mem',_,near⟩ := homeOf o covered
    have nonzero := (o.place _ (memKeys.mpr ⟨hn,Nat.le_refl _⟩) block mem').1
    have result : (pmmAllocPages w.callers.pmm ord).2 = pa' := by
      rw [pmmAllocPages,if_neg (by omega),served]
      exact popped
    unfold In at near
    omega

theorem restoredExact {mem : Nat → Nat} {bits : Nat → Bool} {bitmapPa bitmapSize : Nat} {regions events : List Event}
    {fresh w : World} (setup : Guarded step Setup (start mem bits bitmapPa bitmapSize) regions)
    (built : run step (start mem bits bitmapPa bitmapSize) regions = some fresh)
    (calls : Guarded step Call fresh events) (ran : run step fresh events = some w) (idle : w.callers.live = []) :
    Restored fresh.callers.pmm w.callers.pmm ↔
      ∀ i ord n sp, FreeAt fresh.callers.pmm i ord n sp → Whole fresh.callers.pmm.bitmap w.handed sp.start := by
  obtain ⟨origin,begun⟩ := guardedInvariant
    (fun w => ∃ lists, Fresh (start mem bits bitmapPa bitmapSize).callers.pmm.bitmap w lists)
    (fun _ _ _ h ok stepped => setupFresh h ok stepped) ⟨_,startFresh mem bits bitmapPa bitmapSize⟩ setup built
  have o := begun.origin
  have initial := freshInv begun
  obtain ⟨lists,h⟩ := guardedInvariant (fun w => ∃ lists, Inv origin _ w lists)
    (fun _ _ _ h call stepped => stepKeeps o h call stepped) ⟨origin,initial⟩ calls ran
  rw [begun.bitmap]
  have before : ∀ {i ord sp}, (∃ n, FreeAt fresh.callers.pmm i ord n sp) ↔
      (i,ord) ∈ keys ∧ ∃ pa ∈ origin (i,ord), sp = spanOf ord pa :=
    freeAtMember begun.callers.laid.count begun.shape
  have after : ∀ {i ord sp}, (∃ n, FreeAt w.callers.pmm i ord n sp) ↔
      (i,ord) ∈ keys ∧ ∃ pa ∈ lists (i,ord), sp = spanOf ord pa :=
    freeAtMember h.callers.laid.count h.shape
  constructor
  · intro back i ord n sp found
    obtain ⟨hk,pa,listed,rfl⟩ := before.mp ⟨n,found⟩
    have top := o.order _ hk pa listed
    dsimp only at top
    subst top
    obtain ⟨_,pa',listed',same⟩ := after.mp ((back.lists _ _ _).mpr ⟨n,found⟩)
    cases (Span.mk.inj same).1
    exact h.whole _ hk pa listed (.inl ⟨i,(memKeys.mp hk).1,listed'⟩)
  · intro whole
    have all : ∀ k ∈ keys, ∀ block ∈ origin k, block ∈ lists k := by
      intro k hk block listed
      obtain ⟨n,found⟩ := before.mpr ⟨hk,block,listed,rfl⟩
      exact wholeListed o h idle hk listed (whole _ _ n _ found)
    have same : ∀ k ∈ keys, ∀ pa, pa ∈ lists k ↔ pa ∈ origin k :=
      fun k hk pa => ⟨nothingElse o h all hk,all k hk pa⟩
    refine ⟨fun i ord sp => ?_,fun ord served => ?_⟩
    · rw [before,after]
      refine and_congr_right fun hk => exists_congr fun pa => and_congr_left fun _ => same _ hk pa
    · obtain ⟨low,high,k,hk,le,some⟩ := (servedExact o initial ord).mp served
      refine (servedExact o h ord).mpr ⟨low,high,k,hk,le,fun none => ?_⟩
      obtain ⟨pa,rest,listed⟩ := List.exists_cons_of_ne_nil some
      have found := (same k hk pa).mpr (by rw [listed]; exact List.mem_cons_self)
      rw [none] at found
      cases found

def booted : World := start (fun _ => 0) (fun _ => false) 0x200000 0x100000

def halves : List Event := [.alloc 9,.alloc 9,.free ⟨0x1000000,9⟩,.free ⟨0x1200000,9⟩]

theorem restoredHalves : ∃ fresh w, run step booted [.addRegion 0x1000000 0x400000] = some fresh ∧
    run step fresh halves = some w ∧ Restored fresh.callers.pmm w.callers.pmm := by
  have ends : (run step booted [.addRegion 0x1000000 0x400000]).map (fun fresh =>
      (decide (Guarded step Call fresh halves),(run step fresh halves).map fun w => (w.callers.live,w.handed))) =
      some (true,some ([],[⟨0x1200000,9⟩,⟨0x1000000,9⟩])) := by decide +kernel
  -- the one block that is free at first, and what the bitmap covers
  have begins : (run step booted [.addRegion 0x1000000 0x400000]).map (fun fresh =>
      let s := fresh.callers.pmm
      (s.nnodes,decide (∀ ord ≤ maxOrder, s.mem ((s.nodes 0).free ord) = 0 ∧
        ((s.nodes 0).free ord = 0 ∨ virtToPhys ((s.nodes 0).free ord) = 0x1000000)),
        decide (s.bitmap.ptr = 0),wrap (s.bitmap.pages * pageSize * 8))) = some (1,true,false,0x800000) := by
    decide +kernel
  obtain ⟨fresh,built,facts⟩ := Option.map_eq_some_iff.mp ends
  rw [built] at begins
  obtain ⟨calls,facts⟩ := Prod.mk.inj facts
  obtain ⟨w,ran,facts⟩ := Option.map_eq_some_iff.mp facts
  obtain ⟨idle,handed⟩ := Prod.mk.inj facts
  simp only [Option.map_some,Option.some.injEq,Prod.mk.injEq,decide_eq_true_eq,decide_eq_false_iff_not] at begins
  obtain ⟨nodes,lists,mapped,size⟩ := begins
  refine ⟨fresh,w,built,ran,(restoredExact (by decide +kernel) built (of_decide_eq_true calls) ran idle).mpr ?_⟩
  rintro i ord n sp ⟨node,top,p,found,rfl⟩
  obtain rfl : i = 0 := by omega
  obtain ⟨last,place⟩ := lists ord top
  obtain ⟨nonzero,rfl⟩ := LinkChain.nodeLast last found
  have here := place.resolve_left nonzero
  refine .inr fun x inside => ?_
  have low : 0x1000000 ≤ x := here ▸ inside.1
  have high : x < 0x1000000 + blockSize maxOrder := here ▸ inside.2
  have whole : blockSize maxOrder = 0x400000 := by decide
  rw [whole] at high
  have known : Known fresh.callers.pmm.bitmap x := by
    have page : x / pageSize < 0x800000 := by unfold pageSize; omega
    simp [Known,bitmapIgnores,mapped,size,page]
  refine ⟨known,.inr ?_⟩
  rw [handed,coversBlocks]
  have half : blockSize 9 = 0x200000 := by decide
  by_cases first : x < 0x1200000
  · exact ⟨⟨0x1000000,9⟩,by simp,low,by rw [half]; exact first⟩
  · exact ⟨⟨0x1200000,9⟩,by simp,Nat.le_of_not_lt first,by rw [half]; exact high⟩

theorem onePageNotRestored : ∃ fresh w, run step booted [.addRegion 0x1000000 0x400000] = some fresh ∧
    Guarded step Call fresh [.alloc 0,.free ⟨0x1000000,0⟩] ∧
    run step fresh [.alloc 0,.free ⟨0x1000000,0⟩] = some w ∧ w.callers.live = [] ∧
    (pmmAllocPages fresh.callers.pmm 10).2 = 0x1000000 ∧ (pmmAllocPages w.callers.pmm 10).2 = 0 ∧
    ¬ Restored fresh.callers.pmm w.callers.pmm := by
  have ends : (run step booted [.addRegion 0x1000000 0x400000]).map (fun fresh =>
      (decide (Guarded step Call fresh [.alloc 0,.free ⟨0x1000000,0⟩]),(pmmAllocPages fresh.callers.pmm 10).2,
        (run step fresh [.alloc 0,.free ⟨0x1000000,0⟩]).map fun w =>
          (w.callers.live,(pmmAllocPages w.callers.pmm 10).2))) =
      some (true,0x1000000,some ([],0)) := by decide +kernel
  obtain ⟨fresh,built,facts⟩ := Option.map_eq_some_iff.mp ends
  obtain ⟨calls,facts⟩ := Prod.mk.inj facts
  obtain ⟨had,facts⟩ := Prod.mk.inj facts
  obtain ⟨w,ran,facts⟩ := Option.map_eq_some_iff.mp facts
  obtain ⟨idle,refused⟩ := Prod.mk.inj facts
  refine ⟨fresh,w,built,of_decide_eq_true calls,ran,idle,had,refused,fun back => ?_⟩
  exact back.again 10 (by rw [had]; decide) refused

end Nekros.PmmRestore
