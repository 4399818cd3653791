import Nekros.Multiboot2
import Nekros.PmmBuddies
import Nekros.PmmSafety

/-! From the boot loader's memory map to the free lists: when the frames on the lists after
`pmm_init` and `parse_multiboot2` are the usable frames of the map. An entry that starts below
4 MB is left out whole, the region of an entry with an unaligned base may reach one frame beyond
it, and the frame at 2 GB, whose kernel address is null, gets on no list. -/
namespace Nekros.BootMap
open Words Pmm Spans PmmShape PmmLoops PmmBuddies Multiboot2
open PmmSafety (FreeAt Valid Sound)

def span (e : MmapEntry) : Span := ⟨e.baseAddr,e.length⟩

def available (es : List MmapEntry) : List MmapEntry := es.filter fun e => e.type = mmapAvailable

def frameAt (frame : Nat) : Span := ⟨frame,pageSize⟩

/- What the map offers: the frames from 16 MB on that lie wholly inside an entry and outside the
space kept for its bitmap. -/
def Usable (e : MmapEntry) (frame : Nat) : Prop :=
  0x1000000 ≤ frame ∧ Within (frameAt frame) (span e) ∧
    Apart (frameAt frame) ⟨align e.baseAddr,bmBytes e.length⟩
instance (e frame) : Decidable (Usable e frame) := by unfold Usable; infer_instance

def Listed (s : State) (frame : Nat) : Prop := ∃ i ord n sp, FreeAt s i ord n sp ∧ Within (frameAt frame) sp

def Translated (s : State) (es : List MmapEntry) : Prop :=
  ∀ frame, frame % pageSize = 0 → (Listed s frame ↔ ∃ e ∈ available es, Usable e frame)

structure Good (es : List MmapEntry) : Prop where
  few : (available es).length ≤ maxNodes
  apart : (available es).Pairwise fun a b => PmmSafety.Disjoint (span a) (span b)
  small : ∀ e ∈ available es, e.baseAddr + e.length ≤ 2^52

def Accepted (e : MmapEntry) : Prop :=
  e.type = mmapAvailable ∧ 0x400000 ≤ e.baseAddr ∧ bmBytes e.length < e.length
instance (e) : Decidable (Accepted e) := by unfold Accepted; infer_instance

def region (e : MmapEntry) : Span := ⟨align e.baseAddr + bmBytes e.length,e.length - bmBytes e.length⟩

def Taken (e : MmapEntry) (x : Nat) : Prop :=
  Accepted e ∧ regionStart (region e).start ≤ x ∧ x < regionStop (region e).start (region e).len
instance (e x) : Decidable (Taken e x) := by unfold Taken; infer_instance

/- An entry below 4 MB has no usable frame to lose; the region of another one is empty or does
not reach beyond the entry. -/
def Fits (e : MmapEntry) : Prop :=
  if 0x400000 ≤ e.baseAddr then
    e.length ≤ bmBytes e.length ∨ alignDown (align e.baseAddr + e.length) ≤ max 0x1000000 (region e).start ∨
      alignDown (align e.baseAddr + e.length) ≤ (span e).stop
  else alignDown (span e).stop ≤ max 0x1000000 (region e).start
instance (e) : Decidable (Fits e) := by unfold Fits; infer_instance

theorem alignBounds {x : Nat} (small : x ≤ 2^60) :
    x ≤ align x ∧ align x < x + pageSize ∧ align x % pageSize = 0 := by
  have up : align x = (x + pageSize - 1) / pageSize * pageSize := by
    unfold align pageSize
    rw [wrapOfLt (by omega)]
    rfl
  refine ⟨alignGe (by unfold pageSize; omega),?_,alignAligned x⟩
  rw [up]
  unfold pageSize
  omega

theorem alignSame {x : Nat} (small : x ≤ 2^60) (aligned : x % pageSize = 0) : align x = x := by
  obtain ⟨low,high,even⟩ := alignBounds small
  unfold pageSize at *
  omega

theorem bmBounds {n : Nat} (small : n ≤ 2^52) :
    pageSize ≤ bmBytes n ∧ bmBytes n ≤ 2^52 ∧ bmBytes n % pageSize = 0 := by
  have pages : n / pageSize / 8 + 1 ≤ 2^38 := by
    unfold pageSize
    omega
  obtain ⟨low,high,aligned⟩ := alignBounds (x := n / pageSize / 8 + 1) (by omega)
  unfold bmBytes
  generalize align (n / pageSize / 8 + 1) = bm at *
  unfold pageSize at *
  omega

theorem regionEnds {e : MmapEntry} (small : e.baseAddr + e.length ≤ 2^52) :
    regionStart (region e).start = max 0x1000000 (region e).start ∧
      (bmBytes e.length < e.length → (region e).start + (region e).len = align e.baseAddr + e.length ∧
        regionStop (region e).start (region e).len = alignDown (align e.baseAddr + e.length)) := by
  obtain ⟨low,high,aligned⟩ := alignBounds (x := e.baseAddr) (by omega)
  obtain ⟨least,most,pages⟩ := bmBounds (n := e.length) (by omega)
  have same : align (region e).start = (region e).start := by
    unfold region pageSize at *
    exact alignSame (by dsimp only; omega) (by unfold pageSize; dsimp only; omega)
  constructor
  · unfold regionStart
    rw [same]
    split <;> omega
  · intro more
    have sum : (region e).start + (region e).len = align e.baseAddr + e.length := by
      unfold region
      dsimp only
      omega
    refine ⟨sum,?_⟩
    unfold regionStop
    rw [sum,wrapOfLt (by unfold pageSize at *; omega)]

theorem frameBelow {frame x : Nat} (aligned : frame % pageSize = 0) : frame < alignDown x ↔ frame + pageSize ≤ x := by
  unfold alignDown pageSize at *
  omega

theorem frameBefore {frame x : Nat} (aligned : frame % pageSize = 0) (below : frame < alignDown x) :
    frame + pageSize ≤ alignDown x := by
  unfold alignDown pageSize at *
  omega

theorem noFrameBetween {low x : Nat} (aligned : low % pageSize = 0) :
    alignDown x ≤ low ↔ ∀ frame, frame % pageSize = 0 → low ≤ frame → ¬ frame + pageSize ≤ x := by
  constructor
  · intro none frame even above fits
    have := (frameBelow even).mpr fits
    omega
  · intro none
    by_contra more
    exact none low aligned (Nat.le_refl low) ((frameBelow aligned).mp (Nat.not_le.mp more))

theorem regionAligned {e : MmapEntry} (small : e.baseAddr + e.length ≤ 2^52) :
    max 0x1000000 (region e).start % pageSize = 0 := by
  have even := (alignBounds (x := e.baseAddr) (by omega)).2.2
  have pages := (bmBounds (n := e.length) (by omega)).2.2
  have start : (region e).start % pageSize = 0 := by simp [region,Nat.add_mod,even,pages]
  rcases Nat.le_total 0x1000000 (region e).start with le | le
  · rwa [Nat.max_eq_right le]
  · rw [Nat.max_eq_left le]
    decide

theorem takenExact {e : MmapEntry} (small : e.baseAddr + e.length ≤ 2^52) {frame : Nat} (aligned : frame % pageSize = 0) :
    Taken e frame ↔ Accepted e ∧ max 0x1000000 (region e).start ≤ frame ∧
      frame + pageSize ≤ align e.baseAddr + e.length := by
  obtain ⟨first,last⟩ := regionEnds small
  unfold Taken
  refine and_congr_right fun accepted => ?_
  rw [first,(last accepted.2.2).2,frameBelow aligned]

theorem usableExact {e : MmapEntry} (small : e.baseAddr + e.length ≤ 2^52) {frame : Nat} (aligned : frame % pageSize = 0) :
    Usable e frame ↔ max 0x1000000 (region e).start ≤ frame ∧ frame + pageSize ≤ (span e).stop := by
  obtain ⟨low,high,even⟩ := alignBounds (x := e.baseAddr) (by omega)
  simp only [Usable,Within,Apart,frameAt,span,region,Span.stop]
  unfold pageSize at *
  omega

theorem fitsExact {e : MmapEntry} (type : e.type = mmapAvailable) (small : e.baseAddr + e.length ≤ 2^52) :
    Fits e ↔ ∀ frame, frame % pageSize = 0 → (Taken e frame ↔ Usable e frame) := by
  have low := (alignBounds (x := e.baseAddr) (by omega)).1
  have start : (region e).start = align e.baseAddr + bmBytes e.length := rfl
  have stop : (span e).stop = e.baseAddr + e.length := rfl
  have between := noFrameBetween (x := align e.baseAddr + e.length) (regionAligned small)
  unfold Fits
  split
  · rename_i above
    constructor
    · intro fits frame aligned
      rw [takenExact small aligned,usableExact small aligned]
      refine ⟨fun ⟨accepted,first,last⟩ => ⟨first,?_⟩,fun ⟨first,last⟩ => ⟨⟨type,above,?_⟩,first,?_⟩⟩
      · rcases fits with short | empty | inside
        · exact absurd accepted.2.2 (Nat.not_lt.mpr short)
        · exact absurd last (between.mp empty frame aligned first)
        · exact Nat.le_trans (frameBefore aligned ((frameBelow aligned).mpr last)) inside
      · have := Nat.le_trans (Nat.le_max_right _ _) first
        unfold pageSize at last
        omega
      · omega
    · intro same
      -- the last frame of the region is the one that may reach beyond
      by_contra none
      obtain ⟨long,more,beyond⟩ : bmBytes e.length < e.length ∧
          max 0x1000000 (region e).start < alignDown (align e.baseAddr + e.length) ∧
          (span e).stop < alignDown (align e.baseAddr + e.length) := by omega
      have room := frameBefore (regionAligned small) more
      have down := alignDownLe (align e.baseAddr + e.length)
      have whole := alignDownAligned (align e.baseAddr + e.length)
      generalize alignDown (align e.baseAddr + e.length) = last at *
      have aligned : (last - pageSize) % pageSize = 0 := by
        unfold pageSize at *
        omega
      have usable := (same _ aligned).mp ((takenExact small aligned).mpr ⟨⟨type,above,long⟩,by omega,by omega⟩)
      have inside := ((usableExact small aligned).mp usable).2
      omega
  · rename_i below
    rw [noFrameBetween (regionAligned small)]
    refine forall_congr' fun frame => forall_congr' fun aligned => ?_
    rw [takenExact small aligned,usableExact small aligned]
    have refused : ¬ Accepted e := fun accepted => below accepted.2.1
    constructor
    · exact fun none => ⟨fun taken => absurd taken.1 refused,fun usable => absurd usable.2 (none usable.1)⟩
    · exact fun same first last => refused (same.mpr ⟨first,last⟩).1

example : ¬ Fits ⟨0x1000800,0x4000,mmapAvailable⟩ ∧ Taken ⟨0x1000800,0x4000,mmapAvailable⟩ 0x1004000 := by decide

def regions (es : List MmapEntry) : List Span := ((es.filter Accepted).map region).reverse

theorem regionsMore {es : List MmapEntry} {e : MmapEntry} (accepted : Accepted e) :
    regions (es ++ [e]) = region e::regions es := by
  simp [regions,accepted]

theorem regionsSame {es : List MmapEntry} {e : MmapEntry} (refused : ¬ Accepted e) :
    regions (es ++ [e]) = regions es := by
  simp [regions,refused]

theorem memAvailable {es : List MmapEntry} {e : MmapEntry} :
    e ∈ available es ↔ e ∈ es ∧ e.type = mmapAvailable := by
  simp [available]

theorem memRegions {es : List MmapEntry} {r : Span} (mem : r ∈ regions es) :
    ∃ e ∈ available es, Accepted e ∧ region e = r := by
  obtain ⟨e,listed,rfl⟩ := List.mem_map.mp (List.mem_reverse.mp mem)
  obtain ⟨here,accepted⟩ := List.mem_filter.mp listed
  have accepted : Accepted e := of_decide_eq_true accepted
  exact ⟨e,memAvailable.mpr ⟨here,accepted.1⟩,accepted,rfl⟩

theorem regionsFew (es : List MmapEntry) : (regions es).length ≤ (available es).length := by
  rw [regions,List.length_reverse,List.length_map,available,← List.countP_eq_length_filter,← List.countP_eq_length_filter]
  refine List.countP_mono_left fun e _ accepted => ?_
  exact decide_eq_true (of_decide_eq_true accepted : Accepted e).1

theorem goodBefore {es : List MmapEntry} {e : MmapEntry} (good : Good (es ++ [e])) : Good es := by
  have sub : (available es).Sublist (available (es ++ [e])) :=
    List.Sublist.filter _ (List.sublist_append_left es [e])
  exact ⟨Nat.le_trans sub.length_le good.few,good.apart.sublist sub,fun x mem => good.small x (sub.subset mem)⟩

theorem goodLast {es : List MmapEntry} {e : MmapEntry} (good : Good (es ++ [e])) (type : e.type = mmapAvailable) :
    e.baseAddr + e.length ≤ 2^52 ∧ ∀ x ∈ available es, PmmSafety.Disjoint (span x) (span e) := by
  have split : available (es ++ [e]) = available es ++ [e] := by simp [available,type]
  have apart := good.apart
  have small := good.small e
  rw [split] at apart small
  exact ⟨small (by simp),fun x mem => (List.pairwise_append.mp apart).2.2 x mem e (by simp)⟩

/- The bitmap's space is a page at least, so a region that reaches beyond its entry still ends
before the region of the next one. -/
theorem regionsDisjoint {x e : MmapEntry} (smallx : x.baseAddr + x.length ≤ 2^52) (small : e.baseAddr + e.length ≤ 2^52)
    (acceptedx : Accepted x) (accepted : Accepted e) (apart : PmmSafety.Disjoint (span x) (span e)) :
    PmmSafety.Disjoint (region e) (region x) := by
  obtain ⟨lowx,highx,_⟩ := alignBounds (x := x.baseAddr) (by omega)
  obtain ⟨low,high,_⟩ := alignBounds (x := e.baseAddr) (by omega)
  have leastx := (bmBounds (n := x.length) (by omega)).1
  have least := (bmBounds (n := e.length) (by omega)).1
  have morex := acceptedx.2.2
  have more := accepted.2.2
  simp only [PmmSafety.Disjoint,Apart,Span.stop,span,region] at *
  omega

structure Built (s : State) (es : List MmapEntry) (lists : Lists) : Prop where
  inv : PmmSafety.Inv ⟨s,regions es,[]⟩
  shape : Shape s lists []
  aligned : ∀ k ∈ keys, ∀ pa ∈ lists k, blockSize k.2 ∣ pa
  count : s.nnodes ≤ (regions es).length
  covers : (∀ e ∈ es, ¬ Taken e 0x80000000) → ∀ x, Covers (freeSpans lists) x ↔ ∃ e ∈ es, Taken e x

theorem startBuilt (mem : Nat → Nat) (bits : Nat → Bool) :
    Built (pmmInit (boot mem bits) 0x200000 0x100000) [] (fun _ => []) := by
  have inv := PmmSafety.startInv mem bits 0x200000 0x100000
  have none : freeSpans (fun _ => []) = [] := by simp [freeSpans]
  refine ⟨inv,⟨fun _ _ => rfl,?_,?_,?_,?_⟩,?_,Nat.le_refl _,?_⟩
  · exact fun _ _ _ mem => by cases mem
  · exact fun i hi => absurd hi (Nat.not_lt_zero i)
  · exact fun _ mem => by cases mem
  · rw [none]
    exact packedNil
  · exact fun _ _ _ mem => by cases mem
  · intro _ x
    rw [none]
    simp [Covers]

theorem passBuilt {s : State} {es : List MmapEntry} {lists : Lists} {e : MmapEntry} (h : Built s es lists)
    (inv : PmmSafety.Inv ⟨s,regions (es ++ [e]),[]⟩) (nothing : ∀ x, ¬ Taken e x) : Built s (es ++ [e]) lists := by
  refine ⟨inv,h.shape,h.aligned,Nat.le_trans h.count ?_,fun clear x => ?_⟩
  · simp [regions]
  · rw [h.covers (fun y mem => clear y (List.mem_append_left _ mem))]
    simp [nothing x]

theorem takenSound {s : State} {es : List MmapEntry} {e : MmapEntry} (good : Good (es ++ [e])) (accepted : Accepted e) :
    Valid ⟨s,regions es,[]⟩ (.addRegion (region e).start (region e).len) ∧
      Sound ⟨s,regions es,[]⟩ (.addRegion (region e).start (region e).len) := by
  obtain ⟨small,apart⟩ := goodLast good accepted.1
  have before := goodBefore good
  obtain ⟨low,high,_⟩ := alignBounds (x := e.baseAddr) (by omega)
  obtain ⟨least,most,_⟩ := bmBounds (n := e.length) (by omega)
  obtain ⟨sum,stop⟩ := (regionEnds small).2 accepted.2.2
  have limit : regionStop (region e).start (region e).len ≤ 2^53 := by
    rw [stop]
    refine Nat.le_trans (alignDownLe _) ?_
    unfold pageSize at *
    omega
  unfold pageSize at *
  refine ⟨⟨by omega,by omega,fun r mem => ?_⟩,.inr ⟨by unfold pageSize; omega,fun ord top => ?_⟩⟩
  · obtain ⟨x,listed,acceptedx,rfl⟩ := memRegions mem
    exact regionsDisjoint (before.small x listed) small acceptedx accepted (apart x listed)
  · have := (blockSizeLe top).2
    omega

theorem regionBuilt {s : State} {es : List MmapEntry} {lists : Lists} {e : MmapEntry} (h : Built s es lists)
    (good : Good (es ++ [e])) (accepted : Accepted e) :
    ∃ s' lists', pmmAddRegion s (region e).start (region e).len = some s' ∧ Built s' (es ++ [e]) lists' := by
  obtain ⟨valid,sound⟩ := takenSound (s := s) good accepted
  obtain ⟨s',added,cases⟩ := PmmSafety.addRegionEnds h.inv h.shape valid sound
  have inv : PmmSafety.Inv ⟨s',regions (es ++ [e]),[]⟩ := by
    rw [regionsMore accepted]
    exact (PmmSafety.addRegionStep h.inv valid sound (by rw [PmmSafety.step,added]; rfl)).1
  have room : s.nnodes < maxNodes := by
    have few := Nat.le_trans (regionsFew (es ++ [e])) good.few
    rw [regionsMore accepted,List.length_cons] at few
    have := h.count
    omega
  rcases cases with ⟨left,rfl⟩ | ⟨kept,t,f,rfl⟩
  · refine ⟨_,lists,added,passBuilt h inv fun x taken => ?_⟩
    have empty := left.resolve_right (by dsimp only; omega)
    obtain ⟨_,low,high⟩ := taken
    have up : align (region e).start ≤ regionStart (region e).start := by
      unfold regionStart
      split <;> omega
    simp only [regionEmpty,Bool.or_eq_true,decide_eq_true_eq] at empty
    omega
  · obtain ⟨fits,flat⟩ := sound.resolve_left (by rw [kept]; decide)
    obtain ⟨_,less,_,first,last,_⟩ := regionBounds kept fits valid.2.1
    have small : regionStop (region e).start (region e).len < 2^64 := Nat.lt_of_le_of_lt (alignDownLe _) (wrapLt _)
    refine ⟨_,_,added,inv,shapeCongr (s := t) rfl rfl (fun _ => rfl) (fun _ => ⟨rfl,rfl⟩) f.shape,?_,?_,?_⟩
    · intro k hk pa mem
      exact (carveAligned first mem).elim (h.aligned k hk pa) id
    · have count := PmmSafety.filledCount f
      have before := h.count
      rw [regionsMore accepted,List.length_cons]
      show t.nnodes ≤ _
      dsimp only at count
      omega
    · intro clear x
      have carved : ∀ x, Taken e x ↔
          regionStart (region e).start ≤ x ∧ x < regionStop (region e).start (region e).len :=
        fun x => ⟨And.right,fun inside => ⟨accepted,inside⟩⟩
      have free := clear e (by simp)
      rw [carved] at free
      rw [carveCovers room small first last flat (by unfold pageSize at *; omega) free,
        h.covers (fun y mem => clear y (List.mem_append_left _ mem)),← carved x,or_comm]
      simp [or_and_right,exists_or]

theorem refusedBuilt {s : State} {es : List MmapEntry} {lists : Lists} {e : MmapEntry} (h : Built s es lists)
    (refused : ¬ Accepted e) : Built s (es ++ [e]) lists :=
  passBuilt h (by rw [regionsSame refused]; exact h.inv) fun _ taken => refused taken.1

theorem entryBuilt {r : Parsed} {es : List MmapEntry} {lists : Lists} {e : MmapEntry} (h : Built r.pmm es lists)
    (good : Good (es ++ [e])) : ∃ r' lists', takeEntry r e = some r' ∧ Built r'.pmm (es ++ [e]) lists' := by
  unfold takeEntry
  by_cases type : e.type = mmapAvailable
  case neg =>
    rw [if_neg type]
    exact ⟨_,_,rfl,refusedBuilt h fun accepted => type accepted.1⟩
  by_cases above : 0x400000 ≤ e.baseAddr
  case neg =>
    rw [if_pos type,if_neg above]
    exact ⟨_,_,rfl,refusedBuilt h fun accepted => above accepted.2.1⟩
  rw [if_pos type,if_pos above]
  dsimp only
  by_cases more : bmBytes e.length < e.length
  · obtain ⟨s,lists',added,built⟩ := regionBuilt h good ⟨type,above,more⟩
    obtain ⟨small,_⟩ := goodLast good type
    have high := (alignBounds (x := e.baseAddr) (by omega)).2.1
    have most := (bmBounds (n := e.length) (by omega)).2.1
    have first : wrap (align e.baseAddr + bmBytes e.length) = (region e).start :=
      wrapOfLt (by unfold pageSize at *; omega)
    have length : e.length - bmBytes e.length = (region e).len := rfl
    rw [if_pos more,first,length,added]
    exact ⟨_,_,rfl,built⟩
  · rw [if_neg more]
    exact ⟨_,_,rfl,refusedBuilt h fun accepted => more accepted.2.2⟩

theorem entriesBuilt {r : Parsed} {lists : Lists} (h : Built r.pmm [] lists) {es : List MmapEntry} (good : Good es) :
    ∃ r' lists', es.foldlM takeEntry r = some r' ∧ Built r'.pmm es lists' := by
  induction es using List.reverseRecOn with
  | nil => exact ⟨r,lists,rfl,h⟩
  | append_singleton es e ih =>
      obtain ⟨r',lists',folded,built⟩ := ih (goodBefore good)
      obtain ⟨r'',lists'',taken,built'⟩ := entryBuilt built good
      refine ⟨r'',lists'',?_,built'⟩
      rw [List.foldlM_append,folded]
      exact (bind_pure _).trans taken

theorem listedCovers {s : State} {es : List MmapEntry} {lists : Lists} (h : Built s es lists) {frame : Nat}
    (aligned : frame % pageSize = 0) : Listed s frame ↔ Covers (freeSpans lists) frame := by
  rw [← PmmSafety.freeCovers h.inv.laid.count h.shape]
  constructor
  · rintro ⟨i,ord,n,sp,found,low,high⟩
    exact ⟨i,ord,n,sp,found,low,Nat.lt_of_lt_of_le (Nat.lt_add_of_pos_right (show 0 < pageSize by decide)) high⟩
  · rintro ⟨i,ord,n,sp,found,low,high⟩
    refine ⟨i,ord,n,sp,found,low,?_⟩
    obtain ⟨hk,pa,listed,rfl⟩ := PmmSafety.freeAtListed h.inv.laid.count h.shape found
    have even := (h.shape.inNode _ hk pa (List.mem_of_getElem? listed)).2.1
    have pages := blockSizePages ord
    simp only [frameAt,spanOf,Span.stop] at *
    unfold pageSize at *
    omega

theorem takenInside {e : MmapEntry} (small : e.baseAddr + e.length ≤ 2^52) {frame : Nat} (aligned : frame % pageSize = 0)
    (either : Taken e frame ∨ Usable e frame) : e.baseAddr ≤ frame ∧ frame < (span e).stop := by
  obtain ⟨low,high,even⟩ := alignBounds (x := e.baseAddr) (by omega)
  rcases either with taken | usable
  · obtain ⟨_,first,last⟩ := (takenExact small aligned).mp taken
    have above := Nat.le_trans (Nat.le_max_right _ _) first
    simp only [region,span,Span.stop] at *
    omega
  · obtain ⟨_,inside,_⟩ := usable
    simp only [Within,frameAt,span,Span.stop] at *
    unfold pageSize at *
    omega

theorem sameEntry {es : List MmapEntry} (good : Good es) {a b : MmapEntry} (mema : a ∈ available es)
    (memb : b ∈ available es) {x : Nat} (ina : a.baseAddr ≤ x ∧ x < (span a).stop)
    (inb : b.baseAddr ≤ x ∧ x < (span b).stop) : a = b := by
  by_contra different
  have symmetric : Std.Symm fun a b : MmapEntry => PmmSafety.Disjoint (span a) (span b) := by
    refine ⟨fun a b apart => ?_⟩
    simp only [PmmSafety.Disjoint,Apart] at *
    omega
  have apart := good.apart.forall mema memb different
  simp only [PmmSafety.Disjoint,Apart,span,Span.stop] at *
  omega

theorem unionExact {es : List MmapEntry} (good : Good es) :
    (∀ frame, frame % pageSize = 0 → ((∃ e ∈ available es, Taken e frame) ↔ ∃ e ∈ available es, Usable e frame)) ↔
      ∀ e ∈ available es, Fits e := by
  constructor
  · intro same e mem
    have small := good.small e mem
    refine (fitsExact (memAvailable.mp mem).2 small).mpr fun frame aligned => ⟨fun taken => ?_,fun usable => ?_⟩
    · obtain ⟨x,memx,usable⟩ := (same frame aligned).mp ⟨e,mem,taken⟩
      rwa [sameEntry good mem memx (takenInside small aligned (.inl taken))
        (takenInside (good.small x memx) aligned (.inr usable))]
    · obtain ⟨x,memx,taken⟩ := (same frame aligned).mpr ⟨e,mem,usable⟩
      rwa [sameEntry good mem memx (takenInside small aligned (.inr usable))
        (takenInside (good.small x memx) aligned (.inl taken))]
  · intro fits frame aligned
    refine exists_congr fun e => and_congr_right fun mem => ?_
    exact (fitsExact (memAvailable.mp mem).2 (good.small e mem)).mp (fits e mem) frame aligned

theorem bootMapExact (info : Info) (mem : Nat → Nat) (bits : Nat → Bool) (good : Good info.entries) {fuel : Nat}
    (enough : info.totalSize ≤ fuel) :
    ∃ s pages bitmapPa,
      parseMultiboot2 fuel info.mem info.phys (pmmInit (boot mem bits) 0x200000 0x100000) = some (s,pages,bitmapPa) ∧
      ((∀ e ∈ available info.entries, ¬ Taken e 0x80000000) →
        (Translated s info.entries ↔ ∀ e ∈ available info.entries, Fits e)) ∧
      ((∃ e ∈ available info.entries, Usable e 0x80000000) → ¬ Translated s info.entries) := by
  obtain ⟨r,lists,folded,built⟩ := entriesBuilt (r := ⟨pmmInit (boot mem bits) 0x200000 0x100000,0,0x200000⟩)
    (startBuilt mem bits) good
  refine ⟨r.pmm,_,_,by rw [parseReads info _ enough,folded]; rfl,fun clear => ?_,fun usable same => ?_⟩
  · have accepted : ∀ x, (∃ e ∈ info.entries, Taken e x) ↔ ∃ e ∈ available info.entries, Taken e x := by
      intro x
      refine exists_congr fun e => ⟨fun ⟨here,taken⟩ => ⟨memAvailable.mpr ⟨here,taken.1.1⟩,taken⟩,?_⟩
      exact fun ⟨here,taken⟩ => ⟨(memAvailable.mp here).1,taken⟩
    have covers := built.covers fun e here taken => clear e (memAvailable.mpr ⟨here,taken.1.1⟩) taken
    rw [← unionExact good]
    refine forall_congr' fun frame => forall_congr' fun aligned => ?_
    rw [listedCovers built aligned,covers,accepted]
  · have listed := (same 0x80000000 (by decide)).mpr usable
    exact nullNotFree built.shape built.aligned ((listedCovers built (by decide)).mp listed)

def encode (es : List MmapEntry) : List Bytes.Byte :=
  let u32 := fun x => Bytes.littleEndian 4 (BitVec.ofNat 32 x)
  let u64 := fun x => Bytes.littleEndian 8 (BitVec.ofNat 64 x)
  [32 + 24 * es.length,0,tagMmap,16 + 24 * es.length,24,0].flatMap u32 ++
    es.flatMap (fun e => u64 e.baseAddr ++ u64 e.length ++ u32 e.type ++ u32 0) ++ [0,8].flatMap u32

def inMemory (phys : Nat) (es : List MmapEntry) : Nat → Bytes.Byte := fun p => (encode es).getD (p - physToVirt phys) 0

def highEntries : List MmapEntry := [⟨0,0x9f000,1⟩,⟨0x9f000,0x61000,2⟩,⟨0x1000000,0x4000000,1⟩]

def highMap : Info :=
  ⟨inMemory 0x9000 highEntries,0x9000,[.mmap 24 highEntries],by decide +kernel,by decide +kernel⟩

theorem highGood : Good highEntries := ⟨by decide,by decide,by decide⟩

theorem bootMapHigh : ∃ s pages bitmapPa,
    parseMultiboot2 200 highMap.mem highMap.phys (pmmInit (boot (fun _ => 0) (fun _ => false)) 0x200000 0x100000) =
      some (s,pages,bitmapPa) ∧ Translated s highMap.entries := by
  obtain ⟨s,pages,bitmapPa,parsed,exact,_⟩ :=
    bootMapExact highMap (fun _ => 0) (fun _ => false) highGood (show highMap.totalSize ≤ 200 by decide +kernel)
  exact ⟨s,pages,bitmapPa,parsed,(exact (by decide +kernel)).mpr (by decide +kernel)⟩

def lowEntries : List MmapEntry := [⟨0,0x9f000,1⟩,⟨0x9f000,0x61000,2⟩,⟨0x100000,0x7f00000,1⟩]

def lowMap : Info :=
  ⟨inMemory 0x9000 lowEntries,0x9000,[.mmap 24 lowEntries],by decide +kernel,by decide +kernel⟩

theorem lowEntryDropped : Good lowMap.entries ∧ ∃ s,
    parseMultiboot2 200 lowMap.mem lowMap.phys (pmmInit (boot (fun _ => 0) (fun _ => false)) 0x200000 0x100000) =
      some (s,0x7f9f,0x200000) ∧
    (∃ e ∈ available lowMap.entries, Usable e 0x2000000) ∧ (∀ frame, ¬ Listed s frame) ∧
    ¬ Translated s lowMap.entries := by
  have usable : ∃ e ∈ available lowMap.entries, Usable e 0x2000000 := by decide +kernel
  have nothing : ∀ frame, ¬ Listed (pmmInit (boot (fun _ => 0) (fun _ => false)) 0x200000 0x100000) frame := by
    rintro frame ⟨i,_,_,_,⟨node,_⟩,_⟩
    exact absurd node (Nat.not_lt_zero i)
  refine ⟨⟨by decide,by decide,by decide⟩,_,?_,usable,nothing,fun same => ?_⟩
  · rw [parseReads lowMap _ (by decide +kernel)]
    rfl
  · exact nothing _ ((same 0x2000000 (by decide)).mpr usable)

end Nekros.BootMap
