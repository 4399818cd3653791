import Nekros.Slab
import Nekros.LinkStack
import Mathlib.Tactic.Common

/-! The slab heap over whole runs. Every span the heap accounts for, the live
extents and the chunks on the eight free lists, starts at the word that holds its
cookie or its link; so a change of memory that misses those first words keeps the
heap as it is. -/
namespace Nekros.SlabHeap
open Words Loops Spans LinkStack Slab
open Function (update)

abbrev Lists := Nat → List Nat

def chunkSpan (i x : Nat) : Span := ⟨x,chunk i⟩

def freeSpans (lists : Lists) : List Span :=
  (List.range slabSizes).flatMap (fun i => (lists i).map (chunkSpan i))

def pool (w : World) (lists : Lists) : List Span := w.live.map Alloc.extent ++ freeSpans lists

def CarvedFor (w : World) (i x : Nat) : Prop :=
  ∃ c ∈ w.carved, c.2 = i ∧ ∃ k < perPage i, x = c.1 + k * chunk i

def Owned (w : World) (a : Alloc) : Prop :=
  match a.block with
  | .slab i => i < slabSizes ∧ a.base ≠ 0 ∧ CarvedFor w i a.base
  | .large _ => a.extent.stop ≤ 2^64

structure Inv (w : World) (lists : Lists) : Prop where
  linked : ∀ i < slabSizes, Linked w.heap.mem (w.heap.freelist i) (lists i)
  packed : Packed (pool w lists)
  pages : Packed (w.carved.map (fun c => page c.1))
  aligned : ∀ c ∈ w.carved, c.1 % pageSize = 0 ∧ (page c.1).stop ≤ 2^64
  placed : ∀ i < slabSizes, ∀ x ∈ lists i, CarvedFor w i x
  owned : ∀ a ∈ w.live, Owned w a
  cookies : ∀ a ∈ w.live, readCookie (w.heap.mem a.base) = .ok a.block
  freed : ∀ f ∈ w.freed, f.cls < slabSizes ∧ f.base ∈ lists f.cls ∧ w.heap.mem f.base = f.head

theorem chunkPos (i : Nat) : 0 < chunk i := Nat.succ_pos _

theorem chunkFits {i k : Nat} (lt : k < perPage i) : k * chunk i + chunk i ≤ pageSize :=
  calc k * chunk i + chunk i = (k+1) * chunk i := (Nat.succ_mul k (chunk i)).symm
    _ ≤ perPage i * chunk i := Nat.mul_le_mul_right _ lt
    _ ≤ pageSize := Nat.div_mul_le_self _ _

theorem chunkAligned : ∀ i < slabSizes, chunk i % 8 = 0 := by decide

@[simp] theorem extentStart (a : Alloc) : a.extent.start = a.base := by
  unfold Alloc.extent
  split <;> rfl

theorem readCookieSlab : ∀ i < slabSizes, readCookie i = .ok (.slab i) := by decide

theorem readCookieLarge {pages : Nat} (small : pages < 2^56) :
    readCookie (largeCookie pages) = .ok (.large pages) := by
  have shifted : pages <<< 8 = pages * 256 := by rw [Nat.shiftLeft_eq]
  have value : largeCookie pages = pages * 256 + 255 := by
    unfold largeCookie slabLargeCookie
    rw [wrapOfLt (by omega),Nat.or_comm,← Nat.shiftLeft_add_eq_or_of_lt (by decide) pages,shifted]
  have low : largeCookie pages &&& 0xFF = slabLargeCookie := by
    rw [show (0xFF:Nat) = 2^8 - 1 from rfl,Nat.and_two_pow_sub_one_eq_mod]
    unfold slabLargeCookie
    omega
  have high : largeCookie pages >>> 8 = pages := by
    rw [Nat.shiftRight_eq_div_pow]
    omega
  have unpoisoned : largeCookie pages ≠ slabPoison := by
    unfold slabPoison
    omega
  unfold readCookie
  rw [if_neg unpoisoned,low,if_pos rfl,high]

theorem largePagesLt (size : Nat) : largePages size < 2^56 := by
  have := alignDownLe (wrap (size + pageSize - 1))
  have := wrapLt (size + pageSize - 1)
  unfold largePages align pageSize at *
  omega

theorem carvedAligned {w : World} {lists : Lists} (h : Inv w lists) {i x : Nat} (hi : i < slabSizes)
    (carved : CarvedFor w i x) : x % 8 = 0 := by
  obtain ⟨c,mem,_,k,_,rfl⟩ := carved
  have whole := (h.aligned c mem).1
  have part : k * chunk i % 8 = 0 := by rw [Nat.mul_mod,chunkAligned i hi,Nat.mul_zero,Nat.zero_mod]
  unfold pageSize at whole
  omega

theorem carvedWithin {w : World} {i x : Nat} (carved : CarvedFor w i x) :
    ∃ c ∈ w.carved, c.2 = i ∧ Within (chunkSpan i x) (page c.1) := by
  obtain ⟨c,mem,cls,k,lt,rfl⟩ := carved
  have fits := chunkFits lt
  refine ⟨c,mem,cls,?_⟩
  simp only [Within,chunkSpan,page,Span.stop]
  omega

theorem carvedMono {w w' : World} (more : ∀ c ∈ w.carved, c ∈ w'.carved) {i x : Nat}
    (h : CarvedFor w i x) : CarvedFor w' i x := by
  obtain ⟨c,mem,rest⟩ := h
  exact ⟨c,more c mem,rest⟩

theorem ownedMono {w w' : World} (more : ∀ c ∈ w.carved, c ∈ w'.carved) {a : Alloc}
    (h : Owned w a) : Owned w' a := by
  unfold Owned at *
  split at h
  · exact ⟨h.1,h.2.1,carvedMono more h.2.2⟩
  · exact h

theorem memFree {lists : Lists} {i x : Nat} (hi : i < slabSizes) (mem : x ∈ lists i) :
    chunkSpan i x ∈ freeSpans lists :=
  List.mem_flatMap.mpr ⟨i,List.mem_range.mpr hi,List.mem_map_of_mem mem⟩

theorem freeMem {lists : Lists} {s : Span} (h : s ∈ freeSpans lists) :
    ∃ i < slabSizes, ∃ x ∈ lists i, s = chunkSpan i x := by
  obtain ⟨i,hi,inside⟩ := List.mem_flatMap.mp h
  obtain ⟨x,hx,rfl⟩ := List.mem_map.mp inside
  exact ⟨i,List.mem_range.mp hi,x,hx,rfl⟩

theorem memLive {w : World} {lists : Lists} {a : Alloc} (mem : a ∈ w.live) :
    a.extent ∈ pool w lists := List.mem_append_left _ (List.mem_map_of_mem mem)

theorem memChunk {w : World} {lists : Lists} {i x : Nat} (hi : i < slabSizes) (mem : x ∈ lists i) :
    chunkSpan i x ∈ pool w lists := List.mem_append_right _ (memFree hi mem)

theorem freeSpansAppend (lists : Lists) {i : Nat} (hi : i < slabSizes) {l rest : List Nat}
    (split : lists i = l ++ rest) :
    (freeSpans lists).Perm (l.map (chunkSpan i) ++ freeSpans (update lists i rest)) := by
  refine gatherAppend List.nodup_range (List.mem_range.mpr hi) (fun j hj => ?_) ?_
  · rw [Function.update_of_ne hj]
  · rw [split,Function.update_self,List.map_append]

theorem poolPush (w : World) (lists : Lists) {i : Nat} (hi : i < slabSizes) (x : Nat) :
    (pool w (update lists i (x::lists i))).Perm (chunkSpan i x::pool w lists) := by
  have split := freeSpansAppend (update lists i (x::lists i)) hi (l := [x]) (Function.update_self _ _ _)
  rw [Function.update_idem,Function.update_eq_self] at split
  exact (split.append_left _).trans List.perm_middle

theorem freshApart {w : World} {lists : Lists} (h : Inv w lists) {r : Span} (fresh : Fresh w r) :
    ∀ s ∈ pool w lists, Apart r s := by
  obtain ⟨_,_,pages,live⟩ := fresh
  intro s hs
  rcases List.mem_append.mp hs with inLive | inFree
  · obtain ⟨a,mem,rfl⟩ := List.mem_map.mp inLive
    exact live a mem
  · obtain ⟨i,hi,x,hx,rfl⟩ := freeMem inFree
    obtain ⟨c,mem,_,within⟩ := carvedWithin (h.placed i hi x hx)
    exact apartSymm (apartWithin within (apartSymm (pages c mem)))

theorem invFrame {w : World} {lists : Lists} (h : Inv w lists) {mem' : Nat → Nat}
    (same : ∀ s ∈ pool w lists, mem' s.start = w.heap.mem s.start) :
    Inv {w with heap := {w.heap with mem := mem'}} lists where
  linked i hi := linkedFrame (fun x hx => same _ (memChunk hi hx)) (h.linked i hi)
  packed := h.packed
  pages := h.pages
  aligned := h.aligned
  placed := h.placed
  owned := h.owned
  cookies a mem := by
    have header := same _ (memLive mem)
    rw [extentStart] at header
    exact (congrArg readCookie header).trans (h.cookies a mem)
  freed f mem := by
    obtain ⟨cls,listed,word⟩ := h.freed f mem
    exact ⟨cls,listed,(same _ (memChunk cls listed)).trans word⟩

theorem startsDiffer {a b : Span} (h : Apart a b) (pa : 0 < a.len) (pb : 0 < b.len) :
    b.start ≠ a.start := by
  unfold Apart Span.stop at h
  omega

theorem awayFrom {w : World} {lists : Lists} (h : Inv w lists) {r : Span} (pos : 0 < r.len)
    (away : ∀ s ∈ pool w lists, Apart r s) : ∀ s ∈ pool w lists, s.start ≠ r.start :=
  fun s hs => startsDiffer (away s hs) pos (h.packed.positive s hs)

theorem invDrop {w : World} {lists : Lists} (h : Inv w lists) {a : Alloc} (live : a ∈ w.live) :
    Inv {w with live := w.live.erase a} lists ∧
      ∀ s ∈ pool {w with live := w.live.erase a} lists, Apart a.extent s := by
  have apartFirst : Packed (a.extent::pool {w with live := w.live.erase a} lists) :=
    packedPerm (((List.perm_cons_erase live).map Alloc.extent).append_right _) h.packed
  have fewer : ∀ b ∈ w.live.erase a, b ∈ w.live := fun b => List.mem_of_mem_erase
  refine ⟨?_,packedHead apartFirst⟩
  exact {
    linked := h.linked
    packed := packedTail apartFirst
    pages := h.pages
    aligned := h.aligned
    placed := h.placed
    owned := fun b hb => h.owned b (fewer b hb)
    cookies := fun b hb => h.cookies b (fewer b hb)
    freed := h.freed}

theorem invGive {w : World} {lists : Lists} (h : Inv w lists) {a : Alloc} {cookie : Nat}
    (away : ∀ s ∈ pool w lists, Apart a.extent s) (pos : 0 < a.extent.len) (owned : Owned w a)
    (read : readCookie cookie = .ok a.block) :
    Inv {w with heap := {w.heap with mem := update w.heap.mem a.base cookie},live := a::w.live}
      lists := by
  have others : ∀ s ∈ pool w lists, update w.heap.mem a.base cookie s.start = w.heap.mem s.start := by
    intro s hs
    have differ := awayFrom h pos away s hs
    rw [extentStart] at differ
    exact Function.update_of_ne differ _ _
  have framed := invFrame h others
  exact {
    linked := framed.linked
    packed := packedCons pos away h.packed
    pages := h.pages
    aligned := h.aligned
    placed := h.placed
    owned := fun b hb => (List.mem_cons.mp hb).elim (fun e => e ▸ owned) (h.owned b)
    cookies := by
      intro b hb
      rcases List.mem_cons.mp hb with rfl | old
      · exact (congrArg readCookie (Function.update_self _ _ _)).trans read
      · exact framed.cookies b old
    freed := framed.freed}

theorem invPop {w : World} {lists : Lists} (h : Inv w lists) {i : Nat} (hi : i < slabSizes)
    (nonempty : w.heap.freelist i ≠ 0) :
    ∃ rest, Inv {w with
        heap := {w.heap with freelist := update w.heap.freelist i (w.heap.mem (w.heap.freelist i))}
        freed := w.freed.filter (fun f => f.base ≠ w.heap.freelist i)} (update lists i rest) ∧
      (∀ s ∈ pool w (update lists i rest), Apart (chunkSpan i (w.heap.freelist i)) s) ∧
      CarvedFor w i (w.heap.freelist i) := by
  obtain ⟨rest,listed,tail⟩ := linkedHead (h.linked i hi) nonempty
  have apartFirst : Packed (chunkSpan i (w.heap.freelist i)::pool w (update lists i rest)) := by
    have split := freeSpansAppend lists hi (l := [w.heap.freelist i]) listed
    refine packedPerm ((split.append_left _).trans ?_) h.packed
    exact List.perm_middle
  have kept : ∀ j y, y ∈ update lists i rest j → y ∈ lists j := by
    intro j y hy
    by_cases same : j = i
    · subst same
      rw [Function.update_self] at hy
      rw [listed]
      exact List.mem_cons_of_mem _ hy
    · rwa [Function.update_of_ne same] at hy
  refine ⟨rest,?_,packedHead apartFirst,h.placed i hi _ (by rw [listed]; simp)⟩
  exact {
    linked := by
      intro j hj
      by_cases same : j = i
      · subst same
        simpa only [Function.update_self] using tail
      · simpa only [Function.update_of_ne same] using h.linked j hj
    packed := packedTail apartFirst
    pages := h.pages
    aligned := h.aligned
    placed := fun j hj y hy => h.placed j hj y (kept j y hy)
    owned := h.owned
    cookies := h.cookies
    freed := by
      intro f hf
      obtain ⟨old,other⟩ := List.mem_filter.mp hf
      obtain ⟨cls,inList,word⟩ := h.freed f old
      refine ⟨cls,?_,word⟩
      by_cases same : f.cls = i
      · rw [same,listed] at inList
        rw [same,Function.update_self]
        exact (List.mem_cons.mp inList).resolve_left (of_decide_eq_true other)
      · rwa [Function.update_of_ne same]}

theorem invPush {w : World} {lists : Lists} (h : Inv w lists) {i x : Nat} (hi : i < slabSizes)
    {mem' : Nat → Nat} (nonzero : x ≠ 0) (carved : CarvedFor w i x)
    (away : ∀ s ∈ pool w lists, Apart (chunkSpan i x) s) (link : mem' x = w.heap.freelist i)
    (same : ∀ s ∈ pool w lists, mem' s.start = w.heap.mem s.start) :
    Inv {w with heap := ⟨mem',update w.heap.freelist i x⟩} (update lists i (x::lists i)) := by
  have framed := invFrame h same
  have larger : ∀ j y, y ∈ lists j → y ∈ update lists i (x::lists i) j := by
    intro j y hy
    by_cases at_i : j = i
    · subst at_i
      rw [Function.update_self]
      exact List.mem_cons_of_mem _ hy
    · rwa [Function.update_of_ne at_i]
  exact {
    linked := by
      intro j hj
      by_cases at_i : j = i
      · subst at_i
        simp only [Function.update_self]
        exact linkedPush (h.linked j hj) nonzero link (fun q hq => same _ (memChunk hj hq))
      · simpa only [Function.update_of_ne at_i] using framed.linked j hj
    packed := packedPerm (poolPush w lists hi x).symm (packedCons (chunkPos i) away h.packed)
    pages := h.pages
    aligned := h.aligned
    placed := by
      intro j hj y hy
      by_cases at_i : j = i
      · subst at_i
        rw [Function.update_self] at hy
        exact (List.mem_cons.mp hy).elim (fun e => e ▸ carved) (h.placed j hj y)
      · rw [Function.update_of_ne at_i] at hy
        exact h.placed j hj y hy
    owned := h.owned
    cookies := framed.cookies
    freed := fun f hf =>
      have ⟨cls,listed,word⟩ := framed.freed f hf
      ⟨cls,larger _ _ listed,word⟩}

theorem invRecord {w : World} {lists : Lists} (h : Inv w lists) {i x : Nat} (hi : i < slabSizes)
    (listed : x ∈ lists i) {head : Nat} (link : w.heap.mem x = head) :
    Inv {w with freed := ⟨x,i,head⟩::w.freed} lists := by
  refine {h with freed := fun f hf => ?_}
  rcases List.mem_cons.mp hf with rfl | old
  · exact ⟨hi,listed,link⟩
  · exact h.freed f old

theorem invCarve {w : World} {lists : Lists} (h : Inv w lists) {p i : Nat}
    (fresh : Fresh w (page p)) : Inv {w with carved := (p,i)::w.carved} lists := by
  obtain ⟨whole,bound,apart,_⟩ := fresh
  have more : ∀ c ∈ w.carved, c ∈ (p,i)::w.carved := fun c => List.mem_cons_of_mem _
  exact {
    linked := h.linked
    packed := h.packed
    pages := by
      refine packedCons (show 0 < pageSize by decide) (fun s hs => ?_) h.pages
      obtain ⟨c,mem,rfl⟩ := List.mem_map.mp hs
      exact apart c mem
    aligned := fun c hc => (List.mem_cons.mp hc).elim (fun e => e ▸ ⟨whole,bound⟩) (h.aligned c)
    placed := fun j hj y hy => carvedMono more (h.placed j hj y hy)
    owned := fun a ha => ownedMono more (h.owned a ha)
    cookies := h.cookies
    freed := h.freed}

/- slab_grow: the chunks of the fresh page go on the list one after the other, each
apart from all that is accounted for and from the chunks still to come. The frame
mapped at address 0 loses its first chunk: pushing it leaves the list empty. -/
theorem invGrow {w : World} {lists : Lists} (h : Inv w lists) {i pa : Nat} (hi : i < slabSizes)
    (empty : w.heap.freelist i = 0) (nonzero : pa ≠ 0) (fresh : Fresh w (page (physToVirt pa))) :
    ∃ lists', Inv {w with
      heap := slabGrow w.heap i pa
      carved := (physToVirt pa,i)::w.carved} lists' := by
  rw [slabGrow,if_neg nonzero]
  generalize physToVirt pa = p at fresh ⊢
  let grown (heap : Heap) : World := {w with heap,carved := (p,i)::w.carved}
  let inv (k : Nat) (heap : Heap) : Prop :=
    (k = 0 → heap.freelist i = 0) ∧ ∃ lists, Inv (grown heap) lists ∧
      ∀ j, k ≤ j → j < perPage i → ∀ s ∈ pool w lists, Apart (chunkSpan i (p + j * chunk i)) s
  have first : inv 0 w.heap := by
    refine ⟨fun _ => empty,lists,invCarve h fresh,fun j _ lt s hs => ?_⟩
    have fits := chunkFits lt
    refine apartWithin ?_ (freshApart h fresh s hs)
    simp only [Within,chunkSpan,page,Span.stop]
    omega
  have last : inv (perPage i) (upTo (perPage i) (fun k h => push h i (p + k * chunk i)) w.heap) := by
    refine upToInvariant _ inv first (fun k heap lt now => ?_)
    obtain ⟨atZero,lists,kept,away⟩ := now
    have here := away k (Nat.le_refl k) lt
    have moved : ∀ s ∈ pool w lists,
        update heap.mem (p + k * chunk i) (heap.freelist i) s.start = heap.mem s.start :=
      fun s hs => Function.update_of_ne (awayFrom kept (chunkPos i) here s hs) _ _
    refine ⟨fun absurd0 => absurd absurd0 (Nat.succ_ne_zero k),?_⟩
    by_cases null : p + k * chunk i = 0
    · have start : k = 0 := by
        have zero := (Nat.add_eq_zero_iff.mp null).2
        exact (Nat.mul_eq_zero.mp zero).resolve_right (Nat.ne_of_gt (chunkPos i))
      have unchanged : update heap.freelist i (p + k * chunk i) = heap.freelist := by
        rw [null,← atZero start,Function.update_eq_self]
      refine ⟨lists,?_,fun j le => away j (Nat.le_of_succ_le le)⟩
      simpa only [push,unchanged] using invFrame kept moved
    · refine ⟨update lists i ((p + k * chunk i)::lists i),?_,fun j le ltj s hs => ?_⟩
      · have carved : CarvedFor (grown heap) i (p + k * chunk i) :=
          ⟨(p,i),List.mem_cons_self,rfl,k,lt,rfl⟩
        exact invPush kept hi null carved here (Function.update_self _ _ _) moved
      · rcases List.mem_cons.mp ((poolPush w lists hi _).mem_iff.mp hs) with rfl | old
        · have later : (k+1) * chunk i ≤ j * chunk i := Nat.mul_le_mul_right _ le
          rw [Nat.succ_mul] at later
          simp only [Apart,chunkSpan,Span.stop]
          omega
        · exact away j (Nat.le_of_succ_le le) ltj s old
  obtain ⟨_,lists',kept,_⟩ := last
  exact ⟨lists',kept⟩

theorem givenHeap (w : World) (before heap : Heap) (ptr : Nat) (block : Block) :
    given {w with heap := before} heap ptr block = given w heap ptr block := by
  unfold given
  split <;> rfl

theorem invTake {w : World} {lists : Lists} (h : Inv w lists) {i : Nat} (hi : i < slabSizes) :
    ∃ lists', Inv (given w (kmallocSlab w.heap i).1 (kmallocSlab w.heap i).2 (.slab i)) lists' := by
  unfold kmallocSlab
  by_cases null : w.heap.freelist i = 0
  · rw [if_pos null]
    exact ⟨lists,h⟩
  · rw [if_neg null]
    obtain ⟨rest,popped,away,carved⟩ := invPop h hi null
    have owned : Owned w ⟨w.heap.freelist i,.slab i⟩ := ⟨hi,null,carved⟩
    have out := invGive (a := ⟨w.heap.freelist i,.slab i⟩) popped away (chunkPos i) owned
      (readCookieSlab i hi)
    refine ⟨update lists i rest,?_⟩
    simpa only [given,Nat.add_eq_zero_iff,null,false_and,if_false,Nat.add_sub_cancel] using out

theorem classForLt {size i : Nat} (h : classFor size = some i) : i < slabSizes :=
  List.mem_range.mp (List.mem_of_find?_eq_some h)

theorem kmallocInv {w : World} {lists : Lists} (h : Inv w lists) {size pa base : Nat}
    (valid : Valid w (.kmalloc size pa base)) :
    ∃ w', step w (.kmalloc size pa base) = some w' ∧ ∃ lists', Inv w' lists' := by
  refine ⟨_,rfl,?_⟩
  cases found : classFor size with
  | some i =>
      have hi := classForLt found
      simp only [kmalloc,chosen,carving,found]
      by_cases empty : w.heap.freelist i = 0
      · rw [if_pos empty]
        by_cases none : pa = 0
        · rw [if_neg (fun both => both.2 none),slabGrow,if_pos none]
          exact invTake h hi
        · rw [if_pos ⟨empty,none⟩]
          obtain ⟨grown,kept⟩ := invGrow h hi empty none (valid.1 none)
          have taken := invTake kept hi
          rwa [givenHeap {w with carved := (physToVirt pa,i)::w.carved}] at taken
      · rw [if_neg empty,if_neg (fun both => empty both.1)]
        exact invTake h hi
  | none =>
      simp only [kmalloc,chosen,carving,found,List.nil_append]
      by_cases null : base = 0
      · rw [if_pos null]
        exact ⟨lists,h⟩
      · rw [if_neg null]
        have fresh := valid.2 null
        have positive : 0 < (largePages size + 1) * pageSize :=
          Nat.mul_pos (Nat.succ_pos _) (by decide)
        have out := invGive (a := ⟨base,.large (largePages size)⟩) h (freshApart h fresh) positive
          fresh.2.1 (readCookieLarge (largePagesLt size))
        have unlisted : ∀ f ∈ w.freed, decide (f.base ≠ base) = true := by
          intro f hf
          obtain ⟨cls,listed,_⟩ := h.freed f hf
          have differ := awayFrom h positive (freshApart h fresh) _ (memChunk cls listed)
          exact decide_eq_true differ
        refine ⟨lists,?_⟩
        simpa only [given,Nat.add_eq_zero_iff,null,false_and,if_false,Nat.add_sub_cancel,
          List.filter_eq_self.mpr unlisted] using out

theorem carvedRoom {w : World} {lists : Lists} (h : Inv w lists) {i x : Nat} (hi : i < slabSizes)
    (carved : CarvedFor w i x) : x + 8 < 2^64 := by
  obtain ⟨c,mem,_,within⟩ := carvedWithin carved
  have bound := (h.aligned c mem).2
  have payload : ∀ i < slabSizes, 0 < objSize i := by decide
  have positive := payload i hi
  simp only [Within,chunkSpan,page,Span.stop,chunk] at *
  omega

theorem cookiePtrOf {x : Nat} (room : x + 8 < 2^64) : sub64 (x + 8) 8 = x := by
  rw [sub64OfLe (Nat.le_add_left _ _) room,Nat.add_sub_cancel]

theorem extentRoom {w : World} {lists : Lists} (h : Inv w lists) {a : Alloc} (live : a ∈ w.live) :
    a.base + 8 < 2^64 ∧ 0 < a.extent.len := by
  have owned := h.owned a live
  obtain ⟨base,block⟩ := a
  cases block with
  | slab i =>
      obtain ⟨hi,_,carved⟩ := owned
      exact ⟨carvedRoom h hi carved,chunkPos i⟩
  | large pages =>
      have bound : base + (pages + 1) * pageSize ≤ 2^64 := owned
      refine ⟨?_,Nat.mul_pos (Nat.succ_pos _) (by decide)⟩
      rw [pageSize] at bound
      show base + 8 < 2^64
      omega

theorem kfreeInv {w : World} {lists : Lists} (h : Inv w lists) {a : Alloc} (live : a ∈ w.live) :
    ∃ w', step w (.kfree a) = some w' ∧ ∃ lists', Inv w' lists' := by
  obtain ⟨room,positive⟩ := extentRoom h live
  obtain ⟨dropped,away⟩ := invDrop h live
  have read := h.cookies a live
  have owned := h.owned a live
  have cookiePtr := cookiePtrOf room
  have elsewhere := awayFrom dropped positive away
  simp only [extentStart] at elsewhere
  obtain ⟨base,block⟩ := a
  dsimp only at cookiePtr read elsewhere
  cases block with
  | large pages =>
      refine ⟨_,by simp only [step,kfree,cookiePtr,read,released]; rfl,lists,?_⟩
      exact invFrame dropped (fun s hs => Function.update_of_ne (elsewhere s hs) _ _)
  | slab i =>
      obtain ⟨hi,nonzero,carved⟩ := owned
      let filled := memset w.heap.mem base (8 + objSize i) 0xDEDEDEDEDEDEDEDE
      let mem' := update (update filled base slabPoison) base (w.heap.freelist i)
      have link : mem' base = w.heap.freelist i := Function.update_self _ _ _
      have outside : ∀ s ∈ pool {w with live := w.live.erase ⟨base,.slab i⟩} lists,
          mem' s.start = w.heap.mem s.start := by
        intro s hs
        have apart : Apart ⟨base,chunk i⟩ s := away s hs
        have nonempty := dropped.packed.positive s hs
        have beyond : ¬ (base ≤ s.start ∧ s.start < base + (8 + objSize i)) := by
          simp only [Apart,Span.stop,chunk] at apart
          omega
        simp only [mem',Function.update_of_ne (elsewhere s hs),filled,memset,if_neg beyond]
      have pushed := invPush dropped hi nonzero carved away link outside
      have listed : base ∈ update lists i (base::lists i) i := by simp
      refine ⟨_,by simp only [step,kfree,cookiePtr,read,released]; rfl,update lists i (base::lists i),?_⟩
      exact invRecord pushed hi listed link

theorem writeInv {w : World} {lists : Lists} (h : Inv w lists) {p v : Nat}
    (valid : Valid w (.write p v)) :
    ∃ w', step w (.write p v) = some w' ∧ ∃ lists', Inv w' lists' := by
  obtain ⟨_,a,live,above,below⟩ := valid
  have positive := (extentRoom h live).2
  refine ⟨_,rfl,lists,invFrame h (fun s hs => Function.update_of_ne ?_ _ _)⟩
  -- the word written is inside one live extent and not its first
  obtain ⟨_,away⟩ := invDrop h live
  have taken : (pool w lists).Perm (a.extent::pool {w with live := w.live.erase a} lists) :=
    ((List.perm_cons_erase live).map Alloc.extent).append_right _
  rcases List.mem_cons.mp (taken.mem_iff.mp hs) with rfl | other
  · rw [extentStart]
    omega
  · have apart := away s other
    have nonempty := h.packed.positive s hs
    simp only [Apart,Span.stop,extentStart] at apart below
    omega

theorem stepInv {w : World} {e : Event} (h : ∃ lists, Inv w lists) (valid : Valid w e) :
    ∃ w', step w e = some w' ∧ ∃ lists', Inv w' lists' := by
  obtain ⟨lists,kept⟩ := h
  cases e with
  | kmalloc size pa base => exact kmallocInv kept valid
  | kfree a => exact kfreeInv kept valid
  | write p v => exact writeInv kept valid

theorem startInv (mem : Nat → Nat) : Inv (start mem) (fun _ => []) where
  linked _ _ := rfl
  packed := by
    have none : pool (start mem) (fun _ => []) = [] := by simp [pool,freeSpans,start]
    rw [none]
    exact packedNil
  pages := packedNil
  aligned := by simp [start]
  placed := by simp
  owned := by simp [start]
  cookies := by simp [start]
  freed := by simp [start]

theorem runInv {mem : Nat → Nat} {events : List Event}
    (valid : GuardedRun.Guarded step Valid (start mem) events) :
    ∃ w, GuardedRun.run step (start mem) events = some w ∧ ∃ lists, Inv w lists :=
  GuardedRun.guardedReturns _ (fun _ _ => stepInv) ⟨_,startInv mem⟩ valid

structure Sound (w : World) (lists : Lists) : Prop where
  liveApart : (w.live.map Alloc.extent).Pairwise Apart
  freeApart : ∀ a ∈ w.live, ∀ i < slabSizes, ∀ x ∈ lists i, Apart a.extent (chunkSpan i x)
  once : ((List.range slabSizes).flatMap lists).Nodup
  ownClass : ∀ i < slabSizes, ∀ x ∈ lists i, ∀ j, CarvedFor w j x ↔ j = i
  acyclic : ∀ i < slabSizes, Linked w.heap.mem (w.heap.freelist i) (lists i)
  recovered : ∀ a ∈ w.live, readCookie (w.heap.mem a.base) = .ok a.block

theorem carvedOnce {w : World} {lists : Lists} (h : Inv w lists) {i j x : Nat}
    (one : CarvedFor w i x) (other : CarvedFor w j x) : i = j := by
  obtain ⟨c,mem,rfl,within⟩ := carvedWithin one
  obtain ⟨d,mem',rfl,within'⟩ := carvedWithin other
  by_cases same : c = d
  · rw [same]
  · have symmetric : Std.Symm (fun c d : Nat × Nat => Apart (page c.1) (page d.1)) :=
      ⟨fun _ _ => apartSymm⟩
    have apart := (List.pairwise_map.mp h.pages.apart).forall mem mem' same
    have pos := chunkPos c.2
    have pos' := chunkPos d.2
    simp only [Apart,Within,chunkSpan,page,Span.stop] at apart within within'
    omega

theorem freeOnce {w : World} {lists : Lists} (h : Inv w lists) :
    ((List.range slabSizes).flatMap lists).Nodup := by
  have packed := packedSublist (List.sublist_append_right _ _) h.packed
  have starts : (freeSpans lists).map Span.start = (List.range slabSizes).flatMap lists := by
    simp only [freeSpans,List.map_flatMap,List.map_map]
    congr
    funext i
    exact List.map_id _
  rw [← starts]
  refine List.pairwise_map.mpr (packed.apart.imp_of_mem (fun {a b} ha hb apart => ?_))
  exact (startsDiffer apart (packed.positive a ha) (packed.positive b hb)).symm

theorem invSound {w : World} {lists : Lists} (h : Inv w lists) : Sound w lists := by
  obtain ⟨liveApart,_,cross⟩ := List.pairwise_append.mp h.packed.apart
  exact {
    liveApart
    freeApart := fun a ha i hi x hx => cross _ (List.mem_map_of_mem ha) _ (memFree hi hx)
    once := freeOnce h
    ownClass := fun i hi x hx j =>
      ⟨fun carved => carvedOnce h carved (h.placed i hi x hx),fun same => same ▸ h.placed i hi x hx⟩
    acyclic := h.linked
    recovered := h.cookies}

theorem heapSound (mem : Nat → Nat) (events : List Event)
    (valid : GuardedRun.Guarded step Valid (start mem) events) :
    ∃ w lists, GuardedRun.run step (start mem) events = some w ∧ Sound w lists := by
  obtain ⟨w,ran,lists,kept⟩ := runInv valid
  exact ⟨w,lists,ran,invSound kept⟩

def sample : List Event :=
  [.kmalloc 1000 0x1000000 0,.kmalloc 2048 0x1001000 0,.kmalloc 5000 0 0xFFFF000000000000,
    .write 0xFFFF000000000008 7,.kfree ⟨physToVirt 0x1001000,.slab 7⟩,
    .kfree ⟨0xFFFF000000000000,.large 2⟩,.kmalloc 1500 0 0]

theorem heapSoundSample :
    ∃ w lists, GuardedRun.run step (start (fun _ => 0)) sample = some w ∧ Sound w lists :=
  heapSound _ sample (by decide +kernel)

end Nekros.SlabHeap
