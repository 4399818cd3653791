import Nekros.SlabHeap
import Nekros.Vmalloc

/-! How much `kmalloc` gives. The slab heap and the window of vmm_alloc together: a large block is
taken from the bump pointer, a chunk from a page that phys_to_virt maps, and kzalloc clears as many
bytes as were asked for. Other callers of vmm_alloc take their ranges from the same window. -/
namespace Nekros.KmallocExtent
open Words Spans Slab SlabHeap
open Vmalloc (Call vmmAlloc windowStart windowEnd Seen)
open GuardedRun (run Guarded)

structure World where
  slab : Slab.World
  vmallocNext : Nat
  given : List Span

def start (mem : Nat → Nat) : World := ⟨Slab.start mem,windowStart,[]⟩

def largeCall (size : Nat) (backed : Bool) : Call := ⟨BitVec.ofNat 64 (largePages size + 1),backed⟩

def answer (next size : Nat) (backed : Bool) : Nat × Nat :=
  match classFor size with
  | some _ => (next,0)
  | none =>
      let r := vmmAlloc next (largeCall size backed)
      (r.1,r.2.getD 0)

/- `pa` answers slab_grow's pmm_alloc_page. -/
def kmalloc (w : World) (size : BitVec 64) (pa : Nat) (backed : Bool) : World × Nat :=
  let a := answer w.vmallocNext size.toNat backed
  let r := Slab.kmalloc w.slab.heap size.toNat pa a.2
  ({w with
      slab := Slab.given {w.slab with carved := carving w.slab size.toNat pa ++ w.slab.carved} r.1 r.2
        (chosen size.toNat),
      vmallocNext := a.1},r.2)

def cleared (size : BitVec 64) (p : Nat) : Span := ⟨p,size.toNat⟩

inductive Event where
  | kmalloc (size : BitVec 64) (pa : Nat) (backed : Bool)
  | kfree (a : Alloc)
  | write (p v : Nat)
  | vmmAlloc (c : Call)

def step (w : World) : Event → Option World
  | .kmalloc size pa backed => some (kmalloc w size pa backed).1
  | .kfree a => (Slab.step w.slab (.kfree a)).map (fun slab => {w with slab})
  | .write p v => (Slab.step w.slab (.write p v)).map (fun slab => {w with slab})
  | .vmmAlloc c =>
      let r := vmmAlloc w.vmallocNext c
      some {w with
        vmallocNext := r.1,
        given := match r.2 with
          | none => w.given
          | some virt => ⟨virt,c.bytes⟩::w.given}

def PageOk (w : World) (pa : Nat) : Prop :=
  pa ≠ 0 → pa % pageSize = 0 ∧ pa + pageSize ≤ 2^52 ∧ ∀ c ∈ w.slab.carved, c.1 ≠ physToVirt pa
instance (w pa) : Decidable (PageOk w pa) := by unfold PageOk; infer_instance

/- No request passes the range check of vmm_alloc by wrapping around. -/
def SeenBy (w : World) (c : Call) : Prop := Seen ⟨w.vmallocNext,[]⟩ c
instance (w c) : Decidable (SeenBy w c) := by unfold SeenBy; infer_instance

def Valid (w : World) : Event → Prop
  | .kmalloc size pa backed =>
      PageOk w pa ∧ (classFor size.toNat = none → SeenBy w (largeCall size.toNat backed))
  | .kfree a => Slab.Valid w.slab (.kfree a)
  | .write p v => Slab.Valid w.slab (.write p v)
  | .vmmAlloc c => SeenBy w c
instance (w e) : Decidable (Valid w e) := by cases e <;> unfold Valid <;> infer_instance

def Mapped (w : World) (a : Alloc) : Prop :=
  match a.block with
  | .slab i => CarvedFor w.slab i a.base
  | .large _ => windowStart ≤ a.base ∧ a.extent.stop ≤ windowEnd

def Holds (w : World) (size : BitVec 64) (p : Nat) : Prop :=
  ∃ a rest lists, w.slab.live = a::rest ∧ p = a.base + 8 ∧ Within (cleared size p) a.extent ∧ Mapped w a ∧
    Sound w.slab lists ∧ ∀ g ∈ w.given, Apart a.extent g

/- A chunk is large enough for its class; a large request has to fit the window as it is, rounded
up without wrapping. -/
def Fits (w : World) (size : BitVec 64) : Prop :=
  classFor size.toNat = none →
    w.vmallocNext + ((size.toNat + pageSize - 1) / pageSize + 1) * pageSize ≤ windowEnd
instance (w size) : Decidable (Fits w size) := by unfold Fits; infer_instance

structure Inv (w : World) (lists : Lists) : Prop where
  slab : SlabHeap.Inv w.slab lists
  low : windowStart ≤ w.vmallocNext
  high : w.vmallocNext ≤ windowEnd
  aligned : w.vmallocNext % pageSize = 0
  outside : ∀ c ∈ w.slab.carved, (page c.1).stop ≤ windowStart ∨ windowEnd ≤ c.1
  large : ∀ a ∈ w.slab.live, ∀ pages, a.block = .large pages →
    windowStart ≤ a.base ∧ a.extent.stop ≤ w.vmallocNext
  given : ∀ g ∈ w.given, windowStart ≤ g.start ∧ g.stop ≤ w.vmallocNext
  apart : ∀ g ∈ w.given, ∀ a ∈ w.slab.live, ∀ pages, a.block = .large pages → Apart a.extent g

theorem windowApart {w : World} {lists : Lists} (h : Inv w lists) {r : Span} (low : windowStart ≤ r.start)
    (high : r.stop ≤ windowEnd) : ∀ c ∈ w.slab.carved, Apart r (page c.1) := by
  intro c mem
  have out := h.outside c mem
  unfold Apart
  simp only [page,Span.stop] at *
  omega

theorem chunkWithin {w : World} {lists : Lists} (h : Inv w lists) {a : Alloc} {i : Nat} (block : a.block = .slab i)
    (live : a ∈ w.slab.live) : ∃ c ∈ w.slab.carved, Within a.extent (page c.1) := by
  have owned := h.slab.owned a live
  rw [Owned,block] at owned
  obtain ⟨c,mem,_,within⟩ := carvedWithin owned.2.2
  refine ⟨c,mem,?_⟩
  rw [Alloc.extent,block]
  exact within

theorem chunkApart {w : World} {lists : Lists} (h : Inv w lists) {r : Span}
    (away : ∀ c ∈ w.slab.carved, Apart r (page c.1)) {a : Alloc} {i : Nat} (block : a.block = .slab i)
    (live : a ∈ w.slab.live) : Apart r a.extent := by
  obtain ⟨c,mem,within⟩ := chunkWithin h block live
  exact apartSymm (apartWithin within (apartSymm (away c mem)))

theorem freshRange {w : World} {lists : Lists} (h : Inv w lists) {len : Nat}
    (fits : w.vmallocNext + len ≤ windowEnd) : Fresh w.slab ⟨w.vmallocNext,len⟩ := by
  have below : w.vmallocNext + len ≤ 2^64 := Nat.le_trans fits (by decide)
  have away := windowApart (r := ⟨w.vmallocNext,len⟩) h h.low fits
  refine ⟨h.aligned,below,away,fun a live => ?_⟩
  cases block : a.block with
  | slab i => exact chunkApart h away block live
  | large pages => exact .inr (h.large a live pages block).2

theorem pagePlace {pa : Nat} (aligned : pa % pageSize = 0) (small : pa + pageSize ≤ 2^52) :
    physToVirt pa + pageSize ≤ windowStart ∨ windowEnd ≤ physToVirt pa := by
  unfold physToVirt wrap kernelBase windowStart windowEnd
  unfold pageSize at *
  omega

theorem pagesApart {p q : Nat} (alignedP : p % pageSize = 0) (alignedQ : q % pageSize = 0) (differ : q ≠ p) :
    Apart (page p) (page q) := by
  unfold Apart
  simp only [page,Span.stop]
  unfold pageSize at *
  omega

theorem freshPage {w : World} {lists : Lists} (h : Inv w lists) {pa : Nat} (ok : PageOk w pa) (some' : pa ≠ 0) :
    Fresh w.slab (page (physToVirt pa)) := by
  obtain ⟨aligned,small,fresh⟩ := ok some'
  have place := physToVirtAligned aligned
  have word : physToVirt pa < 2^64 := wrapLt _
  have stop : physToVirt pa + pageSize ≤ 2^64 := by
    unfold pageSize at *
    omega
  have away : ∀ c ∈ w.slab.carved, Apart (page (physToVirt pa)) (page c.1) :=
    fun c mem => pagesApart place (h.slab.aligned c mem).1 (fresh c mem)
  refine ⟨place,stop,away,fun a live => ?_⟩
  cases block : a.block with
  | slab i => exact chunkApart h away block live
  | large pages =>
      obtain ⟨low,high⟩ := h.large a live pages block
      have top := h.high
      have start : a.extent.start = a.base := extentStart a
      unfold Apart
      rw [start]
      rcases pagePlace aligned small with below | above
      · exact .inl (below.trans low)
      · exact .inr ((high.trans top).trans above)

theorem seenCases {next : Nat} {c : Call} (low : windowStart ≤ next) (high : next ≤ windowEnd)
    (seen : Seen ⟨next,[]⟩ c) :
    vmmAlloc next c = (next,none) ∨
      (next + c.bytes ≤ windowEnd ∧ vmmAlloc next c = (next + c.bytes,if c.backed then some next else none)) := by
  have inv : Vmalloc.Inv ⟨next,[]⟩ := ⟨low,high,fun g mem => absurd mem List.not_mem_nil⟩
  rcases Nat.lt_or_ge windowEnd (next + c.bytes) with large | fits
  · exact .inl (((Vmalloc.orderlySeen inv).mpr seen).refuses large)
  · exact .inr ⟨fits,Vmalloc.allocFits fits⟩

theorem largeBytes (size : Nat) (backed : Bool) :
    (largeCall size backed).bytes = (largePages size + 1) * pageSize := by
  have small := largePagesLt size
  rw [largeCall,Call.bytes,BitVec.toNat_ofNat,Nat.mod_eq_of_lt (by omega)]

theorem roundedUp {size : Nat} (small : size + pageSize ≤ 2^64) :
    largePages size = (size + pageSize - 1) / pageSize := by
  have word : size + pageSize - 1 < 2^64 := by
    unfold pageSize at *
    omega
  rw [largePages,align,wrapOfLt word,alignDown,Nat.mul_div_cancel _ (by decide)]

theorem roundedWrapped {size : Nat} (large : 2^64 < size + pageSize) (word : size < 2^64) : largePages size = 0 := by
  unfold largePages align alignDown wrap
  unfold pageSize at *
  omega

theorem roundedEnough {size : Nat} (small : size + pageSize ≤ 2^64) : size ≤ largePages size * pageSize := by
  rw [roundedUp small]
  unfold pageSize
  omega

section Kmalloc
variable {w : World} {size : BitVec 64} {pa : Nat} {backed : Bool}

theorem kmallocCarved : (kmalloc w size pa backed).1.slab.carved = carving w.slab size.toNat pa ++ w.slab.carved := by
  rw [kmalloc]
  unfold Slab.given
  split <;> rfl

theorem kmallocLive (found : (kmalloc w size pa backed).2 ≠ 0) :
    (kmalloc w size pa backed).1.slab.live =
      ⟨(kmalloc w size pa backed).2 - 8,chosen size.toNat⟩::w.slab.live := by
  rw [kmalloc] at *
  unfold Slab.given
  rw [if_neg found]

theorem kmallocFailed (null : (kmalloc w size pa backed).2 = 0) :
    (kmalloc w size pa backed).1.slab.live = w.slab.live := by
  rw [kmalloc] at *
  unfold Slab.given
  rw [if_pos null]

theorem kmallocNext (found : classFor size.toNat = none) (returned : (kmalloc w size pa backed).2 ≠ 0) :
    (kmalloc w size pa backed).2 = w.vmallocNext + 8 ∧
      (vmmAlloc w.vmallocNext (largeCall size.toNat backed)).2 = some w.vmallocNext := by
  cases base : (vmmAlloc w.vmallocNext (largeCall size.toNat backed)).2 with
  | none =>
      refine absurd ?_ returned
      simp only [kmalloc,Slab.kmalloc,answer,found,base,Option.getD_none,if_pos]
  | some virt =>
      obtain rfl := Vmalloc.allocHere base
      refine ⟨?_,rfl⟩
      simp only [kmalloc,Slab.kmalloc,answer,found,base,Option.getD_some] at returned ⊢
      split at returned
      · exact absurd rfl returned
      · next nonzero => rw [if_neg nonzero]

theorem kmallocLarge {a : Alloc} {pages : Nat} (live : a ∈ (kmalloc w size pa backed).1.slab.live)
    (block : a.block = .large pages) :
    a ∈ w.slab.live ∨ (classFor size.toNat = none ∧ a = ⟨w.vmallocNext,.large (largePages size.toNat)⟩ ∧
      (vmmAlloc w.vmallocNext (largeCall size.toNat backed)).2 = some w.vmallocNext) := by
  by_cases null : (kmalloc w size pa backed).2 = 0
  · rw [kmallocFailed null] at live
    exact .inl live
  rw [kmallocLive null] at live
  rcases List.mem_cons.mp live with new | old
  case inr => exact .inl old
  cases found : classFor size.toNat with
  | some i =>
      rw [new,chosen,found] at block
      cases block
  | none =>
      obtain ⟨pointer,base⟩ := kmallocNext found null
      refine .inr ⟨rfl,?_,base⟩
      rw [new,pointer,chosen,found,Nat.add_sub_cancel]

theorem kmallocOutside {lists : Lists} (h : Inv w lists) (ok : PageOk w pa) :
    ∀ c ∈ (kmalloc w size pa backed).1.slab.carved, (page c.1).stop ≤ windowStart ∨ windowEnd ≤ c.1 := by
  intro c mem
  rw [kmallocCarved] at mem
  rcases List.mem_append.mp mem with new | old
  case inr => exact h.outside c old
  unfold carving at new
  split at new
  · split at new
    · next grown =>
      obtain ⟨aligned,small,_⟩ := ok grown.2
      rw [List.mem_singleton.mp new]
      exact pagePlace aligned small
    · cases new
  · cases new

theorem answerCases {lists : Lists} (h : Inv w lists)
    (seen : classFor size.toNat = none → SeenBy w (largeCall size.toNat backed)) :
    answer w.vmallocNext size.toNat backed = (w.vmallocNext,0) ∨
      (classFor size.toNat = none ∧
        w.vmallocNext + (largePages size.toNat + 1) * pageSize ≤ windowEnd ∧
        answer w.vmallocNext size.toNat backed =
          (w.vmallocNext + (largePages size.toNat + 1) * pageSize,if backed then w.vmallocNext else 0)) := by
  unfold answer
  cases found : classFor size.toNat with
  | some i => exact .inl rfl
  | none =>
      dsimp only
      rcases seenCases h.low h.high (seen found) with refused | ⟨fits,granted⟩
      · rw [refused]
        exact .inl rfl
      · rw [largeBytes] at fits granted
        rw [granted]
        refine .inr ⟨rfl,fits,?_⟩
        cases backed <;> rfl

section Seen
variable {lists : Lists} (h : Inv w lists) (seen : classFor size.toNat = none → SeenBy w (largeCall size.toNat backed))

include h seen in
theorem kmallocPlace (pa : Nat) : w.vmallocNext ≤ (kmalloc w size pa backed).1.vmallocNext ∧
    (kmalloc w size pa backed).1.vmallocNext ≤ windowEnd ∧
    (kmalloc w size pa backed).1.vmallocNext % pageSize = 0 := by
  have next : (kmalloc w size pa backed).1.vmallocNext = (answer w.vmallocNext size.toNat backed).1 := rfl
  rw [next]
  rcases answerCases h seen with none' | ⟨_,fits,granted⟩
  · rw [none']
    exact ⟨Nat.le_refl _,h.high,h.aligned⟩
  · rw [granted]
    exact ⟨Nat.le_add_right _ _,fits,by rw [Nat.add_mul_mod_self_right]; exact h.aligned⟩

include h seen in
theorem kmallocPassed {a : Alloc} {pages : Nat} (live : a ∈ (kmalloc w size pa backed).1.slab.live)
    (block : a.block = .large pages) :
    a ∈ w.slab.live ∨ (a.base = w.vmallocNext ∧ a.extent.stop = (kmalloc w size pa backed).1.vmallocNext) := by
  rcases kmallocLarge live block with old | ⟨found,new,base⟩
  · exact .inl old
  have next : (kmalloc w size pa backed).1.vmallocNext = (answer w.vmallocNext size.toNat backed).1 := rfl
  rw [next]
  rcases answerCases h seen with none' | ⟨_,_,granted⟩
  · have null : (answer w.vmallocNext size.toNat backed).2 = w.vmallocNext := by
      simp only [answer,found,base,Option.getD_some]
    rw [none'] at null
    have low := h.low
    rw [← null] at low
    exact absurd low (show ¬ windowStart ≤ 0 by decide)
  · rw [granted,new]
    exact .inr ⟨rfl,rfl⟩

include h seen in
theorem kmallocValid (ok : PageOk w pa) :
    Slab.Valid w.slab (.kmalloc size.toNat pa (answer w.vmallocNext size.toNat backed).2) := by
  refine ⟨freshPage h ok,fun base => ?_⟩
  rcases answerCases h seen with none' | ⟨_,fits,granted⟩
  · rw [none'] at base
    exact absurd rfl base
  · rw [granted] at base ⊢
    cases backed with
    | false => exact absurd rfl base
    | true => exact freshRange h fits

include h seen in
theorem kmallocKept (ok : PageOk w pa) : ∃ lists', Inv (kmalloc w size pa backed).1 lists' := by
  obtain ⟨slab',stepped,lists',inv⟩ := kmallocInv h.slab (kmallocValid h seen ok)
  have same : slab' = (kmalloc w size pa backed).1.slab := (Option.some.inj stepped).symm
  rw [same] at inv
  obtain ⟨grows,high,aligned⟩ := kmallocPlace h seen pa
  have given : (kmalloc w size pa backed).1.given = w.given := rfl
  refine ⟨lists',⟨inv,h.low.trans grows,high,aligned,kmallocOutside h ok,?_,?_,?_⟩⟩
  · intro a live pages block
    rcases kmallocPassed h seen live block with old | ⟨base,stop⟩
    · exact ⟨(h.large a old pages block).1,(h.large a old pages block).2.trans grows⟩
    · rw [base,stop]
      exact ⟨h.low,Nat.le_refl _⟩
  · intro g mem
    rw [given] at mem
    exact ⟨(h.given g mem).1,(h.given g mem).2.trans grows⟩
  · intro g mem a live pages block
    rw [given] at mem
    rcases kmallocPassed h seen live block with old | ⟨base,_⟩
    · exact h.apart g mem a old pages block
    · refine .inr ?_
      rw [extentStart,base]
      exact (h.given g mem).2

end Seen

end Kmalloc

theorem slabKept {w : World} {lists lists' : Lists} {slab : Slab.World} (h : Inv w lists)
    (inv : SlabHeap.Inv slab lists') (carved : slab.carved = w.slab.carved)
    (live : ∀ a ∈ slab.live, a ∈ w.slab.live) : Inv {w with slab} lists' := by
  refine ⟨inv,h.low,h.high,h.aligned,fun c mem => h.outside c (carved ▸ mem),fun a mem => h.large a (live a mem),
    h.given,fun g hg a mem => h.apart g hg a (live a mem)⟩

theorem releasedRest (w : Slab.World) (heap : Heap) (a : Alloc) :
    (released w heap a).carved = w.carved ∧ (released w heap a).live = w.live.erase a := by
  unfold released
  cases a.block <;> exact ⟨rfl,rfl⟩

theorem vmmAllocKept {w : World} {lists : Lists} {c : Call} (h : Inv w lists) (seen : SeenBy w c) :
    ∃ w', step w (.vmmAlloc c) = some w' ∧ Inv w' lists := by
  refine ⟨_,rfl,?_⟩
  rcases seenCases h.low h.high seen with refused | ⟨fits,granted⟩
  · rw [refused]
    exact ⟨h.slab,h.low,h.high,h.aligned,h.outside,h.large,h.given,h.apart⟩
  · rw [granted]
    have grows : w.vmallocNext ≤ w.vmallocNext + c.bytes := Nat.le_add_right _ _
    have aligned : (w.vmallocNext + c.bytes) % pageSize = 0 := by
      rw [Call.bytes,Nat.add_mul_mod_self_right]
      exact h.aligned
    have large : ∀ a ∈ w.slab.live, ∀ pages, a.block = .large pages →
        windowStart ≤ a.base ∧ a.extent.stop ≤ w.vmallocNext + c.bytes :=
      fun a live pages block => ⟨(h.large a live pages block).1,(h.large a live pages block).2.trans grows⟩
    have given : ∀ g ∈ w.given, windowStart ≤ g.start ∧ g.stop ≤ w.vmallocNext + c.bytes :=
      fun g mem => ⟨(h.given g mem).1,(h.given g mem).2.trans grows⟩
    cases c.backed with
    | false => exact ⟨h.slab,h.low.trans grows,fits,aligned,h.outside,large,given,h.apart⟩
    | true =>
        refine ⟨h.slab,h.low.trans grows,fits,aligned,h.outside,large,fun g mem => ?_,fun g mem a live pages block => ?_⟩
        · rcases List.mem_cons.mp mem with rfl | old
          · exact ⟨h.low,Nat.le_refl _⟩
          · exact given g old
        · rcases List.mem_cons.mp mem with rfl | old
          · exact .inl (h.large a live pages block).2
          · exact h.apart g old a live pages block

theorem stepKept {w : World} {e : Event} (h : ∃ lists, Inv w lists) (valid : Valid w e) :
    ∃ w', step w e = some w' ∧ ∃ lists, Inv w' lists := by
  obtain ⟨lists,h⟩ := h
  cases e with
  | kmalloc size pa backed => exact ⟨_,rfl,kmallocKept h valid.2 valid.1⟩
  | kfree a =>
      obtain ⟨slab',stepped,lists',inv⟩ := kfreeInv h.slab valid
      refine ⟨{w with slab := slab'},by rw [step,stepped]; rfl,lists',?_⟩
      rw [Slab.step] at stepped
      split at stepped
      · cases Option.some.inj stepped
        obtain ⟨carved,live⟩ := releasedRest w.slab _ a
        refine slabKept h inv carved (fun b mem => ?_)
        rw [live] at mem
        exact List.mem_of_mem_erase mem
      · cases stepped
  | write p v =>
      obtain ⟨slab',stepped,lists',inv⟩ := writeInv h.slab valid
      refine ⟨{w with slab := slab'},by rw [step,stepped]; rfl,lists',?_⟩
      cases Option.some.inj stepped
      exact slabKept h inv rfl (fun _ mem => mem)
  | vmmAlloc c =>
      obtain ⟨w',stepped,inv⟩ := vmmAllocKept h valid
      exact ⟨w',stepped,lists,inv⟩

theorem startKept (mem : Nat → Nat) : Inv (start mem) (fun _ => []) :=
  ⟨SlabHeap.startInv mem,Nat.le_refl _,(show windowStart ≤ windowEnd by decide),
    (show windowStart % pageSize = 0 by decide),fun c mem => absurd mem List.not_mem_nil,
    fun a mem => absurd mem List.not_mem_nil,fun g mem => absurd mem List.not_mem_nil,
    fun g mem => absurd mem List.not_mem_nil⟩

theorem classFits {size i : Nat} (found : classFor size = some i) : size ≤ objSize i := by
  have fits := List.find?_some found
  exact of_decide_eq_true fits

theorem fitsSmall {w : World} {size : BitVec 64} (low : windowStart ≤ w.vmallocNext)
    (found : classFor size.toNat = none) (fits : Fits w size) : size.toNat + pageSize ≤ 2^64 := by
  have bound := fits found
  unfold windowEnd at bound
  unfold windowStart at low
  unfold pageSize at *
  omega

theorem fitsSeen {w : World} {size : BitVec 64} (backed : Bool) (low : windowStart ≤ w.vmallocNext)
    (fits : Fits w size) (found : classFor size.toNat = none) : SeenBy w (largeCall size.toNat backed) := by
  intro large
  have bound := fits found
  rw [largeBytes,roundedUp (fitsSmall low found fits)] at large
  exact absurd bound (Nat.not_le.mpr large)

theorem slabPointer (h : Heap) (i : Nat) : (kmallocSlab h i).2 = 0 ∨ 8 ≤ (kmallocSlab h i).2 := by
  unfold kmallocSlab
  dsimp only
  split
  · exact .inl rfl
  · exact .inr (Nat.le_add_left 8 _)

theorem kmallocPointer {w : World} {size : BitVec 64} {pa : Nat} {backed : Bool}
    (returned : (kmalloc w size pa backed).2 ≠ 0) : 8 ≤ (kmalloc w size pa backed).2 := by
  cases found : classFor size.toNat with
  | some i =>
      have place : (kmalloc w size pa backed).2 =
          (kmallocSlab (if w.slab.heap.freelist i = 0 then slabGrow w.slab.heap i pa else w.slab.heap) i).2 := by
        simp only [kmalloc,Slab.kmalloc,found]
      rw [place] at returned ⊢
      exact (slabPointer _ i).resolve_left returned
  | none =>
      rw [(kmallocNext found returned).1]
      exact Nat.le_add_left 8 _

theorem extentEnough {size p : Nat} (past : 8 ≤ p) (small : classFor size = none → size + pageSize ≤ 2^64) :
    Within ⟨p,size⟩ (Alloc.mk (p - 8) (chosen size)).extent := by
  unfold chosen
  cases found : classFor size with
  | some i =>
      have fits := classFits found
      simp only [Within,Alloc.extent,Span.stop,chunk]
      omega
  | none =>
      have enough := roundedEnough (small found)
      simp only [Within,Alloc.extent,Span.stop,Nat.succ_mul]
      unfold pageSize at *
      omega

theorem fitsHolds {w : World} {lists : Lists} {size : BitVec 64} {pa : Nat} {backed : Bool} (h : Inv w lists)
    (ok : PageOk w pa) (returned : (kmalloc w size pa backed).2 ≠ 0) (fits : Fits w size) :
    Holds (kmalloc w size pa backed).1 size (kmalloc w size pa backed).2 := by
  obtain ⟨lists',inv⟩ := kmallocKept h (fitsSeen backed h.low fits) ok
  have live := kmallocLive returned
  have past := kmallocPointer returned
  generalize kmalloc w size pa backed = r at *
  have member : (⟨r.2 - 8,chosen size.toNat⟩ : Alloc) ∈ r.1.slab.live := by
    rw [live]
    exact List.mem_cons_self
  refine ⟨_,_,lists',live,(Nat.sub_add_cancel past).symm,
    extentEnough past (fun found => fitsSmall h.low found fits),?_,invSound inv.slab,fun g mem => ?_⟩
  · have owned := inv.slab.owned _ member
    have large := inv.large _ member
    unfold Mapped
    cases block : chosen size.toNat with
    | slab i =>
        rw [Owned,block] at owned
        exact owned.2.2
    | large pages =>
        obtain ⟨low,below⟩ := large pages block
        rw [block] at below
        exact ⟨low,below.trans inv.high⟩
  · obtain ⟨low,below⟩ := inv.given g mem
    cases block : chosen size.toNat with
    | slab i =>
        rw [block] at member
        exact apartSymm (chunkApart inv (windowApart inv low (below.trans inv.high)) rfl member)
    | large pages =>
        rw [block] at member
        exact inv.apart g mem _ member pages rfl

theorem holdsFits {w : World} {size : BitVec 64} {pa : Nat} {backed : Bool}
    (returned : (kmalloc w size pa backed).2 ≠ 0)
    (holds : Holds (kmalloc w size pa backed).1 size (kmalloc w size pa backed).2) : Fits w size := by
  intro found
  obtain ⟨a,rest,_,live,_,within,mapped,_,_⟩ := holds
  have head := kmallocLive returned
  rw [live,(kmallocNext found returned).1,Nat.add_sub_cancel,chosen,found] at head
  obtain ⟨rfl,_⟩ := List.cons.inj head
  have stop : (Alloc.mk w.vmallocNext (.large (largePages size.toNat))).extent.stop =
      w.vmallocNext + (largePages size.toNat + 1) * pageSize := rfl
  have enough := within.2
  rw [stop,(kmallocNext found returned).1] at enough
  rcases Nat.lt_or_ge (2^64) (size.toNat + pageSize) with wraps | small
  · -- the block is the one page of the cookie
    rw [roundedWrapped wraps size.isLt] at enough
    simp only [cleared,Span.stop] at enough
    unfold pageSize at *
    omega
  · have top := mapped.2
    rw [stop,roundedUp small] at top
    exact top

theorem largeEnoughExact (mem : Nat → Nat) (events : List Event) (guarded : Guarded step Valid (start mem) events) :
    ∃ w, run step (start mem) events = some w ∧ ∀ (size : BitVec 64) (pa : Nat) (backed : Bool), PageOk w pa →
      (kmalloc w size pa backed).2 ≠ 0 →
        (Holds (kmalloc w size pa backed).1 size (kmalloc w size pa backed).2 ↔ Fits w size) := by
  obtain ⟨w,ran,lists,inv⟩ := GuardedRun.guardedReturns (fun w => ∃ lists, Inv w lists)
    (fun _ _ h valid => stepKept h valid) ⟨_,startKept mem⟩ guarded
  exact ⟨w,ran,fun size pa backed ok returned => ⟨holdsFits returned,fitsHolds inv ok returned⟩⟩

def mixed : List Event :=
  [.kmalloc 1000 0x1000000 false,.kmalloc 5000 0 true,.vmmAlloc ⟨4,true⟩,.kmalloc 0x10000 0 true,
    .kfree ⟨0xFFFF000000000000,.large 2⟩]

theorem largeEnoughMixed : ∃ w, run step (start (fun _ => 0)) mixed = some w ∧
    (kmalloc w 9000 0 true).2 = 0xFFFF000000018008 ∧
    Holds (kmalloc w 9000 0 true).1 9000 (kmalloc w 9000 0 true).2 := by
  have facts : (run step (start (fun _ => 0)) mixed).map
      (fun w => ((kmalloc w 9000 0 true).2,decide (Fits w 9000))) = some (0xFFFF000000018008,true) := by
    decide +kernel
  obtain ⟨w,ran,verdict⟩ := largeEnoughExact (fun _ => 0) mixed (by decide +kernel)
  rw [ran] at facts
  simp only [Option.map_some,Option.some.injEq,Prod.mk.injEq,decide_eq_true_eq] at facts
  refine ⟨w,ran,facts.1,(verdict 9000 0 true (fun away => absurd rfl away) ?_).mpr facts.2⟩
  rw [facts.1]
  decide

theorem onePageForAll : (kmalloc (start (fun _ => 0)) 0xFFFFFFFFFFFFFFFF 0 true).2 = 0xFFFF000000000008 ∧
    (kmalloc (start (fun _ => 0)) 0xFFFFFFFFFFFFFFFF 0 true).1.slab.live = [⟨0xFFFF000000000000,.large 0⟩] ∧
    ¬ Holds (kmalloc (start (fun _ => 0)) 0xFFFFFFFFFFFFFFFF 0 true).1 0xFFFFFFFFFFFFFFFF
      (kmalloc (start (fun _ => 0)) 0xFFFFFFFFFFFFFFFF 0 true).2 := by
  have pointer : (kmalloc (start (fun _ => 0)) 0xFFFFFFFFFFFFFFFF 0 true).2 = 0xFFFF000000000008 := by
    decide +kernel
  have live : (kmalloc (start (fun _ => 0)) 0xFFFFFFFFFFFFFFFF 0 true).1.slab.live =
      [⟨0xFFFF000000000000,.large 0⟩] := by decide +kernel
  refine ⟨pointer,live,fun holds => ?_⟩
  obtain ⟨a,rest,_,head,_,within,_⟩ := holds
  rw [live] at head
  obtain ⟨rfl,_⟩ := List.cons.inj head
  rw [pointer] at within
  exact absurd within (by decide +kernel)

end Nekros.KmallocExtent
