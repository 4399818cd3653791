import Nekros.SlabHeap

/-! A block freed a second time. The poison that marks a freed block stands in the
word that takes the free-list link a moment later, so what a second kfree reads is
the head its list had at the first one. -/
namespace Nekros.DoubleFree
open Words LinkStack Slab SlabHeap

def Caught (w : World) (f : Freed) : Prop := ∃ why, kfree w.heap (f.base + 8) = .panic why w.heap

theorem readCookieLink {x : Nat} (nonzero : x ≠ 0) (aligned : x % 8 = 0) :
    readCookie x = .error .invalidCookie := by
  have low : x &&& 0xFF ≠ slabLargeCookie := by
    rw [show (0xFF:Nat) = 2^8 - 1 from rfl,Nat.and_two_pow_sub_one_eq_mod]
    unfold slabLargeCookie
    omega
  have unpoisoned : x ≠ slabPoison := by
    unfold slabPoison
    omega
  have big : slabSizes ≤ x := by
    unfold slabSizes
    omega
  unfold readCookie
  rw [if_neg unpoisoned,if_neg low,if_pos big]

theorem freedLink {w : World} {lists : Lists} (h : Inv w lists) {f : Freed} (freed : f ∈ w.freed) :
    w.heap.mem f.base = f.head ∧ (f.head ≠ 0 → f.head % 8 = 0) := by
  obtain ⟨cls,listed,link⟩ := h.freed f freed
  refine ⟨link,fun nonzero => ?_⟩
  rcases linkedNext (h.linked f.cls cls) f.base listed with null | next
  · exact absurd (link.symm.trans null) nonzero
  · rw [← link]
    exact carvedAligned h cls (h.placed f.cls cls _ next)

theorem freedPtr {w : World} {lists : Lists} (h : Inv w lists) {f : Freed} (freed : f ∈ w.freed) :
    sub64 (f.base + 8) 8 = f.base := by
  obtain ⟨cls,listed,_⟩ := h.freed f freed
  exact cookiePtrOf (carvedRoom h cls (h.placed f.cls cls f.base listed))

theorem kfreePanics {h : Heap} {ptr : Nat} (nonzero : ptr ≠ 0) :
    (∃ why, kfree h ptr = .panic why h) ↔ ∃ why, readCookie (h.mem (sub64 ptr 8)) = .error why := by
  unfold kfree
  rw [if_neg nonzero]
  cases read : readCookie (h.mem (sub64 ptr 8)) with
  | error why => simp only [read]; exact ⟨fun _ => ⟨why,rfl⟩,fun _ => ⟨why,rfl⟩⟩
  | ok block => cases block <;> simp [read]

theorem doubleFreeExact (mem : Nat → Nat) (events : List Event) (w : World)
    (valid : GuardedRun.Guarded step Valid (start mem) events)
    (ran : GuardedRun.run step (start mem) events = some w) (f : Freed) (freed : f ∈ w.freed) :
    Caught w f ↔ f.head ≠ 0 := by
  obtain ⟨w',ran',lists,h⟩ := runInv valid
  obtain rfl : w' = w := Option.some.inj (ran'.symm.trans ran)
  obtain ⟨link,aligned⟩ := freedLink h freed
  unfold Caught
  rw [kfreePanics (Nat.succ_ne_zero _),freedPtr h freed,link]
  constructor
  · rintro ⟨why,refused⟩ null
    rw [null,readCookieSlab 0 (by decide)] at refused
    cases refused
  · exact fun nonzero => ⟨.invalidCookie,readCookieLink nonzero (aligned nonzero)⟩

def threeChunks : List Event :=
  [.kmalloc 1000 0x1000000 0,.kfree ⟨physToVirt 0x1000810,.slab 6⟩]

theorem doubleFreeExactThreeChunks :
    ∃ w, GuardedRun.run step (start (fun _ => 0)) threeChunks = some w ∧
      (Caught w ⟨physToVirt 0x1000810,6,physToVirt 0x1000408⟩ ↔ physToVirt 0x1000408 ≠ 0) := by
  have records : (GuardedRun.run step (start (fun _ => 0)) threeChunks).map World.freed =
      some [⟨physToVirt 0x1000810,6,physToVirt 0x1000408⟩] := by decide +kernel
  obtain ⟨w,ran,freed⟩ := Option.map_eq_some_iff.mp records
  exact ⟨w,ran,doubleFreeExact _ threeChunks w (by decide +kernel) ran _ (by rw [freed]; simp)⟩

def oneChunk : List Event :=
  [.kmalloc 2048 0x1000000 0,.kfree ⟨physToVirt 0x1000000,.slab 7⟩]

theorem oneChunkUncaught : ∃ w, GuardedRun.run step (start (fun _ => 0)) oneChunk = some w ∧
    GuardedRun.Guarded step Valid (start (fun _ => 0)) oneChunk ∧
    w.freed = [⟨physToVirt 0x1000000,7,0⟩] ∧ ¬ Caught w ⟨physToVirt 0x1000000,7,0⟩ ∧
    w.heap.freelist 0 = 0 ∧
    (kfree w.heap (physToVirt 0x1000000 + 8)).heap.freelist 0 = physToVirt 0x1000000 ∧
    (kfree w.heap (physToVirt 0x1000000 + 8)).heap.freelist 7 = physToVirt 0x1000000 := by
  have evaluated : (GuardedRun.run step (start (fun _ => 0)) oneChunk).map (fun w =>
      let again := kfree w.heap (physToVirt 0x1000000 + 8)
      (w.freed,again.panics,w.heap.freelist 0,again.heap.freelist 0,again.heap.freelist 7)) =
      some ([⟨physToVirt 0x1000000,7,0⟩],false,0,physToVirt 0x1000000,physToVirt 0x1000000) := by
    decide +kernel
  obtain ⟨w,ran,facts⟩ := Option.map_eq_some_iff.mp evaluated
  simp only [Prod.mk.injEq] at facts
  obtain ⟨freed,returned,heads⟩ := facts
  refine ⟨w,ran,by decide +kernel,freed,?_,heads⟩
  rintro ⟨why,panicked⟩
  rw [panicked] at returned
  cases returned

end Nekros.DoubleFree
