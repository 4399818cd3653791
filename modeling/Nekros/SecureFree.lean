import Nekros.SecureMemory

/-! What nk_secure_free reaches. cc_kernel_secure_free hands its pointer to vmm_free whether
or not a region was found, and vmm_unmap takes any address apart: it clears the word it
finds for each page and gives the frame named there to the page allocator. -/
namespace Nekros.SecureFree
open Words (wrap physToVirt)
open Paging (walk index present frame)
open PageTable SecureMemory
open Function (update)
open Sched (Cpu)
open Syscall (Args Answers verdict scrubArg scrubLow)
open GuardedRun (run runInvariant)

def entryOf (s : Mmu) (va : Nat) : Option Nat :=
  (ptNextLevel through s (physToVirt s.pml4 + 8 * index 39 va) false).bind fun pdpt =>
  if pdpt.2 = 0 then some 0 else
  (ptNextLevel through s (pdpt.2 + 8 * index 30 va) false).bind fun pd =>
  if pd.2 = 0 then some 0 else
  (ptNextLevel through s (pd.2 + 8 * index 21 va) false).bind fun pt =>
  if pt.2 = 0 then some 0 else some (pt.2 + 8 * index 12 va)

def Vacant (s : Mmu) (va : Nat) : Prop := ∃ a, entryOf s va = some a ∧ (a = 0 ∨ load through s a = some 0)

theorem nextKeeps {s s' : Mmu} {p v : Nat} (ok : ptNextLevel through s p false = some (s',v)) : s' = s := by
  obtain ⟨e,_,last⟩ := Option.bind_eq_some_iff.mp ok
  split at last
  · cases last
    rfl
  · cases last
    rfl

theorem nextBind {β : Type} (s : Mmu) (p : Nat) (f : Mmu × Nat → Option β) :
    (ptNextLevel through s p false).bind f = (ptNextLevel through s p false).bind fun r => f (s,r.2) := by
  cases next : ptNextLevel through s p false with
  | none => rfl
  | some r =>
      obtain ⟨s',v⟩ := r
      rw [nextKeeps next]
      rfl

theorem unmapPageEntry (s : Mmu) (va : Nat) (freePhys : Bool) :
    unmapPage through s va freePhys =
      (entryOf s va).bind fun a => if a = 0 then some s else clearEntry through s a freePhys := by
  unfold unmapPage entryOf
  rw [nextBind,Option.bind_assoc]
  congr 1
  funext pdpt
  by_cases null : pdpt.2 = 0
  · rw [if_pos null,if_pos null]
    rfl
  rw [if_neg null,if_neg null,nextBind,Option.bind_assoc]
  congr 1
  funext pd
  by_cases null : pd.2 = 0
  · rw [if_pos null,if_pos null]
    rfl
  rw [if_neg null,if_neg null,nextBind,Option.bind_assoc]
  congr 1
  funext pt
  by_cases null : pt.2 = 0
  · rw [if_pos null,if_pos null]
    rfl
  · rw [if_neg null,if_neg null,Option.bind_some,if_neg (by omega)]

theorem clearEntryCases {s t : Mmu} {a : Nat} {freePhys : Bool} (ok : clearEntry through s a freePhys = some t) :
    ∃ pa, walk s.phys s.pml4 a = some pa ∧ load through s a = some (s.phys pa) ∧ t.phys = update s.phys pa 0 ∧
      t.pml4 = s.pml4 ∧ t.answers = s.answers ∧ t.tables = s.tables ∧
      t.freed = if freePhys = true ∧ present (s.phys pa) then frame (s.phys pa)::s.freed else s.freed := by
  obtain ⟨e,loaded,stored⟩ := Option.bind_eq_some_iff.mp ok
  obtain ⟨pa,walked,word⟩ := Option.map_eq_some_iff.mp loaded
  cases word
  refine ⟨pa,walked,loaded,?_⟩
  by_cases frees : freePhys = true ∧ present (s.phys pa)
  · rw [if_pos frees] at stored ⊢
    obtain ⟨pa',walked',same⟩ := Option.map_eq_some_iff.mp stored
    cases Option.some.inj (walked.symm.trans walked')
    cases same
    exact ⟨rfl,rfl,rfl,rfl,rfl⟩
  · rw [if_neg frees] at stored ⊢
    obtain ⟨pa',walked',same⟩ := Option.map_eq_some_iff.mp stored
    cases Option.some.inj (walked.symm.trans walked')
    cases same
    exact ⟨rfl,rfl,rfl,rfl,rfl⟩

structure Lowered (s t : Mmu) : Prop where
  pml4 : t.pml4 = s.pml4
  answers : t.answers = s.answers
  tables : t.tables = s.tables
  words : ∀ a, t.phys a = s.phys a ∨ t.phys a = 0
  freed : s.freed <:+ t.freed

theorem loweredRefl (s : Mmu) : Lowered s s :=
  ⟨rfl,rfl,rfl,fun _ => .inl rfl,List.suffix_refl _⟩

theorem loweredTrans {s t u : Mmu} (first : Lowered s t) (second : Lowered t u) : Lowered s u := by
  refine ⟨second.pml4.trans first.pml4,second.answers.trans first.answers,second.tables.trans first.tables,?_,
    first.freed.trans second.freed⟩
  intro a
  rcases second.words a with same | zero
  · rw [same]
    exact first.words a
  · exact .inr zero

theorem loweredBack {s t : Mmu} (h : Lowered s t) (back : Lowered t s) : t = s := by
  have phys : t.phys = s.phys := by
    funext a
    rcases h.words a with same | zero
    · exact same
    · rcases back.words a with same | zero'
      · exact same.symm
      · rw [zero,zero']
  have freed : t.freed = s.freed := (h.freed.eq_of_length_le back.freed.length_le).symm
  cases s
  cases t
  cases phys
  cases freed
  cases h.pml4
  cases h.answers
  cases h.tables
  rfl

theorem unmapPageLowered {s t : Mmu} {va : Nat} {freePhys : Bool} (ok : unmapPage through s va freePhys = some t) :
    Lowered s t := by
  rw [unmapPageEntry] at ok
  obtain ⟨a,_,last⟩ := Option.bind_eq_some_iff.mp ok
  split at last
  · cases last
    exact loweredRefl s
  · obtain ⟨pa,_,_,phys,pml4,answers,tables,freed⟩ := clearEntryCases last
    refine ⟨pml4,answers,tables,fun x => ?_,?_⟩
    · rw [phys]
      by_cases here : x = pa
      · subst here
        exact .inr (Function.update_self _ _ _)
      · exact .inl (Function.update_of_ne here _ _)
    · rw [freed]
      split
      · exact List.suffix_cons _ _
      · exact List.suffix_refl _

theorem unmapPagesLowered {virt left i : Nat} {freePhys : Bool} {s t : Mmu}
    (ok : unmapPages through virt freePhys left i s = some t) : Lowered s t := by
  induction left generalizing i s with
  | zero =>
      cases ok
      exact loweredRefl _
  | succ left ih =>
      obtain ⟨u,first,rest⟩ := Option.bind_eq_some_iff.mp ok
      exact loweredTrans (unmapPageLowered first) (ih rest)

theorem walkLess {f g : Nat → Nat} {root va pa : Nat} (less : ∀ a, f a = g a ∨ f a = 0)
    (walked : walk f root va = some pa) : walk g root va = some pa := by
  have same : ∀ {t i}, present (Paging.entry f t i) → Paging.entry g t i = Paging.entry f t i := by
    intro t i there
    rcases less (t + 8 * i) with eq | zero
    · exact eq.symm
    · rw [Paging.entry,zero] at there
      exact absurd rfl there
  unfold walk at walked ⊢
  split at walked
  · cases walked
  · next canonical =>
    rw [if_neg canonical]
    dsimp only at walked ⊢
    split at walked
    · cases walked
    · next first =>
      obtain ⟨there,_⟩ := not_or.mp first
      rw [same (not_not.mp there),if_neg first]
      split at walked
      · cases walked
      · next second =>
        rw [same (not_not.mp second),if_neg second]
        split at walked
        · next whole =>
          rw [if_pos whole]
          exact walked
        · next small =>
          rw [if_neg small]
          split at walked
          · cases walked
          · next third =>
            rw [same (not_not.mp third),if_neg third]
            split at walked
            · next whole =>
              rw [if_pos whole]
              exact walked
            · next small =>
              rw [if_neg small]
              unfold Paging.leaf at walked ⊢
              split at walked
              · next last =>
                rw [same last,if_pos last]
                exact walked
              · cases walked

theorem nextLess {s u : Mmu} {p : Nat} {r : Mmu × Nat} (h : Lowered s u)
    (found : ptNextLevel through u p false = some r) (some' : r.2 ≠ 0) :
    ptNextLevel through s p false = some (s,r.2) := by
  obtain ⟨e,loaded,last⟩ := Option.bind_eq_some_iff.mp found
  obtain ⟨pa,walked,rfl⟩ := Option.map_eq_some_iff.mp loaded
  have walked' : walk s.phys s.pml4 p = some pa := walkLess h.words (h.pml4 ▸ walked)
  split at last
  · next there =>
    cases last
    have word : s.phys pa = u.phys pa := by
      rcases h.words pa with eq | zero
      · exact eq.symm
      · rw [zero] at there
        exact absurd rfl there
    have loaded' : load through s p = some (u.phys pa) := Option.map_eq_some_iff.mpr ⟨pa,walked',word⟩
    rw [ptNextLevel,loaded',Option.bind_some,if_pos there]
  · cases last
    exact absurd rfl some'

theorem entryLess {s u : Mmu} {va p : Nat} (h : Lowered s u) (found : entryOf u va = some p) (some' : p ≠ 0) :
    entryOf s va = some p := by
  unfold entryOf at found ⊢
  rw [← h.pml4]
  obtain ⟨pdpt,first,found⟩ := Option.bind_eq_some_iff.mp found
  split at found
  · cases found
    exact absurd rfl some'
  next one =>
  obtain ⟨pd,second,found⟩ := Option.bind_eq_some_iff.mp found
  split at found
  · cases found
    exact absurd rfl some'
  next two =>
  obtain ⟨pt,third,found⟩ := Option.bind_eq_some_iff.mp found
  split at found
  · cases found
    exact absurd rfl some'
  next three =>
  rw [nextLess h first one,Option.bind_some,if_neg one,nextLess h second two,Option.bind_some,if_neg two,
    nextLess h third three,Option.bind_some,if_neg three]
  exact found

def clearedWord (s : Mmu) (va : Nat) : Option Nat :=
  (entryOf s va).bind fun p => if p = 0 then none else walk s.phys s.pml4 p

theorem clearedLess {s u : Mmu} {va pa : Nat} (h : Lowered s u) (clears : clearedWord u va = some pa) :
    clearedWord s va = some pa := by
  obtain ⟨p,found,walked⟩ := Option.bind_eq_some_iff.mp clears
  split at walked
  · cases walked
  · next some' =>
    refine Option.bind_eq_some_iff.mpr ⟨p,entryLess h found some',?_⟩
    rw [if_neg some']
    exact walkLess h.words (h.pml4 ▸ walked)

theorem unmapPageWords {s t : Mmu} {va : Nat} {freePhys : Bool} (ok : unmapPage through s va freePhys = some t)
    (pa : Nat) : t.phys pa = s.phys pa ∨ clearedWord s va = some pa := by
  rw [unmapPageEntry] at ok
  obtain ⟨p,found,last⟩ := Option.bind_eq_some_iff.mp ok
  split at last
  · cases last
    exact .inl rfl
  · next some' =>
    obtain ⟨pa',walked,_,phys,_⟩ := clearEntryCases last
    by_cases here : pa = pa'
    · refine .inr (Option.bind_eq_some_iff.mpr ⟨p,found,?_⟩)
      rw [if_neg some',walked,here]
    · rw [phys]
      exact .inl (Function.update_of_ne here _ _)

theorem unmapPagesWords {virt left i : Nat} {freePhys : Bool} {s t : Mmu}
    (ok : unmapPages through virt freePhys left i s = some t) (pa : Nat) :
    t.phys pa = s.phys pa ∨ ∃ j, i ≤ j ∧ j < i + left ∧ clearedWord s (pageAt virt j) = some pa := by
  induction left generalizing i s with
  | zero =>
      cases ok
      exact .inl rfl
  | succ left ih =>
      obtain ⟨u,first,rest⟩ := Option.bind_eq_some_iff.mp ok
      rcases ih rest with same | ⟨j,low,high,clears⟩
      · rcases unmapPageWords first pa with same' | clears
        · exact .inl (same.trans same')
        · exact .inr ⟨i,Nat.le_refl i,by omega,clears⟩
      · exact .inr ⟨j,by omega,by omega,clearedLess (unmapPageLowered first) clears⟩

theorem zeroClear {s : Mmu} {a : Nat} (zero : load through s a = some 0) (freePhys : Bool) :
    clearEntry through s a freePhys = some s := by
  obtain ⟨pa,walked,word⟩ := Option.map_eq_some_iff.mp zero
  have absent : ¬ (freePhys = true ∧ present 0) := fun both => both.2 rfl
  rw [clearEntry,zero,Option.bind_some,if_neg absent,store,walked,Option.map_some,← word,Function.update_eq_self]

theorem clearSame {s : Mmu} {a : Nat} {freePhys : Bool} :
    clearEntry through s a freePhys = some s ↔ load through s a = some 0 := by
  constructor
  · intro ok
    obtain ⟨pa,_,loaded,phys,_⟩ := clearEntryCases ok
    rw [loaded,phys,Function.update_self]
  · exact fun zero => zeroClear zero freePhys

theorem unmapPageSame {s : Mmu} {va : Nat} {freePhys : Bool} :
    unmapPage through s va freePhys = some s ↔ Vacant s va := by
  rw [unmapPageEntry,Option.bind_eq_some_iff]
  refine exists_congr fun a => and_congr_right fun _ => ?_
  by_cases null : a = 0
  · rw [if_pos null]
    exact iff_of_true rfl (.inl null)
  · rw [if_neg null,clearSame]
    exact ⟨.inr,fun either => either.resolve_left null⟩

theorem unmapPagesSame {virt left i : Nat} {freePhys : Bool} {s : Mmu} :
    unmapPages through virt freePhys left i s = some s ↔ ∀ j, i ≤ j → j < i + left → Vacant s (pageAt virt j) := by
  induction left generalizing i with
  | zero => exact iff_of_true rfl (fun j low high => by omega)
  | succ left ih =>
      constructor
      · intro ok j low high
        obtain ⟨t,first,rest⟩ := Option.bind_eq_some_iff.mp ok
        cases loweredBack (unmapPageLowered first) (unmapPagesLowered rest)
        by_cases here : j = i
        · subst here
          exact unmapPageSame.mp first
        · exact ih.mp rest j (by omega) (by omega)
      · intro vacant
        refine Option.bind_eq_some_iff.mpr ⟨s,unmapPageSame.mpr (vacant i (Nat.le_refl i) (by omega)),?_⟩
        exact ih.mpr fun j low high => vacant j (by omega) (by omega)

theorem freeOutside {accessible : Nat → Nat → Bool} {w : World} {ptr : Nat}
    (outside : ∀ r ∈ w.regions, r.active = true → r.vaddr ≠ ptr) (pages : Nat) :
    ccKernelSecureFree accessible w ptr pages = if ptr = 0 then some w else vmmFree w ptr pages := by
  have missed : w.regions.findIdx? (fun r => r.active && r.vaddr == ptr) = none := by
    rw [List.findIdx?_eq_none_iff]
    intro r member
    rw [Bool.and_eq_false_iff,beq_eq_false_iff_ne]
    cases active : r.active with
    | false => exact .inl rfl
    | true => exact .inr (outside r member active)
  rw [ccKernelSecureFree,eraseRegion,missed]
  rfl

theorem vmmFreeSame {w : World} {ptr pages : Nat} :
    vmmFree w ptr pages = some w ↔ ∀ i < pages, Vacant w.mmu (pageAt ptr i) := by
  have whole : vmmFree w ptr pages = some w ↔ unmapPages through ptr true pages 0 w.mmu = some w.mmu := by
    constructor
    · exact fun ok => (vmmFreeCases ok).1
    · intro ok
      rw [vmmFree,vmmUnmap,ok,Option.map_some]
  rw [whole,unmapPagesSame]
  constructor
  · exact fun vacant i less => vacant i (Nat.zero_le i) (by omega)
  · exact fun vacant i _ less => vacant i (by omega)

theorem freeSame (accessible : Nat → Nat → Bool) {w : World} {ptr pages : Nat}
    (outside : ∀ r ∈ w.regions, r.active = true → r.vaddr ≠ ptr) :
    ccKernelSecureFree accessible w ptr pages = some w ↔
      ptr = 0 ∨ ∀ i < pages, Vacant w.mmu (pageAt ptr i) := by
  rw [freeOutside outside]
  by_cases null : ptr = 0
  · rw [if_pos null]
    exact iff_of_true rfl (.inl null)
  · rw [if_neg null,vmmFreeSame]
    exact ⟨.inr,fun either => either.resolve_left null⟩

theorem secureFreeExact (hmac : Aes.Key → List Bytes.Byte → Aes.Key) (accessible : Nat → Nat → Bool)
    (start : Start) (events : List SecureMemory.Event) (s : System)
    (ran : run (SecureMemory.step hmac accessible) start.system events = some s) (cpu : Cpu) (nr : Nat) (a : Args)
    (outside : Answers) (decided : verdict s.kernel cpu nr = .call .nkSecureFree) :
    (∀ r ∈ s.world.regions, r.active = true → r.vaddr ≠ scrubArg a.a1) ∧
    (dispatch hmac accessible s cpu nr a outside = some (s,some 0) ↔
      scrubArg a.a1 = 0 ∨ ∀ i < scrubArg a.a2, Vacant s.world.mmu (pageAt (scrubArg a.a1) i)) := by
  have inv := runInvariant (SecureMemory.Inv hmac) stepInv (startInv hmac start) ran
  have away := outsideWindow inv (scrubLow a.a1)
  refine ⟨away,?_⟩
  rw [← freeSame accessible away]
  simp only [dispatch,decided,sysNkSecureFree,Option.map_map,Option.map_eq_some_iff]
  constructor
  · rintro ⟨w,freed,same⟩
    have back : w = s.world := congrArg (fun r => r.1.world) same
    rw [back] at freed
    exact freed
  · exact fun freed => ⟨s.world,freed,rfl⟩

theorem secureFreeExactUnmapped : dispatch CcProc.plainHmac everywhere sampleStart.system 0 45
    ⟨0x8000000000,1,0,0,0⟩ quiet = some (sampleStart.system,some 0) := by
  have exact_ := secureFreeExact CcProc.plainHmac everywhere sampleStart [] sampleStart.system rfl 0 45
    ⟨0x8000000000,1,0,0,0⟩ quiet (by decide)
  refine exact_.2.mpr (.inr fun i less => ⟨0,?_,.inl rfl⟩)
  cases Nat.lt_one_iff.mp less
  decide +kernel

def kernelWord : Start := {sampleStart with
  mmu := ⟨update bootWords 0x200000 0x1800003,0x101000,[],[0x101000,0x102000,0x103000,0x104000],[]⟩}

theorem freeClearsKernelWord : ∃ s, dispatch CcProc.plainHmac everywhere kernelWord.system 0 45
    ⟨0x200000,1,0,0,0⟩ quiet = some (s,some 0) ∧ (∀ r ∈ kernelWord.system.world.regions, r.active = false) ∧
    kernelWord.system.world.mmu.phys 0x200000 = 0x1800003 ∧ s.world.mmu.phys 0x200000 = 0 ∧
    kernelWord.system.world.mmu.freed = [] ∧ s.world.mmu.freed = [0x1800000] := by
  have ends : (dispatch CcProc.plainHmac everywhere kernelWord.system 0 45 ⟨0x200000,1,0,0,0⟩ quiet).map (fun r =>
      (r.2,r.1.world.mmu.phys 0x200000,r.1.world.mmu.freed)) = some (some 0,0,[0x1800000]) := by
    decide +kernel
  obtain ⟨⟨s,v⟩,called,facts⟩ := Option.map_eq_some_iff.mp ends
  simp only [Prod.mk.injEq] at facts
  obtain ⟨rfl,word,freed⟩ := facts
  refine ⟨s,called,fun r member => ?_,rfl,word,rfl,freed⟩
  rw [List.eq_of_mem_replicate member]
  rfl

end Nekros.SecureFree
