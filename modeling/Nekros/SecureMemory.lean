import Mathlib.Data.List.Nodup
import Nekros.CcProc
import Nekros.PageTable
import Nekros.GuardedRun

/-! Secure memory: cc_kernel_secure_alloc and cc_kernel_secure_free of
drivers/cortexcrypto/core/cc_proc.c, vmm_alloc of mm/vmm.c under them, and the system
calls nk_secure_alloc and nk_secure_free over them. `bytes` is what the kernel finds
behind a pointer into the window of vmm_alloc; `accessible` says which ranges the
processor lets it touch, and an access to any other faults. -/
namespace Nekros.SecureMemory
open Errno
open Words (wrap pageSize)
open Bytes (Byte littleEndian)
open Aes (Key)
open PageTable (Mmu pmmAllocPage through vmmMap vmmUnmap vmmWrite pageAt)
open Sched (Cpu)
open Syscall (Kernel Args Answers verdict scrubArg scrubLow scrubbed low32 failure userAddrMax)
open GuardedRun (run runInvariant)

def maxSecureRegions : Nat := 64

structure Region where
  vaddr : Nat
  pages : Nat
  policy : Nat
  dek : Key
  active : Bool

def zeroKey : Key := Vector.replicate 32 0

/- `cc` holds the other statics of cc_proc.c and vmalloc_next. -/
structure World where
  cc : CcProc.State
  regions : List Region
  mmu : Mmu
  bytes : Nat → Byte

def backPages (virt flags : Nat) : (left i : Nat) → Mmu → Option (Mmu × Bool)
  | 0,_,s => some (s,true)
  | left+1,i,s =>
      let taken := pmmAllocPage s
      if taken.2 = 0 then some (taken.1,false) else
      (vmmMap through taken.1 (pageAt virt i) taken.2 1 flags).bind fun r =>
        if r.2 < 0 then some (r.1,false) else backPages virt flags left (i+1) r.1

def vmmAlloc (w : World) (pages flags : Nat) : Option (World × Option Nat) :=
  match CcProc.vmmAlloc w.cc pages true with
  | (_,none) => some (w,none)
  | (cc,some virt) =>
      (backPages virt flags pages 0 w.mmu).bind fun r =>
        if r.2 then some ({w with cc,mmu := r.1},some virt)
        else (vmmUnmap through r.1 virt pages true).map fun mmu => ({w with cc,mmu},none)

def vmmFree (w : World) (ptr pages : Nat) : Option World :=
  (vmmUnmap through w.mmu ptr pages true).map fun mmu => {w with mmu}

def cleared (bytes : Nat → Byte) (ptr len : Nat) : Nat → Byte :=
  fun a => if ptr ≤ a ∧ a < ptr + len then 0 else bytes a

def dekInput (mem pages : Nat) : List Byte :=
  littleEndian 8 (BitVec.ofNat 64 mem) ++ littleEndian 8 (BitVec.ofNat 64 pages)

def erased (r : Region) : Region := {r with dek := zeroKey,active := false}

section Machine
variable (hmac : Key → List Byte → Key) (accessible : Nat → Nat → Bool)

def memset (w : World) (ptr len : Nat) : Option World :=
  if accessible ptr len then some {w with bytes := cleared w.bytes ptr len} else none

def ccKernelSecureAlloc (w : World) (pages policy : Nat) : Option (World × Option Nat) :=
  if !w.cc.ready then some (w,none) else
  (vmmAlloc w pages vmmWrite).bind fun r =>
  match r.2 with
  | none => some (r.1,none)
  | some mem =>
      (memset accessible r.1 mem (wrap (pages * pageSize))).bind fun w =>
      match w.regions.findIdx? (fun r => !r.active) with
      | none => (vmmFree w mem pages).map fun w => (w,none)
      | some i =>
          let dek := hmac w.cc.secureAllocKey (dekInput mem pages)
          some ({w with regions := w.regions.set i ⟨mem,pages,policy,dek,true⟩},some mem)

def eraseRegion (w : World) (ptr pages : Nat) : Option World :=
  match w.regions.findIdx? (fun r => r.active && r.vaddr == ptr) with
  | none => some w
  | some i => (memset accessible w ptr (wrap (pages * pageSize))).map fun w =>
      {w with regions := w.regions.modify i erased}

def ccKernelSecureFree (w : World) (ptr pages : Nat) : Option World :=
  if ptr = 0 then some w else (eraseRegion accessible w ptr pages).bind fun w => vmmFree w ptr pages

def sysNkSecureAlloc (w : World) (pages policy : Nat) : Option (World × Nat) :=
  if pages = 0 ∨ 4096 < pages then some (w,failure einval) else
  (ccKernelSecureAlloc hmac accessible w pages (low32 policy)).map fun r =>
    (r.1,r.2.getD (failure enomem))

def sysNkSecureFree (w : World) (ptr pages : Nat) : Option (World × Nat) :=
  (ccKernelSecureFree accessible w ptr pages).map fun w => (w,0)

/- `given` records the addresses nk_secure_alloc has returned, each with its page count. -/
structure System where
  kernel : Kernel
  world : World
  given : List (Nat × Nat)

def isError (v : Nat) : Bool := decide (2^64 - 4096 ≤ v)

def record (given : List (Nat × Nat)) (v pages : Nat) : List (Nat × Nat) :=
  if isError v then given else (v,pages)::given

def dispatch (s : System) (cpu : Cpu) (nr : Nat) (a : Args) (outside : Answers) : Option (System × Option Nat) :=
  match verdict s.kernel cpu nr with
  | .call .nkSecureAlloc =>
      (sysNkSecureAlloc hmac accessible s.world (scrubbed a).a1 (scrubbed a).a2).map fun r =>
        (⟨s.kernel,r.1,record s.given r.2 (scrubbed a).a1⟩,some r.2)
  | .call .nkSecureFree =>
      (sysNkSecureFree accessible s.world (scrubbed a).a1 (scrubbed a).a2).map fun r =>
        ({s with world := r.1},some r.2)
  | _ => (Syscall.dispatch s.kernel cpu nr a outside).map fun r => ({s with kernel := r.1},r.2)

/- `other` is the rest of the kernel: it maps, unmaps and writes what it likes and takes
from the window. -/
inductive Event where
  | syscall (cpu : Cpu) (nr : Nat) (a : Args) (outside : Answers)
  | kernel (k : Kernel)
  | other (mmu : Mmu) (bytes : Nat → Byte) (next : Nat)

def step (s : System) : Event → Option System
  | .syscall cpu nr a outside => (dispatch hmac accessible s cpu nr a outside).map Prod.fst
  | .kernel k => some {s with kernel := k}
  | .other mmu bytes next =>
      if s.world.cc.vmallocNext ≤ next ∧ next ≤ 0xFFFF008000000000 then
        let world : World := {s.world with mmu,bytes,cc := {s.world.cc with vmallocNext := next}}
        some {s with world}
      else none

end Machine

theorem dispatchAgrees {hmac : Key → List Byte → Key} {accessible : Nat → Nat → Bool} {s s' : System}
    {cpu : Cpu} {nr : Nat} {a : Args} {outside : Answers} {v : Option Nat}
    (ok : dispatch hmac accessible s cpu nr a outside = some (s',v)) :
    ∃ result, Syscall.dispatch s.kernel cpu nr a {outside with result} = some (s'.kernel,v) := by
  unfold dispatch at ok
  split at ok
  · rename_i decided
    obtain ⟨⟨w,value⟩,_,same⟩ := Option.map_eq_some_iff.mp ok
    cases same
    refine ⟨value,?_⟩
    rw [Syscall.dispatch,decided]
    rfl
  · rename_i decided
    obtain ⟨⟨w,value⟩,_,same⟩ := Option.map_eq_some_iff.mp ok
    cases same
    refine ⟨value,?_⟩
    rw [Syscall.dispatch,decided]
    rfl
  · obtain ⟨⟨k,value⟩,called,same⟩ := Option.map_eq_some_iff.mp ok
    cases same
    exact ⟨outside.result,called⟩

def unusedRegion : Region := ⟨0,0,0,zeroKey,false⟩

structure Start where
  kernel : Kernel
  cc : CcProc.State
  mmu : Mmu
  bytes : Nat → Byte
  window : 0xFFFF000000000000 ≤ cc.vmallocNext ∧ cc.vmallocNext ≤ 0xFFFF008000000000

def Start.system (s : Start) : System :=
  ⟨s.kernel,⟨s.cc,List.replicate maxSecureRegions unusedRegion,s.mmu,s.bytes⟩,[]⟩

structure Released (w w' : World) (g : Nat × Nat) : Prop where
  zeroed : ∀ a, g.1 ≤ a → a < g.1 + g.2 * pageSize → w'.bytes a = 0
  record : ∃ i r, w.regions[i]? = some r ∧ r.active = true ∧ (r.vaddr,r.pages) = g ∧
    w'.regions = w.regions.set i (erased r)
  frames : vmmUnmap through w.mmu g.1 g.2 true = some w'.mmu

structure Refused (w w' : World) : Prop where
  regions : w'.regions = w.regions
  cc : ∃ next, w.cc.vmallocNext ≤ next ∧ next ≤ 0xFFFF008000000000 ∧ w'.cc = {w.cc with vmallocNext := next}

structure Allocated (hmac : Key → List Byte → Key) (w w' : World) (pages policy i : Nat) : Prop where
  room : w.cc.vmallocNext + pages * 4096 ≤ 0xFFFF008000000000
  cc : w'.cc = {w.cc with vmallocNext := w.cc.vmallocNext + pages * 4096}
  unused : ∃ r, w.regions[i]? = some r ∧ r.active = false
  regions : w'.regions = w.regions.set i ⟨w.cc.vmallocNext,pages,policy,
    hmac w.cc.secureAllocKey (dekInput w.cc.vmallocNext pages),true⟩

theorem vmmAllocReserved {w w' : World} {pages flags : Nat} {p : Option Nat} (few : pages ≤ 4096)
    (bound : w.cc.vmallocNext ≤ 0xFFFF008000000000) (ok : vmmAlloc w pages flags = some (w',p)) :
    w'.regions = w.regions ∧ ((w'.cc = w.cc ∧ p = none) ∨
      (w.cc.vmallocNext + pages * 4096 ≤ 0xFFFF008000000000 ∧
        w'.cc = {w.cc with vmallocNext := w.cc.vmallocNext + pages * 4096} ∧
        (p = none ∨ p = some w.cc.vmallocNext))) := by
  rcases CcProc.vmmAllocCases few true bound with full | ⟨room,reserved⟩
  · simp only [vmmAlloc,full] at ok
    cases ok
    exact ⟨rfl,.inl ⟨rfl,rfl⟩⟩
  · simp only [vmmAlloc,reserved,if_true] at ok
    obtain ⟨⟨mmu,backed⟩,_,last⟩ := Option.bind_eq_some_iff.mp ok
    cases backed with
    | true =>
        cases last
        exact ⟨rfl,.inr ⟨room,rfl,.inr rfl⟩⟩
    | false =>
        obtain ⟨mmu',_,same⟩ := Option.map_eq_some_iff.mp last
        cases same
        exact ⟨rfl,.inr ⟨room,rfl,.inl rfl⟩⟩

theorem memsetCases {accessible : Nat → Nat → Bool} {w w' : World} {ptr len : Nat}
    (ok : memset accessible w ptr len = some w') :
    accessible ptr len = true ∧ w' = {w with bytes := cleared w.bytes ptr len} := by
  unfold memset at ok
  split at ok
  · rename_i yes
    exact ⟨yes,(Option.some.inj ok).symm⟩
  · cases ok

theorem vmmFreeCases {w w' : World} {ptr pages : Nat} (ok : vmmFree w ptr pages = some w') :
    vmmUnmap through w.mmu ptr pages true = some w'.mmu ∧ w' = {w with mmu := w'.mmu} := by
  obtain ⟨mmu,unmapped,same⟩ := Option.map_eq_some_iff.mp ok
  cases same
  exact ⟨unmapped,rfl⟩

theorem allocCases {hmac : Key → List Byte → Key} {accessible : Nat → Nat → Bool} {w w' : World}
    {pages policy : Nat} {p : Option Nat} (few : pages ≤ 4096)
    (bound : w.cc.vmallocNext ≤ 0xFFFF008000000000)
    (ok : ccKernelSecureAlloc hmac accessible w pages policy = some (w',p)) :
    (p = none ∧ Refused w w') ∨
      (p = some w.cc.vmallocNext ∧ accessible w.cc.vmallocNext (wrap (pages * pageSize)) = true ∧
        ∃ i, Allocated hmac w w' pages policy i) := by
  unfold ccKernelSecureAlloc at ok
  split at ok
  · cases ok
    exact .inl ⟨rfl,rfl,_,Nat.le_refl _,bound,rfl⟩
  obtain ⟨⟨w1,q⟩,reserved,rest⟩ := Option.bind_eq_some_iff.mp ok
  obtain ⟨regions,answers⟩ := vmmAllocReserved few bound reserved
  cases q with
  | none =>
      cases rest
      refine .inl ⟨rfl,regions,?_⟩
      rcases answers with ⟨cc,_⟩ | ⟨room,cc,_⟩
      · exact ⟨_,Nat.le_refl _,bound,cc⟩
      · exact ⟨_,Nat.le_add_right _ _,room,cc⟩
  | some mem =>
      rcases answers with ⟨_,none⟩ | ⟨room,cc,none | here⟩
      · cases none
      · cases none
      cases here
      obtain ⟨w2,zeroed,rest⟩ := Option.bind_eq_some_iff.mp rest
      obtain ⟨open_,rfl⟩ := memsetCases zeroed
      dsimp only at rest
      cases found : w1.regions.findIdx? (fun r => !r.active) with
      | none =>
          rw [found] at rest
          obtain ⟨w3,freed,same⟩ := Option.map_eq_some_iff.mp rest
          cases same
          obtain ⟨_,left⟩ := vmmFreeCases freed
          rw [left]
          exact .inl ⟨rfl,regions,_,Nat.le_add_right _ _,room,cc⟩
      | some i =>
          rw [found] at rest
          cases rest
          rw [regions] at found
          obtain ⟨inside,inactive,_⟩ := List.findIdx?_eq_some_iff_getElem.mp found
          refine .inr ⟨rfl,open_,i,room,cc,⟨_,List.getElem?_eq_getElem inside,by simpa using inactive⟩,?_⟩
          dsimp only
          rw [regions,cc]

inductive Freed (w : World) (ptr pages : Nat) : World → Prop
  | null (zero : ptr = 0) : Freed w ptr pages w
  | missed {mmu : Mmu} (nonzero : ptr ≠ 0)
      (missing : ∀ r ∈ w.regions, r.active = true → r.vaddr ≠ ptr)
      (unmapped : vmmUnmap through w.mmu ptr pages true = some mmu) : Freed w ptr pages {w with mmu}
  | found {mmu : Mmu} {i : Nat} {r : Region} (nonzero : ptr ≠ 0) (slot : w.regions[i]? = some r)
      (active : r.active = true) (base : r.vaddr = ptr)
      (unmapped : vmmUnmap through w.mmu ptr pages true = some mmu) :
      Freed w ptr pages ⟨w.cc,w.regions.set i (erased r),mmu,cleared w.bytes ptr (wrap (pages * pageSize))⟩

theorem freeCases {accessible : Nat → Nat → Bool} {w w' : World} {ptr pages : Nat}
    (ok : ccKernelSecureFree accessible w ptr pages = some w') : Freed w ptr pages w' := by
  unfold ccKernelSecureFree at ok
  split at ok
  · rename_i zero
    cases ok
    exact .null zero
  rename_i nonzero
  obtain ⟨w1,searched,freed⟩ := Option.bind_eq_some_iff.mp ok
  obtain ⟨unmapped,left⟩ := vmmFreeCases freed
  unfold eraseRegion at searched
  cases found : w.regions.findIdx? (fun r => r.active && r.vaddr == ptr) with
  | none =>
      rw [found] at searched
      cases searched
      rw [left]
      refine .missed nonzero (fun r member active same => ?_) unmapped
      have := List.findIdx?_eq_none_iff.mp found r member
      simp [active,same] at this
  | some i =>
      rw [found] at searched
      obtain ⟨w2,zeroed,last⟩ := Option.map_eq_some_iff.mp searched
      obtain ⟨_,rfl⟩ := memsetCases zeroed
      cases last
      obtain ⟨inside,matched,_⟩ := List.findIdx?_eq_some_iff_getElem.mp found
      rw [Bool.and_eq_true,beq_iff_eq] at matched
      have slot := List.getElem?_eq_getElem inside
      rw [left]
      dsimp only
      rw [List.modify_eq_set_get erased inside]
      exact .found nonzero slot matched.1 matched.2 unmapped

def held (regions : List Region) : List (Nat × Nat) :=
  (regions.filter Region.active).map fun r => (r.vaddr,r.pages)

theorem heldSet {regions : List Region} {i : Nat} {old new : Region} (slot : regions[i]? = some old)
    (unused : old.active = false) (active : new.active = true) :
    (held (regions.set i new)).Perm ((new.vaddr,new.pages)::held regions) := by
  obtain ⟨inside,here⟩ := List.getElem?_eq_some_iff.mp slot
  have parts : regions = regions.take i ++ old::regions.drop (i+1) := by
    rw [← here,List.cons_getElem_drop_succ,List.take_append_drop]
  have before : held regions = held (regions.take i) ++ held (regions.drop (i+1)) := by
    rw [parts]
    simp only [held,List.filter_append,List.filter_cons,unused]
    rw [← parts]
    simp
  rw [List.set_eq_take_cons_drop new inside,before]
  simp only [held,List.filter_append,List.filter_cons,active,if_true,List.map_append,List.map_cons]
  exact List.perm_middle

theorem heldMember {regions : List Region} {g : Nat × Nat} (member : g ∈ held regions) :
    ∃ (i : Nat) (r : Region), regions[i]? = some r ∧ r.active = true ∧ (r.vaddr,r.pages) = g := by
  obtain ⟨r,chosen,same⟩ := List.mem_map.mp member
  obtain ⟨inside,active⟩ := List.mem_filter.mp chosen
  obtain ⟨i,slot⟩ := List.getElem?_of_mem inside
  exact ⟨i,r,slot,active,same⟩

theorem activeHeld {regions : List Region} {r : Region} (member : r ∈ regions) (active : r.active = true) :
    (r.vaddr,r.pages) ∈ held regions :=
  List.mem_map.mpr ⟨r,List.mem_filter.mpr ⟨member,active⟩,rfl⟩

structure Inv (hmac : Key → List Byte → Key) (s : System) : Prop where
  size : s.world.regions.length = maxSecureRegions
  window : 0xFFFF000000000000 ≤ s.world.cc.vmallocNext
  bound : s.world.cc.vmallocNext ≤ 0xFFFF008000000000
  placed : ∀ g ∈ s.given, 0xFFFF000000000000 ≤ g.1 ∧ 1 ≤ g.2 ∧ g.1 + g.2 * 4096 ≤ s.world.cc.vmallocNext
  listed : (held s.world.regions).Perm s.given
  distinct : (s.given.map Prod.fst).Nodup
  keyed : ∀ r ∈ s.world.regions, r.active = true → r.dek = hmac s.world.cc.secureAllocKey (dekInput r.vaddr r.pages)

theorem startInv (hmac : Key → List Byte → Key) (s : Start) : Inv hmac s.system := by
  refine ⟨List.length_replicate,s.window.1,s.window.2,?_,?_,List.nodup_nil,?_⟩
  · intro g member
    cases member
  · exact .of_eq rfl
  · intro r member active
    rw [List.eq_of_mem_replicate member] at active
    cases active

theorem invSame {hmac : Key → List Byte → Key} {s s' : System} (h : Inv hmac s)
    (regions : s'.world.regions = s.world.regions) (given : s'.given = s.given)
    {next : Nat} (up : s.world.cc.vmallocNext ≤ next) (top : next ≤ 0xFFFF008000000000)
    (cc : s'.world.cc = {s.world.cc with vmallocNext := next}) : Inv hmac s' := by
  refine ⟨?_,?_,?_,?_,?_,?_,?_⟩
  · rw [regions]
    exact h.size
  · rw [cc]
    exact Nat.le_trans h.window up
  · rw [cc]
    exact top
  · rw [given,cc]
    exact fun g member => ⟨(h.placed g member).1,(h.placed g member).2.1,Nat.le_trans (h.placed g member).2.2 up⟩
  · rw [regions,given]
    exact h.listed
  · rw [given]
    exact h.distinct
  · rw [regions,cc]
    exact h.keyed

theorem allocInv {hmac : Key → List Byte → Key} {s : System} {k : Kernel} {w : World} {pages policy i : Nat}
    (h : Inv hmac s) (some_ : 1 ≤ pages) (made : Allocated hmac s.world w pages policy i) :
    Inv hmac ⟨k,w,(s.world.cc.vmallocNext,pages)::s.given⟩ := by
  obtain ⟨old,slot,unused⟩ := made.unused
  have fresh : ∀ g ∈ s.given, g.1 < s.world.cc.vmallocNext := by
    intro g member
    obtain ⟨_,nonempty,below⟩ := h.placed g member
    omega
  refine ⟨?_,?_,?_,?_,?_,?_,?_⟩
  · rw [made.regions,List.length_set]
    exact h.size
  · rw [made.cc]
    exact Nat.le_trans h.window (Nat.le_add_right _ _)
  · rw [made.cc]
    exact made.room
  · rw [made.cc]
    intro g member
    rcases List.mem_cons.mp member with rfl | member
    · exact ⟨h.window,some_,Nat.le_refl _⟩
    · obtain ⟨above,nonempty,below⟩ := h.placed g member
      exact ⟨above,nonempty,Nat.le_trans below (Nat.le_add_right _ _)⟩
  · rw [made.regions]
    exact (heldSet slot unused rfl).trans (h.listed.cons _)
  · rw [List.map_cons,List.nodup_cons]
    refine ⟨fun member => ?_,h.distinct⟩
    obtain ⟨g,member,same⟩ := List.mem_map.mp member
    have := fresh g member
    omega
  · rw [made.regions,made.cc]
    intro r member active
    rcases List.mem_or_eq_of_mem_set member with member | rfl
    · exact h.keyed r member active
    · rfl

theorem regionAbove {hmac : Key → List Byte → Key} {s : System} (h : Inv hmac s) {r : Region}
    (member : r ∈ s.world.regions) (active : r.active = true) : 0xFFFF000000000000 ≤ r.vaddr :=
  (h.placed _ (h.listed.subset (activeHeld member active))).1

theorem outsideWindow {hmac : Key → List Byte → Key} {s : System} (h : Inv hmac s) {ptr : Nat}
    (low : ptr < userAddrMax) : ∀ r ∈ s.world.regions, r.active = true → r.vaddr ≠ ptr := by
  intro r member active
  have above := regionAbove h member active
  unfold userAddrMax at low
  omega

theorem freeMisses {hmac : Key → List Byte → Key} {accessible : Nat → Nat → Bool} {s : System} {w : World}
    {ptr pages : Nat} (h : Inv hmac s) (low : ptr < userAddrMax)
    (ok : ccKernelSecureFree accessible s.world ptr pages = some w) : ∃ mmu, w = {s.world with mmu} := by
  cases freeCases ok with
  | null => exact ⟨s.world.mmu,rfl⟩
  | missed => exact ⟨_,rfl⟩
  | found _ slot active base => exact absurd base (outsideWindow h low _ (List.mem_of_getElem? slot) active)

theorem addressNotError {p : Nat} (h : p ≤ 0xFFFF008000000000) : isError p = false := by
  rw [isError,decide_eq_false_iff_not]
  omega

theorem failureIsError {e : Nat} (h : e ≤ 4096) : isError (failure e) = true := by
  rw [isError,Syscall.failure,decide_eq_true_iff]
  omega

theorem sysAllocCases {hmac : Key → List Byte → Key} {accessible : Nat → Nat → Bool} {s : System} {w : World}
    {pages policy v : Nat} (h : Inv hmac s)
    (ok : sysNkSecureAlloc hmac accessible s.world pages policy = some (w,v)) :
    (isError v = true ∧ Refused s.world w) ∨
      (v = s.world.cc.vmallocNext ∧ 1 ≤ pages ∧ pages ≤ 4096 ∧
        accessible s.world.cc.vmallocNext (wrap (pages * pageSize)) = true ∧
        ∃ i, Allocated hmac s.world w pages (low32 policy) i) := by
  unfold sysNkSecureAlloc at ok
  split at ok
  · cases ok
    exact .inl ⟨failureIsError (by decide),rfl,_,Nat.le_refl _,h.bound,rfl⟩
  · rename_i counts
    obtain ⟨⟨w,p⟩,made,same⟩ := Option.map_eq_some_iff.mp ok
    cases same
    rcases allocCases (by omega) h.bound made with ⟨rfl,refused⟩ | ⟨rfl,touched,made⟩
    · exact .inl ⟨failureIsError (by decide),refused⟩
    · exact .inr ⟨rfl,by omega,by omega,touched,made⟩

theorem dispatchInv {hmac : Key → List Byte → Key} {accessible : Nat → Nat → Bool} {s s' : System} {cpu : Cpu}
    {nr : Nat} {a : Args} {outside : Answers} {v : Option Nat} (h : Inv hmac s)
    (ok : dispatch hmac accessible s cpu nr a outside = some (s',v)) : Inv hmac s' := by
  unfold dispatch at ok
  split at ok
  · obtain ⟨⟨w,value⟩,called,same⟩ := Option.map_eq_some_iff.mp ok
    cases same
    rcases sysAllocCases h called with ⟨failed,refused⟩ | ⟨rfl,some_,_,_,i,made⟩
    · obtain ⟨next,up,top,cc⟩ := refused.cc
      rw [record,failed]
      exact invSame h refused.regions rfl up top cc
    · rw [record,addressNotError h.bound]
      exact allocInv h some_ made
  · obtain ⟨⟨w,value⟩,called,same⟩ := Option.map_eq_some_iff.mp ok
    cases same
    obtain ⟨w,freed,same⟩ := Option.map_eq_some_iff.mp called
    cases same
    obtain ⟨mmu,rfl⟩ := freeMisses h (scrubLow _) freed
    exact invSame h rfl rfl (Nat.le_refl _) h.bound rfl
  · obtain ⟨_,_,same⟩ := Option.map_eq_some_iff.mp ok
    cases same
    exact invSame h rfl rfl (Nat.le_refl _) h.bound rfl

theorem stepInv {hmac : Key → List Byte → Key} {accessible : Nat → Nat → Bool} (s : System) (e : Event)
    (s' : System) (h : Inv hmac s) (stepped : step hmac accessible s e = some s') : Inv hmac s' := by
  cases e with
  | syscall cpu nr a outside =>
      obtain ⟨⟨_,v⟩,ok,rfl⟩ := Option.map_eq_some_iff.mp stepped
      exact dispatchInv h ok
  | kernel k =>
      cases stepped
      exact invSame h rfl rfl (Nat.le_refl _) h.bound rfl
  | other mmu bytes next =>
      simp only [step] at stepped
      split at stepped
      · rename_i within
        cases stepped
        exact invSame h rfl rfl within.1 within.2 rfl
      · cases stepped

theorem scrubbedAway {hmac : Key → List Byte → Key} {s : System} (h : Inv hmac s) {g : Nat × Nat}
    (member : g ∈ s.given) : scrubArg g.1 = 0 := by
  have above := (h.placed g member).1
  exact if_pos ⟨by unfold userAddrMax; omega,by omega⟩

theorem givenSame {hmac : Key → List Byte → Key} {s : System} (h : Inv hmac s) {g g' : Nat × Nat}
    (member : g ∈ s.given) (member' : g' ∈ s.given) (same : g.1 = g'.1) : g = g' :=
  List.inj_on_of_nodup_map h.distinct member member' same

theorem releasedOwn {hmac : Key → List Byte → Key} {accessible : Nat → Nat → Bool} {s : System} {w : World}
    {g : Nat × Nat} (h : Inv hmac s) (member : g ∈ s.given)
    (ok : ccKernelSecureFree accessible s.world g.1 g.2 = some w) : Released s.world w g := by
  obtain ⟨above,_,below⟩ := h.placed g member
  cases freeCases ok with
  | null zero => omega
  | missed _ missing =>
      obtain ⟨i,r,slot,active,rfl⟩ := heldMember (h.listed.symm.subset member)
      exact absurd rfl (missing r (List.mem_of_getElem? slot) active)
  | @found mmu i r _ slot active base unmapped =>
      have same := givenSame h (h.listed.subset (activeHeld (List.mem_of_getElem? slot) active)) member base
      refine ⟨fun a low high => if_pos ⟨low,?_⟩,⟨i,r,slot,active,same,rfl⟩,unmapped⟩
      have bound := h.bound
      rw [Words.wrapOfLt (by unfold pageSize; omega)]
      exact high

theorem releasedOnly {accessible : Nat → Nat → Bool} {w w' : World} {g : Nat × Nat} {q : Nat}
    (ok : ccKernelSecureFree accessible w q g.2 = some w') (released : Released w w' g) : q = g.1 := by
  obtain ⟨i,r,slot,active,same,after⟩ := released.record
  obtain ⟨inside,_⟩ := List.getElem?_eq_some_iff.mp slot
  -- the record of the region is free afterwards, and was not before
  have gone : w'.regions[i]? = some (erased r) := by
    rw [after,List.getElem?_set_self inside]
  have changed : w'.regions[i]? ≠ some r := by
    intro kept
    have : erased r = r := Option.some.inj (gone.symm.trans kept)
    rw [← this] at active
    cases active
  cases freeCases ok with
  | null => exact absurd slot changed
  | missed => exact absurd slot changed
  | @found mmu j r' _ slot' _ base =>
      by_cases here : j = i
      · subst here
        cases Option.some.inj (slot.symm.trans slot')
        exact base.symm.trans (congrArg Prod.fst same)
      · refine absurd ?_ changed
        rw [List.getElem?_set_ne here]
        exact slot

theorem givenFew {hmac : Key → List Byte → Key} {s : System} (h : Inv hmac s) :
    s.given.length = (s.world.regions.filter Region.active).length := by
  rw [← h.listed.length_eq,held,List.length_map]

structure Kept (hmac : Key → List Byte → Key) (accessible : Nat → Nat → Bool) (s : System) : Prop where
  active : ∀ g ∈ s.given, ∃ (i : Nat) (r : Region), s.world.regions[i]? = some r ∧ r.active = true ∧
    (r.vaddr,r.pages) = g ∧ r.dek = hmac s.world.cc.secureAllocKey (dekInput g.1 g.2)
  ignored : ∀ g ∈ s.given, ∀ cpu a3 a4 a5 outside, verdict s.kernel cpu 45 = .call .nkSecureFree →
    dispatch hmac accessible s cpu 45 ⟨g.1,g.2,a3,a4,a5⟩ outside = some (s,some 0)
  few : s.given.length ≤ maxSecureRegions
  full : s.given.length = maxSecureRegions → ∀ cpu a outside s' v,
    verdict s.kernel cpu 44 = .call .nkSecureAlloc →
    dispatch hmac accessible s cpu 44 a outside = some (s',some v) → isError v = true
  inside : ∀ g ∈ s.given, ∀ q w, ccKernelSecureFree accessible s.world q g.2 = some w →
    (Released s.world w g ↔ q = g.1)

theorem invKept {hmac : Key → List Byte → Key} {accessible : Nat → Nat → Bool} {s : System} (h : Inv hmac s) :
    Kept hmac accessible s := by
  refine ⟨?_,?_,?_,?_,?_⟩
  · intro g member
    obtain ⟨i,r,slot,active,rfl⟩ := heldMember (h.listed.symm.subset member)
    exact ⟨i,r,slot,active,rfl,h.keyed r (List.mem_of_getElem? slot) active⟩
  · intro g member cpu a3 a4 a5 outside decided
    simp only [dispatch,decided,scrubbed,scrubbedAway h member]
    rfl
  · rw [givenFew h,← h.size]
    exact List.length_filter_le _ _
  · intro all cpu a outside s' v decided ok
    rw [givenFew h,← h.size,List.length_filter_eq_length_iff] at all
    simp only [dispatch,decided] at ok
    obtain ⟨⟨w,value⟩,called,same⟩ := Option.map_eq_some_iff.mp ok
    cases same
    rcases sysAllocCases h called with ⟨failed,_⟩ | ⟨_,_,_,_,i,made⟩
    · exact failed
    · obtain ⟨r,slot,unused⟩ := made.unused
      have := all r (List.mem_of_getElem? slot)
      rw [unused] at this
      cases this
  · intro g member q w ok
    constructor
    · exact releasedOnly ok
    · rintro rfl
      exact releasedOwn h member ok

theorem neverReleased (hmac : Key → List Byte → Key) (accessible : Nat → Nat → Bool) (start : Start)
    (events : List Event) (s : System) (ran : run (step hmac accessible) start.system events = some s) :
    Kept hmac accessible s :=
  invKept (runInvariant (Inv hmac) stepInv (startInv hmac start) ran)

def everywhere (_ _ : Nat) : Bool := true

/- The tables entry.S builds, at 0x101000 to 0x104000, in otherwise empty memory. -/
def bootWords (a : Nat) : Nat :=
  if a = 0x101000 then 0x102003
  else if a = 0x101FF8 then 0x103003
  else if a = 0x102000 ∨ a = 0x103FF0 then 0x104003
  else if 0x104000 ≤ a ∧ a < 0x105000 then ((a - 0x104000) / 8) <<< 21 ||| 0x83
  else 0

theorem sampleWindow : 0xFFFF000000000000 ≤ CcProc.plainInit.vmallocNext ∧
    CcProc.plainInit.vmallocNext ≤ 0xFFFF008000000000 := by decide

def sampleStart : Start where
  kernel := Syscall.boot
  cc := CcProc.plainInit
  mmu := ⟨bootWords,0x101000,(List.range 65).map fun i => 0x5000000 + i * pageSize,
    [0x101000,0x102000,0x103000,0x104000],[]⟩
  bytes := fun _ => 0
  window := sampleWindow

def quiet : Answers := ⟨0,true,Sched.plain 0x2000000,0⟩

theorem neverReleasedOnce : ∃ s, run (step CcProc.plainHmac everywhere) sampleStart.system
    [.syscall 0 44 ⟨1,0,0,0,0⟩ quiet] = some s ∧ s.given = [(0xFFFF000000000000,1)] ∧
    Kept CcProc.plainHmac everywhere s := by
  have ends : (run (step CcProc.plainHmac everywhere) sampleStart.system
      [.syscall 0 44 ⟨1,0,0,0,0⟩ quiet]).map System.given = some [(0xFFFF000000000000,1)] := by
    decide +kernel
  obtain ⟨s,ran,given⟩ := Option.map_eq_some_iff.mp ends
  exact ⟨s,ran,given,neverReleased _ _ sampleStart _ s ran⟩

def rounds : List Event := (List.range 64).flatMap fun i =>
  [.syscall 0 44 ⟨1,0,0,0,0⟩ quiet,.syscall 0 45 ⟨0xFFFF000000000000 + i * pageSize,1,0,0,0⟩ quiet]

theorem freedNeverReleased : ∃ s s', run (step CcProc.plainHmac everywhere) sampleStart.system rounds = some s ∧
    s.given.length = 64 ∧ (∀ r ∈ s.world.regions, r.active = true) ∧ s.world.mmu.freed = [] ∧
    dispatch CcProc.plainHmac everywhere s 0 44 ⟨1,0,0,0,0⟩ quiet = some (s',some (2^64 - 12)) := by
  have ends : (run (step CcProc.plainHmac everywhere) sampleStart.system rounds).map (fun s =>
      (s.given.length,s.world.regions.all Region.active,s.world.mmu.freed,
        (dispatch CcProc.plainHmac everywhere s 0 44 ⟨1,0,0,0,0⟩ quiet).map Prod.snd)) =
      some (64,true,[],some (some (2^64 - 12))) := by
    decide +kernel
  obtain ⟨s,ran,facts⟩ := Option.map_eq_some_iff.mp ends
  simp only [Prod.mk.injEq] at facts
  obtain ⟨count,active,freed,called⟩ := facts
  obtain ⟨⟨s',v⟩,called,rfl⟩ := Option.map_eq_some_iff.mp called
  exact ⟨s,s',ran,count,List.all_eq_true.mp active,freed,called⟩

theorem windowFaults (hmac : Key → List Byte → Key) (accessible : Nat → Nat → Bool)
    (checked : ∀ ptr len, 0 < len → accessible ptr len = true → Paging.Canonical ptr) (start : Start)
    (events : List Event) (s : System) (ran : run (step hmac accessible) start.system events = some s) :
    s.given = [] := by
  refine (runInvariant (fun s => Inv hmac s ∧ s.given = []) ?_ ⟨startInv hmac start,rfl⟩ ran).2
  rintro s e s' ⟨h,empty⟩ stepped
  refine ⟨stepInv s e s' h stepped,?_⟩
  cases e with
  | kernel => cases stepped; exact empty
  | other mmu bytes next =>
      simp only [step] at stepped
      split at stepped
      · cases stepped
        exact empty
      · cases stepped
  | syscall cpu nr a outside =>
      obtain ⟨⟨_,v⟩,ok,rfl⟩ := Option.map_eq_some_iff.mp stepped
      unfold dispatch at ok
      split at ok
      · obtain ⟨⟨w,value⟩,called,same⟩ := Option.map_eq_some_iff.mp ok
        cases same
        rcases sysAllocCases h called with ⟨failed,_⟩ | ⟨_,some_,_,touched,_⟩
        · rw [record,failed]
          exact empty
        · have gap := checked _ _ (by unfold wrap pageSize; omega) touched
          have window := h.window
          have bound := h.bound
          unfold Paging.Canonical at gap
          omega
      · obtain ⟨_,_,same⟩ := Option.map_eq_some_iff.mp ok
        cases same
        exact empty
      · obtain ⟨_,_,same⟩ := Option.map_eq_some_iff.mp ok
        cases same
        exact empty

end Nekros.SecureMemory
