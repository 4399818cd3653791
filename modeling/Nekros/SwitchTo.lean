import Nekros.X86

/-! arch/x86/kernel/sched_asm.S against `struct task` of kernel/sched.c. The listing uses
constants for the places of the saved context; the compiler lays the structure out by
its own rules. -/
namespace Nekros.SwitchTo
open X86
open Function (update)

def taskCtxRsp : Nat := 96

def taskCtxRbp : Nat := 104

def taskCtxRbx : Nat := 112

def taskCtxR12 : Nat := 120

def taskCtxR13 : Nat := 128

def taskCtxR14 : Nat := 136

def taskCtxR15 : Nat := 144

def taskCtxRip : Nat := 152

def taskCtxRflags : Nat := 160

def switchTo : List Instr :=
  [.test .rdi,
   .jz 12,
   .store .rsp taskCtxRsp .rdi,
   .store .rbp taskCtxRbp .rdi,
   .store .rbx taskCtxRbx .rdi,
   .store .r12 taskCtxR12 .rdi,
   .store .r13 taskCtxR13 .rdi,
   .store .r14 taskCtxR14 .rdi,
   .store .r15 taskCtxR15 .rdi,
   .load 0 .rsp .rax,
   .store .rax taskCtxRip .rdi,
   .pushf,
   .pop .rax,
   .store .rax taskCtxRflags .rdi,
   .load taskCtxR15 .rsi .r15,
   .load taskCtxR14 .rsi .r14,
   .load taskCtxR13 .rsi .r13,
   .load taskCtxR12 .rsi .r12,
   .load taskCtxRbx .rsi .rbx,
   .load taskCtxRbp .rsi .rbp,
   .load taskCtxRflags .rsi .rax,
   .push .rax,
   .popf,
   .load taskCtxRsp .rsi .rsp,
   .load taskCtxRip .rsi .rax,
   .jmp .rax]

inductive Field where
  | pid | ppid | uid | gid | name | state | priority | vruntime | weight | timesliceNs | cpuTimeNs
  | cpuAffinity | onCpu | pml4 | kstackTop | kstackPa
  | ctxRsp | ctxRbp | ctxRbx | ctxR12 | ctxR13 | ctxR14 | ctxR15 | ctxRip | ctxRflags
  deriving DecidableEq, Repr

def structTask : List (Field × Nat × Nat) :=
  [(.pid,4,4),(.ppid,4,4),(.uid,4,4),(.gid,4,4),(.name,32,1),(.state,4,4),(.priority,4,4),(.vruntime,8,8),
   (.weight,8,8),(.timesliceNs,8,8),(.cpuTimeNs,8,8),(.cpuAffinity,4,4),(.onCpu,4,4),(.pml4,8,8),
   (.kstackTop,8,8),(.kstackPa,8,8),(.ctxRsp,8,8),(.ctxRbp,8,8),(.ctxRbx,8,8),(.ctxR12,8,8),(.ctxR13,8,8),
   (.ctxR14,8,8),(.ctxR15,8,8),(.ctxRip,8,8),(.ctxRflags,8,8)]

def layout : Nat → List (Field × Nat × Nat) → List (Field × Nat × Nat)
  | _,[] => []
  | used,(f,size,alignment)::rest =>
      let start := (used + alignment - 1) / alignment * alignment
      (f,start,size)::layout (start + size) rest

def place (f : Field) : Nat × Nat := ((layout 0 structTask).find? (fun x => x.1 = f)).elim (0,0) Prod.snd

def offsetOf (f : Field) : Nat := (place f).1

example : offsetOf .pml4 = 96 ∧ offsetOf .ctxRsp = 120 ∧ offsetOf .ctxRflags = 184 := by decide

def contextEnd : Nat := 192

def words (f : Field) : List Nat :=
  ((List.range 24).map (8 * ·)).filter (fun w => (place f).1 < w + 8 ∧ w < (place f).1 + (place f).2)

def calleeSaved : List (Reg × Field) :=
  [(.rbp,.ctxRbp),(.rbx,.ctxRbx),(.r12,.ctxR12),(.r13,.ctxR13),(.r14,.ctxR14),(.r15,.ctxR15)]

def context : List Field := [.ctxRsp,.ctxRip,.ctxRflags] ++ calleeSaved.map Prod.snd

def Beside (p rsp : Nat) : Prop := rsp + 8 ≤ p ∨ p + contextEnd + 8 ≤ rsp
instance (p rsp) : Decidable (Beside p rsp) := by unfold Beside; infer_instance

structure Called (prev next : Nat) (m : Machine) : Prop where
  rdi : m.regs .rdi = prev
  rsi : m.regs .rsi = next
  nonzero : prev ≠ 0
  prevFits : prev + contextEnd ≤ 2^64
  nextFits : next + contextEnd ≤ 2^64
  apart : prev + contextEnd ≤ next ∨ next + contextEnd ≤ prev
  stack : 8 ≤ m.regs .rsp ∧ m.regs .rsp < 2^64
  besidePrev : Beside prev (m.regs .rsp)
  besideNext : Beside next (m.regs .rsp)

/- What a context switch is for. The last field speaks of any later call that switches
back to `prev`, with its structure as this call left it. -/
structure Switched (prev next : Nat) (m m' : Machine) : Prop where
  saved : ∀ x ∈ calleeSaved, m'.mem (prev + offsetOf x.2) = m.regs x.1
  savedRip : m'.mem (prev + offsetOf .ctxRip) = m.mem (m.regs .rsp)
  savedFlags : ∀ bit, bit ∉ statusFlags →
    (m'.mem (prev + offsetOf .ctxRflags)).testBit bit = m.rflags.testBit bit
  kept : ∀ f, f ∉ context → ∀ w ∈ words f, m'.mem (prev + w) = m.mem (prev + w)
  loaded : ∀ x ∈ calleeSaved, m'.regs x.1 = m.mem (next + offsetOf x.2)
  loadedRsp : m'.regs .rsp = m.mem (next + offsetOf .ctxRsp)
  loadedRip : m'.rip = m.mem (next + offsetOf .ctxRip)
  loadedFlags : m'.rflags = m.mem (next + offsetOf .ctxRflags) ||| 2
  returns : ∀ other back back', Called other prev back →
    (∀ w < contextEnd, back.mem (prev + w) = m'.mem (prev + w)) → exec 0 switchTo back = some back' →
    back'.regs .rsp = address (m.regs .rsp) 8 ∧ back'.rip = m.mem (m.regs .rsp) ∧
      ∀ x ∈ calleeSaved, back'.regs x.1 = m.regs x.1

def saveSlots : List (Reg × Nat) :=
  [(.rsp,taskCtxRsp),(.rbp,taskCtxRbp),(.rbx,taskCtxRbx),(.r12,taskCtxR12),(.r13,taskCtxR13),(.r14,taskCtxR14),
   (.r15,taskCtxR15)]

def restoreSlots : List (Nat × Reg) :=
  [(taskCtxR15,.r15),(taskCtxR14,.r14),(taskCtxR13,.r13),(taskCtxR12,.r12),(taskCtxRbx,.rbx),(taskCtxRbp,.rbp)]

def saveRest : List Instr :=
  [.load 0 .rsp .rax,.store .rax taskCtxRip .rdi,.pushf,.pop .rax,.store .rax taskCtxRflags .rdi]

def restoreRest : List Instr :=
  [.load taskCtxRflags .rsi .rax,.push .rax,.popf,.load taskCtxRsp .rsi .rsp,.load taskCtxRip .rsi .rax,.jmp .rax]

theorem switchToBlocks : switchTo = [.test .rdi,.jz 12] ++
    (storeBlock .rdi saveSlots ++ (saveRest ++ (loadBlock .rsi restoreSlots ++ restoreRest))) := rfl

theorem addressOf {p d : Nat} (fits : p + contextEnd ≤ 2^64) (inside : d < contextEnd) :
    address p d = p + d := Nat.mod_eq_of_lt (Nat.lt_of_lt_of_le (Nat.add_lt_add_left inside p) fits)

theorem belowEq {rsp : Nat} (h : 8 ≤ rsp ∧ rsp < 2^64) : below rsp = rsp - 8 := by
  unfold below
  omega

theorem execSaveRest {m : Machine} (rest : List Instr) (stack : 8 ≤ m.regs .rsp ∧ m.regs .rsp < 2^64)
    (fits : m.regs .rdi + contextEnd ≤ 2^64) :
    ∃ m', exec 0 (saveRest ++ rest) m = exec 0 rest m' ∧ (∀ r, r ≠ .rax → m'.regs r = m.regs r) ∧
      m'.mem = update (update (update m.mem (m.regs .rdi + taskCtxRip) (m.mem (m.regs .rsp)))
        (m.regs .rsp - 8) m.rflags) (m.regs .rdi + taskCtxRflags) m.rflags := by
  have top : address (m.regs .rsp) 0 = m.regs .rsp := Nat.mod_eq_of_lt stack.2
  have back : address (m.regs .rsp - 8) 8 = m.regs .rsp := by
    unfold address
    omega
  refine ⟨_,rfl,?_,?_⟩
  · intro r other
    cases r <;> simp_all [setReg,store,pushed,popped,belowEq stack]
  · simp [setReg,store,pushed,popped,belowEq stack,top,addressOf fits (show taskCtxRip < contextEnd by decide),
      addressOf fits (show taskCtxRflags < contextEnd by decide)]

structure Saved (prev : Nat) (m m' : Machine) : Prop where
  regs : ∀ r, r ≠ .rax → m'.regs r = m.regs r
  slots : ∀ x ∈ saveSlots, m'.mem (prev + x.2) = m.regs x.1
  rip : m'.mem (prev + taskCtxRip) = m.mem (m.regs .rsp)
  other : ∀ a, a < prev + taskCtxRsp ∨ prev + taskCtxRflags < a → a ≠ m.regs .rsp - 8 → m'.mem a = m.mem a

theorem savePlace {p : Nat} (fits : p + contextEnd ≤ 2^64) {x : Reg × Nat} (mem : x ∈ saveSlots) :
    address p x.2 = p + x.2 ∧ taskCtxRsp ≤ x.2 ∧ x.2 < taskCtxRip := by
  have inside : taskCtxRsp ≤ x.2 ∧ x.2 < taskCtxRip := by revert x; decide
  exact ⟨addressOf fits (Nat.lt_trans inside.2 (by decide)),inside⟩

theorem savePlaces {p : Nat} (fits : p + contextEnd ≤ 2^64) :
    (saveSlots.map (fun x => address p x.2)).Nodup := by
  have same : saveSlots.map (fun x => address p x.2) = (saveSlots.map Prod.snd).map (fun d => p + d) := by
    rw [List.map_map]
    exact List.map_congr_left (fun x mem => (savePlace fits mem).1)
  rw [same]
  exact List.Nodup.map (fun _ _ e => Nat.add_left_cancel e) (by decide)

theorem storedElsewhere {m : Machine} {a : Nat} (fits : m.regs .rdi + contextEnd ≤ 2^64)
    (outside : a < m.regs .rdi + taskCtxRsp ∨ m.regs .rdi + taskCtxRip ≤ a) :
    (stored m .rdi saveSlots).mem a = m.mem a := by
  refine storedOther (fun x slot => ?_)
  obtain ⟨place,low,high⟩ := savePlace fits slot
  rw [place]
  omega

theorem enterSaves {m : Machine} (nonzero : m.regs .rdi ≠ 0) (rest : List Instr) :
    exec 0 ([.test .rdi,.jz 12] ++ rest) m =
      exec 0 rest {m with rflags := testFlags m.rflags (m.regs .rdi)} := by
  show exec (if (testFlags m.rflags (m.regs .rdi)).testBit 6 then 12 else 0) rest _ = _
  rw [testFlagsZero,decide_eq_false nonzero]
  rfl

theorem saves {prev next : Nat} {m : Machine} (h : Called prev next m) (rest : List Instr) :
    ∃ m', exec 0 ([.test .rdi,.jz 12] ++ (storeBlock .rdi saveSlots ++ (saveRest ++ rest))) m = exec 0 rest m' ∧
      Saved prev m m' := by
  obtain ⟨rfl,_,nonzero,fits,_,_,stack,beside,_⟩ := h
  let tested : Machine := {m with rflags := testFlags m.rflags (m.regs .rdi)}
  have regs : (stored tested .rdi saveSlots).regs = m.regs := (storedRegs tested .rdi saveSlots).1
  obtain ⟨m',done,kept,mem⟩ := execSaveRest (m := stored tested .rdi saveSlots) rest
    (by rw [regs]; exact stack) (by rw [regs]; exact fits)
  rw [regs] at kept mem
  simp only [Beside,contextEnd] at beside
  refine ⟨m',by rw [enterSaves nonzero,execStores,done],kept,?_,?_,?_⟩
  · intro x slot
    obtain ⟨place,low,high⟩ := savePlace fits slot
    have found := storedAt (m := tested) (savePlaces fits) slot
    simp only [taskCtxRip] at high
    rw [mem,Function.update_of_ne,Function.update_of_ne,Function.update_of_ne,← place]
    · exact found
    · simp only [taskCtxRip]
      omega
    · omega
    · simp only [taskCtxRflags]
      omega
  · have top : (stored tested .rdi saveSlots).mem (m.regs .rsp) = m.mem (m.regs .rsp) := by
      refine storedElsewhere (m := tested) fits ?_
      show m.regs .rsp < m.regs .rdi + taskCtxRsp ∨ m.regs .rdi + taskCtxRip ≤ m.regs .rsp
      simp only [taskCtxRsp,taskCtxRip]
      omega
    rw [mem,Function.update_of_ne,Function.update_of_ne,Function.update_self,top]
    · simp only [taskCtxRip]
      omega
    · simp [taskCtxRip,taskCtxRflags]
  · intro a outside away
    simp only [taskCtxRsp,taskCtxRflags] at outside
    have here : (stored tested .rdi saveSlots).mem a = m.mem a := by
      refine storedElsewhere (m := tested) fits ?_
      show a < m.regs .rdi + taskCtxRsp ∨ m.regs .rdi + taskCtxRip ≤ a
      simp only [taskCtxRsp,taskCtxRip]
      omega
    rw [mem,Function.update_of_ne,Function.update_of_ne away,Function.update_of_ne,here]
    · simp only [taskCtxRip]
      omega
    · simp only [taskCtxRflags]
      omega

structure Restored (next : Nat) (m m' : Machine) : Prop where
  slots : ∀ x ∈ restoreSlots, m'.regs x.2 = m.mem (next + x.1)
  rsp : m'.regs .rsp = m.mem (next + taskCtxRsp)
  rip : m'.rip = m.mem (next + taskCtxRip)
  other : ∀ a, a ≠ m.regs .rsp - 8 → m'.mem a = m.mem a

theorem restores {next : Nat} {m : Machine} (rsi : m.regs .rsi = next) (fits : next + contextEnd ≤ 2^64)
    (stack : 8 ≤ m.regs .rsp ∧ m.regs .rsp < 2^64) (beside : Beside next (m.regs .rsp)) :
    ∃ m', exec 0 (loadBlock .rsi restoreSlots ++ restoreRest) m = some m' ∧ Restored next m m' := by
  subst rsi
  have places : ∀ d < contextEnd, address (m.regs .rsi) d = m.regs .rsi + d :=
    fun d inside => addressOf fits inside
  have mem := (loadedMem m .rsi restoreSlots).1
  have rsi : (loaded m .rsi restoreSlots).regs .rsi = m.regs .rsi := loadedOther (by decide)
  have rsp : (loaded m .rsi restoreSlots).regs .rsp = m.regs .rsp := loadedOther (by decide)
  -- the pushed flags lie outside the structure, so the last two loads still read it
  have clear : ∀ d < contextEnd, m.regs .rsi + d ≠ m.regs .rsp - 8 := by
    intro d inside
    simp only [Beside,contextEnd] at beside inside
    omega
  have slots : ∀ x ∈ restoreSlots, (loaded m .rsi restoreSlots).regs x.2 = m.mem (m.regs .rsi + x.1) := by
    intro x slot
    have inside : x.1 < contextEnd := by revert x; decide
    rw [loadedAt (by decide) (by decide) slot,places x.1 inside]
  rw [execLoads]
  generalize loaded m .rsi restoreSlots = m1 at *
  refine ⟨_,rfl,?_,?_,?_,?_⟩
  · intro x slot
    rw [← slots x slot]
    have kept : x.2 ≠ .rax ∧ x.2 ≠ .rsp := by revert x; decide
    simp [setReg,popped,pushed,store,kept]
  · simp [setReg,popped,pushed,store,rsi,rsp,mem,belowEq stack,places taskCtxRsp (by decide),
      clear taskCtxRsp (by decide)]
  · simp [setReg,popped,pushed,store,rsi,rsp,mem,belowEq stack,places taskCtxRip (by decide),
      clear taskCtxRip (by decide)]
  · intro a away
    simp [setReg,popped,pushed,store,rsp,mem,belowEq stack,away]

structure Words (prev next : Nat) (m m' : Machine) : Prop where
  saved : ∀ x ∈ saveSlots, m'.mem (prev + x.2) = m.regs x.1
  savedRip : m'.mem (prev + taskCtxRip) = m.mem (m.regs .rsp)
  loaded : ∀ x ∈ restoreSlots, m'.regs x.2 = m.mem (next + x.1)
  loadedRsp : m'.regs .rsp = m.mem (next + taskCtxRsp)
  loadedRip : m'.rip = m.mem (next + taskCtxRip)

theorem switchToWords {prev next : Nat} {m : Machine} (h : Called prev next m) :
    ∃ m', exec 0 switchTo m = some m' ∧ Words prev next m m' := by
  obtain ⟨m1,first,saved⟩ := saves h (loadBlock .rsi restoreSlots ++ restoreRest)
  have rsp : m1.regs .rsp = m.regs .rsp := saved.regs .rsp (by decide)
  have rsi : m1.regs .rsi = next := (saved.regs .rsi (by decide)).trans h.rsi
  obtain ⟨m2,second,restored⟩ := restores rsi h.nextFits (by rw [rsp]; exact h.stack)
    (by rw [rsp]; exact h.besideNext)
  have beside := h.besidePrev
  have apart := h.apart
  have nextBeside := h.besideNext
  simp only [Beside,contextEnd] at beside apart nextBeside
  -- the second half pushes below the stack, and reads words the first has not touched
  have same : ∀ d < contextEnd, m2.mem (prev + d) = m1.mem (prev + d) := by
    intro d inside
    refine restored.other _ ?_
    rw [rsp]
    simp only [contextEnd] at inside
    omega
  have source : ∀ d < contextEnd, m1.mem (next + d) = m.mem (next + d) := by
    intro d inside
    simp only [contextEnd] at inside
    refine saved.other _ ?_ ?_
    · simp only [taskCtxRsp,taskCtxRflags]
      omega
    · omega
  refine ⟨m2,by rw [switchToBlocks,first,second],?_,?_,?_,?_,?_⟩
  · intro x slot
    have inside : x.2 < contextEnd := by revert x; decide
    rw [same x.2 inside,saved.slots x slot]
  · rw [same taskCtxRip (by decide),saved.rip]
  · intro x slot
    have inside : x.1 < contextEnd := by revert x; decide
    rw [restored.slots x slot,source x.1 inside]
  · rw [restored.rsp,source taskCtxRsp (by decide)]
  · rw [restored.rip,source taskCtxRip (by decide)]

def switchBack (prev next : Nat) (m m' : Machine) : Machine :=
  setReg (setReg (setReg m' .rdi next) .rsi prev) .rsp (m.regs .rsp)

theorem switchBackCalled {prev next : Nat} {m : Machine} (m' : Machine) (h : Called prev next m)
    (nonzero : next ≠ 0) :
    Called next prev (switchBack prev next m m') :=
  ⟨rfl,rfl,nonzero,h.nextFits,h.prevFits,h.apart.symm,h.stack,h.besideNext,h.besidePrev⟩

theorem switchToMisplaces {prev next : Nat} {m : Machine} (h : Called prev next m) (nonzero : next ≠ 0) :
    ∃ m', exec 0 switchTo m = some m' ∧ ¬ Switched prev next m m' ∧
      m'.mem (prev + offsetOf .pml4) = m.regs .rsp ∧ m'.mem (prev + offsetOf .kstackTop) = m.regs .rbp ∧
      m'.mem (prev + offsetOf .kstackPa) = m.regs .rbx ∧ m'.regs .rsp = m.mem (next + offsetOf .pml4) ∧
      m'.rip = m.mem (next + offsetOf .ctxR13) := by
  obtain ⟨m',done,words⟩ := switchToWords h
  refine ⟨m',done,fun switched => ?_,words.saved (.rsp,taskCtxRsp) (by decide),
    words.saved (.rbp,taskCtxRbp) (by decide),words.saved (.rbx,taskCtxRbx) (by decide),words.loadedRsp,
    words.loadedRip⟩
  obtain ⟨m'',again,back⟩ := switchToWords (switchBackCalled m' h nonzero)
  have returned := (switched.returns next _ m'' (switchBackCalled m' h nonzero) (fun _ _ => rfl) again).1
  have saved := words.saved (.rsp,taskCtxRsp) (by decide)
  have low : m''.regs .rsp = m.regs .rsp := back.loadedRsp.trans saved
  have stack := h.stack
  rw [low,address] at returned
  omega

def freshCall : Machine where
  regs
    | .rdi => 0x10000
    | .rsi => 0x20000
    | .rsp => 0x30000
    | _ => 1
  rflags := 0x202
  rip := 0x401000
  mem a :=
    if a = 0x20000 + offsetOf .ctxRip then 0x400000
    else if a = 0x20000 + offsetOf .ctxRsp then 0x44000 - 16
    else if a = 0x20000 + offsetOf .ctxRflags then 0x200
    else if a = 0x30000 then 0x402000
    else 0

theorem freshCalled : Called 0x10000 0x20000 freshCall :=
  ⟨rfl,rfl,by decide,by decide,by decide,by decide,by decide,by decide +kernel,by decide +kernel⟩

theorem switchToMisplacesFresh : ∃ m', exec 0 switchTo freshCall = some m' ∧
    ¬ Switched 0x10000 0x20000 freshCall m' ∧ m'.mem (0x10000 + offsetOf .pml4) = 0x30000 := by
  obtain ⟨m',done,broken,pml4,_⟩ := switchToMisplaces freshCalled (by decide)
  exact ⟨m',done,broken,pml4⟩

theorem freshTaskLost : Called 0x10000 0x20000 freshCall ∧
    freshCall.mem (0x20000 + offsetOf .ctxRip) = 0x400000 ∧
    ∃ m', exec 0 switchTo freshCall = some m' ∧ m'.rip = 0 ∧ ¬ Switched 0x10000 0x20000 freshCall m' := by
  have ended : (exec 0 switchTo freshCall).map Machine.rip = some 0 := by decide +kernel
  obtain ⟨m',done,rip⟩ := Option.map_eq_some_iff.mp ended
  have entry : freshCall.mem (0x20000 + offsetOf .ctxRip) = 0x400000 := by decide +kernel
  refine ⟨freshCalled,entry,m',done,rip,fun switched => ?_⟩
  have loaded := switched.loadedRip
  rw [rip,entry] at loaded
  cases loaded

end Nekros.SwitchTo
