import Nekros.X86

/-! arch/x86/kernel/isr_stubs.S against `struct isr_frame` of hal.h and the parameters of
nekros_interrupt_dispatch in hal.c. The CPU, the stub and isr_common push the frame
between them; the structure names what they pushed from the last word up. -/
namespace Nekros.IsrStubs
open X86
open Function (update)

def errorVectors : List Nat := [8,10,11,12,13,14,17,21,29,30]

def bareStubs : List Nat := [8,10,11,12,13,14,17,21,29,30]

/- The jump to isr_common goes on with its listing. -/
def isrStub (v : Nat) : List Instr :=
  if v ∈ bareStubs then [.pushImm v] else [.pushImm 0,.pushImm v]

/- `dispatch` is where the linker puts nekros_interrupt_dispatch, `back` the address after
the call. -/
def isrCommon (dispatch back : Nat) : List Instr :=
  [.push .rax,
   .push .rbx,
   .push .rcx,
   .push .rdx,
   .push .rsi,
   .push .rdi,
   .push .rbp,
   .push .r8,
   .push .r9,
   .push .r10,
   .push .r11,
   .push .r12,
   .push .r13,
   .push .r14,
   .push .r15,
   .load 128 .rsp .rdi,
   .load 120 .rsp .rsi,
   .mov .rsp .rdx,
   .andImm (2^64 - 16) .rsp,
   .subImm 8 .rsp,
   .call dispatch back,
   .addImm 8 .rsp,
   .pop .r15,
   .pop .r14,
   .pop .r13,
   .pop .r12,
   .pop .r11,
   .pop .r10,
   .pop .r9,
   .pop .r8,
   .pop .rbp,
   .pop .rdi,
   .pop .rsi,
   .pop .rdx,
   .pop .rcx,
   .pop .rbx,
   .pop .rax,
   .addImm 16 .rsp,
   .iretq]

def afterCall : List Instr → List Instr
  | [] => []
  | .call _ _::rest => rest
  | _::rest => afterCall rest

inductive Slot where
  | reg (r : Reg)
  | vec
  | errcode
  | rip
  | rflags
  deriving DecidableEq, Repr

def isrFrame : List Slot :=
  [.reg .r15,.reg .r14,.reg .r13,.reg .r12,.reg .r11,.reg .r10,.reg .r9,.reg .r8,
   .reg .rbp,.reg .rdi,.reg .rsi,.reg .rdx,.reg .rcx,.reg .rbx,.reg .rax,
   .vec,.errcode,
   .rip,.reg .cs,.rflags,.reg .rsp,.reg .ss]

def offsetOf (f : Slot) : Nat := 8 * isrFrame.idxOf f

/- An interrupt: its vector, the error code the CPU has for it, the interrupted machine,
and the address the CPU pushes below, which it has aligned to 16 bytes. -/
structure Interrupt where
  vec : Nat
  code : Nat
  m : Machine
  top : Nat
  vector : vec < 256
  aligned : top % 16 = 0
  small : top < 2^64
  -- bit 1 of the flags is always set
  reserved : m.rflags ||| 2 = m.rflags

def Interrupt.errcode (i : Interrupt) : Nat := if i.vec ∈ errorVectors then i.code else 0

def Interrupt.holds (i : Interrupt) : Slot → Nat
  | .reg r => i.m.regs r
  | .vec => i.vec
  | .errcode => i.errcode
  | .rip => i.m.rip
  | .rflags => i.m.rflags

/- The gate loads the kernel's code segment; a change of privilege clears ss. TF, IF, NT,
RF and VM are cleared. -/
def Interrupt.gate (i : Interrupt) : Machine :=
  let m := setReg (setReg (setReg i.m .rsp i.top) .cs 0x08) .ss
    (if i.m.regs .cs % 4 = 0 then i.m.regs .ss else 0)
  {m with rflags := i.m.rflags &&& (2^64 - 1 - 0x34300)}

def Interrupt.pushedWords (i : Interrupt) : List Nat :=
  [i.m.regs .ss,i.m.regs .rsp,i.m.rflags,i.m.regs .cs,i.m.rip] ++
    if i.vec ∈ errorVectors then [i.code] else []

def Interrupt.deliver (i : Interrupt) : Machine := pushAll i.gate i.pushedWords

structure Entered (i : Interrupt) (m : Machine) : Prop where
  vec : m.regs .rdi = i.vec
  errcode : m.regs .rsi = i.errcode
  frame : ∀ f ∈ isrFrame, m.mem (address (m.regs .rdx) (offsetOf f)) = i.holds f

/- The dispatcher, entered in `m`, has returned and has changed no field of the frame but
rax and rip. What it did to the other registers and the other memory is left open. -/
structure Returned (m m' : Machine) : Prop where
  rsp : m'.regs .rsp = address (m.regs .rsp) 8
  frame : ∀ f ∈ isrFrame, f ≠ .reg .rax → f ≠ .rip →
    m'.mem (address (m.regs .rdx) (offsetOf f)) = m.mem (address (m.regs .rdx) (offsetOf f))

structure Resumed (i : Interrupt) (frame : Nat) (m m' : Machine) : Prop where
  regs : ∀ r, r ≠ .rax → m'.regs r = i.m.regs r
  rflags : m'.rflags = i.m.rflags
  rax : m'.regs .rax = m.mem (address frame (offsetOf (.reg .rax)))
  rip : m'.rip = m.mem (address frame (offsetOf .rip))

def Correct (i : Interrupt) (dispatch back : Nat) : Prop :=
  ∃ m, exec 0 (isrStub i.vec ++ isrCommon dispatch back) i.deliver = some m ∧ m.rip = dispatch ∧
    Entered i m ∧ ∀ m', Returned m m' →
      ∃ m'', exec 0 (afterCall (isrCommon dispatch back)) m' = some m'' ∧ Resumed i (m.regs .rdx) m' m''

def saved : List Reg :=
  [.rax,.rbx,.rcx,.rdx,.rsi,.rdi,.rbp,.r8,.r9,.r10,.r11,.r12,.r13,.r14,.r15]

theorem savedPlain : ∀ r ∈ saved, r ≠ .rsp ∧ r ≠ .cs ∧ r ≠ .ss := by decide

theorem savedOrFrame (r : Reg) : r ∈ saved ∨ r = .cs ∨ r = .rsp ∨ r = .ss := by
  cases r <;> decide

def callRest (dispatch back : Nat) : List Instr :=
  [.load 128 .rsp .rdi,.load 120 .rsp .rsi,.mov .rsp .rdx,.andImm (2^64 - 16) .rsp,.subImm 8 .rsp,
   .call dispatch back]

theorem isrCommonBlocks (dispatch back : Nat) : isrCommon dispatch back =
    saved.map .push ++ (callRest dispatch back ++ afterCall (isrCommon dispatch back)) := rfl

theorem afterCallBlocks (dispatch back : Nat) : afterCall (isrCommon dispatch back) =
    .addImm 8 .rsp::(saved.reverse.map .pop ++ [.addImm 16 .rsp,.iretq]) := rfl

theorem execStub (i : Interrupt) (rest : List Instr) :
    exec 0 (isrStub i.vec ++ rest) i.deliver = exec 0 rest (pushAll i.gate
      [i.m.regs .ss,i.m.regs .rsp,i.m.rflags,i.m.regs .cs,i.m.rip,i.errcode,i.vec]) := by
  unfold isrStub Interrupt.deliver Interrupt.pushedWords Interrupt.errcode
  rw [show bareStubs = errorVectors from rfl]
  by_cases coded : i.vec ∈ errorVectors
  · simp only [if_pos coded]
    exact (execPushImms [i.vec] rest _).trans (by rw [pushAllAppend]; rfl)
  · simp only [if_neg coded]
    exact (execPushImms [0,i.vec] rest _).trans (by rw [pushAllAppend]; rfl)

theorem gateRegs (i : Interrupt) {r : Reg} (plain : r ∈ saved) : i.gate.regs r = i.m.regs r := by
  have other := savedPlain r plain
  simp only [Interrupt.gate,setReg,Function.update_of_ne other.1,Function.update_of_ne other.2.1,
    Function.update_of_ne other.2.2]

def Interrupt.framed (i : Interrupt) : Machine := pushAll i.gate (isrFrame.map i.holds).reverse

theorem execFrame (i : Interrupt) (dispatch back : Nat) :
    exec 0 (isrStub i.vec ++ isrCommon dispatch back) i.deliver =
      exec 0 (callRest dispatch back ++ afterCall (isrCommon dispatch back)) i.framed := by
  have regs : ∀ values : List Nat, saved.map (pushAll i.gate values).regs = saved.map i.m.regs := by
    intro values
    refine List.map_congr_left (fun r plain => ?_)
    rw [pushAllRegs _ _ (savedPlain r plain).1,gateRegs i plain]
  rw [execStub,isrCommonBlocks,execPushes _ _ _ (by decide),regs,pushAllAppend]
  rfl

def Interrupt.frame (i : Interrupt) : Nat := (i.top + (2^64 - 176)) % 2^64

theorem framedRsp (i : Interrupt) : i.framed.regs .rsp = i.frame ∧
    ∀ f ∈ isrFrame, i.framed.mem (address i.frame (offsetOf f)) = i.holds f := by
  have top : i.gate.regs .rsp = i.top := by
    simp [Interrupt.gate,setReg]
  obtain ⟨rsp,words⟩ := pushAllWords i.gate (isrFrame.map i.holds).reverse (by rw [top]; exact i.small)
    (by simp [isrFrame])
  rw [top,List.length_reverse,List.length_map,show 8 * isrFrame.length = 176 from rfl] at rsp
  refine ⟨rsp,fun f mem => ?_⟩
  have found := words (isrFrame.idxOf f) (i.holds f) (by
    rw [List.reverse_reverse,List.getElem?_map,List.getElem?_idxOf mem,Option.map_some])
  rwa [rsp] at found

theorem frameAligned (i : Interrupt) : i.frame % 16 = 0 ∧ i.frame < 2^64 := by
  have aligned := i.aligned
  unfold Interrupt.frame
  omega

theorem andAligned {x : Nat} (h : x % 16 = 0 ∧ x < 2^64) : x &&& (2^64 - 16) = x := by
  obtain ⟨q,rfl⟩ : ∃ q, x = q <<< 4 := ⟨x / 16,by rw [Nat.shiftLeft_eq]; omega⟩
  have small : q < 2^60 := by
    rw [Nat.shiftLeft_eq] at h
    omega
  rw [show (2^64 - 16 : Nat) = (2^60 - 1) <<< 4 from by decide,← Nat.shiftLeft_and_distrib,
    Nat.and_two_pow_sub_one_of_lt_two_pow small]

theorem execCallRest {m : Machine} {frame : Nat} (rsp : m.regs .rsp = frame)
    (place : frame % 16 = 0 ∧ frame < 2^64) (dispatch back : Nat) (rest : List Instr) :
    ∃ m', exec 0 (callRest dispatch back ++ rest) m = some m' ∧ m'.rip = dispatch ∧
      m'.regs .rdi = m.mem (address frame 128) ∧ m'.regs .rsi = m.mem (address frame 120) ∧
      m'.regs .rdx = frame ∧ m'.regs .rsp = below ((frame + (2^64 - 8)) % 2^64) ∧
      m'.mem = update m.mem (below ((frame + (2^64 - 8)) % 2^64)) back := by
  have kept := andAligned place
  simp only [callRest,List.cons_append,List.nil_append,exec]
  refine ⟨_,rfl,rfl,?_,?_,?_,?_,?_⟩ <;>
    simp only [pushed,subbed,anded,setReg,store,Function.update_apply,reduceCtorEq,if_true,if_false,rsp,kept]

theorem interruptEnters (i : Interrupt) (dispatch back : Nat) :
    ∃ m, exec 0 (isrStub i.vec ++ isrCommon dispatch back) i.deliver = some m ∧ m.rip = dispatch ∧
      m.regs .rdi = i.errcode ∧ m.regs .rsi = i.vec ∧ m.regs .rdx = i.frame ∧
      address (address (m.regs .rsp) 8) 8 = i.frame ∧
      ∀ f ∈ isrFrame, m.mem (address i.frame (offsetOf f)) = i.holds f := by
  obtain ⟨rsp,words⟩ := framedRsp i
  have place := frameAligned i
  obtain ⟨m,done,rip,rdi,rsi,rdx,top,mem⟩ := execCallRest rsp place dispatch back
    (afterCall (isrCommon dispatch back))
  have inside : ∀ f ∈ isrFrame, offsetOf f ≤ 168 := by decide
  refine ⟨m,(execFrame i dispatch back).trans done,rip,?_,?_,rdx,?_,fun f field => ?_⟩
  · exact rdi.trans (words .errcode (by decide))
  · exact rsi.trans (words .vec (by decide))
  · rw [top]
    unfold address below
    omega
  · have low := inside f field
    have apart : address i.frame (offsetOf f) ≠ below ((i.frame + (2^64 - 8)) % 2^64) := by
      unfold address below
      omega
    rw [mem,Function.update_of_ne apart]
    exact words f field

theorem popPlaces : ∀ r ∈ saved, ∃ k < 15, saved.reverse[k]? = some r ∧ offsetOf (.reg r) = 8 * k := by decide

theorem isrFrameRegs : ∀ r : Reg, .reg r ∈ isrFrame := by
  intro r
  cases r <;> decide

theorem interruptExits {m : Machine} {frame : Nat} (top : address (m.regs .rsp) 8 = frame)
    (dispatch back : Nat) :
    ∃ m', exec 0 (afterCall (isrCommon dispatch back)) m = some m' ∧
      (∀ r, m'.regs r = m.mem (address frame (offsetOf (.reg r)))) ∧
      m'.rip = m.mem (address frame (offsetOf .rip)) ∧
      m'.rflags = m.mem (address frame (offsetOf .rflags)) ||| 2 := by
  have rsp : (added m 8 .rsp).regs .rsp = frame := by
    simp only [added,setReg,Function.update_self,top]
  have small : frame < 2^64 := by
    rw [← top]
    exact Nat.mod_lt _ (by decide)
  obtain ⟨mem,stack,_,words⟩ := poppedWords saved.reverse (added m 8 .rsp) (by decide) (by decide)
    (by rw [rsp]; exact small)
  rw [rsp] at stack words
  rw [afterCallBlocks,exec,execPops]
  generalize saved.reverse.foldl popTo (added m 8 .rsp) = p at *
  have same : p.mem = m.mem := mem
  have last : ∀ k, address (address (address frame (8 * saved.reverse.length)) 16) (8 * k) =
      address frame (8 * (k + 17)) := by
    intro k
    rw [show 8 * saved.reverse.length = 120 from rfl]
    unfold address
    omega
  simp only [exec]
  refine ⟨_,rfl,fun r => ?_,?_,?_⟩
  · rcases savedOrFrame r with plain | kept
    · obtain ⟨k,_,popped,place⟩ := popPlaces r plain
      have other := savedPlain r plain
      simp only [resumed,added,setReg,Function.update_of_ne other.1,Function.update_of_ne other.2.1,
        Function.update_of_ne other.2.2]
      rw [place]
      exact words k r popped
    · rcases kept with rfl | rfl | rfl <;>
        simp only [resumed,added,setReg,Function.update_apply,reduceCtorEq,if_true,if_false,stack,same,last] <;>
        rfl
  · simp only [resumed,added,setReg,Function.update_self,stack,same,last]
    rfl
  · simp only [resumed,added,setReg,Function.update_self,stack,same,last]
    rfl

theorem interruptExact (i : Interrupt) (dispatch back : Nat) :
    Correct i dispatch back ↔ i.errcode = i.vec := by
  obtain ⟨m,done,rip,rdi,rsi,rdx,rsp,frame⟩ := interruptEnters i dispatch back
  constructor
  · rintro ⟨m',done',_,entered,_⟩
    cases Option.some.inj (done.symm.trans done')
    exact rdi.symm.trans entered.vec
  · intro swapped
    have entered : Entered i m := by
      refine ⟨rdi.trans swapped,rsi.trans swapped.symm,?_⟩
      rw [rdx]
      exact frame
    refine ⟨m,done,rip,entered,fun m' returned => ?_⟩
    have kept := returned.frame
    have top := returned.rsp
    rw [rdx] at kept
    rw [← top] at rsp
    obtain ⟨m'',left,regs,ip,flags⟩ := interruptExits rsp dispatch back
    refine ⟨m'',left,?_,?_,?_,?_⟩
    · intro r other
      have same := kept (.reg r) (isrFrameRegs r) (fun e => other (Slot.reg.inj e)) Slot.noConfusion
      rw [regs r,same,frame _ (isrFrameRegs r)]
      rfl
    · rw [flags,kept .rflags (by decide) (by decide) (by decide),frame .rflags (by decide)]
      exact i.reserved
    · rw [rdx]
      exact regs .rax
    · rw [rdx]
      exact ip

def syscallTrap : Interrupt where
  vec := 0x80
  code := 0
  m :=
    { regs := fun r => if r = .rax then 1 else if r = .cs then 0x23 else 0x7000
      rflags := 0x202
      rip := 0x400000
      mem := fun _ => 0 }
  top := 0x30000
  vector := by decide
  aligned := by decide
  small := by decide
  reserved := by decide

theorem syscallTrapMisread :
    (exec 0 (isrStub 0x80 ++ isrCommon 0x100000 0x200000) syscallTrap.deliver).map
      (fun m => (m.regs .rdi,m.regs .rsi)) = some (0,0x80) ∧ ¬ Correct syscallTrap 0x100000 0x200000 := by
  have arguments : (exec 0 (isrStub 0x80 ++ isrCommon 0x100000 0x200000) syscallTrap.deliver).map
      (fun m => (m.regs .rdi,m.regs .rsi)) = some (0,0x80) := by decide +kernel
  refine ⟨arguments,?_⟩
  rintro ⟨m,done,_,entered,_⟩
  obtain ⟨m',done',both⟩ := Option.map_eq_some_iff.mp arguments
  cases Option.some.inj (done.symm.trans done')
  have zero : m.regs .rdi = 0 := congrArg Prod.fst both
  have trap : m.regs .rdi = 0x80 := entered.vec
  rw [zero] at trap
  cases trap

inductive Action where
  | fixup (rip : Nat)
  | panic (vec errcode : Nat)
  | syscall
  | irq (line : Nat)
  | ignored
  deriving DecidableEq, Repr

def nekrosInterruptDispatch (gpFixupFind : Nat → Nat) (vec errcode rip : Nat) : Action :=
  if vec < 32 then
    if vec = 13 ∧ gpFixupFind rip ≠ 0 then .fixup (gpFixupFind rip) else .panic vec errcode
  else if vec = 0x80 then .syscall
  else if 32 ≤ vec ∧ vec < 48 then .irq (vec - 32)
  else .ignored

theorem uncodedPanics (i : Interrupt) (uncoded : i.vec ∉ errorVectors) (gpFixupFind : Nat → Nat)
    (dispatch back : Nat) :
    ∃ m, exec 0 (isrStub i.vec ++ isrCommon dispatch back) i.deliver = some m ∧
      nekrosInterruptDispatch gpFixupFind (m.regs .rdi) (m.regs .rsi)
        (m.mem (address (m.regs .rdx) (offsetOf .rip))) = .panic 0 i.vec := by
  obtain ⟨m,done,_,rdi,rsi,_⟩ := interruptEnters i dispatch back
  have zero : i.errcode = 0 := if_neg uncoded
  refine ⟨m,done,?_⟩
  rw [rdi,rsi,zero]
  rfl

end Nekros.IsrStubs
