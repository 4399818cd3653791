import Mathlib.Data.Nat.Bitwise
import Mathlib.Logic.Function.Basic
import Mathlib.Data.List.Nodup
import Mathlib.Data.List.Induction

/-! A few instructions of x86-64: eight-byte moves and sums, the stack, the flags, jumps,
calls and the return from an interrupt. The two segment selectors an interrupt saves are
registers like the others.
Memory is a map from addresses to the eight-byte words that start there; programs that
move aligned words only, as those here do, see no more of it. -/
namespace Nekros.X86
open Function (update)

inductive Reg where
  | rax | rbx | rbp | rsp | rsi | rdi | r12 | r13 | r14 | r15
  | rcx | rdx | r8 | r9 | r10 | r11 | cs | ss
  deriving DecidableEq, Repr

structure Machine where
  regs : Reg → Nat
  rflags : Nat
  rip : Nat
  mem : Nat → Nat

/- `jz` jumps forward over so many instructions; `jmp`, `call` and `iretq` leave the
listing. A call names the address it goes to and the one it returns to. -/
inductive Instr where
  | test (r : Reg)
  | jz (skip : Nat)
  | store (src : Reg) (disp : Nat) (base : Reg)
  | load (disp : Nat) (base dst : Reg)
  | pushf
  | popf
  | push (src : Reg)
  | pop (dst : Reg)
  | jmp (target : Reg)
  | pushImm (v : Nat)
  | mov (src dst : Reg)
  | andImm (v : Nat) (dst : Reg)
  | subImm (v : Nat) (dst : Reg)
  | addImm (v : Nat) (dst : Reg)
  | call (target back : Nat)
  | iretq
  deriving DecidableEq, Repr

def address (base disp : Nat) : Nat := (base + disp) % 2^64

def statusFlags : List Nat := [0,2,4,6,7,11]

def parity (v : Nat) : Bool := (List.range 8).foldl (fun even i => even != v.testBit i) true

/- AF is undefined after `test`; it is cleared here. -/
def testFlags (flags v : Nat) : Nat :=
  (flags &&& (2^64 - 1 - 0x8D5)) ||| ((if v = 0 then 2^6 else 0) |||
    ((if v.testBit 63 then 2^7 else 0) ||| (if parity (v % 2^8) then 2^2 else 0)))

def sumFlags (flags v : Nat) (carry aux overflow : Bool) : Nat :=
  testFlags flags v ||| ((if carry then 1 else 0) |||
    ((if aux then 2^4 else 0) ||| (if overflow then 2^11 else 0)))

def setReg (m : Machine) (r : Reg) (v : Nat) : Machine := {m with regs := update m.regs r v}

def store (m : Machine) (a v : Nat) : Machine := {m with mem := update m.mem a v}

def below (rsp : Nat) : Nat := (rsp + (2^64 - 8)) % 2^64

def pushed (m : Machine) (v : Nat) : Machine :=
  setReg (store m (below (m.regs .rsp)) v) .rsp (below (m.regs .rsp))

def popped (m : Machine) : Machine := setReg m .rsp (address (m.regs .rsp) 8)

def anded (m : Machine) (v : Nat) (r : Reg) : Machine :=
  let result := m.regs r &&& v
  {setReg m r result with rflags := testFlags m.rflags result}

def subbed (m : Machine) (v : Nat) (r : Reg) : Machine :=
  let a := m.regs r
  let result := (a + (2^64 - v)) % 2^64
  let overflow := a.testBit 63 != v.testBit 63 && a.testBit 63 != result.testBit 63
  {setReg m r result with
    rflags := sumFlags m.rflags result (a < v) (a % 16 < v % 16) overflow}

def added (m : Machine) (v : Nat) (r : Reg) : Machine :=
  let a := m.regs r
  let result := address a v
  let overflow := a.testBit 63 == v.testBit 63 && a.testBit 63 != result.testBit 63
  {setReg m r result with
    rflags := sumFlags m.rflags result (2^64 ≤ a + v) (16 ≤ a % 16 + v % 16) overflow}

/- The five words an interrupt pushed: rip, cs, rflags, rsp, ss. -/
def resumed (m : Machine) : Machine :=
  let word k := m.mem (address (m.regs .rsp) (8 * k))
  {setReg (setReg (setReg m .cs (word 1)) .rsp (word 3)) .ss (word 4) with
    rip := word 0
    rflags := word 2 ||| 2}

def exec : Nat → List Instr → Machine → Option Machine
  | _,[],_ => none
  | skip+1,_::rest,m => exec skip rest m
  | 0,.test r::rest,m => exec 0 rest {m with rflags := testFlags m.rflags (m.regs r)}
  | 0,.jz skip::rest,m => exec (if m.rflags.testBit 6 then skip else 0) rest m
  | 0,.store src disp base::rest,m => exec 0 rest (store m (address (m.regs base) disp) (m.regs src))
  | 0,.load disp base dst::rest,m => exec 0 rest (setReg m dst (m.mem (address (m.regs base) disp)))
  | 0,.pushf::rest,m => exec 0 rest (pushed m m.rflags)
  -- bit 1 of the flags reads as one
  | 0,.popf::rest,m => exec 0 rest {popped m with rflags := m.mem (m.regs .rsp) ||| 2}
  | 0,.push src::rest,m => exec 0 rest (pushed m (m.regs src))
  | 0,.pop dst::rest,m => exec 0 rest (setReg (popped m) dst (m.mem (m.regs .rsp)))
  | 0,.jmp target::_,m => some {m with rip := m.regs target}
  | 0,.pushImm v::rest,m => exec 0 rest (pushed m v)
  | 0,.mov src dst::rest,m => exec 0 rest (setReg m dst (m.regs src))
  | 0,.andImm v dst::rest,m => exec 0 rest (anded m v dst)
  | 0,.subImm v dst::rest,m => exec 0 rest (subbed m v dst)
  | 0,.addImm v dst::rest,m => exec 0 rest (added m v dst)
  | 0,.call target back::_,m => some {pushed m back with rip := target}
  | 0,.iretq::_,m => some (resumed m)

theorem testFlagsZero (flags v : Nat) : (testFlags flags v).testBit 6 = decide (v = 0) := by
  have mask : (2^64 - 1 - 0x8D5 : Nat).testBit 6 = false := by decide
  have sign : ∀ b : Bool, (if b then 2^7 else 0 : Nat).testBit 6 = false := by decide
  have even : ∀ b : Bool, (if b then 2^2 else 0 : Nat).testBit 6 = false := by decide
  rw [testFlags,Nat.testBit_or,Nat.testBit_or,Nat.testBit_or,Nat.testBit_and,mask,sign,even]
  by_cases zero : v = 0
  · rw [if_pos zero,Nat.testBit_two_pow_self]
    simp [zero]
  · rw [if_neg zero]
    simp [zero]

def storeBlock (base : Reg) (slots : List (Reg × Nat)) : List Instr :=
  slots.map (fun x => .store x.1 x.2 base)

def stored (m : Machine) (base : Reg) (slots : List (Reg × Nat)) : Machine :=
  slots.foldl (fun m x => store m (address (m.regs base) x.2) (m.regs x.1)) m

theorem execStores (base : Reg) (slots : List (Reg × Nat)) (rest : List Instr) (m : Machine) :
    exec 0 (storeBlock base slots ++ rest) m = exec 0 rest (stored m base slots) := by
  induction slots generalizing m with
  | nil => rfl
  | cons x slots ih => exact ih _

theorem storedRegs (m : Machine) (base : Reg) (slots : List (Reg × Nat)) :
    (stored m base slots).regs = m.regs ∧ (stored m base slots).rflags = m.rflags := by
  induction slots generalizing m with
  | nil => exact ⟨rfl,rfl⟩
  | cons x slots ih => exact ih _

theorem storedOther {m : Machine} {base : Reg} {slots : List (Reg × Nat)} {a : Nat}
    (away : ∀ x ∈ slots, a ≠ address (m.regs base) x.2) : (stored m base slots).mem a = m.mem a := by
  induction slots generalizing m with
  | nil => rfl
  | cons x slots ih =>
      have rest := ih (m := store m (address (m.regs base) x.2) (m.regs x.1))
        (fun y mem => away y (List.mem_cons_of_mem x mem))
      exact rest.trans (Function.update_of_ne (away x List.mem_cons_self) _ _)

theorem storedAt {m : Machine} {base : Reg} {slots : List (Reg × Nat)}
    (apart : (slots.map (fun x => address (m.regs base) x.2)).Nodup) {x : Reg × Nat} (mem : x ∈ slots) :
    (stored m base slots).mem (address (m.regs base) x.2) = m.regs x.1 := by
  induction slots generalizing m with
  | nil => cases mem
  | cons y slots ih =>
      obtain ⟨new,apart⟩ := List.nodup_cons.mp apart
      rcases List.mem_cons.mp mem with rfl | later
      · have kept : (stored (store m (address (m.regs base) x.2) (m.regs x.1)) base slots).mem
            (address (m.regs base) x.2) = _ :=
          storedOther (fun z mem same => new (List.mem_map.mpr ⟨z,mem,same.symm⟩))
        exact kept.trans (Function.update_self ..)
      · exact ih (m := store m (address (m.regs base) y.2) (m.regs y.1)) apart later

def loadBlock (base : Reg) (slots : List (Nat × Reg)) : List Instr :=
  slots.map (fun x => .load x.1 base x.2)

def loaded (m : Machine) (base : Reg) (slots : List (Nat × Reg)) : Machine :=
  slots.foldl (fun m x => setReg m x.2 (m.mem (address (m.regs base) x.1))) m

theorem execLoads (base : Reg) (slots : List (Nat × Reg)) (rest : List Instr) (m : Machine) :
    exec 0 (loadBlock base slots ++ rest) m = exec 0 rest (loaded m base slots) := by
  induction slots generalizing m with
  | nil => rfl
  | cons x slots ih => exact ih _

theorem loadedMem (m : Machine) (base : Reg) (slots : List (Nat × Reg)) :
    (loaded m base slots).mem = m.mem ∧ (loaded m base slots).rflags = m.rflags := by
  induction slots generalizing m with
  | nil => exact ⟨rfl,rfl⟩
  | cons x slots ih => exact ih _

theorem loadedOther {m : Machine} {base : Reg} {slots : List (Nat × Reg)} {r : Reg}
    (away : ∀ x ∈ slots, r ≠ x.2) : (loaded m base slots).regs r = m.regs r := by
  induction slots generalizing m with
  | nil => rfl
  | cons x slots ih =>
      have rest := ih (m := setReg m x.2 (m.mem (address (m.regs base) x.1)))
        (fun y mem => away y (List.mem_cons_of_mem x mem))
      exact rest.trans (Function.update_of_ne (away x List.mem_cons_self) _ _)

theorem loadedAt {m : Machine} {base : Reg} {slots : List (Nat × Reg)} (fixed : ∀ x ∈ slots, base ≠ x.2)
    (apart : (slots.map Prod.snd).Nodup) {x : Nat × Reg} (mem : x ∈ slots) :
    (loaded m base slots).regs x.2 = m.mem (address (m.regs base) x.1) := by
  induction slots generalizing m with
  | nil => cases mem
  | cons y slots ih =>
      obtain ⟨new,apart⟩ := List.nodup_cons.mp apart
      rcases List.mem_cons.mp mem with rfl | later
      · have kept : (loaded (setReg m x.2 (m.mem (address (m.regs base) x.1))) base slots).regs x.2 = _ :=
          loadedOther (fun z mem same => new (List.mem_map.mpr ⟨z,mem,same.symm⟩))
        exact kept.trans (Function.update_self ..)
      · have rest := ih (m := setReg m y.2 (m.mem (address (m.regs base) y.1)))
          (fun z mem => fixed z (List.mem_cons_of_mem y mem)) apart later
        have same : (setReg m y.2 (m.mem (address (m.regs base) y.1))).regs base = m.regs base :=
          Function.update_of_ne (fixed y List.mem_cons_self) _ _
        rw [same] at rest
        exact rest

theorem pushedMem (m : Machine) (v : Nat) :
    (pushed m v).mem = update m.mem (below (m.regs .rsp)) v := rfl

theorem pushedRsp (m : Machine) (v : Nat) : (pushed m v).regs .rsp = below (m.regs .rsp) := by
  simp only [pushed,setReg,Function.update_self]

def pushAll (m : Machine) (values : List Nat) : Machine := values.foldl pushed m

theorem execPushes (srcs : List Reg) (rest : List Instr) (m : Machine) (stack : .rsp ∉ srcs) :
    exec 0 (srcs.map .push ++ rest) m = exec 0 rest (pushAll m (srcs.map m.regs)) := by
  induction srcs generalizing m with
  | nil => rfl
  | cons r srcs ih =>
      obtain ⟨_,later⟩ := not_or.mp (fun h => stack (List.mem_cons.mpr h))
      have same : srcs.map (pushed m (m.regs r)).regs = srcs.map m.regs :=
        List.map_congr_left (fun x mem => Function.update_of_ne (ne_of_mem_of_not_mem mem later) _ _)
      have next := ih (pushed m (m.regs r)) later
      rw [same] at next
      exact next

theorem execPushImms (values : List Nat) (rest : List Instr) (m : Machine) :
    exec 0 (values.map .pushImm ++ rest) m = exec 0 rest (pushAll m values) := by
  induction values generalizing m with
  | nil => rfl
  | cons v values ih => exact ih _

theorem pushAllAppend (m : Machine) (first second : List Nat) :
    pushAll (pushAll m first) second = pushAll m (first ++ second) := by
  simp only [pushAll,List.foldl_append]

theorem pushAllRegs (m : Machine) (values : List Nat) {r : Reg} (other : r ≠ .rsp) :
    (pushAll m values).regs r = m.regs r := by
  induction values generalizing m with
  | nil => rfl
  | cons v values ih => exact (ih (pushed m v)).trans (Function.update_of_ne other _ _)

theorem pushAllWords (m : Machine) (values : List Nat) (top : m.regs .rsp < 2^64)
    (room : 8 * values.length < 2^64) :
    (pushAll m values).regs .rsp = (m.regs .rsp + (2^64 - 8 * values.length)) % 2^64 ∧
      ∀ k v, values.reverse[k]? = some v →
        (pushAll m values).mem (address ((pushAll m values).regs .rsp) (8 * k)) = v := by
  induction values using List.reverseRecOn with
  | nil =>
      refine ⟨?_,by simp⟩
      show m.regs .rsp = (m.regs .rsp + (2^64 - 8 * 0)) % 2^64
      omega
  | append_singleton values last ih =>
      rw [List.length_append,List.length_singleton] at room ⊢
      obtain ⟨rsp,words⟩ := ih (by omega)
      have split : pushAll m (values ++ [last]) = pushed (pushAll m values) last := by
        simp only [pushAll,List.foldl_append,List.foldl_cons,List.foldl_nil]
      rw [split]
      have bound : (pushAll m values).regs .rsp < 2^64 := by
        rw [rsp]
        exact Nat.mod_lt _ (by decide)
      have lower : below ((pushAll m values).regs .rsp) =
          (m.regs .rsp + (2^64 - 8 * (values.length + 1))) % 2^64 := by
        rw [rsp]
        unfold below
        omega
      refine ⟨(pushedRsp _ _).trans lower,fun k v found => ?_⟩
      rw [List.reverse_append,List.reverse_singleton] at found
      rw [pushedRsp,pushedMem]
      cases k with
      | zero =>
          have here : address (below ((pushAll m values).regs .rsp)) (8 * 0) =
              below ((pushAll m values).regs .rsp) := by
            unfold address below
            omega
          cases Option.some.inj found
          rw [here,Function.update_self]
      | succ k =>
          have older : values.reverse[k]? = some v := found
          have short : k < values.length := by
            rw [← List.length_reverse]
            exact (List.getElem?_eq_some_iff.mp older).1
          have moved : address (below ((pushAll m values).regs .rsp)) (8 * (k+1)) =
              address ((pushAll m values).regs .rsp) (8 * k) := by
            unfold address below
            omega
          have apart : address ((pushAll m values).regs .rsp) (8 * k) ≠
              below ((pushAll m values).regs .rsp) := by
            unfold address below
            omega
          rw [moved,Function.update_of_ne apart,words k v older]

def popTo (m : Machine) (dst : Reg) : Machine := setReg (popped m) dst (m.mem (m.regs .rsp))

theorem execPops (dsts : List Reg) (rest : List Instr) (m : Machine) :
    exec 0 (dsts.map .pop ++ rest) m = exec 0 rest (dsts.foldl popTo m) := by
  induction dsts generalizing m with
  | nil => rfl
  | cons r dsts ih => exact ih _

theorem poppedWords (dsts : List Reg) (m : Machine) (stack : .rsp ∉ dsts) (distinct : dsts.Nodup)
    (top : m.regs .rsp < 2^64) :
    (dsts.foldl popTo m).mem = m.mem ∧
      (dsts.foldl popTo m).regs .rsp = address (m.regs .rsp) (8 * dsts.length) ∧
      (∀ r, r ≠ .rsp → r ∉ dsts → (dsts.foldl popTo m).regs r = m.regs r) ∧
      ∀ k r, dsts[k]? = some r →
        (dsts.foldl popTo m).regs r = m.mem (address (m.regs .rsp) (8 * k)) := by
  induction dsts generalizing m with
  | nil => exact ⟨rfl,(Nat.mod_eq_of_lt top).symm,fun _ _ _ => rfl,by simp⟩
  | cons d dsts ih =>
      obtain ⟨first,later⟩ := not_or.mp (fun h => stack (List.mem_cons.mpr h))
      obtain ⟨fresh,distinct⟩ := List.nodup_cons.mp distinct
      have rsp : (popTo m d).regs .rsp = address (m.regs .rsp) 8 := by
        simp only [popTo,setReg,popped,Function.update_of_ne first,Function.update_self]
      have bound : (popTo m d).regs .rsp < 2^64 := by
        rw [rsp]
        exact Nat.mod_lt _ (by decide)
      obtain ⟨mem,stackTop,others,words⟩ := ih (popTo m d) later distinct bound
      rw [rsp] at stackTop words
      have twice : ∀ k, address (address (m.regs .rsp) 8) (8 * k) = address (m.regs .rsp) (8 * (k+1)) := by
        intro k
        unfold address
        omega
      refine ⟨mem,stackTop.trans (twice _),fun r other away => ?_,fun k r found => ?_⟩
      · obtain ⟨notFirst,notLater⟩ := not_or.mp (fun h => away (List.mem_cons.mpr h))
        refine (others r other notLater).trans ?_
        simp only [popTo,setReg,popped,Function.update_of_ne notFirst,Function.update_of_ne other]
      · cases k with
        | zero =>
            cases Option.some.inj found
            refine (others d (fun e => first e.symm) fresh).trans ?_
            have here : address (m.regs .rsp) (8 * 0) = m.regs .rsp := Nat.mod_eq_of_lt top
            rw [here]
            exact Function.update_self _ _ _
        | succ k =>
            rw [← twice k]
            exact words k r found

end Nekros.X86
