import Nekros.SchedPriority
import Nekros.Trace
import Nekros.Utb

/-! Conversions between ticks of the time stamp counter and nanoseconds: `nekros_tsc_to_ns` of
arch/x86/hal/hal.c, the timestamps of kernel/trace.c and the deadline of `sys_nk_work_budget`. Both
directions multiply before they divide, in 64 bits. -/
namespace Nekros.Clock
open Words
open GuardedRun (run)
open Trace (Word Entry Body World Event sealEntry start)
open Hal (nekrosTscToNs)
open Utb (Machine)
open SchedPriority (Request sysNkWorkBudget freeBudget)

def traceNowNs (m : Machine) (bootTsc tsc : Nat) : Nat := nekrosTscToNs m.tscKhz (sub64 tsc bootTsc)

/- The words the HMAC covers: `pid`, `type` and `flags` share the second one. -/
def entryBody (now : Nat) (pid : BitVec 32) (type : BitVec 16) (arg0 arg1 arg2 retval : Word) : Body :=
  #v[BitVec.ofNat 64 now,0#16 ++ type ++ pid,arg0,arg1,arg2,retval]

def traceSyscallEnter (now : Nat) (pid : BitVec 32) (nr a0 a1 a2 : Word) : Body :=
  entryBody now pid 0x01 nr a0 a1 a2

def traceSyscallExit (now : Nat) (pid : BitVec 32) (nr retval : Word) : Body :=
  entryBody now pid 0x02 nr 0 0 retval

def traceAnomaly (now : Nat) (pid : BitVec 32) (score level : BitVec 32) : Body :=
  entryBody now pid 0x08 (score.setWidth 64) (level.setWidth 64) 0 0

def traceNeriAdmit (now : Nat) (pid : BitVec 32) (cpuNs ramPages : Word) : Body :=
  entryBody now pid 0x06 cpuNs ramPages 0 0

inductive Traced where
  | syscallEnter (nr a0 a1 a2 : Word)
  | syscallExit (nr retval : Word)
  | anomaly (score level : BitVec 32)
  | neriAdmit (cpuNs ramPages : Word)

def filled (now : Nat) (pid : BitVec 32) : Traced → Body
  | .syscallEnter nr a0 a1 a2 => traceSyscallEnter now pid nr a0 a1 a2
  | .syscallExit nr retval => traceSyscallExit now pid nr retval
  | .anomaly score level => traceAnomaly now pid score level
  | .neriAdmit cpuNs ramPages => traceNeriAdmit now pid cpuNs ramPages

def timestampNs (e : Entry) : Nat := (e.getD 0 0).toNat

structure Moment where
  tsc : Nat
  call : Traced

def Moment.body (m : Machine) (bootTsc : Nat) (pid : BitVec 32) (at' : Moment) : Body :=
  filled (traceNowNs m bootTsc at'.tsc) pid at'.call

def claimed : List Event → List Body
  | [] => []
  | .claim body :: rest => body :: claimed rest
  | _ :: rest => claimed rest

theorem wrapDivShort {x c : Nat} (pos : 0 < c) (small : c ≤ 2^64) (large : 2^64 ≤ x) :
    wrap x / c < x / c := by
  have room : wrap x + c ≤ x := by
    unfold wrap
    omega
  calc wrap x / c < wrap x / c + 1 := Nat.lt_succ_self _
    _ = (wrap x + c) / c := (Nat.add_div_right (wrap x) pos).symm
    _ ≤ x / c := Nat.div_le_div_right room

theorem tscToNsExact (m : Machine) (word : m.tscKhz < 2^64) (d : Nat) :
    nekrosTscToNs m.tscKhz d = d * 1000000 / m.tscKhz ↔ d * 1000000 < 2^64 := by
  constructor
  · intro same
    by_contra large
    have short := wrapDivShort (Nat.pos_of_ne_zero m.clocked) (Nat.le_of_lt word) (Nat.le_of_not_lt large)
    exact absurd same (Nat.ne_of_lt short)
  · intro fits
    rw [nekrosTscToNs,wrapOfLt fits]

theorem deadlineExact {tsc x : Nat} :
    wrap (tsc + wrap x / 1000000) = tsc + x / 1000000 ↔ x < 2^64 ∧ tsc + x / 1000000 < 2^64 := by
  constructor
  · intro same
    have fits : tsc + x / 1000000 < 2^64 := same ▸ wrapLt _
    refine ⟨?_,fits⟩
    by_contra large
    have short := wrapDivShort (c := 1000000) (by decide) (by decide) (Nat.le_of_not_lt large)
    have le : wrap (tsc + wrap x / 1000000) ≤ tsc + wrap x / 1000000 := Nat.mod_le _ _
    omega
  · rintro ⟨fits,sum⟩
    rw [wrapOfLt fits,wrapOfLt sum]

theorem claimedCons (e : Event) (rest : List Event) : claimed (e :: rest) = claimed [e] ++ claimed rest := by
  cases e with
  | _ => rfl

theorem stepWritten {mac : Body → Vector Word 2} {w w' : World} {e : Event}
    (next : Trace.step mac w e = some w') :
    w'.written = w.written ++ (claimed [e]).map (sealEntry mac) := by
  cases e with
  | claim body =>
      simp only [Trace.step,Trace.claim] at next
      split at next
      · cases Option.some.inj next
        rfl
      · cases next
  | copyWord =>
      simp only [Trace.step,Trace.copyWord] at next
      split at next
      · cases next
      · split at next
        · cases Option.some.inj next
          exact (List.append_nil _).symm
        · cases next
  | publish =>
      simp only [Trace.step,Trace.publish] at next
      split at next
      · cases next
      · split at next
        · cases Option.some.inj next
          exact (List.append_nil _).symm
        · cases next
  | readBegin maxEntries =>
      simp only [Trace.step,Trace.readBegin] at next
      split at next
      · cases Option.some.inj next
        exact (List.append_nil _).symm
      · cases next
  | readWord =>
      simp only [Trace.step,Trace.readWord] at next
      split at next
      · cases next
      · split at next
        · cases Option.some.inj next
          exact (List.append_nil _).symm
        · cases next
  | readEnd =>
      simp only [Trace.step,Trace.readEnd] at next
      split at next
      · cases next
      · split at next
        · cases Option.some.inj next
          exact (List.append_nil _).symm
        · cases next

theorem runWritten {mac : Body → Vector Word 2} {events : List Event} {w w' : World}
    (ran : run (Trace.step mac) w events = some w') :
    w'.written = w.written ++ (claimed events).map (sealEntry mac) := by
  induction events generalizing w with
  | nil =>
      cases Option.some.inj ran
      exact (List.append_nil _).symm
  | cons e rest ih =>
      obtain ⟨between,next,later⟩ := Option.bind_eq_some_iff.mp ran
      rw [ih later,stepWritten next,claimedCons e rest,List.map_append,List.append_assoc]

theorem tscToNsLt (m : Machine) (d : Nat) : nekrosTscToNs m.tscKhz d < 2^64 :=
  Nat.lt_of_le_of_lt (Nat.div_le_self _ _) (wrapLt _)

theorem timestampSealed (mac : Body → Vector Word 2) (m : Machine) (bootTsc : Nat) (pid : BitVec 32)
    (at' : Moment) : timestampNs (sealEntry mac (at'.body m bootTsc pid)) = traceNowNs m bootTsc at'.tsc := by
  have first : (at'.body m bootTsc pid).getD 0 0 = BitVec.ofNat 64 (traceNowNs m bootTsc at'.tsc) := by
    obtain ⟨tsc,call⟩ := at'
    cases call with
    | _ => rfl
  have same : (sealEntry mac (at'.body m bootTsc pid)).getD 0 0 = (at'.body m bootTsc pid).getD 0 0 := by
    simp only [Vector.getD,BitVec.ofNat_eq_ofNat,Array.getD_eq_getD_getElem?,Vector.size_toArray,
      Nat.zero_lt_succ,getElem?_pos,Vector.getElem_toArray,Option.getD_some]
    exact Vector.getElem_append_left (by decide)
  rw [timestampNs,same,first,BitVec.toNat_ofNat]
  exact Nat.mod_eq_of_lt (tscToNsLt m _)

structure Early (bootTsc tsc : Nat) : Prop where
  started : bootTsc ≤ tsc
  word : tsc < 2^64
  fits : (tsc - bootTsc) * 1000000 < 2^64

theorem nowMono (m : Machine) {bootTsc x y : Nat} (earlyX : Early bootTsc x) (earlyY : Early bootTsc y)
    (le : x ≤ y) : traceNowNs m bootTsc x ≤ traceNowNs m bootTsc y := by
  have exactly {tsc : Nat} (early : Early bootTsc tsc) :
      traceNowNs m bootTsc tsc = (tsc - bootTsc) * 1000000 / m.tscKhz := by
    rw [traceNowNs,sub64OfLe early.started early.word,nekrosTscToNs,wrapOfLt early.fits]
  rw [exactly earlyX,exactly earlyY]
  exact Nat.div_le_div_right (Nat.mul_le_mul_right _ (Nat.sub_le_sub_right le _))

theorem timestampsRise (m : Machine) {mac : Body → Vector Word 2} {bootTsc : Nat} {pid : BitVec 32}
    {moments : List Moment} {events : List Event} {w : World}
    (ran : run (Trace.step mac) start events = some w)
    (calls : claimed events = moments.map (Moment.body m bootTsc pid))
    (advances : moments.Pairwise (fun a b => a.tsc ≤ b.tsc))
    (early : ∀ at' ∈ moments, Early bootTsc at'.tsc) :
    (w.written.map timestampNs).Pairwise (· ≤ ·) := by
  have stamps : w.written.map timestampNs = moments.map (fun at' => traceNowNs m bootTsc at'.tsc) := by
    rw [runWritten ran,calls]
    show (([] : List Entry) ++ _).map timestampNs = _
    rw [List.nil_append,List.map_map,List.map_map]
    exact List.map_congr_left (fun at' _ => timestampSealed mac m bootTsc pid at')
  rw [stamps,List.pairwise_map]
  exact advances.imp_of_mem (fun inA inB le => nowMono m (early _ inA) (early _ inB) le)

theorem deadlineStored {w : SchedPriority.World} {cpu : Sched.Cpu} {r : Request} {t : Sched.Tid} {i : Nat}
    (running : w.sched.current cpu = some t) (asked : r.cpuNs ≠ 0 ∧ r.deadlineNs ≠ 0)
    (free : freeBudget w = some i) :
    ((sysNkWorkBudget w cpu r).1.budgets i).deadlineTsc =
      wrap (r.tsc + wrap (r.deadlineNs * r.tscKhz) / 1000000) := by
  have valid : ¬ (r.cpuNs = 0 ∨ r.deadlineNs = 0) := fun zero => zero.elim asked.1 asked.2
  unfold sysNkWorkBudget
  simp only [running,free]
  rw [if_neg valid]
  simp only [Function.update_self]

theorem conversionsExact (m : Machine) (word : m.tscKhz < 2^64) :
    (∀ d, nekrosTscToNs m.tscKhz d = d * 1000000 / m.tscKhz ↔ d * 1000000 < 2^64) ∧
    (∀ (mac : Body → Vector Word 2) (bootTsc : Nat) (pid : BitVec 32) (moments : List Moment)
      (events : List Event) (w : World), run (Trace.step mac) start events = some w →
      claimed events = moments.map (Moment.body m bootTsc pid) →
      moments.Pairwise (fun a b => a.tsc ≤ b.tsc) → (∀ at' ∈ moments, Early bootTsc at'.tsc) →
      (w.written.map timestampNs).Pairwise (· ≤ ·)) ∧
    (∀ (w : SchedPriority.World) (cpu : Sched.Cpu) (r : Request) (t : Sched.Tid) (i : Nat),
      r.tscKhz = m.tscKhz → w.sched.current cpu = some t → r.cpuNs ≠ 0 ∧ r.deadlineNs ≠ 0 →
      freeBudget w = some i →
      (((sysNkWorkBudget w cpu r).1.budgets i).deadlineTsc =
          r.tsc + r.deadlineNs * m.tscKhz / 1000000 ↔
        r.deadlineNs * m.tscKhz < 2^64 ∧ r.tsc + r.deadlineNs * m.tscKhz / 1000000 < 2^64)) := by
  refine ⟨tscToNsExact m word,?_,?_⟩
  · intro mac bootTsc pid moments events w ran calls advances early
    exact timestampsRise m ran calls advances early
  · intro w cpu r t i same running asked free
    rw [deadlineStored running asked free,same]
    exact deadlineExact

theorem twoGigahertzClocked : 2000000 ≠ 0 := by decide

def twoGigahertz : Machine := ⟨false,2000000,1,twoGigahertzClocked,Utb.oneCpu⟩

def exitAt (tsc : Nat) : Moment := ⟨tsc,.syscallExit 1 0⟩

def secondApart : List Moment := [exitAt 5,exitAt 2000000005]

def minutesApart : List Moment := [exitAt 15000000000000,exitAt 20000000000000]

def writes (moments : List Moment) : List Event :=
  moments.flatMap (fun at' => Trace.writeCall (at'.body twoGigahertz 5 7))

def oneRunning : List SchedPriority.Event := [.call (.create 0 (Sched.plain 0x1000000)),.call (.schedule 0)]

def withDeadline (deadlineNs : Nat) : Request := ⟨1000000,deadlineNs,0,77,2000000⟩

theorem conversionsExactShort :
    nekrosTscToNs twoGigahertz.tscKhz 2000000000 = 1000000000 ∧
    (∃ w, run (Trace.step Trace.noMac) start (writes secondApart) = some w ∧
      (w.written.map timestampNs).Pairwise (· ≤ ·)) ∧
    (∃ w, run SchedPriority.step (SchedPriority.boot SchedPriority.quiet) oneRunning = some w ∧
      ((sysNkWorkBudget w 0 (withDeadline 5000000000)).1.budgets 0).deadlineTsc = 77 + 10000000000) := by
  obtain ⟨ticks,stamps,deadlines⟩ := conversionsExact twoGigahertz (by decide)
  refine ⟨(ticks 2000000000).mpr (by decide),?_,?_⟩
  · have returns : (run (Trace.step Trace.noMac) start (writes secondApart)).isSome := by decide +kernel
    obtain ⟨w,ran⟩ := Option.isSome_iff_exists.mp returns
    refine ⟨w,ran,stamps Trace.noMac 5 7 secondApart (writes secondApart) w ran rfl (by simp [secondApart,exitAt]) ?_⟩
    intro at' mem
    rcases List.mem_pair.mp mem with rfl | rfl
    · exact ⟨by decide,by decide,by decide⟩
    · exact ⟨by decide,by decide,by decide⟩
  · have facts : (run SchedPriority.step (SchedPriority.boot SchedPriority.quiet) oneRunning).map
        (fun w => (w.sched.current 0,freeBudget w)) = some (some 0,some 0) := by decide +kernel
    obtain ⟨w,ran,data⟩ := Option.map_eq_some_iff.mp facts
    obtain ⟨running,free⟩ := Prod.mk.inj data
    refine ⟨w,ran,?_⟩
    exact (deadlines w 0 (withDeadline 5000000000) 0 0 rfl running (by decide) free).mpr (by decide)

theorem conversionsWrap :
    nekrosTscToNs twoGigahertz.tscKhz 20000000000000 = 776627963145 ∧
    (∃ w, run (Trace.step Trace.noMac) start (writes minutesApart) = some w ∧
      w.written.map timestampNs = [7499999999997,776627963142]) ∧
    (∃ w, run SchedPriority.step (SchedPriority.boot SchedPriority.quiet)
        (oneRunning ++ [.workBudget 0 (withDeadline 10000000000000)]) = some w ∧
      (w.budgets 0).deadlineTsc = 77 + 1553255926290) := by
  have stamps : (run (Trace.step Trace.noMac) start (writes minutesApart)).map
      (fun w => w.written.map timestampNs) = some [7499999999997,776627963142] := by decide +kernel
  have deadline : (run SchedPriority.step (SchedPriority.boot SchedPriority.quiet)
      (oneRunning ++ [.workBudget 0 (withDeadline 10000000000000)])).map
        (fun w => (w.budgets 0).deadlineTsc) = some (77 + 1553255926290) := by decide +kernel
  exact ⟨by decide,Option.map_eq_some_iff.mp stamps,Option.map_eq_some_iff.mp deadline⟩

end Nekros.Clock
