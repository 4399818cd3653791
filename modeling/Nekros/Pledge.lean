import Mathlib.Data.Nat.Bitwise
import Nekros.GuardedRun
import Nekros.SchedAgreement
import Nekros.SyscallSteps

/-! The pledge of a task: `sig_blocked` while bit 63 of `sig_pending` is set. The mask
goes through the argument scrubber on its way in, so that no pledge ever allows a call
numbered 47 or more; `nk_pledge` is 53 and `nk_thread_create` is 59. -/
namespace Nekros.Pledge
open Sched SchedSteps Syscall SyscallSteps
open GuardedRun (run)
open Function (update)

def unpledgedMask : Nat := 2^64 - 1

def allowed (t : Task) : Nat := if pledged t then t.sigBlocked else unpledgedMask

def Within (m n : Nat) : Prop := ∀ nr < 64, m.testBit nr = true → n.testBit nr = true

structure Execution where
  task : Tid
  nr : Nat
  force : Nat

/- The kernel with a record of what pledges have to answer for: the masks each task has
had, newest first, and for each task the masks of its creators when they made it. -/
structure World where
  kernel : Kernel
  sets : Tid → List Nat
  ceilings : Tid → List Nat
  log : List Execution

def caller (k : Kernel) : Event → Option (Tid × Nat × Handler)
  | .dispatch cpu nr _ _ =>
      match verdict k cpu nr,k.sched.current cpu with
      | .call h,some t => some (t,nr,h)
      | _,_ => none
  | _ => none

def executed (k : Kernel) (e : Event) : List Execution :=
  match caller k e with
  | some (t,nr,_) => [⟨t,nr,allowed (k.sched.tasks t)⟩]
  | none => []

/- A thread made by `nk_thread_create` answers to its creator and to those before it. -/
def inherited (w : World) (e : Event) (k' : Kernel) : Tid → List Nat :=
  match caller w.kernel e with
  | some (t,_,h) =>
      if h = .nkThreadCreate ∧ k'.sched.made ≠ w.kernel.sched.made then
        update w.ceilings w.kernel.sched.made (allowed (w.kernel.sched.tasks t)::w.ceilings t)
      else w.ceilings
  | none => w.ceilings

def noted (w : World) (e : Event) (k' : Kernel) : World :=
  ⟨k',fun t => allowed (k'.sched.tasks t)::w.sets t,inherited w e k',executed w.kernel e ++ w.log⟩

def start : World := ⟨boot,fun _ => [],fun _ => [],[]⟩

structure Confined (w : World) : Prop where
  shrinks : ∀ t, (allowed (w.kernel.sched.tasks t)::w.sets t).Pairwise Within
  force : ∀ x ∈ w.log, x.force.testBit x.nr = true
  inherited : ∀ x ∈ w.log, ∀ m ∈ w.ceilings x.task, m.testBit x.nr = true

theorem withinRefl (m : Nat) : Within m m := fun _ _ set => set

theorem withinTrans {m n o : Nat} (h : Within m n) (g : Within n o) : Within m o :=
  fun nr range set => g nr range (h nr range set)

theorem unpledgedBit {nr : Nat} (range : nr < 64) : unpledgedMask.testBit nr = true := by
  rw [unpledgedMask,Nat.testBit_two_pow_sub_one]
  exact decide_eq_true range

theorem unpledgedTop (m : Nat) : Within m unpledgedMask := fun _ range _ => unpledgedBit range

theorem bitBelow {m nr n : Nat} (small : m < 2^n) (set : m.testBit nr = true) : nr < n := by
  by_contra high
  have above : m < 2^nr := Nat.lt_of_lt_of_le small (Nat.pow_le_pow_right (by decide) (Nat.le_of_not_lt high))
  rw [Nat.testBit_lt_two_pow above] at set
  cases set

theorem tablePledge {nr : Nat} (range : nr < 64) (found : syscallTable.getD nr none = some .nkPledge) :
    nr = 53 := by
  revert nr
  decide

theorem tableThread {nr : Nat} (range : nr < 64)
    (found : syscallTable.getD nr none = some .nkThreadCreate) : nr = 59 := by
  revert nr
  decide

def Low (s : State) : Prop := ∀ t, pledged (s.tasks t) = true → (s.tasks t).sigBlocked < 2^47

theorem pledgedCall {k : Kernel} {cpu : Cpu} {nr : Nat} {h : Handler} {t : Tid}
    (decided : verdict k cpu nr = .call h) (seat : k.sched.current cpu = some t) :
    (allowed (k.sched.tasks t)).testBit nr = true := by
  obtain ⟨range,_,passed⟩ := verdictCall decided
  have passed := passed t seat
  unfold allowed
  split
  · rename_i active
    simpa [pledgeBlocks,active] using passed
  · exact unpledgedBit range

theorem pledgedLow {k : Kernel} {cpu : Cpu} {nr : Nat} {h : Handler} {t : Tid} (low : Low k.sched)
    (decided : verdict k cpu nr = .call h) (seat : k.sched.current cpu = some t)
    (active : pledged (k.sched.tasks t) = true) : nr < 47 := by
  have set := pledgedCall decided seat
  rw [allowed,if_pos active] at set
  exact bitBelow (low t active) set

theorem unpledgedCaller {k : Kernel} {cpu : Cpu} {nr : Nat} {h : Handler} {t : Tid} (low : Low k.sched)
    (decided : verdict k cpu nr = .call h) (seat : k.sched.current cpu = some t)
    (kind : h = .nkPledge ∨ h = .nkThreadCreate) : pledged (k.sched.tasks t) = false := by
  obtain ⟨range,found,_⟩ := verdictCall decided
  refine Bool.eq_false_iff.mpr (fun active => ?_)
  have below := pledgedLow low decided seat active
  rcases kind with rfl | rfl
  · rw [tablePledge range found] at below
    exact absurd below (by decide)
  · rw [tableThread range found] at below
    exact absurd below (by decide)

inductive PledgeStep (k k' : Kernel) (e : Event) (u : Tid) : Prop
  | same (kept : SamePledge k.sched k'.sched u)
  | born (new : u = k.sched.made) (clean : (k'.sched.tasks u).sigPending = 0)
  | pledges (nr : Nat) (a : Nat) (call : caller k e = some (u,nr,.nkPledge))
      (blocked : (k'.sched.tasks u).sigBlocked = scrubArg a)
      (pending : (k'.sched.tasks u).sigPending = (k.sched.tasks u).sigPending ||| 2^63)

theorem createdPledge {s s' : State} {cpu : Cpu} {c : Creation} {t u : Tid} (h : Created s s' cpu c t) :
    SamePledge s s' u ∨ u = s.made ∧ (s'.tasks u).sigPending = 0 := by
  by_cases here : u = t
  · obtain ⟨v,a,task⟩ := h.task
    rw [here,task]
    exact .inr ⟨h.new,rfl⟩
  · rw [SamePledge,h.others u here]
    exact .inl ⟨rfl,rfl⟩

theorem samePledgeTrans {s t r : State} {u : Tid} (h : SamePledge s t u) (g : SamePledge t r u) :
    SamePledge s r u := ⟨g.1.trans h.1,g.2.trans h.2⟩

theorem exitedPledge {s s0 s' : State} {cpu : Cpu} {sw : Switch} {t u : Tid} (marked : Marked s s0 t)
    (scheduled : Scheduled s0 s' cpu sw) : SamePledge s s' u :=
  samePledgeTrans (movedPledge marked.moved u) (movedPledge scheduled.moved u)

theorem dispatchPledge {k k' : Kernel} {cpu : Cpu} {nr : Nat} {a : Args} {w : Answers} {v : Option Nat}
    (good : Good k.sched) (seat : k.sched.current cpu ≠ none) (u : Tid)
    (done : dispatch k cpu nr a w = some (k',v)) : PledgeStep k k' (.dispatch cpu nr a w) u := by
  obtain ⟨t,seat⟩ := Option.ne_none_iff_exists'.mp seat
  unfold dispatch at done
  cases decided : verdict k cpu nr with
  | outOfRange => rw [decided] at done; cases done; exact .same ⟨rfl,rfl⟩
  | reentrant => rw [decided] at done; cases done; exact .same ⟨rfl,rfl⟩
  | missing => rw [decided] at done; cases done; exact .same ⟨rfl,rfl⟩
  | killed =>
      obtain ⟨s0,s',sw,exited,marked,scheduled⟩ := exitCases cpu good (good.seats.current cpu t seat).1
      rw [decided] at done
      simp only [seat,exited,Option.map_some] at done
      cases done
      exact .same (exitedPledge marked scheduled)
  | call handler =>
      obtain ⟨s',sw,v',ran,handled⟩ := handlerCases handler (scrubbed a) w good seat
      rw [decided] at done
      simp only [ran,Option.map_some] at done
      have sched : k'.sched = s' := by
        split at done <;> cases done <;> rfl
      cases handled with
      | exit marked scheduled => exact .same (sched ▸ exitedPledge marked scheduled)
      | schedules _ _ scheduled => exact .same (sched ▸ movedPledge scheduled.moved u)
      | creates created =>
          rcases createdPledge (u := u) created with same | ⟨new,clean⟩
          · exact .same (sched ▸ same)
          · exact .born new (sched ▸ clean)
      | pledges =>
          by_cases here : u = t
          · subst here
            refine .pledges nr a.a1 (by simp [caller,decided,seat]) ?_ ?_
            · rw [sched]
              simp [setTask,scrubbed]
            · rw [sched]
              simp [setTask]
          · refine .same (sched ▸ ?_)
            simp [SamePledge,setTask,here]
      | quiet _ _ pledge => exact .same (sched ▸ pledge u)

theorem stepPledge {k k' : Kernel} {e : Event} (good : Good k.sched) (valid : Valid k e) (u : Tid)
    (stepped : Syscall.step k e = some k') : PledgeStep k k' e u := by
  cases e with
  | create cpu c =>
      cases stepped
      rcases createCases cpu c good with ⟨_,n,failed⟩ | ⟨s',t,made,created⟩
      · exact .same (by simp [failed,SamePledge])
      · rcases createdPledge (u := u) created with same | ⟨new,clean⟩
        · exact .same (by simpa [made] using same)
        · exact .born new (by simpa [made] using clean)
  | schedule cpu =>
      obtain ⟨s',sw,done,result⟩ := scheduleCases cpu good
      simp only [Syscall.step,done,Option.map_some,Option.some.injEq] at stepped
      exact .same (stepped ▸ movedPledge result.moved u)
  | tick cpu =>
      obtain ⟨s0,good0,moved,_,_,_,done | done⟩ := tickCases cpu good
      · simp only [Syscall.step,done,Option.map_some,Option.some.injEq] at stepped
        exact .same (stepped ▸ movedPledge moved u)
      · obtain ⟨s',sw,scheduled,result⟩ := scheduleCases cpu good0
        simp only [Syscall.step,done,scheduled,Option.map_some,Option.some.injEq] at stepped
        exact .same (stepped ▸ samePledgeTrans (movedPledge moved u) (movedPledge result.moved u))
  | exit cpu t =>
      obtain ⟨s0,s',sw,done,marked,result⟩ := exitCases cpu good valid
      simp only [Syscall.step,done,Option.map_some,Option.some.injEq] at stepped
      exact .same (stepped ▸ exitedPledge marked result)
  | dispatch cpu nr a w =>
      obtain ⟨⟨k1,v⟩,dispatched,same⟩ := Option.map_eq_some_iff.mp stepped
      cases same
      exact dispatchPledge good valid.1 u dispatched
  | resume cpu =>
      cases stepped
      exact .same (by rw [SamePledge,(resumeSched k cpu).1]; exact ⟨rfl,rfl⟩)

theorem inheritedCases {w : World} {e : Event} {k' : Kernel} {u : Tid} {m : Nat}
    (mem : m ∈ inherited w e k' u) : m ∈ w.ceilings u ∨
      ∃ t nr, caller w.kernel e = some (t,nr,.nkThreadCreate) ∧
        (m = allowed (w.kernel.sched.tasks t) ∨ m ∈ w.ceilings t) := by
  unfold inherited at mem
  cases call : caller w.kernel e with
  | none =>
      rw [call] at mem
      exact .inl mem
  | some x =>
      obtain ⟨t,nr,h⟩ := x
      rw [call] at mem
      dsimp only at mem
      by_cases thread : h = .nkThreadCreate ∧ k'.sched.made ≠ w.kernel.sched.made
      · rw [if_pos thread] at mem
        by_cases here : u = w.kernel.sched.made
        · rw [here,Function.update_self] at mem
          exact .inr ⟨t,nr,by rw [thread.1],List.mem_cons.mp mem⟩
        · rw [Function.update_of_ne here] at mem
          exact .inl mem
      · rw [if_neg thread] at mem
        exact .inl mem

structure Inv (w : World) : Prop where
  good : Good w.kernel.sched
  low : Low w.kernel.sched
  unborn : ∀ t, w.kernel.sched.made ≤ t → pledged (w.kernel.sched.tasks t) = false
  sets : ∀ t, (allowed (w.kernel.sched.tasks t)::w.sets t).Pairwise Within
  force : ∀ x ∈ w.log, x.nr < 64 ∧ x.force.testBit x.nr = true
  ceilings : ∀ t, ∀ m ∈ w.ceilings t, m = unpledgedMask

theorem invConfined {w : World} (h : Inv w) : Confined w := by
  refine ⟨h.sets,fun x mem => (h.force x mem).2,fun x mem m ceiling => ?_⟩
  rw [h.ceilings x.task m ceiling]
  exact unpledgedBit (h.force x mem).1

theorem callerVerdict {k : Kernel} {e : Event} {t : Tid} {nr : Nat} {h : Handler}
    (call : caller k e = some (t,nr,h)) :
    ∃ cpu, verdict k cpu nr = .call h ∧ k.sched.current cpu = some t := by
  cases e with
  | dispatch cpu nr' a w =>
      simp only [caller] at call
      split at call
      · rename_i decided seat
        cases call
        exact ⟨cpu,decided,seat⟩
      · cases call
  | _ => cases call

theorem stepWithin {w : World} {k' : Kernel} {e : Event} {u : Tid} (h : Inv w)
    (effect : PledgeStep w.kernel k' e u) :
    Within (allowed (k'.sched.tasks u)) (allowed (w.kernel.sched.tasks u)) ∧
      (pledged (k'.sched.tasks u) = true → (k'.sched.tasks u).sigBlocked < 2^47) := by
  cases effect with
  | same kept =>
      have pledge : pledged (k'.sched.tasks u) = pledged (w.kernel.sched.tasks u) := by
        rw [pledged,kept.1,pledged]
      rw [allowed,allowed,pledge,kept.2]
      exact ⟨withinRefl _,h.low u⟩
  | born new clean =>
      have old : pledged (w.kernel.sched.tasks u) = false := h.unborn u (Nat.le_of_eq new.symm)
      rw [allowed,allowed,old,pledged,clean]
      exact ⟨unpledgedTop _,by simp⟩
  | pledges nr a call blocked pending =>
      obtain ⟨cpu,decided,seat⟩ := callerVerdict call
      have old := unpledgedCaller h.low decided seat (.inl rfl)
      refine ⟨?_,fun _ => by rw [blocked]; exact scrubLow a⟩
      rw [allowed.eq_1 (w.kernel.sched.tasks u),old]
      exact unpledgedTop _

theorem stepUnborn {w : World} {k' : Kernel} {e : Event} {u : Tid} (h : Inv w)
    (effect : PledgeStep w.kernel k' e u) (unborn : w.kernel.sched.made ≤ u) :
    pledged (k'.sched.tasks u) = false := by
  cases effect with
  | same kept =>
      rw [pledged,kept.1]
      exact h.unborn u unborn
  | born _ clean => rw [pledged,clean]; simp
  | pledges nr a call _ _ =>
      -- the caller is a task that exists
      obtain ⟨cpu,_,seat⟩ := callerVerdict call
      have lt := (h.good.seats.current cpu u seat).1
      exact absurd unborn (Nat.not_le_of_lt lt)

theorem narrowed {new old : Nat} {sets : List Nat} (within : Within new old)
    (h : (old::sets).Pairwise Within) : (new::new::sets).Pairwise Within := by
  obtain ⟨latest,earlier⟩ := List.pairwise_cons.mp h
  have below : ∀ m ∈ sets, Within new m := fun m mem => withinTrans within (latest m mem)
  refine List.pairwise_cons.mpr ⟨?_,List.pairwise_cons.mpr ⟨below,earlier⟩⟩
  exact List.forall_mem_cons.mpr ⟨withinRefl new,below⟩

theorem notedInv {w : World} {k' : Kernel} {e : Event} (h : Inv w) (valid : Valid w.kernel e)
    (done : Syscall.step w.kernel e = some k') : Inv (noted w e k') := by
  obtain ⟨k1,again,effect,_⟩ := stepCases h.good valid
  obtain rfl : k1 = k' := Option.some.inj (again.symm.trans done)
  have pledge := fun u => stepPledge h.good valid u done
  refine ⟨effectGood effect,fun u => (stepWithin h (pledge u)).2,?_,?_,?_,?_⟩
  · intro u unborn
    exact stepUnborn h (pledge u) (Nat.le_trans (effectMade effect) unborn)
  · intro u
    exact narrowed (stepWithin h (pledge u)).1 (h.sets u)
  · intro x mem
    rcases List.mem_append.mp mem with new | old
    · unfold executed at new
      split at new
      · rename_i t nr handler call
        obtain ⟨cpu,decided,seat⟩ := callerVerdict call
        rw [List.mem_singleton.mp new]
        exact ⟨(verdictCall decided).1,pledgedCall decided seat⟩
      · cases new
    · exact h.force x old
  · intro u m mem
    rcases inheritedCases mem with old | ⟨t,nr,call,rfl | old⟩
    · exact h.ceilings u m old
    · obtain ⟨cpu,decided,seat⟩ := callerVerdict call
      rw [allowed,unpledgedCaller h.low decided seat (.inr rfl)]
      rfl
    · exact h.ceilings t m old

theorem startFree (t : Tid) : pledged (start.kernel.sched.tasks t) = false := by
  show pledged Task.zeroed = false
  decide

theorem startInv : Inv start := by
  refine ⟨SchedAgreement.initGood,?_,fun t _ => startFree t,fun _ => List.pairwise_singleton _ _,?_,?_⟩
  · intro t active
    rw [startFree] at active
    cases active
  · intro x mem
    cases mem
  · intro t m mem
    cases mem

def maskOf (nrs : List Nat) : Nat := nrs.foldl (fun m nr => m ||| 2^nr) 0

theorem scrubSame {mask : Nat} (range : mask < 2^64) :
    (∀ nr < 64, (scrubArg mask).testBit nr = true ↔ mask.testBit nr = true) ↔ mask < userAddrMax := by
  constructor
  · intro exact'
    by_contra high
    have high := Nat.le_of_not_lt high
    have nonzero : mask ≠ 0 := by
      rintro rfl
      exact absurd high (by decide)
    obtain ⟨nr,set⟩ := Nat.exists_testBit_of_ne_zero nonzero
    have kept := (exact' nr (bitBelow range set)).mpr set
    rw [scrubArg,if_pos ⟨high,nonzero⟩,Nat.zero_testBit] at kept
    cases kept
  · intro low nr _
    rw [scrubArg,if_neg (fun high => Nat.not_le_of_lt low high.1)]

theorem pledgeDone {k : Kernel} {cpu : Cpu} {t : Tid} (a : Args) (w : Answers)
    (seat : k.sched.current cpu = some t) (clear : k.inProgress cpu = false)
    (free : pledged (k.sched.tasks t) = false) : ∃ k', dispatch k cpu 53 a w = some (k',some 0) ∧
      k'.sched.current cpu = some t ∧ k'.inProgress cpu = false ∧ pledged (k'.sched.tasks t) = true ∧
      (k'.sched.tasks t).sigBlocked = scrubArg a.a1 := by
  have decided : verdict k cpu 53 = .call .nkPledge := by
    simp [verdict,clear,seat,pledgeBlocks,free,syscallTable]
  have done : dispatch k cpu 53 a w = some ({k with sched := setTask k.sched t {k.sched.tasks t with
      sigBlocked := scrubArg a.a1,sigPending := (k.sched.tasks t).sigPending ||| 2^63}},some 0) := by
    simp [dispatch,decided,runHandler,seat,switches,scrubbed]
  refine ⟨_,done,seat,clear,?_,?_⟩
  · show (update k.sched.tasks t _ t).sigPending.testBit 63 = true
    rw [Function.update_self,Nat.testBit_or,Nat.testBit_two_pow_self,Bool.or_true]
  · simp [setTask]

theorem pledgeExact {k : Kernel} {cpu : Cpu} {t : Tid} (a : Args) (w : Answers)
    (seat : k.sched.current cpu = some t) (clear : k.inProgress cpu = false)
    (free : pledged (k.sched.tasks t) = false) (range : a.a1 < 2^64) :
    ∃ k', dispatch k cpu 53 a w = some (k',some 0) ∧
      ((∀ nr < 64, verdict k' cpu nr ≠ .killed ↔ a.a1.testBit nr = true) ↔ a.a1 < userAddrMax) := by
  obtain ⟨k',done,seat',clear',active,blocked⟩ := pledgeDone a w seat clear free
  refine ⟨k',done,?_⟩
  rw [← scrubSame range]
  refine forall_congr' (fun nr => forall_congr' (fun small => iff_congr ?_ Iff.rfl))
  rw [ne_eq,verdictKilled small clear' seat',pledgeBlocks,active,blocked]
  simp

def firstTask : List Event := [.create 0 (plain 0x1000000),.schedule 0]

theorem pledgeExactLow : ∃ k, run Syscall.step boot firstTask = some k ∧
    ∃ k', dispatch k 0 53 ⟨maskOf [2,17,20],0,0,0,0⟩ ⟨0,true,plain 0x2000000,0⟩ = some (k',some 0) ∧
      ∀ nr < 64, verdict k' 0 nr ≠ .killed ↔ (maskOf [2,17,20]).testBit nr = true := by
  have ended : (run Syscall.step boot firstTask).map
      (fun k => (k.sched.current 0,k.inProgress 0,pledged (k.sched.tasks 0))) = some (some 0,false,false) := by
    decide +kernel
  obtain ⟨k,ran,same⟩ := Option.map_eq_some_iff.mp ended
  obtain ⟨seat,rest⟩ := Prod.mk.inj same
  obtain ⟨clear,free⟩ := Prod.mk.inj rest
  obtain ⟨k',done,passes⟩ := pledgeExact ⟨maskOf [2,17,20],0,0,0,0⟩ ⟨0,true,plain 0x2000000,0⟩ seat clear free
    (by decide)
  exact ⟨k,ran,k',done,passes.mpr (by decide)⟩

def pledgeMask : Nat := maskOf [0,1,2,17,20,40,49,52,53,62,63]

theorem pledgeMaskKills : ∃ k k', run Syscall.step boot firstTask = some k ∧ k.sched.current 0 = some 0 ∧
    pledged (k.sched.tasks 0) = false ∧
    dispatch k 0 53 ⟨pledgeMask,0,0,0,0⟩ ⟨0,true,plain 0x2000000,0⟩ = some (k',some 0) ∧
    pledgeMask.testBit 17 = true ∧ verdict k' 0 17 = .killed := by
  have ended : ((run Syscall.step boot firstTask).bind (fun k =>
      (dispatch k 0 53 ⟨pledgeMask,0,0,0,0⟩ ⟨0,true,plain 0x2000000,0⟩).map
        (fun r => (k.sched.current 0,pledged (k.sched.tasks 0),r.2,verdict r.1 0 17)))) =
      some (some 0,false,some 0,.killed) := by decide +kernel
  obtain ⟨k,ran,rest⟩ := Option.bind_eq_some_iff.mp ended
  obtain ⟨⟨k',v⟩,done,same⟩ := Option.map_eq_some_iff.mp rest
  obtain ⟨seat,rest⟩ := Prod.mk.inj same
  obtain ⟨free,rest⟩ := Prod.mk.inj rest
  obtain ⟨zero,killed⟩ := Prod.mk.inj rest
  exact ⟨k,k',ran,seat,free,by rw [done]; exact congrArg (fun v => some (k',v)) zero,by decide,killed⟩

end Nekros.Pledge
