import Nekros.GuardedRun
import Nekros.SchedAgreement
import Nekros.SyscallSteps

/-! The reentrancy flag of a CPU is set for the task that entered a call there, and read
for whichever task calls next. The two agree as long as no handler switches tasks. -/
namespace Nekros.Reentrancy
open Sched SchedSteps Syscall SyscallSteps Errno
open GuardedRun (run Guarded guardedInvariant)

def InCall (k : Kernel) (cpu : Cpu) (t : Tid) : Prop := k.sched.current cpu = some t ∧ cpu ∈ k.frames t

structure Owned (k : Kernel) : Prop where
  rejects : ∀ cpu nr, verdict k cpu nr = .reentrant → ∃ t, InCall k cpu t
  released : ∀ cpu, k.inProgress cpu = true → ∃ t, InCall k cpu t ∧ t ∉ k.exited

def Alone (k : Kernel) : Event → Prop
  | .dispatch cpu nr a w => ∀ h, verdict k cpu nr = .call h → enters h (scrubbed a) w = true →
      ∀ u < k.sched.made, (k.sched.tasks u).state ≠ .ready
  | _ => True

instance (k e) : Decidable (Alone k e) :=
  match e with
  | .dispatch cpu nr a w =>
      match decided : verdict k cpu nr with
      | .call h => decidable_of_iff
          (enters h (scrubbed a) w = true → ∀ u < k.sched.made, (k.sched.tasks u).state ≠ .ready)
          ⟨fun ok h' same => by rw [decided] at same; cases same; exact ok,fun ok => ok h decided⟩
      | .outOfRange => .isTrue (fun h same => by rw [decided] at same; cases same)
      | .reentrant => .isTrue (fun h same => by rw [decided] at same; cases same)
      | .killed => .isTrue (fun h same => by rw [decided] at same; cases same)
      | .missing => .isTrue (fun h same => by rw [decided] at same; cases same)
  | .create .. => .isTrue trivial
  | .schedule _ => .isTrue trivial
  | .tick _ => .isTrue trivial
  | .exit .. => .isTrue trivial
  | .resume _ => .isTrue trivial

structure Clear (k : Kernel) : Prop where
  good : Good k.sched
  flags : ∀ cpu, k.inProgress cpu = false
  frames : ∀ t, k.frames t = []

theorem clearOwned {k : Kernel} (h : Clear k) : Owned k := by
  constructor
  · intro cpu nr rejected
    have set := verdictReentrant rejected
    rw [h.flags cpu] at set
    cases set
  · intro cpu set
    rw [h.flags cpu] at set
    cases set

theorem scheduledBack {s s' : State} {cpu : Cpu} {sw : Switch} (h : Scheduled s s' cpu sw)
    (nothing : ∀ u < s.made, (s.tasks u).state ≠ .ready) : switches sw = false := by
  rcases h.ends with ⟨idle,_⟩ | ⟨next,target,_,lt,was,_⟩
  · rw [idle]
    rfl
  · rcases was with ready | ⟨_,seat⟩
    · exact absurd ready (nothing next lt)
    · rw [target,seat]
      simp [switches]

theorem handledBack {s s' : State} {cpu : Cpu} {t : Tid} {a : Args} {w : Answers} {h : Handler}
    {sw : Switch} (handled : Handled s cpu t a w h s' sw)
    (nothing : enters h a w = true → ∀ u < s.made, (s.tasks u).state ≠ .ready) : switches sw = false := by
  cases handled with
  | exit marked scheduled =>
      refine scheduledBack scheduled (fun u hu => ?_)
      rw [marked.states u]
      split
      · simp
      · exact nothing rfl u (marked.moved.1 ▸ hu)
  | schedules _ call scheduled => exact scheduledBack scheduled (nothing call)
  | creates _ => rfl
  | pledges => rfl
  | quiet _ _ _ => rfl

theorem dispatchClear {k k' : Kernel} {cpu : Cpu} {nr : Nat} {a : Args} {w : Answers} {v : Option Nat}
    (h : Clear k) (seat : k.sched.current cpu ≠ none) (alone : Alone k (.dispatch cpu nr a w))
    (done : dispatch k cpu nr a w = some (k',v)) : k'.inProgress = k.inProgress ∧ k'.frames = k.frames := by
  obtain ⟨t,seat⟩ := Option.ne_none_iff_exists'.mp seat
  unfold dispatch at done
  cases decided : verdict k cpu nr with
  | outOfRange => rw [decided] at done; cases done; exact ⟨rfl,rfl⟩
  | reentrant => rw [decided] at done; cases done; exact ⟨rfl,rfl⟩
  | missing => rw [decided] at done; cases done; exact ⟨rfl,rfl⟩
  | killed =>
      obtain ⟨s0,s',sw,exited,_⟩ := exitCases cpu h.good (h.good.seats.current cpu t seat).1
      rw [decided] at done
      simp only [seat,exited,Option.map_some] at done
      cases done
      exact ⟨rfl,rfl⟩
  | call handler =>
      obtain ⟨s',sw,v',ran,handled⟩ := handlerCases handler (scrubbed a) w h.good seat
      have back := handledBack handled (alone handler decided)
      rw [decided] at done
      simp only [ran,Option.map_some,back,Bool.false_eq_true,if_false] at done
      cases done
      exact ⟨rfl,rfl⟩

theorem resumeClear {k : Kernel} (h : Clear k) (cpu : Cpu) : resume k cpu = k := by
  unfold resume
  split
  · rfl
  · rw [h.frames]

theorem stepClear {k k' : Kernel} {e : Event} (h : Clear k) (valid : Valid k e) (alone : Alone k e)
    (stepped : step k e = some k') : Clear k' := by
  obtain ⟨k1,done,effect,_⟩ := stepCases h.good valid
  obtain rfl : k1 = k' := Option.some.inj (done.symm.trans stepped)
  have flags : k1.inProgress = k.inProgress ∧ k1.frames = k.frames := by
    cases e with
    | create cpu c => cases stepped; exact ⟨rfl,rfl⟩
    | schedule cpu =>
        obtain ⟨r,_,same⟩ := Option.map_eq_some_iff.mp stepped
        cases same
        exact ⟨rfl,rfl⟩
    | tick cpu =>
        obtain ⟨r,_,same⟩ := Option.map_eq_some_iff.mp stepped
        cases same
        exact ⟨rfl,rfl⟩
    | exit cpu t =>
        obtain ⟨r,_,same⟩ := Option.map_eq_some_iff.mp stepped
        cases same
        exact ⟨rfl,rfl⟩
    | dispatch cpu nr a w =>
        obtain ⟨⟨k2,v⟩,dispatched,same⟩ := Option.map_eq_some_iff.mp stepped
        cases same
        exact dispatchClear h valid.1 alone dispatched
    | resume cpu =>
        cases stepped
        rw [resumeClear h cpu]
        exact ⟨rfl,rfl⟩
  exact ⟨effectGood effect,fun cpu => by rw [flags.1]; exact h.flags cpu,fun t => by rw [flags.2]; exact h.frames t⟩

theorem runOwned {events : List Event} {k : Kernel}
    (guarded : Guarded step (fun k e => Valid k e ∧ Alone k e) boot events)
    (ran : run step boot events = some k) : Owned k := by
  have inv : Clear k := guardedInvariant Clear
    (fun _ _ _ h guard stepped => stepClear h guard.1 guard.2 stepped)
    ⟨SchedAgreement.initGood,fun _ => rfl,fun _ => rfl⟩ guarded ran
  exact clearOwned inv

def preemptedRun : List Event :=
  [.create 0 (plain 0x1000000),.schedule 0,call 0 17 0,.create 0 (plain 0x1004000),call 0 20 0,.schedule 0,
    call 0 20 0,.tick 0,call 0 63 0]

theorem runOwnedPreempted : ∃ k, run step boot preemptedRun = some k ∧ k.sched.made = 2 ∧ Owned k := by
  have made : (run step boot preemptedRun).map (fun k => k.sched.made) = some 2 := by decide +kernel
  obtain ⟨k,ran,same⟩ := Option.map_eq_some_iff.mp made
  exact ⟨k,ran,same,runOwned (by decide +kernel) ran⟩

def yieldedRun : List Event :=
  [.create 0 (plain 0x1000000),.create 0 (plain 0x1004000),.schedule 0,call 0 17 0]

theorem yieldRejectsOther : Guarded step Valid boot yieldedRun ∧
    ∃ k, run step boot yieldedRun = some k ∧ k.sched.current 0 = some 1 ∧ k.frames 1 = [] ∧
      verdict k 0 20 = .reentrant ∧ (∀ a w, dispatch k 0 20 a w = some (k,some (failure enosys))) ∧
      ¬ Owned k := by
  have ended : (run step boot yieldedRun).map
      (fun k => (k.sched.current 0,k.frames 1,verdict k 0 20)) = some (some 1,[],.reentrant) := by
    decide +kernel
  obtain ⟨k,ran,same⟩ := Option.map_eq_some_iff.mp ended
  obtain ⟨seat,rest⟩ := Prod.mk.inj same
  obtain ⟨frames,rejected⟩ := Prod.mk.inj rest
  refine ⟨by decide +kernel,k,ran,seat,frames,rejected,fun a w => ?_,fun owned => ?_⟩
  · rw [dispatch,rejected]
  · obtain ⟨t,current,mem⟩ := owned.rejects 0 20 rejected
    cases seat.symm.trans current
    rw [frames] at mem
    cases mem

end Nekros.Reentrancy
