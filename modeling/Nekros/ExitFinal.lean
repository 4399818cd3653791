import Nekros.GuardedRun
import Nekros.SchedAgreement
import Nekros.SyscallSteps

/-! Runs of the kernel in which tasks exit. `task_exit` marks the task and calls
`schedule`; when nothing is ready, `schedule` sets the task it was called on running
again. -/
namespace Nekros.ExitFinal
open Sched SchedSteps SchedAgreement Syscall SyscallSteps
open GuardedRun (run Guarded Along guardExact)

def Final (k : Kernel) : Prop :=
  ∀ t ∈ k.exited, (k.sched.tasks t).state ≠ .running ∧ (k.sched.tasks t).state ≠ .ready ∧
    ∀ cpu, k.sched.current cpu ≠ some t

def Vacates (s : State) (cpu : Cpu) (t : Tid) : Prop :=
  (∀ c, c ≠ cpu → s.current c ≠ some t) ∧
    (s.current cpu = some t → ∃ u < s.made, u ≠ t ∧ (s.tasks u).state = .ready)
instance (s cpu t) : Decidable (Vacates s cpu t) := by unfold Vacates; infer_instance

def Replaced (k : Kernel) (e : Syscall.Event) : Prop := ∀ x ∈ exiting k e, Vacates k.sched x.1 x.2
instance (k e) : Decidable (Replaced k e) := by unfold Replaced; infer_instance

def Gone (s : State) (t : Tid) : Prop :=
  t < s.made ∧ (s.tasks t).state = .zombie ∧ ∀ cpu, s.current cpu ≠ some t

structure Inv (k : Kernel) : Prop where
  good : Good k.sched
  gone : ∀ t ∈ k.exited, Gone k.sched t

theorem invFinal {k : Kernel} (h : Inv k) : Final k := by
  intro t mem
  obtain ⟨_,zombie,away⟩ := h.gone t mem
  rw [zombie]
  exact ⟨by simp,by simp,away⟩

theorem goneTouched {s s' : State} {t : Tid} (h : Touched s s') (gone : Gone s t) : Gone s' t := by
  obtain ⟨lt,zombie,away⟩ := gone
  refine ⟨h.made.symm ▸ lt,(h.states t).trans zombie,fun cpu => ?_⟩
  rw [h.current]
  exact away cpu

theorem goneCreated {s s' : State} {cpu : Cpu} {c : Creation} {t u : Tid} (h : Created s s' cpu c u)
    (gone : Gone s t) : Gone s' t := by
  obtain ⟨lt,zombie,away⟩ := gone
  have different : t ≠ u := by
    rw [h.new]
    exact Nat.ne_of_lt lt
  refine ⟨by rw [h.made]; exact Nat.lt_succ_of_lt lt,by rw [h.others t different]; exact zombie,fun cpu => ?_⟩
  rw [h.current]
  exact away cpu

theorem zombieStays {s : State} {t next : Tid} {seat : Prop} (zombie : (s.tasks t).state = .zombie)
    (was : (s.tasks next).state = .ready ∨ (s.tasks next).state = .running ∧ seat) : next ≠ t := by
  rintro rfl
  rcases was with ready | ⟨running,_⟩
  · rw [zombie] at ready
    cases ready
  · rw [zombie] at running
    cases running

theorem goneScheduled {s s' : State} {cpu : Cpu} {sw : Switch} {t : Tid} (h : Scheduled s s' cpu sw)
    (gone : Gone s t) : Gone s' t := by
  obtain ⟨lt,zombie,away⟩ := gone
  refine ⟨h.moved.1.symm ▸ lt,?_,?_⟩
  · rcases h.ends with ⟨_,_,_,_,states⟩ | ⟨next,_,_,_,was,_,states⟩
    · rw [states t,if_neg (away cpu)]
      exact zombie
    · rw [states t (zombieStays zombie was).symm,if_neg (fun both => away cpu both.1)]
      exact zombie
  · intro c
    by_cases here : c = cpu
    · subst here
      rcases h.ends with ⟨_,same,_⟩ | ⟨next,_,seat,_,was,_⟩
      · rw [same]
        exact away c
      · rw [seat]
        exact fun same => zombieStays zombie was (Option.some.inj same)
    · rw [h.others c here]
      exact away c

theorem goneMarked {s s' : State} {t u : Tid} (h : Marked s s' u) (gone : Gone s t) : Gone s' t := by
  obtain ⟨lt,zombie,away⟩ := gone
  refine ⟨h.moved.1.symm ▸ lt,?_,fun cpu => ?_⟩
  · rw [h.states t]
    split
    · rfl
    · exact zombie
  · rw [h.current]
    exact away cpu

theorem goneExited {s s0 s' : State} {cpu : Cpu} {sw : Switch} {t : Tid} (lt : t < s.made)
    (marked : Marked s s0 t) (scheduled : Scheduled s0 s' cpu sw) (vacates : Vacates s cpu t) :
    Gone s' t := by
  have zombie : (s0.tasks t).state = .zombie := by rw [marked.states t,if_pos rfl]
  have elsewhere : ∀ c, c ≠ cpu → s0.current c ≠ some t := by
    intro c away
    rw [marked.current]
    exact vacates.1 c away
  by_cases seat : s0.current cpu = some t
  · obtain ⟨u,hu,different,ready⟩ := vacates.2 (marked.current ▸ seat)
    have ready : (s0.tasks u).state = .ready := by rw [marked.states u,if_neg different]; exact ready
    rcases scheduled.ends with ⟨_,_,nothing,_⟩ | ⟨next,_,seat',_,was,_,states⟩
    · exact absurd ready (nothing u (marked.moved.1.symm ▸ hu))
    · have other : next ≠ t := zombieStays zombie was
      refine ⟨scheduled.moved.1.symm ▸ marked.moved.1.symm ▸ lt,?_,fun c => ?_⟩
      · rw [states t other.symm,if_neg]
        · exact zombie
        · rintro ⟨_,running⟩
          rw [zombie] at running
          cases running
      · by_cases here : c = cpu
        · rw [here,seat']
          exact fun same => other (Option.some.inj same)
        · rw [scheduled.others c here]
          exact elsewhere c here
  · refine goneScheduled scheduled ⟨marked.moved.1.symm ▸ lt,zombie,fun c => ?_⟩
    by_cases here : c = cpu
    · rw [here]
      exact seat
    · exact elsewhere c here

theorem stepInv {k k' : Kernel} {e : Syscall.Event} (h : Inv k) (valid : Syscall.Valid k e)
    (replaced : Replaced k e) (stepped : Syscall.step k e = some k') : Inv k' := by
  obtain ⟨k1,done,effect,exited⟩ := stepCases h.good valid
  obtain rfl : k1 = k' := Option.some.inj (done.symm.trans stepped)
  refine ⟨effectGood effect,fun t mem => ?_⟩
  rw [exited] at mem
  cases effect with
  | exits leaves made marked scheduled =>
      rw [leaves] at mem
      rcases List.mem_cons.mp mem with rfl | old
      · exact goneExited made marked scheduled (replaced _ leaves)
      · exact goneScheduled scheduled (goneMarked marked (h.gone t old))
  | creates stays created =>
      rw [stays] at mem
      exact goneCreated created (h.gone t mem)
  | touches stays touched =>
      rw [stays] at mem
      exact goneTouched touched (h.gone t mem)
  | schedules stays touched scheduled =>
      rw [stays] at mem
      exact goneScheduled scheduled (goneTouched touched (h.gone t mem))

theorem exitBreaks {k : Kernel} {e : Syscall.Event} (h : Inv k) (valid : Syscall.Valid k e)
    (kept : ¬ Replaced k e) : ∃ k', Syscall.step k e = some k' ∧ ¬ Final k' := by
  obtain ⟨k',done,effect,exited⟩ := stepCases h.good valid
  refine ⟨k',done,fun final => kept ?_⟩
  rintro ⟨cpu,t⟩ leaves
  have leaves : exiting k e = some (cpu,t) := leaves
  obtain ⟨notRunning,_,away⟩ := final t (by rw [exited,leaves]; exact List.mem_cons_self ..)
  cases effect with
  | creates stays _ => rw [leaves] at stays; cases stays
  | touches stays _ => rw [leaves] at stays; cases stays
  | schedules stays _ _ => rw [leaves] at stays; cases stays
  | exits same made marked scheduled =>
      cases leaves.symm.trans same
      constructor
      · intro c other
        rw [← marked.current,← scheduled.others c other]
        exact away c
      · intro seat
        rw [← marked.current] at seat
        rcases scheduled.ends with ⟨_,_,_,_,states⟩ | ⟨next,_,_,lt,was,_⟩
        · exact absurd (by rw [states t,if_pos seat]) notRunning
        · have different : next ≠ t := zombieStays ((marked.states t).trans (if_pos rfl)) was
          refine ⟨next,marked.moved.1 ▸ lt,different,?_⟩
          rcases was with ready | ⟨_,seat'⟩
          · rw [marked.states next,if_neg different] at ready
            exact ready
          · exact absurd (Option.some.inj (seat'.symm.trans seat)) different

theorem exitFinal {events : List Syscall.Event} (valid : Guarded Syscall.step Syscall.Valid boot events) :
    Along Syscall.step Final boot events ↔ Guarded Syscall.step Replaced boot events :=
  guardExact Inv (fun _ => invFinal) (fun _ _ _ h valid replaced stepped => stepInv h valid replaced stepped)
    (fun _ _ h valid kept => exitBreaks h valid kept) ⟨initGood,by simp [boot]⟩ valid

/- With the block at 0x1000000 free the stack of the first task merges into it and keeps its canary. -/
def handOverRun : List Syscall.Event :=
  [.create 0 (plain 0x1004000),.create 0 (plain 0x1008000),.schedule 0,call 0 20 0,call 0 2 0,.tick 0,.schedule 0]

theorem exitFinalHandOver : ∃ k, run Syscall.step boot handOverRun = some k ∧ k.exited = [0] ∧
    Along Syscall.step Final boot handOverRun := by
  have exited : (run Syscall.step boot handOverRun).map Kernel.exited = some [0] := by decide +kernel
  obtain ⟨k,ran,same⟩ := Option.map_eq_some_iff.mp exited
  exact ⟨k,ran,same,(exitFinal (by decide +kernel)).mpr (by decide +kernel)⟩

def loneExitRun : List Syscall.Event := [.create 0 (plain 0x1000000),.schedule 0,call 0 2 0]

theorem loneExitRunsOn : Guarded Syscall.step Syscall.Valid boot loneExitRun ∧
    ∃ k, run Syscall.step boot loneExitRun = some k ∧ k.exited = [0] ∧
      (k.sched.tasks 0).state = .running ∧ k.sched.current 0 = some 0 ∧ ¬ Final k := by
  have ended : (run Syscall.step boot loneExitRun).map
      (fun k => (k.exited,(k.sched.tasks 0).state,k.sched.current 0)) = some ([0],.running,some 0) := by
    decide +kernel
  obtain ⟨k,ran,same⟩ := Option.map_eq_some_iff.mp ended
  obtain ⟨exited,rest⟩ := Prod.mk.inj same
  obtain ⟨state,seat⟩ := Prod.mk.inj rest
  refine ⟨by decide +kernel,k,ran,exited,state,seat,fun final => ?_⟩
  exact (final 0 (by rw [exited]; exact List.mem_cons_self ..)).1 state

end Nekros.ExitFinal
