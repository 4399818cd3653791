import Nekros.SchedSteps
import Nekros.Syscall

/-! What a system call, and every other step of the kernel, does to tasks and CPUs. -/
namespace Nekros.SyscallSteps
open Sched SchedSteps Syscall Errno
open Function (update)

structure Touched (s s' : State) : Prop where
  good : Good s'
  made : s'.made = s.made
  current : s'.current = s.current
  states : ∀ u, (s'.tasks u).state = (s.tasks u).state

def SamePledge (s s' : State) (u : Tid) : Prop :=
  (s'.tasks u).sigPending = (s.tasks u).sigPending ∧ (s'.tasks u).sigBlocked = (s.tasks u).sigBlocked

theorem movedPledge {s s' : State} (h : Moved s s') (u : Tid) : SamePledge s s' u := by
  constructor <;> rw [h.2 u]

theorem touchedRefl {s : State} (h : Good s) : Touched s s := ⟨h,rfl,rfl,fun _ => rfl⟩

theorem setTouched {s : State} {t : Tid} {x : Task} (h : Good s) (same : x.state = (s.tasks t).state) :
    Touched s (setTask s t x) := by
  refine ⟨goodSet h same,rfl,rfl,fun u => ?_⟩
  by_cases here : u = t
  · subst here
    simpa [setTask] using same
  · simp [setTask,here]

theorem setPledge {s : State} {t : Tid} {x : Task} (pending : x.sigPending = (s.tasks t).sigPending)
    (blocked : x.sigBlocked = (s.tasks t).sigBlocked) (u : Tid) : SamePledge s (setTask s t x) u := by
  by_cases here : u = t
  · subst here
    simpa [SamePledge,setTask] using ⟨pending,blocked⟩
  · simp [SamePledge,setTask,here]

theorem placeTouched {s : State} (t : Tid) (c : Creation) (h : Good s) :
    Touched s (place s t c) ∧ ∀ u, SamePledge s (place s t c) u := by
  obtain ⟨a,placed⟩ := placeOwn s t c
  rw [placed]
  exact ⟨setTouched h rfl,setPledge rfl rfl⟩

def enters (h : Handler) (a : Args) (w : Answers) : Bool :=
  match h with
  | .exit => true
  | .yield => true
  | .nkFutex => uptrValid a.a1 4 && decide (a.a2 = 0) && decide (w.futexWord = low32 a.a3)
  | _ => false

inductive Handled (s : State) (cpu : Cpu) (t : Tid) (a : Args) (w : Answers) :
    Handler → State → Switch → Prop
  | exit {s0 s' : State} {sw : Switch} (marked : Marked s s0 t) (scheduled : Scheduled s0 s' cpu sw) :
      Handled s cpu t a w .exit s' sw
  | schedules {h : Handler} {s' : State} {sw : Switch} (stays : h ≠ .exit) (call : enters h a w = true)
      (scheduled : Scheduled s s' cpu sw) : Handled s cpu t a w h s' sw
  | creates {s' : State} {c : Creation} {u : Tid} (created : Created s s' cpu c u) :
      Handled s cpu t a w .nkThreadCreate s' .idle
  | pledges : Handled s cpu t a w .nkPledge (setTask s t {s.tasks t with
      sigBlocked := a.a1,sigPending := (s.tasks t).sigPending ||| 2^63}) .idle
  | quiet {h : Handler} {s' : State} (silent : enters h a w = false) (touched : Touched s s')
      (pledge : ∀ u, SamePledge s s' u) : Handled s cpu t a w h s' .idle

theorem exitCases {s : State} {t : Tid} (cpu : Cpu) (good : Good s) (lt : t < s.made) :
    ∃ s0 s' sw, taskExit s cpu t = some (s',sw) ∧ Marked s s0 t ∧ Scheduled s0 s' cpu sw := by
  have marked := exitMarkSpec good lt
  obtain ⟨s',sw,done,result⟩ := scheduleCases cpu marked.good
  exact ⟨_,s',sw,done,marked,result⟩

theorem handlerCases {s : State} {cpu : Cpu} {t : Tid} (h : Handler) (a : Args) (w : Answers)
    (good : Good s) (seat : s.current cpu = some t) :
    ∃ s' sw v, runHandler s cpu h a w = some (s',sw,v) ∧ Handled s cpu t a w h s' sw := by
  have idle : ∀ v, enters h a w = false → runHandler s cpu h a w = some (s,.idle,v) →
      ∃ s' sw v, runHandler s cpu h a w = some (s',sw,v) ∧ Handled s cpu t a w h s' sw :=
    fun v silent done => ⟨s,.idle,v,done,.quiet silent (touchedRefl good) (fun _ => ⟨rfl,rfl⟩)⟩
  cases h with
  | exit =>
      obtain ⟨s0,s',sw,done,marked,result⟩ := exitCases cpu good (good.seats.current cpu t seat).1
      exact ⟨s',sw,0,by simp [runHandler,seat,done],.exit marked result⟩
  | yield =>
      obtain ⟨s',sw,done,result⟩ := scheduleCases cpu good
      exact ⟨s',sw,0,by simp [runHandler,done],.schedules (by simp) rfl result⟩
  | nkProcIntent =>
      by_cases range : 5 < a.a1
      · exact idle (failure einval) rfl (by simp [runHandler,seat,range])
      · obtain ⟨touched,pledge⟩ := placeTouched t w.creation good
        exact ⟨place s t w.creation,.idle,0,by simp [runHandler,seat,range],.quiet rfl touched pledge⟩
  | nkWorkBudget =>
      by_cases missing : a.a1 = 0 ∨ a.a2 = 0
      · exact idle (failure einval) rfl (by simp [runHandler,seat,missing])
      · by_cases full : w.budgetFree = false
        · exact idle (failure enomem) rfl (by simp [runHandler,seat,missing,full])
        · exact ⟨setTask s t {s.tasks t with priority := min 15 ((s.tasks t).priority + 2)},.idle,w.result,
            by simp [runHandler,seat,missing,full],.quiet rfl (setTouched good rfl) (setPledge rfl rfl)⟩
  | nkPledge => exact ⟨_,.idle,0,by rw [runHandler,seat],.pledges⟩
  | nkFutex =>
      by_cases pointer : uptrValid a.a1 4 = true
      · by_cases wait : a.a2 = 0
        · by_cases equal : w.futexWord = low32 a.a3
          · obtain ⟨s',sw,done,result⟩ := scheduleCases cpu good
            exact ⟨s',sw,0,by simp [runHandler,pointer,wait,equal,done],
              .schedules (by simp) (by simp [enters,pointer,wait,equal]) result⟩
          · exact idle (failure eagain) (by simp [enters,equal]) (by simp [runHandler,pointer,wait,equal])
        · exact idle 0 (by simp [enters,wait]) (by simp [runHandler,pointer,wait])
      · exact idle (failure efault) (by simp [enters,pointer]) (by simp [runHandler,pointer])
  | nkThreadCreate =>
      by_cases pointer : uptrValid a.a1 1 = true
      · rcases createCases cpu {w.creation with entry := a.a1,priority := (s.tasks t).priority} good with
          ⟨e,n,failed⟩ | ⟨s',u,made,created⟩
        · exact ⟨{s with nextPid := n},.idle,threadValue (.error e) {s with nextPid := n},
            by simp [runHandler,pointer,seat,failed],
            .quiet rfl ⟨goodPid n good,rfl,rfl,fun _ => rfl⟩ (fun _ => ⟨rfl,rfl⟩)⟩
        · exact ⟨s',.idle,threadValue (.ok u) s',by simp [runHandler,pointer,seat,made],.creates created⟩
      · exact idle (failure efault) rfl (by simp [runHandler,pointer])
  | getpid => exact idle _ rfl rfl
  | _ => exact idle w.result rfl rfl

theorem verdictCall {k : Kernel} {cpu : Cpu} {nr : Nat} {h : Handler} (decided : verdict k cpu nr = .call h) :
    nr < 64 ∧ syscallTable.getD nr none = some h ∧
      ∀ t, k.sched.current cpu = some t → pledgeBlocks (k.sched.tasks t) nr = false := by
  unfold verdict at decided
  split at decided
  · cases decided
  · rename_i range
    split at decided
    · cases decided
    · split at decided
      · cases decided
      · rename_i passed
        refine ⟨Nat.lt_of_not_le range,?_,fun t seat => ?_⟩
        · split at decided
          · cases decided
          · rename_i found
            cases decided
            exact found
        · rw [seat] at passed
          simpa using passed

theorem verdictReentrant {k : Kernel} {cpu : Cpu} {nr : Nat} (decided : verdict k cpu nr = .reentrant) :
    k.inProgress cpu = true := by
  unfold verdict at decided
  split at decided
  · cases decided
  · split at decided
    · rename_i set
      exact set
    · split at decided
      · cases decided
      · split at decided <;> cases decided

theorem verdictKilled {k : Kernel} {cpu : Cpu} {nr : Nat} {t : Tid} (range : nr < 64)
    (clear : k.inProgress cpu = false) (seat : k.sched.current cpu = some t) :
    verdict k cpu nr = .killed ↔ pledgeBlocks (k.sched.tasks t) nr = true := by
  unfold verdict
  rw [if_neg (Nat.not_le_of_lt range),clear,seat]
  simp only [Bool.false_eq_true,if_false,Option.any_some]
  split
  · rename_i blocked
    exact iff_of_true rfl blocked
  · rename_i passed
    refine iff_of_false ?_ passed
    split <;> simp

def exiting (k : Kernel) : Event → Option (Cpu × Tid)
  | .exit cpu t => some (cpu,t)
  | .dispatch cpu nr _ _ =>
      if verdict k cpu nr = .killed ∨ verdict k cpu nr = .call .exit then
        (k.sched.current cpu).map (fun t => (cpu,t))
      else none
  | _ => none

inductive Effect (k : Kernel) (e : Event) : State → Prop
  | exits {cpu : Cpu} {t : Tid} {s0 s' : State} {sw : Switch} (leaves : exiting k e = some (cpu,t))
      (made : t < k.sched.made) (marked : Marked k.sched s0 t) (scheduled : Scheduled s0 s' cpu sw) :
      Effect k e s'
  | creates {cpu : Cpu} {c : Creation} {t : Tid} {s' : State} (stays : exiting k e = none)
      (created : Created k.sched s' cpu c t) : Effect k e s'
  | touches {s' : State} (stays : exiting k e = none) (touched : Touched k.sched s') : Effect k e s'
  | schedules {cpu : Cpu} {s0 s' : State} {sw : Switch} (stays : exiting k e = none)
      (touched : Touched k.sched s0) (scheduled : Scheduled s0 s' cpu sw) : Effect k e s'

theorem effectGood {k : Kernel} {e : Event} {s' : State} (h : Effect k e s') : Good s' := by
  cases h with
  | exits _ _ _ scheduled => exact scheduled.good
  | creates _ created => exact created.good
  | touches _ touched => exact touched.good
  | schedules _ _ scheduled => exact scheduled.good

theorem effectMade {k : Kernel} {e : Event} {s' : State} (h : Effect k e s') : k.sched.made ≤ s'.made := by
  cases h with
  | exits _ _ marked scheduled => rw [scheduled.moved.1,marked.moved.1]
  | creates _ created => rw [created.made]; exact Nat.le_succ _
  | touches _ touched => rw [touched.made]
  | schedules _ touched scheduled => rw [scheduled.moved.1,touched.made]

theorem dispatchCases {k : Kernel} {cpu : Cpu} (nr : Nat) (a : Args) (w : Answers) (good : Good k.sched)
    (seat : k.sched.current cpu ≠ none) : ∃ k' v, dispatch k cpu nr a w = some (k',v) ∧
      Effect k (.dispatch cpu nr a w) k'.sched ∧
      k'.exited = ((exiting k (.dispatch cpu nr a w)).map Prod.snd).toList ++ k.exited := by
  obtain ⟨t,seat⟩ := Option.ne_none_iff_exists'.mp seat
  have lt := (good.seats.current cpu t seat).1
  have refused : dispatch k cpu nr a w = some (k,some (failure enosys)) →
      exiting k (.dispatch cpu nr a w) = none → ∃ k' v, dispatch k cpu nr a w = some (k',v) ∧
        Effect k (.dispatch cpu nr a w) k'.sched ∧
        k'.exited = ((exiting k (.dispatch cpu nr a w)).map Prod.snd).toList ++ k.exited :=
    fun done stays => ⟨k,_,done,.touches stays (touchedRefl good),by rw [stays]; rfl⟩
  cases decided : verdict k cpu nr with
  | outOfRange => exact refused (by simp [dispatch,decided]) (by simp [exiting,decided])
  | reentrant => exact refused (by simp [dispatch,decided]) (by simp [exiting,decided])
  | missing => exact refused (by simp [dispatch,decided]) (by simp [exiting,decided])
  | killed =>
      have leaves : exiting k (.dispatch cpu nr a w) = some (cpu,t) := by simp [exiting,decided,seat]
      obtain ⟨s0,s',sw,done,marked,result⟩ := exitCases cpu good lt
      have dispatched : dispatch k cpu nr a w = some ({k with sched := s',exited := t::k.exited},
          if switches sw then none else some (failure eperm)) := by
        simp [dispatch,decided,seat,done]
      exact ⟨_,_,dispatched,.exits leaves lt marked result,by simp [leaves]⟩
  | call h =>
      obtain ⟨s',sw,v,done,handled⟩ := handlerCases h (scrubbed a) w good seat
      have same : ∃ k' v', dispatch k cpu nr a w = some (k',v') ∧ k'.sched = s' ∧
          k'.exited = if h = .exit then t::k.exited else k.exited := by
        by_cases left : switches sw = true
        · exact ⟨_,_,by simp only [dispatch,decided,done,Option.map_some,if_pos left]; rfl,rfl,by simp [seat]⟩
        · exact ⟨_,_,by simp only [dispatch,decided,done,Option.map_some,if_neg left]; rfl,rfl,by simp [seat]⟩
      obtain ⟨k',v',dispatched,sched,exited⟩ := same
      refine ⟨k',v',dispatched,?_⟩
      rw [sched,exited]
      have stays : h ≠ .exit → exiting k (.dispatch cpu nr a w) = none := fun other => by
        simp [exiting,decided,other]
      cases handled with
      | exit marked scheduled =>
          have leaves : exiting k (.dispatch cpu nr a w) = some (cpu,t) := by simp [exiting,decided,seat]
          exact ⟨.exits leaves lt marked scheduled,by simp [leaves]⟩
      | schedules other _ scheduled =>
          exact ⟨.schedules (stays other) (touchedRefl good) scheduled,by simp [stays other,other]⟩
      | creates created => exact ⟨.creates (stays (by simp)) created,by simp [stays]⟩
      | pledges => exact ⟨.touches (stays (by simp)) (setTouched good rfl),by simp [stays]⟩
      | quiet silent touched _ =>
          have other : h ≠ .exit := by
            rintro rfl
            cases silent
          exact ⟨.touches (stays other) touched,by simp [stays other,other]⟩

theorem resumeSched (k : Kernel) (cpu : Cpu) : (resume k cpu).sched = k.sched ∧
    (resume k cpu).exited = k.exited := by
  unfold resume
  split
  · exact ⟨rfl,rfl⟩
  · split <;> exact ⟨rfl,rfl⟩

theorem stepCases {k : Kernel} {e : Event} (good : Good k.sched) (valid : Valid k e) :
    ∃ k', step k e = some k' ∧ Effect k e k'.sched ∧
      k'.exited = ((exiting k e).map Prod.snd).toList ++ k.exited := by
  cases e with
  | create cpu c =>
      refine ⟨_,rfl,?_,rfl⟩
      rcases createCases cpu c good with ⟨_,n,failed⟩ | ⟨s',t,made,created⟩
      · rw [failed]
        exact .touches rfl ⟨goodPid n good,rfl,rfl,fun _ => rfl⟩
      · rw [made]
        exact .creates rfl created
  | schedule cpu =>
      obtain ⟨s',sw,done,result⟩ := scheduleCases cpu good
      exact ⟨{k with sched := s'},by simp [step,done],.schedules rfl (touchedRefl good) result,rfl⟩
  | tick cpu =>
      obtain ⟨s0,good0,moved,current,_,states,done⟩ := tickCases cpu good
      have touched : Touched k.sched s0 := ⟨good0,moved.1,current,states⟩
      rcases done with done | done
      · exact ⟨{k with sched := s0},by simp [step,done],.touches rfl touched,rfl⟩
      · obtain ⟨s',sw,scheduled,result⟩ := scheduleCases cpu good0
        exact ⟨{k with sched := s'},by simp [step,done,scheduled],.schedules rfl touched result,rfl⟩
  | exit cpu t =>
      obtain ⟨s0,s',sw,done,marked,result⟩ := exitCases cpu good valid
      exact ⟨{k with sched := s',exited := t::k.exited},by simp [step,done],.exits rfl valid marked result,rfl⟩
  | dispatch cpu nr a w =>
      obtain ⟨k',v,done,effect,exited⟩ := dispatchCases nr a w good valid.1
      exact ⟨k',by simp [step,done],effect,exited⟩
  | resume cpu =>
      obtain ⟨sched,exited⟩ := resumeSched k cpu
      exact ⟨_,rfl,.touches rfl (sched.symm ▸ touchedRefl good),exited⟩

end Nekros.SyscallSteps
