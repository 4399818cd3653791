import Mathlib.Data.List.Perm.Subperm
import Nekros.Sched

/-! The run queues as lists of tasks. `Queues s q all` says that the links of a state
are the rings of `q` and `all`; under it every queue operation is one on lists, the
loop of `pick_next` comes back to its head, and `list_del` finds its node linked. -/
namespace Nekros.SchedQueues
open Sched LinkRing
open Function (update)

structure RunQueues (L : Links Node) (n : Nat) (q : Band → List Tid) : Prop where
  ring : ∀ b, Ring L (.runqueue b) ((q b).map .rqNode)
  apart : ∀ b b', b ≠ b' → ∀ t ∈ q b, t ∉ q b'
  made : ∀ b, ∀ t ∈ q b, t < n
  off : ∀ t < n, (∀ b, t ∉ q b) → L.next (.rqNode t) = .null ∧ L.prev (.rqNode t) = .null

structure AllTasks (L : Links Node) (n : Nat) (all : List Tid) : Prop where
  ring : Ring L .allTasksList (all.map .allTasks)
  made : ∀ t ∈ all, t < n
  off : ∀ t < n, t ∉ all → L.next (.allTasks t) = .null

structure Queues (s : State) (q : Band → List Tid) (all : List Tid) : Prop where
  run : RunQueues s.links s.made q
  tasks : AllTasks s.links s.made all

theorem queuesCongr {s s' q all} (h : Queues s q all) (links : s'.links = s.links)
    (made : s'.made = s.made) : Queues s' q all := by
  constructor
  · rw [links,made]; exact h.run
  · rw [links,made]; exact h.tasks

def Same (L L' : Links Node) (x : Node) : Prop := L'.next x = L.next x ∧ L'.prev x = L.prev x

theorem memRq {b : Band} {t : Tid} {l : List Tid} :
    Node.rqNode t ∈ Node.runqueue b::l.map .rqNode ↔ t ∈ l := by simp

theorem memRqCases {b : Band} {x : Node} {l : List Tid} (mem : x ∈ Node.runqueue b::l.map .rqNode) :
    x = .runqueue b ∨ ∃ t ∈ l, x = .rqNode t := by
  rcases List.mem_cons.mp mem with head | node
  · exact .inl head
  · obtain ⟨t,ht,rfl⟩ := List.mem_map.mp node
    exact .inr ⟨t,ht,rfl⟩

theorem memAllCases {x : Node} {l : List Tid} (mem : x ∈ Node.allTasksList::l.map .allTasks) :
    x = .allTasksList ∨ ∃ t ∈ l, x = .allTasks t := by
  rcases List.mem_cons.mp mem with head | node
  · exact .inl head
  · obtain ⟨t,ht,rfl⟩ := List.mem_map.mp node
    exact .inr ⟨t,ht,rfl⟩

theorem queueNodup {L : Links Node} {n : Nat} {q : Band → List Tid} (h : RunQueues L n q) (b : Band) :
    (q b).Nodup := (List.nodup_cons.mp (h.ring b).nodup).2.of_map _

theorem queuedAppend (q : Band → List Tid) (b : Band) (t u : Tid) :
    (∃ b', u ∈ update q b (q b ++ [t]) b') ↔ u = t ∨ ∃ b', u ∈ q b' := by
  constructor
  · rintro ⟨b',mem⟩
    by_cases same : b' = b
    · subst same
      rw [Function.update_self] at mem
      rcases List.mem_append.mp mem with old | new
      · exact .inr ⟨b',old⟩
      · exact .inl (List.mem_singleton.mp new)
    · rw [Function.update_of_ne same] at mem
      exact .inr ⟨b',mem⟩
  · rintro (rfl | ⟨b',mem⟩)
    · exact ⟨b,by rw [Function.update_self]; simp⟩
    · refine ⟨b',?_⟩
      by_cases same : b' = b
      · subst same
        rw [Function.update_self]
        exact List.mem_append_left _ mem
      · rw [Function.update_of_ne same]
        exact mem

theorem stillQueued {q : Band → List Tid} {b b' : Band} {t u : Tid}
    (listed : u ∈ update q b ((q b).erase t) b') : u ∈ q b' := by
  by_cases same : b' = b
  · subst same
    rw [Function.update_self] at listed
    exact List.mem_of_mem_erase listed
  · rwa [Function.update_of_ne same] at listed

theorem queuedErase {L : Links Node} {n : Nat} {q : Band → List Tid} {b : Band} {t : Tid}
    (h : RunQueues L n q) (mem : t ∈ q b) (u : Tid) :
    (∃ b', u ∈ update q b ((q b).erase t) b') ↔ u ≠ t ∧ ∃ b', u ∈ q b' := by
  have nodup := queueNodup h b
  constructor
  · rintro ⟨b',listed⟩
    by_cases same : b' = b
    · subst same
      rw [Function.update_self,nodup.mem_erase_iff] at listed
      exact ⟨listed.1,b',listed.2⟩
    · rw [Function.update_of_ne same] at listed
      refine ⟨?_,b',listed⟩
      rintro rfl
      exact h.apart b b' (Ne.symm same) u mem listed
  · rintro ⟨different,b',listed⟩
    refine ⟨b',?_⟩
    by_cases same : b' = b
    · subst same
      rw [Function.update_self,nodup.mem_erase_iff]
      exact ⟨different,listed⟩
    · rw [Function.update_of_ne same]
      exact listed

theorem runUpdate {L L' : Links Node} {n n' : Nat} {q : Band → List Tid} {l : List Tid} {b : Band}
    (h : RunQueues L n q) (ring : Ring L' (.runqueue b) (l.map .rqNode))
    (fresh : ∀ t ∈ l, t < n' ∧ ∀ b', b' ≠ b → t ∉ q b')
    (grown : n ≤ n' ∧ ∀ t < n', t < n ∨ t ∈ l)
    (same : ∀ x, x ≠ .null → x ≠ .runqueue b → (∀ t, t ∈ q b ∨ t ∈ l → x ≠ .rqNode t) → Same L L' x)
    (dropped : ∀ t ∈ q b, t ∉ l → L'.next (.rqNode t) = .null ∧ L'.prev (.rqNode t) = .null) :
    RunQueues L' n' (update q b l) := by
  refine ⟨?_,?_,?_,?_⟩
  · intro b'
    by_cases here : b' = b
    · subst here
      rw [Function.update_self]
      exact ring
    · rw [Function.update_of_ne here]
      refine ringFrame (fun x hx => ?_) (h.ring b')
      rcases memRqCases hx with rfl | ⟨t,listed,rfl⟩
      · exact same _ (by simp) (by simpa using here) (by simp)
      · refine same _ (by simp) (by simp) ?_
        rintro u (old | new) ⟨⟩
        · exact h.apart b' b here t listed old
        · exact (fresh t new).2 b' here listed
  · intro b1 b2 different t mem mem'
    by_cases first : b1 = b
    · subst first
      rw [Function.update_self] at mem
      rw [Function.update_of_ne (Ne.symm different)] at mem'
      exact (fresh t mem).2 b2 (Ne.symm different) mem'
    · rw [Function.update_of_ne first] at mem
      by_cases second : b2 = b
      · subst second
        rw [Function.update_self] at mem'
        exact (fresh t mem').2 b1 first mem
      · rw [Function.update_of_ne second] at mem'
        exact h.apart b1 b2 different t mem mem'
  · intro b' t mem
    by_cases here : b' = b
    · subst here
      rw [Function.update_self] at mem
      exact (fresh t mem).1
    · rw [Function.update_of_ne here] at mem
      exact Nat.lt_of_lt_of_le (h.made b' t mem) grown.1
  · intro t lt none
    have notNew : t ∉ l := by
      have here := none b
      rwa [Function.update_self] at here
    by_cases old : t ∈ q b
    · exact dropped t old notNew
    · have elsewhere : ∀ b', t ∉ q b' := by
        intro b'
        by_cases here : b' = b
        · rw [here]; exact old
        · have other := none b'
          rwa [Function.update_of_ne here] at other
      have words : Same L L' (.rqNode t) := by
        refine same _ (by simp) (by simp) ?_
        rintro u (mem | mem) ⟨⟩
        · exact old mem
        · exact notNew mem
      have before := h.off t ((grown.2 t lt).resolve_right notNew) elsewhere
      exact ⟨words.1.trans before.1,words.2.trans before.2⟩

theorem allFrame {L L' : Links Node} {n : Nat} {all : List Tid} (h : AllTasks L n all)
    (head : Same L L' .allTasksList) (nodes : ∀ t < n, Same L L' (.allTasks t)) : AllTasks L' n all := by
  refine ⟨ringFrame (fun x hx => ?_) h.ring,h.made,fun t lt out => (nodes t lt).1.trans (h.off t lt out)⟩
  rcases memAllCases hx with rfl | ⟨t,listed,rfl⟩
  · exact head
  · exact nodes t (h.made t listed)

theorem addTailRun {L : Links Node} {n n' : Nat} {q : Band → List Tid} {t : Tid} {b : Band}
    (h : RunQueues L n q) (grown : n ≤ n' ∧ ∀ u < n', u < n ∨ u = t) (lt : t < n') (out : ∀ b, t ∉ q b) :
    RunQueues (addTail L (.rqNode t) (.runqueue b)) n' (update q b (q b ++ [t])) := by
  have fresh : Node.rqNode t ∉ Node.runqueue b::(q b).map .rqNode := fun mem => out b (memRq.mp mem)
  refine runUpdate h ?_ ?_ ⟨grown.1,fun u hu => (grown.2 u hu).imp_right (fun e => by simp [e])⟩ ?_ ?_
  · rw [List.map_append]
    exact addTailRing (h.ring b) fresh
  · intro u mem
    rcases List.mem_append.mp mem with old | new
    · exact ⟨Nat.lt_of_lt_of_le (h.made b u old) grown.1,
        fun b' different => h.apart b b' (Ne.symm different) u old⟩
    · obtain rfl := List.mem_singleton.mp new
      exact ⟨lt,fun b' _ => out b'⟩
  · intro x _ notHead notNode
    refine addTailOther (h.ring b) (notNode t (by simp)) (fun mem => ?_)
    rcases memRqCases mem with head | ⟨u,hu,rfl⟩
    · exact notHead head
    · exact notNode u (.inl hu) rfl
  · intro u old gone
    exact absurd (List.mem_append_left _ old) gone

theorem addTailAll {L : Links Node} {n : Nat} {q : Band → List Tid} {all : List Tid} {m : Nat} {t : Tid}
    {b : Band} (run : RunQueues L m q) (h : AllTasks L n all) :
    AllTasks (addTail L (.rqNode t) (.runqueue b)) n all :=
  allFrame h (addTailOther (run.ring b) (by simp) (by simp))
    (fun _ _ => addTailOther (run.ring b) (by simp) (by simp))

theorem enqueueLinks (s : State) (t : Tid) :
    (enqueue s t).links = addTail s.links (.rqNode t) (.runqueue (bandOf (s.tasks t))) ∧
      (enqueue s t).made = s.made := by
  unfold enqueue
  dsimp only
  split <;> exact ⟨rfl,rfl⟩

theorem enqueueQueues {s : State} {q : Band → List Tid} {all : List Tid} {t : Tid} (h : Queues s q all)
    (lt : t < s.made) (out : ∀ b, t ∉ q b) :
    Queues (enqueue s t) (update q (bandOf (s.tasks t)) (q (bandOf (s.tasks t)) ++ [t])) all := by
  obtain ⟨links,made⟩ := enqueueLinks s t
  constructor
  · rw [links,made]
    exact addTailRun h.run ⟨Nat.le_refl _,fun u hu => .inl hu⟩ lt out
  · rw [links,made]
    exact addTailAll h.run h.tasks

theorem dequeueQueues {s : State} {q : Band → List Tid} {all : List Tid} {t : Tid} {b : Band}
    (h : Queues s q all) (mem : t ∈ q b) :
    Queues (dequeue s t) (update q b ((q b).erase t)) all ∧
      (dequeue s t).dels = (.rqNode t,true)::s.dels := by
  have inside : Node.rqNode t ∈ (q b).map Node.rqNode := List.mem_map_of_mem mem
  have injective : Function.Injective Node.rqNode := fun a b e => by cases e; rfl
  have ring := h.run.ring b
  refine ⟨⟨runUpdate h.run ?_ ?_ ⟨Nat.le_refl _,fun u hu => .inl hu⟩ ?_ ?_,?_⟩,?_⟩
  · rw [List.map_erase injective]
    exact delRing ring inside
  · intro u old
    have old := List.mem_of_mem_erase old
    exact ⟨h.run.made b u old,fun b' different => h.run.apart b b' (Ne.symm different) u old⟩
  · intro x _ notHead notNode
    refine delOther ring inside (fun listed => ?_)
    rcases memRqCases listed with head | ⟨u,hu,rfl⟩
    · exact notHead head
    · exact notNode u (.inl hu) rfl
  · intro u old gone
    obtain rfl : u = t := by
      by_contra different
      exact gone ((List.mem_erase_of_ne different).mpr old)
    exact delNull _ _ _
  · exact allFrame h.tasks (delOther ring inside (by simp)) (fun _ _ => delOther ring inside (by simp))
  · have linked : Linked .null s.links (.rqNode t) := ringLinked ring inside (by simp)
    simp [dequeue,listDel,linked]

/- On a task that is in no queue the unlinking writes through the null pointer only. -/
theorem dequeueOff {s : State} {q : Band → List Tid} {all : List Tid} {t : Tid} (h : Queues s q all)
    (lt : t < s.made) (out : ∀ b, t ∉ q b) :
    Queues (dequeue s t) q all ∧ (dequeue s t).dels = (.rqNode t,false)::s.dels := by
  obtain ⟨next,prev⟩ := h.run.off t lt out
  have same : ∀ x, x ≠ .null → x ≠ .rqNode t → Same s.links (dequeue s t).links x :=
    fun x nonnull away => delUnlinked next prev nonnull away
  refine ⟨⟨⟨?_,h.run.apart,h.run.made,?_⟩,?_⟩,?_⟩
  · intro b
    refine ringFrame (fun x hx => ?_) (h.run.ring b)
    rcases memRqCases hx with rfl | ⟨u,listed,rfl⟩
    · exact same _ (by simp) (by simp)
    · refine same _ (by simp) (fun e => ?_)
      cases e
      exact out b listed
  · intro u hu none
    by_cases here : u = t
    · subst here
      exact delNull _ _ _
    · have words := same (.rqNode u) (by simp) (by simpa using here)
      have before := h.run.off u hu none
      exact ⟨words.1.trans before.1,words.2.trans before.2⟩
  · exact allFrame h.tasks (same _ (by simp) (by simp)) (fun _ _ => same _ (by simp) (by simp))
  · have unlinked : ¬ Linked .null s.links (.rqNode t) := fun linked => linked.1 next
    simp [dequeue,listDel,unlinked]

theorem runFrame {L L' : Links Node} {n : Nat} {q : Band → List Tid} (h : RunQueues L n q)
    (heads : ∀ b, Same L L' (.runqueue b)) (nodes : ∀ t < n, Same L L' (.rqNode t)) :
    RunQueues L' n q := by
  refine ⟨fun b => ringFrame (fun x hx => ?_) (h.ring b),h.apart,h.made,fun t lt none => ?_⟩
  · rcases memRqCases hx with rfl | ⟨t,listed,rfl⟩
    · exact heads b
    · exact nodes t (h.made b t listed)
  · have before := h.off t lt none
    exact ⟨(nodes t lt).1.trans before.1,(nodes t lt).2.trans before.2⟩

theorem unlistQueues {s : State} {q : Band → List Tid} {all : List Tid} {t : Tid} (h : Queues s q all)
    (mem : t ∈ all) : Queues (listDel s (.allTasks t)) q (all.erase t) ∧
      (listDel s (.allTasks t)).dels = (.allTasks t,true)::s.dels := by
  have inside : Node.allTasks t ∈ all.map Node.allTasks := List.mem_map_of_mem mem
  have injective : Function.Injective Node.allTasks := fun a b e => by cases e; rfl
  have ring := h.tasks.ring
  refine ⟨⟨runFrame h.run (fun _ => delOther ring inside (by simp))
    (fun _ _ => delOther ring inside (by simp)),?_,?_,?_⟩,?_⟩
  · rw [List.map_erase injective]
    exact delRing ring inside
  · exact fun u hu => h.tasks.made u (List.mem_of_mem_erase hu)
  · intro u hu gone
    by_cases here : u = t
    · subst here
      exact (delNull _ _ _).1
    · have out : u ∉ all := fun listed => gone ((List.mem_erase_of_ne here).mpr listed)
      have words : Same s.links (listDel s (.allTasks t)).links (.allTasks u) :=
        delOther ring inside (by simpa using out)
      exact words.1.trans (h.tasks.off u hu out)
  · have linked : Linked .null s.links (.allTasks t) := ringLinked ring inside (by simp)
    simp [listDel,linked]

theorem queueShort {s : State} {q : Band → List Tid} {all : List Tid} (h : Queues s q all) (b : Band) :
    ((q b).map Node.rqNode).length ≤ s.made := by
  have nodup := queueNodup h.run b
  have inside : q b ⊆ List.range s.made := fun t mem => List.mem_range.mpr (h.run.made b t mem)
  have short := (List.subperm_of_subset nodup inside).length_le
  rw [List.length_map]
  rwa [List.length_range] at short

theorem betterFold (s : State) (ts : List Tid) (best : Option Tid) :
    (∀ t, ts.foldl (better s) best = some t → best = some t ∨ (t ∈ ts ∧ (s.tasks t).state = .ready)) ∧
      (ts.foldl (better s) best = none → best = none ∧ ∀ t ∈ ts, (s.tasks t).state ≠ .ready) := by
  induction ts generalizing best with
  | nil => simp
  | cons u rest ih =>
      have step : better s best u = best ∨ (better s best u = some u ∧ (s.tasks u).state = .ready) := by
        unfold better
        by_cases ready : (s.tasks u).state = .ready
        · cases best with
          | none => simp [ready]
          | some b => simp only [ready]; by_cases less : (s.tasks u).vruntime < (s.tasks b).vruntime <;> simp [less]
        · simp [ready]
      have skip : (s.tasks u).state = .ready → better s best u ≠ none := by
        intro ready
        cases best with
        | none => simp [better,ready]
        | some b => by_cases less : (s.tasks u).vruntime < (s.tasks b).vruntime <;> simp [better,ready,less]
      simp only [List.foldl_cons]
      refine ⟨fun t found => ?_,fun none => ?_⟩
      · rcases (ih _).1 t found with same | ⟨mem,ready⟩
        · rcases step with kept | ⟨taken,ready⟩
          · exact .inl (kept ▸ same)
          · rw [taken] at same
            cases same
            exact .inr ⟨List.mem_cons_self,ready⟩
        · exact .inr ⟨List.mem_cons_of_mem _ mem,ready⟩
      · obtain ⟨empty,rest'⟩ := (ih _).2 none
        have notReady : (s.tasks u).state ≠ .ready := fun ready => skip ready empty
        refine ⟨?_,List.forall_mem_cons.mpr ⟨notReady,rest'⟩⟩
        rcases step with kept | ⟨_,ready⟩
        · exact kept ▸ empty
        · exact absurd ready notReady

theorem entries (l : List Tid) : (l.map Node.rqNode).mapM entry = some l := by
  induction l with
  | nil => rfl
  | cons t rest ih =>
      rw [List.map_cons,List.mapM_cons,ih]
      rfl

theorem pickBandQueue {s : State} {q : Band → List Tid} {all : List Tid} (h : Queues s q all) (b : Band) :
    pickBand s b = some ((q b).foldl (better s) none) := by
  unfold pickBand
  by_cases empty : s.links.next (.runqueue b) = .runqueue b
  · have none := List.map_eq_nil_iff.mp ((ringEmpty (h.run.ring b)).mp empty)
    rw [if_pos empty,none]
    rfl
  · rw [if_neg empty,ringWalk (queueShort h b) (h.run.ring b)]
    simp only [Option.bind_some,entries,Option.map_some]

theorem pickFromQueues {s : State} {q : Band → List Tid} {all : List Tid} (h : Queues s q all)
    (bands : List Band) : ∃ next, pickFrom s bands = some next ∧
      (∀ t, next = some t → (s.tasks t).state = .ready ∧ ∃ b, t ∈ q b) ∧
      (next = none → ∀ b ∈ bands, ∀ t ∈ q b, (s.tasks t).state ≠ .ready) := by
  induction bands with
  | nil => exact ⟨none,rfl,by simp,by simp⟩
  | cons b rest ih =>
      obtain ⟨later,picked,some',none'⟩ := ih
      have fold := betterFold s (q b) none
      cases best : (q b).foldl (better s) none with
      | some t =>
          refine ⟨some t,by simp [pickFrom,pickBandQueue h,best],?_,by simp⟩
          rintro u ⟨⟩
          rcases fold.1 t best with absent | ⟨mem,ready⟩
          · cases absent
          · exact ⟨ready,b,mem⟩
      | none =>
          refine ⟨later,by simp [pickFrom,pickBandQueue h,best,picked],some',?_⟩
          intro absent b' mem
          rcases List.mem_cons.mp mem with rfl | inside
          · exact (fold.2 best).2
          · exact none' absent b' inside

theorem pickNextQueues {s : State} {q : Band → List Tid} {all : List Tid} (h : Queues s q all) :
    ∃ next, pickNext s = some next ∧
      (∀ t, next = some t → (s.tasks t).state = .ready ∧ ∃ b, t ∈ q b) ∧
      (next = none → ∀ b, ∀ t ∈ q b, (s.tasks t).state ≠ .ready) := by
  obtain ⟨next,picked,some',none'⟩ := pickFromQueues h (List.finRange 16).reverse
  exact ⟨next,picked,some',fun absent b => none' absent b (by simp)⟩

end Nekros.SchedQueues
