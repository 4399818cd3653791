import Nekros.CcProc
import Nekros.TicketLock

/-! `printk` and `panic` of kernel/printk.c under `printk_lock`, on any number of threads. A message is
what the format comes to; its bytes go out one by one while the lock is held. `panic` puts its first
and its last line out without the lock and takes it like everybody else in between. -/
namespace Nekros.PrintkLock
open Bytes (Byte)
open GuardedRun (run Guarded guardedInvariant)
open Function (update)

/- Where a thread is: before the lock in `panic`, from the ticket to `spin_unlock`, or past the lock in
`panic`, and what it has still to put out. `panics` tells the two calls apart inside. -/
inductive Place where
  | outside
  | first (rest fmt : List Byte)
  | inside (panics : Bool) (rest : List Byte)
  | last (rest : List Byte)
  deriving DecidableEq

variable {Thread : Type}

/- `out` has each byte with a record of whether it was put under the lock, `calls` is a record of the
messages in the order of their tickets. -/
structure World (Thread : Type) where
  lock : TicketLock.World Thread
  place : Thread → Place
  out : List (Byte × Bool)
  calls : List (List Byte)

inductive Event (Thread : Type) where
  | printk (t : Thread) (message : List Byte)
  | panic (t : Thread) (fmt : List Byte)
  | shout (t : Thread)
  | ticket (t : Thread)
  | look (t : Thread)
  | put (t : Thread)
  | finish (t : Thread)

def start : World Thread := ⟨TicketLock.start,fun _ => .outside,[],[]⟩

def banner : List Byte := CcProc.ascii "\n\n*** NEKROS PANIC ***\n"

def halted : List Byte := CcProc.ascii "\nSystem halted.\n"

def locked (out : List (Byte × Bool)) : List Byte := (out.filter Prod.snd).map Prod.fst

def Place.text : Place → Option (List Byte)
  | .inside _ rest => some rest
  | _ => none

def Place.early : Place → Bool
  | .first _ _ => true
  | _ => false

section Steps
variable [DecidableEq Thread]

def enter (w : World Thread) (t : Thread) (panics : Bool) (message : List Byte) : Option (World Thread) :=
  (TicketLock.take w.lock t).map fun lock =>
    {w with lock := lock,place := update w.place t (.inside panics message),calls := w.calls ++ [message]}

def printk (w : World Thread) (t : Thread) (message : List Byte) : Option (World Thread) :=
  if w.place t = .outside then enter w t false message else none

/- Wherever a thread is that has not halted, an exception can call `panic`; not so while it waits for
the lock, where it would have two tickets. -/
def panic (w : World Thread) (t : Thread) (fmt : List Byte) : Option (World Thread) :=
  if w.lock.ticket t = none ∧ w.place t ≠ .last [] then
    some {w with place := update w.place t (.first banner fmt)}
  else none

def shout (w : World Thread) (t : Thread) : Option (World Thread) :=
  match w.place t with
  | .first (c::rest) fmt => some {w with out := w.out ++ [(c,false)],place := update w.place t (.first rest fmt)}
  | .last (c::rest) => some {w with out := w.out ++ [(c,false)],place := update w.place t (.last rest)}
  | _ => none

def ticket (w : World Thread) (t : Thread) : Option (World Thread) :=
  match w.place t with
  | .first [] fmt => enter w t true fmt
  | _ => none

def look (w : World Thread) (t : Thread) : Option (World Thread) :=
  (TicketLock.look w.lock t).map ({w with lock := ·})

def put (w : World Thread) (t : Thread) : Option (World Thread) :=
  match w.lock.holds t,w.lock.ticket t,w.place t with
  | true,none,.inside panics (c::rest) =>
      some {w with out := w.out ++ [(c,true)],place := update w.place t (.inside panics rest)}
  | _,_,_ => none

def finish (w : World Thread) (t : Thread) : Option (World Thread) :=
  match w.place t with
  | .inside panics [] => (TicketLock.unlock w.lock t).map fun lock =>
      {w with lock := lock,place := update w.place t (if panics then .last halted else .outside)}
  | _ => none

def step (w : World Thread) : Event Thread → Option (World Thread)
  | .printk t message => printk w t message
  | .panic t fmt => panic w t fmt
  | .shout t => shout w t
  | .ticket t => ticket w t
  | .look t => look w t
  | .put t => put w t
  | .finish t => finish w t

def Few (w : World Thread) (e : Event Thread) : Prop :=
  ∀ w', step w e = some w' → (TicketLock.busy w'.lock).encard ≤ (65535 : Nat)

end Steps

theorem lockedPut (out : List (Byte × Bool)) (c : Byte) : locked (out ++ [(c,true)]) = locked out ++ [c] := by
  simp [locked]

theorem lockedShout (out : List (Byte × Bool)) (c : Byte) : locked (out ++ [(c,false)]) = locked out := by
  simp [locked]

/- Up to what the holder has still to put out, the messages of the tickets called so far have gone
out one after the other. A holder that panics has nothing of them left to put. -/
structure Inv (w : World Thread) : Prop where
  lock : TicketLock.Inv w.lock
  counted : w.calls.length = w.lock.taken.length
  waiting : ∀ i t, w.lock.acquired.length ≤ i → w.lock.taken[i]? = some t → (w.place t).text = w.calls[i]?
  printed : ∃ pending, locked w.out ++ pending = (w.calls.take w.lock.acquired.length).flatten ∧
    (∀ t m, w.lock.holds t = true → w.lock.ticket t = none → (w.place t).text = some m → m = pending) ∧
    ((∀ t, w.lock.holds t = false) → pending = [])

theorem startInv : Inv (start : World Thread) where
  lock := TicketLock.startInv
  counted := rfl
  waiting := fun i t _ there => by cases there
  printed := ⟨[],rfl,fun t _ holds => absurd holds Bool.false_ne_true,fun _ => rfl⟩

theorem notWaiting {w : World Thread} (h : TicketLock.Inv w.lock) {t x : Thread} {i : Nat}
    (free : w.lock.ticket t = none) (later : w.lock.acquired.length ≤ i) (there : w.lock.taken[i]? = some x) :
    x ≠ t := by
  rintro rfl
  have waits := (h.waits x _).mpr ⟨i,later,there,rfl⟩
  rw [free] at waits
  cases waits

theorem holderUnique {w : World Thread} (h : TicketLock.Inv w.lock) {t x : Thread} (holds : w.lock.holds t = true)
    (also : w.lock.holds x = true) : x = t :=
  Option.some.inj (((h.held x).mp also).2.symm.trans ((h.held t).mp holds).2)

theorem silentFree {w : World Thread} (h : Inv w) {t : Thread} (none : (w.place t).text = none) :
    w.lock.ticket t = Option.none := by
  cases waits : w.lock.ticket t with
  | none => rfl
  | some k =>
      obtain ⟨i,later,there,_⟩ := (h.lock.waits t k).mp waits
      have inside := (List.getElem?_eq_some_iff.mp there).1
      rw [← h.counted] at inside
      have has := h.waiting i t later there
      rw [none,List.getElem?_eq_getElem inside] at has
      cases has

def Stuck (t : Thread) (w : World Thread) : Prop :=
  TicketLock.Inv w.lock ∧ w.lock.holds t = true ∧ ((w.place t).early = true ∨ ∃ k, w.lock.ticket t = some k)

theorem stuckNobody {t : Thread} {w : World Thread} (h : Stuck t w) {x : Thread} {panics : Bool} {rest : List Byte}
    (holds : w.lock.holds x = true) (free : w.lock.ticket x = none) (has : w.place x = .inside panics rest) :
    False := by
  obtain ⟨inv,held,stays⟩ := h
  rw [holderUnique inv held holds] at free has
  rcases stays with early | ⟨k,waits⟩
  · rw [has] at early
    cases early
  · rw [free] at waits
    cases waits

section Runs
variable [DecidableEq Thread]

theorem printkCases {w w' : World Thread} {t : Thread} {message : List Byte} (next : printk w t message = some w') :
    w.place t = .outside ∧ enter w t false message = some w' := by
  unfold printk at next
  split at next
  · next idle => exact ⟨idle,next⟩
  · cases next

theorem ticketCases {w w' : World Thread} {t : Thread} (next : ticket w t = some w') :
    ∃ fmt, enter w t true fmt = some w' := by
  unfold ticket at next
  split at next
  · next fmt _ => exact ⟨fmt,next⟩
  · cases next

theorem panicCases {w w' : World Thread} {t : Thread} {fmt : List Byte} (next : panic w t fmt = some w') :
    w.lock.ticket t = none ∧ w' = {w with place := update w.place t (.first banner fmt)} := by
  unfold panic at next
  split at next
  · next free => exact ⟨free.1,(Option.some.inj next).symm⟩
  · cases next

theorem shoutCases {w w' : World Thread} {t : Thread} (next : shout w t = some w') :
    ∃ c p, w' = {w with out := w.out ++ [(c,false)],place := update w.place t p} ∧ p.text = none ∧
      (w.place t).text = none ∧ p.early = (w.place t).early := by
  unfold shout at next
  split at next
  · next c rest fmt at' => exact ⟨c,_,(Option.some.inj next).symm,rfl,by rw [at']; rfl,by rw [at']; rfl⟩
  · next c rest at' => exact ⟨c,_,(Option.some.inj next).symm,rfl,by rw [at']; rfl,by rw [at']; rfl⟩
  · cases next

theorem putCases {w w' : World Thread} {t : Thread} (next : put w t = some w') :
    w.lock.holds t = true ∧ w.lock.ticket t = none ∧ ∃ panics c rest, w.place t = .inside panics (c::rest) ∧
      w' = {w with out := w.out ++ [(c,true)],place := update w.place t (.inside panics rest)} := by
  unfold put at next
  split at next
  · next panics c rest holds free has => exact ⟨holds,free,panics,c,rest,has,(Option.some.inj next).symm⟩
  · cases next

theorem finishCases {w w' : World Thread} {t : Thread} (next : finish w t = some w') :
    w.lock.ticket t = none ∧ ∃ lock panics p, TicketLock.unlock w.lock t = some lock ∧
      w.place t = .inside panics [] ∧ p.text = none ∧ w' = {w with lock := lock,place := update w.place t p} := by
  unfold finish at next
  split at next
  · next panics done =>
      obtain ⟨lock,unlocked,rfl⟩ := Option.map_eq_some_iff.mp next
      refine ⟨?_,lock,panics,_,unlocked,done,?_,rfl⟩
      · unfold TicketLock.unlock at unlocked
        split at unlocked
        · next free => exact free
        · cases unlocked
      · cases panics with
        | false => rfl
        | true => rfl
  · cases next

theorem lockInv {w w' : World Thread} {e : Event Thread} (h : TicketLock.Inv w.lock) (few : Few w e)
    (next : step w e = some w') : TicketLock.Inv w'.lock := by
  have bound := few w' next
  have enters {t panics message} (entered : enter w t panics message = some w') : TicketLock.Inv w'.lock := by
    obtain ⟨lock,took,rfl⟩ := Option.map_eq_some_iff.mp entered
    exact TicketLock.takeInv h bound took
  cases e with
  | printk t message => exact enters (printkCases next).2
  | ticket t =>
      obtain ⟨fmt,entered⟩ := ticketCases next
      exact enters entered
  | panic t fmt =>
      obtain ⟨_,rfl⟩ := panicCases next
      exact h
  | shout t =>
      obtain ⟨_,_,rfl,_⟩ := shoutCases next
      exact h
  | look t =>
      obtain ⟨lock,looked,rfl⟩ := Option.map_eq_some_iff.mp next
      exact TicketLock.lookInv h looked
  | put t =>
      obtain ⟨_,_,_,_,_,_,rfl⟩ := putCases next
      exact h
  | finish t =>
      obtain ⟨_,lock,_,_,unlocked,_,_,rfl⟩ := finishCases next
      exact TicketLock.unlockInv h unlocked

theorem waitingKept {w : World Thread} {t : Thread} (h : Inv w) (free : w.lock.ticket t = none) (p : Place)
    (i : Nat) (x : Thread) (later : w.lock.acquired.length ≤ i) (there : w.lock.taken[i]? = some x) :
    (update w.place t p x).text = w.calls[i]? := by
  rw [Function.update_of_ne (notWaiting h.lock free later there)]
  exact h.waiting i x later there

theorem enterInv {w w' : World Thread} {t : Thread} {panics : Bool} {message : List Byte} (h : Inv w)
    (inv : TicketLock.Inv w'.lock) (next : enter w t panics message = some w') : Inv w' := by
  obtain ⟨lock,took,rfl⟩ := Option.map_eq_some_iff.mp next
  obtain ⟨free,rfl⟩ := TicketLock.takeCases took
  have long : w.lock.acquired.length ≤ w.calls.length := by
    rw [h.counted]
    exact h.lock.order.length_le
  refine ⟨inv,?_,?_,?_⟩
  · simp only [List.length_append,List.length_singleton,h.counted]
  · intro i x later there
    dsimp only at later there ⊢
    rcases TicketLock.snocAt.mp there with old | ⟨last,same⟩
    · have inside := (List.getElem?_eq_some_iff.mp old).1
      rw [← h.counted] at inside
      rw [Function.update_of_ne (notWaiting h.lock free later old),h.waiting i x later old,
        List.getElem?_append_left inside]
    · rw [same,last,← h.counted,Function.update_self,List.getElem?_concat_length]
      rfl
  · obtain ⟨pending,out,holder,nobody⟩ := h.printed
    refine ⟨pending,?_,?_,nobody⟩
    · dsimp only
      rw [List.take_append_of_le_length long]
      exact out
    · intro x m holds idle has
      dsimp only at idle has
      have other : x ≠ t := by
        rintro rfl
        rw [Function.update_self] at idle
        cases idle
      rw [Function.update_of_ne other] at idle has
      exact holder x m holds idle has

theorem awayInv {w : World Thread} {t : Thread} {p : Place} {out : List (Byte × Bool)} (h : Inv w)
    (free : w.lock.ticket t = none) (none : p.text = none) (same : locked out = locked w.out) :
    Inv {w with out := out,place := update w.place t p} := by
  obtain ⟨pending,before,holder,nobody⟩ := h.printed
  refine ⟨h.lock,h.counted,waitingKept h free p,pending,?_,?_,nobody⟩
  · dsimp only
    rw [same]
    exact before
  · intro x m holds idle has
    dsimp only at has
    have other : x ≠ t := by
      rintro rfl
      rw [Function.update_self,none] at has
      cases has
    rw [Function.update_of_ne other] at has
    exact holder x m holds idle has

theorem lookInv {w w' : World Thread} {t : Thread} (h : Inv w) (next : look w t = some w') : Inv w' := by
  obtain ⟨lock,looked,rfl⟩ := Option.map_eq_some_iff.mp next
  have inv := TicketLock.lookInv h.lock looked
  rcases TicketLock.lookCases looked with ⟨called,rfl⟩ | rfl
  · -- the lock was free, so everything called before has gone out, and this message is next
    obtain ⟨now,there⟩ := TicketLock.turn h.lock called
    have free := (TicketLock.nobodyHolds h.lock).mpr now
    obtain ⟨pending,out,_,nobody⟩ := h.printed
    rw [nobody free,List.append_nil] at out
    have inside := (List.getElem?_eq_some_iff.mp there).1
    rw [← h.counted] at inside
    have has := h.waiting _ t (Nat.le_refl _) there
    rw [List.getElem?_eq_getElem inside] at has
    refine ⟨inv,h.counted,?_,w.calls[w.lock.acquired.length],?_,?_,?_⟩
    · intro i x later at'
      dsimp only at later at' ⊢
      rw [List.length_append] at later
      exact h.waiting i x (by omega) at'
    · dsimp only
      rw [List.length_append,List.length_singleton,List.take_add_one,List.getElem?_eq_getElem inside,
        List.flatten_append,out]
      simp only [Option.toList_some,List.flatten_singleton]
    · intro x m holds _ mine
      dsimp only at holds mine
      by_cases same : x = t
      · rw [same,has] at mine
        exact (Option.some.inj mine).symm
      · rw [Function.update_of_ne same,free x] at holds
        cases holds
    · intro none
      have holds := none t
      dsimp only at holds
      rw [Function.update_self] at holds
      cases holds
  · exact h

theorem putInv {w w' : World Thread} {t : Thread} (h : Inv w) (next : put w t = some w') : Inv w' := by
  obtain ⟨holds,free,panics,c,rest,has,rfl⟩ := putCases next
  obtain ⟨pending,out,holder,_⟩ := h.printed
  have now : c::rest = pending := holder t _ holds free (by rw [has]; rfl)
  refine ⟨h.lock,h.counted,waitingKept h free _,rest,?_,?_,?_⟩
  · dsimp only
    rw [lockedPut,List.append_assoc,← out,← now]
    rfl
  · intro x m also _ mine
    dsimp only at mine
    rw [holderUnique h.lock holds also,Function.update_self] at mine
    exact (Option.some.inj mine).symm
  · intro none
    have holds' := none t
    dsimp only at holds'
    rw [holds] at holds'
    cases holds'

theorem finishInv {w w' : World Thread} {t : Thread} (h : Inv w) (next : finish w t = some w') : Inv w' := by
  obtain ⟨free,lock,panics,p,unlocked,done,_,rfl⟩ := finishCases next
  have inv := TicketLock.unlockInv h.lock unlocked
  obtain ⟨holds,rfl⟩ := TicketLock.unlockCases unlocked
  obtain ⟨pending,out,holder,_⟩ := h.printed
  have empty : [] = pending := holder t _ holds free (by rw [done]; rfl)
  refine ⟨inv,h.counted,waitingKept h free p,[],?_,?_,fun _ => rfl⟩
  · rw [empty]
    exact out
  · intro x m also _ _
    dsimp only at also
    by_cases same : x = t
    · rw [same,Function.update_self] at also
      cases also
    · rw [Function.update_of_ne same] at also
      exact absurd (holderUnique h.lock holds also) same

theorem stepInv {w w' : World Thread} {e : Event Thread} (h : Inv w) (few : Few w e) (next : step w e = some w') :
    Inv w' := by
  have inv := lockInv h.lock few next
  cases e with
  | printk t message => exact enterInv h inv (printkCases next).2
  | ticket t =>
      obtain ⟨fmt,entered⟩ := ticketCases next
      exact enterInv h inv entered
  | panic t fmt =>
      obtain ⟨free,rfl⟩ := panicCases next
      exact awayInv h free rfl rfl
  | shout t =>
      obtain ⟨c,p,rfl,none,quiet,_⟩ := shoutCases next
      exact awayInv h (silentFree h quiet) none (lockedShout w.out c)
  | look t => exact lookInv h next
  | put t => exact putInv h next
  | finish t => exact finishInv h next

theorem stuckPut {t : Thread} {w : World Thread} (h : Stuck t w) (x : Thread) : put w x = none := by
  by_contra some
  obtain ⟨w',next⟩ := Option.ne_none_iff_exists'.mp some
  obtain ⟨holds,free,_,_,_,has,_⟩ := putCases next
  exact stuckNobody h holds free has

theorem stuckFinish {t : Thread} {w : World Thread} (h : Stuck t w) (x : Thread) : finish w x = none := by
  by_contra some
  obtain ⟨w',next⟩ := Option.ne_none_iff_exists'.mp some
  obtain ⟨free,lock,_,_,unlocked,done,_⟩ := finishCases next
  exact stuckNobody h (TicketLock.unlockCases unlocked).1 free done

def Silent (t : Thread) (w w' : World Thread) : Prop :=
  Stuck t w' ∧ w'.lock.acquired = w.lock.acquired ∧ locked w'.out = locked w.out

theorem stuckEnter {t x : Thread} {w w' : World Thread} {panics : Bool} {message : List Byte} (h : Stuck t w)
    (inv : TicketLock.Inv w'.lock) (next : enter w x panics message = some w') : Silent t w w' := by
  obtain ⟨_,held,stays⟩ := h
  obtain ⟨lock,took,rfl⟩ := Option.map_eq_some_iff.mp next
  obtain ⟨free,rfl⟩ := TicketLock.takeCases took
  refine ⟨⟨inv,held,?_⟩,rfl,rfl⟩
  by_cases same : t = x
  · exact .inr ⟨_,by rw [same]; exact Function.update_self _ _ _⟩
  · dsimp only
    rw [Function.update_of_ne same,Function.update_of_ne same]
    exact stays

theorem stuckStep {t : Thread} {w w' : World Thread} {e : Event Thread} (h : Stuck t w) (few : Few w e)
    (next : step w e = some w') : Silent t w w' := by
  have inv := lockInv h.1 few next
  -- a thread that puts out a line of its own without the lock
  have away {x p out} (same : locked out = locked w.out) (early : x = t → (w.place t).early = true → p.early = true) :
      Silent t w {w with out := out,place := update w.place x p} := by
    refine ⟨⟨h.1,h.2.1,h.2.2.imp (fun was => ?_) id⟩,rfl,same⟩
    dsimp only
    by_cases mine : t = x
    · rw [mine,Function.update_self]
      exact early mine.symm was
    · rw [Function.update_of_ne mine]
      exact was
  cases e with
  | printk x message => exact stuckEnter h inv (printkCases next).2
  | ticket x =>
      obtain ⟨fmt,entered⟩ := ticketCases next
      exact stuckEnter h inv entered
  | panic x fmt =>
      obtain ⟨_,rfl⟩ := panicCases next
      exact away rfl fun _ _ => rfl
  | shout x =>
      obtain ⟨c,p,rfl,_,_,same⟩ := shoutCases next
      exact away (lockedShout w.out c) fun mine early => by rw [same,mine]; exact early
  | look x =>
      obtain ⟨lock,looked,rfl⟩ := Option.map_eq_some_iff.mp next
      rcases TicketLock.lookCases looked with ⟨called,rfl⟩ | rfl
      · -- a ticket is called only when nobody holds the lock
        have free := (TicketLock.nobodyHolds h.1).mpr (TicketLock.turn h.1 called).1 t
        rw [h.2.1] at free
        cases free
      · exact ⟨h,rfl,rfl⟩
  | put x =>
      rw [step,stuckPut h x] at next
      cases next
  | finish x =>
      rw [step,stuckFinish h x] at next
      cases next

theorem panicInsidePrintk {before after : List (Event Thread)} {w w' : World Thread} {t : Thread} {fmt : List Byte}
    (few : Guarded step Few start before) (ran : run step start before = some w) (inside : w.lock.holds t = true)
    (few' : Guarded step Few w (.panic t fmt :: after)) (ran' : run step w (.panic t fmt :: after) = some w') :
    w'.lock.acquired = w.lock.acquired ∧ locked w'.out = locked w.out ∧ ∀ x, put w' x = none ∧ finish w' x = none := by
  have h : TicketLock.Inv w.lock := guardedInvariant (fun w => TicketLock.Inv w.lock)
    (fun _ _ _ inv few next => lockInv inv few next) TicketLock.startInv few ran
  obtain ⟨mid,first,rest⟩ := Option.bind_eq_some_iff.mp ran'
  obtain ⟨_,now⟩ := panicCases first
  have stuck : Silent t w mid := by
    subst now
    exact ⟨⟨h,inside,.inl (congrArg Place.early (Function.update_self t _ w.place))⟩,rfl,rfl⟩
  obtain ⟨stuck,same,out⟩ : Silent t w w' := guardedInvariant (Silent t w)
    (fun _ _ _ silent few next => by
      obtain ⟨stuck,same,out⟩ := stuckStep silent.1 few next
      exact ⟨stuck,same.trans silent.2.1,out.trans silent.2.2⟩) stuck (few'.2 mid first) rest
  exact ⟨same,out,fun x => ⟨stuckPut stuck x,stuckFinish stuck x⟩⟩

end Runs

theorem fewTwo (w : World Bool) (e : Event Bool) : Few w e := by
  intro w' _
  have two := Set.encard_le_card (s := TicketLock.busy w'.lock)
  rw [ENat.card_eq_coe_fintype_card,Fintype.card_bool] at two
  exact two.trans (Nat.cast_le.mpr (by decide : 2 ≤ 65535))

def twoMessages : List (Event Bool) :=
  [.printk false [1,2],.look false,.put false,.printk true [3],.look true,.put false,.finish false,.look true,
    .put true,.finish true]

def faulted : List (Event Bool) :=
  .panic false [7] :: .printk true [3] :: (List.replicate banner.length (.shout false) ++
    [.ticket false,.look true,.look false])

theorem panicInsidePrintkTwo : ∃ w w', run step start [.printk false [1,2],.look false,.put false] = some w ∧
    run step w faulted = some w' ∧ w'.lock.acquired = [false] ∧ ∀ x, put w' x = none ∧ finish w' x = none := by
  have facts : (run step start [.printk false [1,2],.look false,.put false]).map
      (fun w => (w.lock.holds false,w.lock.acquired,(run step w faulted).isSome)) = some (true,[false],true) := by
    decide +kernel
  obtain ⟨w,ran,data⟩ := Option.map_eq_some_iff.mp facts
  simp only [Prod.mk.injEq] at data
  obtain ⟨inside,acquired,more⟩ := data
  obtain ⟨w',ran'⟩ := Option.isSome_iff_exists.mp more
  obtain ⟨same,_,nobody⟩ := panicInsidePrintk (GuardedRun.guardedAlways fewTwo start _) ran inside
    (GuardedRun.guardedAlways fewTwo w _) ran'
  exact ⟨w,w',ran,ran',same.trans acquired,nobody⟩

end Nekros.PrintkLock
