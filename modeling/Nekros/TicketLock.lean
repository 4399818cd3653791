import Mathlib.Data.List.Infix
import Mathlib.Data.Set.Card
import Nekros.GuardedRun

/-! The ticket lock of include/nekros/types.h. `spin_lock` is one fetch-add on `next` and then loads
of `owner`; `spin_unlock` is one fetch-add on `owner`. Each of these is a step, and the steps of
different threads come in any order. Both counters have 16 bits. -/
namespace Nekros.TicketLock
open GuardedRun (run Guarded guardedInvariant)
open Function (update)

abbrev Ticket := BitVec 16

variable {Thread : Type}

/- The lock, and what each thread knows: whether it holds the lock, and its ticket while it is in the
loop of `spin_lock`. The last three are records: who has taken a ticket and who has got the lock, in
that order, and how often it was given back. -/
structure World (Thread : Type) where
  owner : Ticket
  next : Ticket
  holds : Thread → Bool
  ticket : Thread → Option Ticket
  taken : List Thread
  acquired : List Thread
  released : Nat

def busy (w : World Thread) : Set Thread := {t | w.holds t = true ∨ (w.ticket t).isSome}

inductive Event (Thread : Type) where
  | take (t : Thread)
  | look (t : Thread)
  | unlock (t : Thread)

def start : World Thread := ⟨0,0,fun _ => false,fun _ => none,[],[],0⟩

section Steps
variable [DecidableEq Thread]

def take (w : World Thread) (t : Thread) : Option (World Thread) :=
  match w.ticket t with
  | some _ => none
  | none => some {w with
      next := w.next + 1
      ticket := update w.ticket t (some w.next)
      taken := w.taken ++ [t]}

def look (w : World Thread) (t : Thread) : Option (World Thread) :=
  match w.ticket t with
  | none => none
  | some ticket =>
      if w.owner = ticket then
        some {w with
          holds := update w.holds t true
          ticket := update w.ticket t none
          acquired := w.acquired ++ [t]}
      else some w

/- Only by a thread that holds the lock and is not waiting for it. -/
def unlock (w : World Thread) (t : Thread) : Option (World Thread) :=
  match w.holds t,w.ticket t with
  | true,none => some {w with
      owner := w.owner + 1
      holds := update w.holds t false
      released := w.released + 1}
  | _,_ => none

def step (w : World Thread) : Event Thread → Option (World Thread)
  | .take t => take w t
  | .look t => look w t
  | .unlock t => unlock w t

def Few (w : World Thread) (e : Event Thread) : Prop :=
  ∀ w', step w e = some w' → (busy w').encard ≤ 65535

end Steps

def number (i : Nat) : Ticket := BitVec.ofNat 16 i

theorem numberSucc (i : Nat) : number i + 1 = number (i + 1) := (BitVec.ofNat_add i 1).symm

theorem numberInjective {low i j : Nat} (hi : low ≤ i ∧ i < low + 2^16) (hj : low ≤ j ∧ j < low + 2^16)
    (same : number i = number j) : i = j := by
  have values := congrArg BitVec.toNat same
  unfold number at values
  rw [BitVec.toNat_ofNat,BitVec.toNat_ofNat] at values
  omega

structure Inv (w : World Thread) : Prop where
  owner : w.owner = number w.released
  next : w.next = number w.taken.length
  order : w.acquired <+: w.taken
  served : w.released ≤ w.acquired.length ∧ w.acquired.length ≤ w.released + 1
  room : w.taken.length ≤ w.released + 2^16
  waits : ∀ t k, w.ticket t = some k ↔
    ∃ i, w.acquired.length ≤ i ∧ w.taken[i]? = some t ∧ k = number i
  held : ∀ t, w.holds t = true ↔ w.released < w.acquired.length ∧ w.taken[w.released]? = some t

theorem startInv : Inv (start : World Thread) where
  owner := rfl
  next := rfl
  order := List.prefix_rfl
  served := ⟨Nat.le_refl 0,Nat.zero_le 1⟩
  room := Nat.zero_le _
  waits := fun t k => by simp [start]
  held := fun t => by simp [start]

theorem position {w : World Thread} (h : Inv w) {i : Nat} {t : Thread} (later : w.acquired.length ≤ i)
    (there : w.taken[i]? = some t) : w.released ≤ i ∧ i < w.released + 2^16 ∧ i < w.taken.length := by
  obtain ⟨inside,_⟩ := List.getElem?_eq_some_iff.mp there
  have served := h.served
  have room := h.room
  omega

theorem positionUnique {w : World Thread} (h : Inv w) {i j : Nat} {t : Thread} (hi : w.acquired.length ≤ i)
    (hj : w.acquired.length ≤ j) (first : w.taken[i]? = some t) (second : w.taken[j]? = some t) : i = j := by
  have one := (h.waits t _).mpr ⟨i,hi,first,rfl⟩
  have two := (h.waits t _).mpr ⟨j,hj,second,rfl⟩
  obtain ⟨lowI,highI,_⟩ := position h hi first
  obtain ⟨lowJ,highJ,_⟩ := position h hj second
  exact numberInjective ⟨lowI,highI⟩ ⟨lowJ,highJ⟩ (Option.some.inj (one.symm.trans two))

theorem waitingNodup {w : World Thread} (h : Inv w) : (w.taken.drop w.acquired.length).Nodup := by
  rw [List.nodup_iff_getElem?_ne_getElem?]
  intro i j lt inside same
  rw [List.length_drop] at inside
  rw [List.getElem?_drop,List.getElem?_drop] at same
  have there : w.taken[w.acquired.length + j]? = some (w.taken.get ⟨w.acquired.length + j,by omega⟩) :=
    List.getElem?_eq_getElem _
  have equal := positionUnique h (Nat.le_add_right _ i) (Nat.le_add_right _ j) (same.trans there) there
  omega

theorem nobodyHolds {w : World Thread} (h : Inv w) :
    (∀ t, w.holds t = false) ↔ w.released = w.acquired.length := by
  have served := h.served
  have inside := h.order.length_le
  constructor
  · intro free
    by_contra held
    have low : w.released < w.taken.length := by omega
    have holds := (h.held _).mpr ⟨by omega,List.getElem?_eq_getElem low⟩
    rw [free] at holds
    cases holds
  · intro same t
    by_contra holds
    have held := (h.held t).mp (Bool.not_eq_false _ ▸ holds)
    omega

theorem turn {w : World Thread} (h : Inv w) {t : Thread} (called : w.ticket t = some w.owner) :
    w.released = w.acquired.length ∧ w.taken[w.acquired.length]? = some t := by
  obtain ⟨i,later,there,same⟩ := (h.waits t _).mp called
  obtain ⟨low,high,_⟩ := position h later there
  rw [h.owner] at same
  have here : w.released = i := numberInjective ⟨Nat.le_refl _,by omega⟩ ⟨low,high⟩ same
  have served := h.served
  have exactly : i = w.acquired.length := by omega
  rw [exactly] at here there
  exact ⟨here,there⟩

theorem snocAt {l : List Thread} {t x : Thread} {i : Nat} :
    (l ++ [t])[i]? = some x ↔ l[i]? = some x ∨ (i = l.length ∧ x = t) := by
  rcases Nat.lt_trichotomy i l.length with low | same | high
  · rw [List.getElem?_append_left low]
    exact ⟨.inl,fun found => found.resolve_right (fun last => by omega)⟩
  · rw [same,List.getElem?_concat_length,List.getElem?_eq_none (Nat.le_refl _)]
    simp [eq_comm]
  · rw [List.getElem?_eq_none (by rw [List.length_append]; simp; omega),List.getElem?_eq_none (by omega)]
    simp
    omega

theorem prefixSnoc {l m : List Thread} {t : Thread} (start : l <+: m) (there : m[l.length]? = some t) :
    l ++ [t] <+: m := by
  obtain ⟨low,rfl⟩ := List.getElem?_eq_some_iff.mp there
  exact List.concat_get_prefix start low

section Keeps
variable [DecidableEq Thread]

theorem lengthLeEncard {s : Set Thread} {l : List Thread} (nodup : l.Nodup) (sub : ∀ t ∈ l, t ∈ s) :
    (l.length : ℕ∞) ≤ s.encard := by
  have inside : (l.toFinset : Set Thread) ⊆ s := fun t mem => sub t (List.mem_toFinset.mp mem)
  have count := Set.encard_le_encard inside
  rwa [Set.encard_coe_eq_coe_finsetCard,List.toFinset_card_of_nodup nodup] at count

theorem takeCases {w w' : World Thread} {t : Thread} (next : take w t = some w') :
    w.ticket t = none ∧ w' = {w with
      next := w.next + 1
      ticket := update w.ticket t (some w.next)
      taken := w.taken ++ [t]} := by
  unfold take at next
  split at next
  · cases next
  · next free => exact ⟨free,(Option.some.inj next).symm⟩

theorem roomLeft {w w' : World Thread} {t : Thread} (h : Inv w) (few : (busy w').encard ≤ 65535)
    (next : take w t = some w') : w.taken.length < w.released + 2^16 := by
  obtain ⟨free,rfl⟩ := takeCases next
  have waiting : ∀ x ∈ w.taken.drop w.acquired.length, (w.ticket x).isSome := by
    intro x mem
    obtain ⟨i,there⟩ := List.mem_iff_getElem?.mp mem
    rw [List.getElem?_drop] at there
    rw [(h.waits x _).mpr ⟨_,Nat.le_add_right _ i,there,rfl⟩]
    rfl
  have new : t ∉ w.taken.drop w.acquired.length := by
    intro mem
    have waits := waiting t mem
    rw [free] at waits
    cases waits
  have all : ∀ x ∈ t :: w.taken.drop w.acquired.length, x ∈ busy {w with
      next := w.next + 1
      ticket := update w.ticket t (some w.next)
      taken := w.taken ++ [t]} := by
    intro x mem
    refine .inr ?_
    by_cases same : x = t
    · subst same
      simp
    · have old := (List.mem_cons.mp mem).resolve_left same
      simp only [Function.update_of_ne same]
      exact waiting x old
  have count := (lengthLeEncard (List.nodup_cons.mpr ⟨new,waitingNodup h⟩) all).trans few
  have bound : (t :: w.taken.drop w.acquired.length).length ≤ 65535 := by exact_mod_cast count
  rw [List.length_cons,List.length_drop] at bound
  have served := h.served
  omega

theorem takeInv {w w' : World Thread} {t : Thread} (h : Inv w) (few : (busy w').encard ≤ 65535)
    (next : take w t = some w') : Inv w' := by
  have room := roomLeft h few next
  have served := h.served
  have inside := h.order.length_le
  obtain ⟨free,rfl⟩ := takeCases next
  refine ⟨h.owner,?_,h.order.trans (List.prefix_append _ _),served,?_,?_,?_⟩
  · dsimp only
    rw [h.next,numberSucc,List.length_append]
    rfl
  · dsimp only
    rw [List.length_append,List.length_singleton]
    omega
  · intro x k
    dsimp only
    by_cases same : x = t
    · subst same
      rw [Function.update_self,Option.some.injEq,h.next]
      constructor
      · rintro rfl
        exact ⟨w.taken.length,inside,snocAt.mpr (.inr ⟨rfl,rfl⟩),rfl⟩
      · rintro ⟨i,later,there,rfl⟩
        rcases snocAt.mp there with old | ⟨last,_⟩
        · -- an older place would be a ticket the thread still has
          have waits := (h.waits x _).mpr ⟨i,later,old,rfl⟩
          rw [free] at waits
          cases waits
        · rw [last]
    · rw [Function.update_of_ne same,h.waits]
      refine exists_congr fun i => and_congr_right fun _ => and_congr_left fun _ => ?_
      rw [snocAt]
      exact ⟨.inl,fun found => found.resolve_right (fun last => same last.2)⟩
  · intro x
    dsimp only
    rw [h.held]
    refine and_congr_right fun held => ?_
    rw [List.getElem?_append_left (by omega)]

theorem lookCases {w w' : World Thread} {t : Thread} (next : look w t = some w') :
    (w.ticket t = some w.owner ∧ w' = {w with
      holds := update w.holds t true
      ticket := update w.ticket t none
      acquired := w.acquired ++ [t]}) ∨ w' = w := by
  unfold look at next
  split at next
  · cases next
  · next k waits =>
      split at next
      · next called =>
          exact .inl ⟨waits.trans (congrArg some called.symm),(Option.some.inj next).symm⟩
      · exact .inr (Option.some.inj next).symm

theorem lookInv {w w' : World Thread} {t : Thread} (h : Inv w) (next : look w t = some w') : Inv w' := by
  rcases lookCases next with ⟨called,rfl⟩ | rfl
  · -- the ticket called is the oldest that is out, so the acquisitions stay a prefix
    obtain ⟨now,there⟩ := turn h called
    have free := (nobodyHolds h).mpr now
    refine ⟨h.owner,h.next,prefixSnoc h.order there,?_,h.room,?_,?_⟩
    · dsimp only
      rw [List.length_append,List.length_singleton]
      omega
    · intro x k
      dsimp only
      rw [List.length_append,List.length_singleton]
      by_cases same : x = t
      · subst same
        rw [Function.update_self]
        constructor
        · intro none
          cases none
        · rintro ⟨i,later,again,_⟩
          have equal := positionUnique h (Nat.le_refl _) (by omega) there again
          omega
      · rw [Function.update_of_ne same,h.waits]
        constructor
        · rintro ⟨i,later,at',number⟩
          refine ⟨i,?_,at',number⟩
          have other : i ≠ w.acquired.length := by
            rintro rfl
            exact same (Option.some.inj (at'.symm.trans there))
          omega
        · rintro ⟨i,later,at',number⟩
          exact ⟨i,by omega,at',number⟩
    · intro x
      dsimp only
      rw [List.length_append,List.length_singleton,now,there]
      by_cases same : x = t
      · subst same
        simp
      · rw [Function.update_of_ne same,free x]
        simp [Ne.symm same]
  · exact h

theorem unlockCases {w w' : World Thread} {t : Thread} (next : unlock w t = some w') :
    w.holds t = true ∧ w' = {w with
      owner := w.owner + 1
      holds := update w.holds t false
      released := w.released + 1} := by
  unfold unlock at next
  split at next
  · next holds _ => exact ⟨holds,(Option.some.inj next).symm⟩
  · cases next

theorem unlockInv {w w' : World Thread} {t : Thread} (h : Inv w) (next : unlock w t = some w') : Inv w' := by
  obtain ⟨holds,rfl⟩ := unlockCases next
  obtain ⟨held,there⟩ := (h.held t).mp holds
  have served := h.served
  have room := h.room
  refine ⟨?_,h.next,h.order,?_,?_,h.waits,?_⟩
  · dsimp only
    rw [h.owner,numberSucc]
  · dsimp only
    omega
  · dsimp only
    omega
  · intro x
    dsimp only
    have past : ¬ w.released + 1 < w.acquired.length := by omega
    by_cases same : x = t
    · subst same
      simp [past]
    · have free : w.holds x = false := by
        by_contra still
        have again := (h.held x).mp (Bool.not_eq_false _ ▸ still)
        exact same (Option.some.inj (again.2.symm.trans there))
      rw [Function.update_of_ne same,free]
      simp [past]

theorem stepInv {w w' : World Thread} {e : Event Thread} (h : Inv w) (few : Few w e)
    (next : step w e = some w') : Inv w' := by
  cases e with
  | take t => exact takeInv h (few w' next) next
  | look t => exact lookInv h next
  | unlock t => exact unlockInv h next

theorem ticketOrder {events : List (Event Thread)} {w : World Thread} (few : Guarded step Few start events)
    (ran : run step start events = some w) :
    (∀ t t', w.holds t = true → w.holds t' = true → t = t') ∧
    w.acquired <+: w.taken ∧
    ∀ t, w.ticket t = some w.owner ↔
      (∀ t', w.holds t' = false) ∧ w.taken[w.acquired.length]? = some t := by
  have h : Inv w := guardedInvariant Inv (fun _ _ _ inv few next => stepInv inv few next) startInv few ran
  refine ⟨fun t t' one two => ?_,h.order,fun t => ?_⟩
  · exact Option.some.inj (((h.held t).mp one).2.symm.trans ((h.held t').mp two).2)
  · constructor
    · intro called
      obtain ⟨now,there⟩ := turn h called
      exact ⟨(nobodyHolds h).mpr now,there⟩
    · rintro ⟨free,there⟩
      rw [h.owner,(nobodyHolds h).mp free]
      exact (h.waits t _).mpr ⟨_,Nat.le_refl _,there,rfl⟩

end Keeps

theorem fewBool (w : World Bool) (e : Event Bool) : Few w e := by
  intro w' _
  have two := Set.encard_le_card (s := busy w')
  rw [ENat.card_eq_coe_fintype_card,Fintype.card_bool] at two
  exact two.trans (Nat.cast_le.mpr (by decide : 2 ≤ 65535))

def twoThreads : List (Event Bool) :=
  [.take false,.take true,.look true,.look false,.look true,.unlock false]

theorem ticketOrderTwo :
    ∃ w, run step start twoThreads = some w ∧ w.acquired = [false] ∧ w.acquired <+: w.taken ∧
      ∀ t, w.holds t = false := by
  have facts : (run step start twoThreads).map (fun w => (w.acquired,w.owner,w.ticket true)) =
      some ([false],1,some 1) := by decide
  obtain ⟨w,ran,data⟩ := Option.map_eq_some_iff.mp facts
  simp only [Prod.mk.injEq] at data
  obtain ⟨acquired,owner,ticket⟩ := data
  obtain ⟨_,order,called⟩ := ticketOrder (GuardedRun.guardedAlways fewBool start twoThreads) ran
  exact ⟨w,ran,acquired,order,((called true).mp (by rw [ticket,owner])).1⟩

end Nekros.TicketLock
