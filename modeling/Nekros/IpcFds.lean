import Nekros.CcProc
import Nekros.GuardedRun

/-! The channel table of drivers/cortexcrypto/core/cc_proc.c with cc_ipc_close: a slot is
empty while its record is not active, and is used again. `cc` holds the other statics,
its list of channels aside. Both rings of a channel come from the window of vmm_alloc,
which never takes anything back. `issued` records every descriptor handed out. -/
namespace Nekros.IpcFds
open Errno
open Bytes (Byte)
open Aes (Key)
open CcProc
open GuardedRun (run runInvariant)

structure World where
  cc : State
  slots : List (Option Channel)
  issued : List Int

def freeSlot (slots : List (Option Channel)) : Option Nat := slots.findIdx? Option.isNone

def names (fd : Int) : Option Channel → Bool
  | none => false
  | some c => c.fdA == fd || c.fdB == fd

def slotOf (slots : List (Option Channel)) (fd : Int) : Option Nat := slots.findIdx? (names fd)

section Keyed
variable (hmac : Key → List Byte → Key)

def ccIpcChannelCreate (w : World) (self peer : Pid) (flags : BitVec 32) (f : Fresh) : World × Int :=
  if !w.cc.ready then (w,-enodev)
  else
    match freeSlot w.slots with
    | none => (w,-enomem)
    | some i =>
        let (cc,a2b) := vmmAlloc w.cc ipcRingPages f.backedA2b
        let (cc,b2a) := vmmAlloc cc ipcRingPages f.backedB2a
        match a2b,b2a with
        | some a2b,some b2a =>
            let sessionKey := hmac cc.ipcKey (skInput self peer f)
            let nextFd := if cc.nextFd > 0x7FFFFF00 then 100 else cc.nextFd
            let ch : Channel := ⟨self,peer,flags,sessionKey,⟨a2b,f.a2b,0,0⟩,⟨b2a,f.b2a,0,0⟩,nextFd,nextFd + 1⟩
            (⟨{cc with nextFd := nextFd + 2},w.slots.set i (some ch),w.issued ++ [nextFd,nextFd + 1]⟩,nextFd)
        | _,_ => ({w with cc := cc},-enomem)

def ccIpcClose (w : World) (fd : Int) : World :=
  match slotOf w.slots fd with
  | none => w
  | some i => {w with slots := w.slots.set i none}

inductive Event where
  | create (self peer : Pid) (flags : BitVec 32) (fresh : Fresh)
  | close (fd : Int)

def step (w : World) : Event → Option World
  | .create self peer flags fresh => some (ccIpcChannelCreate hmac w self peer flags fresh).1
  | .close fd => some (ccIpcClose w fd)

end Keyed

structure Start where
  cc : State
  fresh : cc.nextFd = 100
  window : 0xFFFF000000000000 ≤ cc.vmallocNext ∧ cc.vmallocNext ≤ 0xFFFF008000000000

def Start.world (s : Start) : World := ⟨s.cc,List.replicate maxIpcChannels none,[]⟩

def Active (w : World) (i : Nat) (c : Channel) : Prop := w.slots[i]? = some (some c)

structure Unique (w : World) : Prop where
  distinct : ∀ i j c d, Active w i c → Active w j d → ∀ fd, (fd = c.fdA ∨ fd = c.fdB) →
    (fd = d.fdA ∨ fd = d.fdB) → i = j
  ends : ∀ i c, Active w i c → c.fdA ≠ c.fdB
  found : ∀ i c, Active w i c → slotOf w.slots c.fdA = some i ∧ slotOf w.slots c.fdB = some i
  once : w.issued.Nodup
  known : ∀ i c, Active w i c → c.fdA ∈ w.issued ∧ c.fdB ∈ w.issued

/- Channel `k`, counted from 0 over the whole run, has descriptors 100 + 2k and 101 + 2k.
Each channel has cost eight pages of the window, so there were never enough of them to
bring the counter to its limit. -/
structure Counted (w : World) (made : Nat) : Prop where
  window : 0xFFFF000000000000 + 0x8000 * made ≤ w.cc.vmallocNext
  bound : w.cc.vmallocNext ≤ 0xFFFF008000000000
  next : w.cc.nextFd = 100 + 2 * (made : Int)
  issued : w.issued = (List.range (2 * made)).map (fun n : Nat => 100 + (n : Int))
  numbered : ∀ i c, Active w i c → ∃ k < made, c.fdA = 100 + 2 * (k : Int) ∧ c.fdB = 101 + 2 * (k : Int)
  apart : ∀ i j c d, Active w i c → Active w j d → c.fdA = d.fdA → i = j

theorem startCounted (s : Start) : Counted s.world 0 := by
  have none : ∀ i c, ¬ Active s.world i c := fun i c active => by
    cases List.eq_of_mem_replicate (List.mem_of_getElem? active)
  exact ⟨by have := s.window.1; exact this,s.window.2,s.fresh,rfl,fun i c active => absurd active (none i c),
    fun i j c d active => absurd active (none i c)⟩

theorem ringTaken {s t : State} {backed : Bool} {base : Option Nat} (bound : s.vmallocNext ≤ 0xFFFF008000000000)
    (got : vmmAlloc s ipcRingPages backed = (t,base)) :
    ∃ v, t = {s with vmallocNext := v} ∧ s.vmallocNext ≤ v ∧ v ≤ 0xFFFF008000000000 ∧
      (base ≠ none → v = s.vmallocNext + 0x4000) := by
  have few : ipcRingPages ≤ 4096 := by decide
  rcases vmmAllocCases few backed bound with nothing | ⟨room,taken⟩
  · cases nothing.symm.trans got
    exact ⟨s.vmallocNext,rfl,Nat.le_refl _,bound,fun more => absurd rfl more⟩
  · cases taken.symm.trans got
    exact ⟨_,rfl,Nat.le_add_right _ _,room,fun _ => rfl⟩

structure Created (w w' : World) (i : Nat) (c : Channel) : Prop where
  free : w.slots[i]? = some none
  room : w.cc.vmallocNext + 0x8000 ≤ 0xFFFF008000000000
  window : w'.cc.vmallocNext = w.cc.vmallocNext + 0x8000
  first : c.fdA = if w.cc.nextFd > 0x7FFFFF00 then 100 else w.cc.nextFd
  second : c.fdB = c.fdA + 1
  next : w'.cc.nextFd = c.fdA + 2
  slots : w'.slots = w.slots.set i (some c)
  issued : w'.issued = w.issued ++ [c.fdA,c.fdB]

theorem freeSlotCases {slots : List (Option Channel)} {i : Nat} (h : freeSlot slots = some i) :
    slots[i]? = some none := by
  obtain ⟨inside,empty,_⟩ := List.findIdx?_eq_some_iff_getElem.mp h
  rw [List.getElem?_eq_getElem inside,Option.isNone_iff_eq_none.mp empty]

theorem createCases {hmac : Key → List Byte → Key} {w : World} (self peer : Pid) (flags : BitVec 32) (f : Fresh)
    (bound : w.cc.vmallocNext ≤ 0xFFFF008000000000) :
    (∃ v, w.cc.vmallocNext ≤ v ∧ v ≤ 0xFFFF008000000000 ∧
      (ccIpcChannelCreate hmac w self peer flags f).1 = {w with cc := {w.cc with vmallocNext := v}}) ∨
    ∃ i c, Created w (ccIpcChannelCreate hmac w self peer flags f).1 i c := by
  rcases gotA : vmmAlloc w.cc ipcRingPages f.backedA2b with ⟨u,a2b⟩
  obtain ⟨v,rfl,up,below,four⟩ := ringTaken bound gotA
  rcases gotB : vmmAlloc {w.cc with vmallocNext := v} ipcRingPages f.backedB2a with ⟨u',b2a⟩
  obtain ⟨v',rfl,up',below',four'⟩ := ringTaken below gotB
  -- the allocator stays closed: only its two answers matter
  obtain ⟨alloc,same⟩ : ∃ alloc, alloc = vmmAlloc := ⟨_,rfl⟩
  unfold ccIpcChannelCreate
  rw [← same] at gotA gotB ⊢
  split
  · exact .inl ⟨_,Nat.le_refl _,bound,rfl⟩
  split
  · exact .inl ⟨_,Nat.le_refl _,bound,rfl⟩
  rename_i i found
  rw [gotA]
  dsimp only
  rw [gotB]
  dsimp only
  split
  · rename_i a b
    have first := four (Option.some_ne_none a)
    have second : v' = v + 0x4000 := four' (Option.some_ne_none b)
    have both : v' = w.cc.vmallocNext + 0x8000 := by omega
    exact .inr ⟨i,_,freeSlotCases found,by rw [← both]; exact below',both,rfl,rfl,rfl,rfl,rfl⟩
  · exact .inl ⟨v',Nat.le_trans up up',below',rfl⟩

theorem activeSet {w w' : World} {i j : Nat} {x : Option Channel} {c : Channel}
    (slots : w'.slots = w.slots.set i x) (h : Active w' j c) : (j = i ∧ x = some c) ∨ (j ≠ i ∧ Active w j c) := by
  unfold Active at h
  rw [slots,List.getElem?_set] at h
  by_cases same : i = j
  · subst same
    rw [if_pos rfl] at h
    split at h
    · exact .inl ⟨rfl,Option.some.inj h⟩
    · cases h
  · rw [if_neg same] at h
    exact .inr ⟨fun e => same e.symm,h⟩

theorem createCounted {w w' : World} {made i : Nat} {c : Channel} (h : Counted w made) (new : Created w w' i c) :
    Counted w' (made + 1) := by
  have window := h.window
  have room := new.room
  have next := h.next
  -- the window holds 2^24 channels
  have few : made < 0x1000000 := by omega
  have first : c.fdA = 100 + 2 * (made : Int) := by
    rw [new.first,if_neg (by omega),next]
  have second := new.second
  have old : ∀ j d, Active w j d → d.fdA ≠ c.fdA := by
    intro j d active same
    obtain ⟨k,less,number,_⟩ := h.numbered j d active
    omega
  refine ⟨?_,?_,?_,?_,?_,?_⟩
  · rw [new.window,Nat.mul_succ,← Nat.add_assoc]
    exact Nat.add_le_add_right window _
  · rw [new.window]
    exact room
  · rw [new.next,first]
    omega
  · have both : c.fdB = 100 + ((2 * made + 1 : Nat) : Int) := by omega
    have even : c.fdA = 100 + ((2 * made : Nat) : Int) := by omega
    have double : 2 * (made + 1) = 2 * made + 1 + 1 := by omega
    rw [new.issued,h.issued,both,even,double,List.range_succ,List.range_succ,List.map_append,List.map_append,
      List.append_assoc]
    rfl
  · intro j d active
    rcases activeSet new.slots active with ⟨_,same⟩ | ⟨_,active⟩
    · cases Option.some.inj same
      exact ⟨made,Nat.lt_succ_self _,first,by omega⟩
    · obtain ⟨k,less,numbers⟩ := h.numbered j d active
      exact ⟨k,by omega,numbers⟩
  · intro j j' d d' active active' same
    rcases activeSet new.slots active with ⟨rfl,here⟩ | ⟨_,active⟩ <;>
      rcases activeSet new.slots active' with ⟨rfl,here'⟩ | ⟨_,active'⟩
    · rfl
    · cases Option.some.inj here
      exact absurd same.symm (old _ _ active')
    · cases Option.some.inj here'
      exact absurd same (old _ _ active)
    · exact h.apart j j' d d' active active' same

theorem closeCounted {w : World} {made : Nat} (fd : Int) (h : Counted w made) : Counted (ccIpcClose w fd) made := by
  unfold ccIpcClose
  cases slotOf w.slots fd with
  | none => exact h
  | some i =>
      have kept : ∀ j c, Active {w with slots := w.slots.set i none} j c → Active w j c := by
        intro j c active
        rcases activeSet (w := w) rfl active with ⟨_,none⟩ | ⟨_,active⟩
        · cases none
        · exact active
      exact ⟨h.window,h.bound,h.next,h.issued,fun j c active => h.numbered j c (kept j c active),
        fun j j' c d active active' => h.apart j j' c d (kept j c active) (kept j' d active')⟩

def Inv (w : World) : Prop := ∃ made, Counted w made

theorem stepInv {hmac : Key → List Byte → Key} (w : World) (e : Event) (w' : World) (inv : Inv w)
    (stepped : step hmac w e = some w') : Inv w' := by
  obtain ⟨made,h⟩ := inv
  cases e with
  | create self peer flags f =>
      cases Option.some.inj stepped
      rcases createCases self peer flags f h.bound with ⟨v,le,bound,same⟩ | ⟨i,c,new⟩
      · rw [same]
        exact ⟨made,Nat.le_trans h.window le,bound,h.next,h.issued,h.numbered,h.apart⟩
      · exact ⟨made + 1,createCounted h new⟩
  | close fd =>
      cases Option.some.inj stepped
      exact ⟨made,closeCounted fd h⟩

theorem slotOfActive {w : World} {i : Nat} {c : Channel} {fd : Int} (active : Active w i c)
    (own : names fd (some c) = true)
    (alone : ∀ j d, Active w j d → names fd (some d) = true → j = i) : slotOf w.slots fd = some i := by
  obtain ⟨inside,here⟩ := List.getElem?_eq_some_iff.mp active
  refine List.findIdx?_eq_some_iff_getElem.mpr ⟨inside,by rw [here]; exact own,fun j before named => ?_⟩
  have within : j < w.slots.length := Nat.lt_trans before inside
  cases slot : w.slots[j] with
  | none =>
      rw [slot] at named
      cases named
  | some d =>
      rw [slot] at named
      have found : Active w j d := by rw [Active,List.getElem?_eq_getElem within,slot]
      have := alone j d found named
      omega

theorem countedUnique {w : World} {made : Nat} (h : Counted w made) : Unique w := by
  have distinct : ∀ i j c d, Active w i c → Active w j d → ∀ fd, (fd = c.fdA ∨ fd = c.fdB) →
      (fd = d.fdA ∨ fd = d.fdB) → i = j := by
    intro i j c d active active' fd own own'
    obtain ⟨k,_,first,second⟩ := h.numbered i c active
    obtain ⟨k',_,first',second'⟩ := h.numbered j d active'
    exact h.apart i j c d active active' (by omega)
  have named : ∀ fd (c : Channel), names fd (some c) = true ↔ fd = c.fdA ∨ fd = c.fdB := by
    intro fd c
    rw [names,Bool.or_eq_true,beq_iff_eq,beq_iff_eq,eq_comm,eq_comm (a := c.fdB)]
  refine ⟨distinct,?_,?_,?_,?_⟩
  · intro i c active
    obtain ⟨k,_,first,second⟩ := h.numbered i c active
    omega
  · intro i c active
    refine ⟨slotOfActive active ((named _ _).mpr (.inl rfl)) fun j d active' own => ?_,
      slotOfActive active ((named _ _).mpr (.inr rfl)) fun j d active' own => ?_⟩
    · exact distinct j i d c active' active _ ((named _ _).mp own) (.inl rfl)
    · exact distinct j i d c active' active _ ((named _ _).mp own) (.inr rfl)
  · rw [h.issued]
    refine List.Nodup.map (fun a b same => ?_) List.nodup_range
    omega
  · intro i c active
    obtain ⟨k,less,first,second⟩ := h.numbered i c active
    rw [h.issued]
    exact ⟨List.mem_map.mpr ⟨2 * k,List.mem_range.mpr (by omega),by omega⟩,
      List.mem_map.mpr ⟨2 * k + 1,List.mem_range.mpr (by omega),by omega⟩⟩

theorem fdsUnique (hmac : Key → List Byte → Key) (s : Start) (events : List Event) (w : World)
    (ran : run (step hmac) s.world events = some w) : Unique w := by
  obtain ⟨made,h⟩ := runInvariant Inv stepInv ⟨0,startCounted s⟩ ran
  exact countedUnique h

def plainStart : Start := ⟨plainInit,by decide,by decide⟩

def backed : Fresh := ⟨true,true,fun _ => 0,fun _ => 0,0,0⟩

theorem fdsUniqueReused : ∃ w, run (step plainHmac) plainStart.world
    [.create 1 2 0 backed,.create 3 4 0 backed,.close 100,.create 5 6 0 backed] = some w ∧ Unique w ∧
    w.issued = [100,101,102,103,104,105] ∧ slotOf w.slots 104 = some 0 ∧ slotOf w.slots 100 = none := by
  have ends : (run (step plainHmac) plainStart.world
      [.create 1 2 0 backed,.create 3 4 0 backed,.close 100,.create 5 6 0 backed]).map
      (fun w => (w.issued,slotOf w.slots 104,slotOf w.slots 100)) =
      some ([100,101,102,103,104,105],some 0,none) := by
    decide +kernel
  obtain ⟨w,ran,data⟩ := Option.map_eq_some_iff.mp ends
  injection data with issued slots
  injection slots with reused closed
  exact ⟨w,ran,fdsUnique plainHmac plainStart _ w ran,issued,reused,closed⟩

theorem neverRecycled (hmac : Key → List Byte → Key) (s : Start) (events : List Event) (w : World)
    (ran : run (step hmac) s.world events = some w) : w.cc.nextFd ≤ 0x7FFFFF00 := by
  obtain ⟨made,h⟩ := runInvariant Inv stepInv ⟨0,startCounted s⟩ ran
  have next := h.next
  have window := h.window
  have bound := h.bound
  omega

def table (channels : List Channel) : List (Option Channel) :=
  channels.map some ++ List.replicate (maxIpcChannels - channels.length) none

theorem freeSlotTable {channels : List Channel} (h : channels.length < maxIpcChannels) :
    freeSlot (table channels) = some channels.length := by
  obtain ⟨rest,more⟩ : ∃ rest, maxIpcChannels - channels.length = rest + 1 :=
    ⟨maxIpcChannels - channels.length - 1,by omega⟩
  have taken : (channels.map some).findIdx? Option.isNone = none := by
    rw [List.findIdx?_eq_none_iff]
    intro slot member
    obtain ⟨c,_,rfl⟩ := List.mem_map.mp member
    rfl
  rw [freeSlot,table,more,List.replicate_succ,List.findIdx?_append,taken,List.findIdx?_cons]
  simp

theorem freeSlotFull {channels : List Channel} (h : maxIpcChannels ≤ channels.length) :
    freeSlot (table channels) = none := by
  rw [freeSlot,table,Nat.sub_eq_zero_of_le h,List.replicate_zero,List.append_nil,List.findIdx?_eq_none_iff]
  intro slot member
  obtain ⟨c,_,rfl⟩ := List.mem_map.mp member
  rfl

theorem tableSet {channels : List Channel} (h : channels.length < maxIpcChannels) (c : Channel) :
    (table channels).set channels.length (some c) = table (channels ++ [c]) := by
  obtain ⟨rest,more⟩ : ∃ rest, maxIpcChannels - channels.length = rest + 1 :=
    ⟨maxIpcChannels - channels.length - 1,by omega⟩
  have left : maxIpcChannels - (channels ++ [c]).length = rest := by
    rw [List.length_append,List.length_singleton]
    omega
  rw [table,table,more,left,List.replicate_succ,List.set_append_right _ _ (by rw [List.length_map])]
  simp

theorem createAgrees (hmac : Key → List Byte → Key) (s : State) (issued : List Int) (self peer : Pid)
    (flags : BitVec 32) (f : Fresh) :
    let made := ccIpcChannelCreate hmac ⟨s,table s.channels,issued⟩ self peer flags f
    let listed := CcProc.ccIpcChannelCreate hmac s self peer flags f
    made.2 = listed.2 ∧ made.1.slots = table listed.1.channels ∧
      {made.1.cc with channels := listed.1.channels} = listed.1 := by
  obtain ⟨m,first,_⟩ := vmmAllocSame s ipcRingPages f.backedA2b
  rcases gotA : vmmAlloc s ipcRingPages f.backedA2b with ⟨s1,a2b⟩
  obtain ⟨n,second,_⟩ := vmmAllocSame s1 ipcRingPages f.backedB2a
  rcases gotB : vmmAlloc s1 ipcRingPages f.backedB2a with ⟨s2,b2a⟩
  rw [gotA] at first
  rw [gotB] at second
  dsimp only at first second
  subst first
  subst second
  obtain ⟨alloc,same⟩ : ∃ alloc, alloc = vmmAlloc := ⟨_,rfl⟩
  unfold ccIpcChannelCreate CcProc.ccIpcChannelCreate
  rw [← same] at gotA gotB ⊢
  dsimp only
  by_cases ready : (!s.ready) = true
  · rw [if_pos ready,if_pos ready]
    exact ⟨rfl,rfl,rfl⟩
  rw [if_neg ready,if_neg ready]
  by_cases full : maxIpcChannels ≤ s.channels.length
  · rw [if_pos full,freeSlotFull full]
    exact ⟨rfl,rfl,rfl⟩
  have room := Nat.not_le.mp full
  rw [if_neg full,freeSlotTable room]
  dsimp only
  rw [gotA]
  dsimp only
  rw [gotB]
  cases a2b with
  | none => exact ⟨rfl,rfl,rfl⟩
  | some a =>
      cases b2a with
      | none => exact ⟨rfl,rfl,rfl⟩
      | some b => exact ⟨rfl,tableSet room _,rfl⟩

end Nekros.IpcFds
