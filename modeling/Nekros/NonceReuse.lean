import Nekros.CcProc
import Nekros.GuardedRun

/-! No nonce is used twice under one key. Every encryption of cc_proc.c takes its
nonce from the counter that belongs to its key; a counter only grows, and the call
that would wrap it panics. -/
namespace Nekros.NonceReuse
open Bytes (Byte byteAt)
open Aes (Key)
open CcProc
open GuardedRun (run)

inductive Event where
  | attest (pid : Pid) (task : Option TaskRecord) (score : Byte) (token : Option (List Byte))
      (size : Option (BitVec 32)) (tsc : BitVec 64)
  | checkpoint (task : Option TaskRecord) (out : Option (List Byte)) (size : BitVec 32) (tsc : BitVec 64)
  | sealMemory (va pages : BitVec 64) (data : List Byte) (out : Option (List Byte)) (size : BitVec 32)
      (tsc : BitVec 64)
  | channelCreate (self peer : Pid) (flags : BitVec 32) (fresh : Fresh)
  | send (fd : Int) (buf : Option (List Byte)) (tsc : BitVec 64)
  | recv (fd : Int) (buf : Option (List Byte))

def after {α : Type} (r : Except Stop (State × α)) : Option State :=
  match r with
  | .ok (s,_) => some s
  | .error _ => none

section Runs
variable (hmac : Key → List Byte → Key) (sha256 : List Byte → Key)

def step (s : State) : Event → Option State
  | .attest pid task score token size tsc =>
      after (ccKernelAttestProcess sha256 s pid task score token size tsc)
  | .checkpoint task out size tsc => after (ccKernelCheckpoint s task out size tsc)
  | .sealMemory va pages data out size tsc => after (ccKernelSealMemory s va pages data out size tsc)
  | .channelCreate self peer flags fresh => some (ccIpcChannelCreate hmac s self peer flags fresh).1
  | .send fd buf tsc => after (ccIpcSend s fd buf tsc)
  | .recv fd buf => after (ccIpcRecv s fd buf)

def counterOf : KeyName → Counter
  | .attest => .attest
  | .secureAlloc => .secmem
  | .session _ => .ipc

structure Kept (s t : State) : Prop where
  attestKey : t.attestKey = s.attestKey
  secureAllocKey : t.secureAllocKey = s.secureAllocKey
  sessions : ∀ c ∈ s.channels, ∃ d ∈ t.channels, d.sessionKey = c.sessionKey

theorem keptRefl (s : State) : Kept s s := ⟨rfl,rfl,fun c mem => ⟨c,mem,rfl⟩⟩

def next (s : State) (c : Counter) : BitVec 32 := counter s c + 1

structure Drew (s t : State) (c : Counter) : Prop where
  kept : Kept s t
  fresh : next s c ≠ 0
  counters : ∀ d, counter t d = if d = c then next s c else counter s d
  drawn : t.drawn = s.drawn ++ [⟨c,next s c⟩]

inductive Effect (s t : State) : Prop where
  | quiet (kept : Kept s t) (counters : ∀ c, counter t c = counter s c) (drawn : t.drawn = s.drawn)
      (encryptions : t.encryptions = s.encryptions)
  | wasted (c : Counter) (drew : Drew s t c) (encryptions : t.encryptions = s.encryptions)
  | encrypted (name : KeyName) (tsc : BitVec 64) (drew : Drew s t (counterOf name))
      (encryptions : t.encryptions =
        s.encryptions ++ [⟨name,keyOf s name,nonceOf (next s (counterOf name)) tsc⟩])
      (session : ∀ k, name = .session k → ∃ c ∈ s.channels, c.sessionKey = k)

theorem counterSet (s : State) (c d : Counter) (count : BitVec 32) :
    counter (setCounter s c count) d = if d = c then count else counter s d := by
  cases c <;> cases d <;> rfl

theorem genNonceDrew {s t : State} {c : Counter} {tsc : BitVec 64} {nonce : Aes.Nonce}
    (ok : genNonce s c tsc = .ok (t,nonce)) :
    Drew s t c ∧ t.encryptions = s.encryptions ∧ t.channels = s.channels ∧ nonce = nonceOf (next s c) tsc := by
  rw [genNonce] at ok
  by_cases wrapped : counter s c + 1 = 0
  · rw [if_pos wrapped] at ok
    cases ok
  · rw [if_neg wrapped] at ok
    cases ok
    refine ⟨⟨⟨?_,?_,?_⟩,wrapped,fun d => ?_,rfl⟩,?_,?_,rfl⟩
    · cases c <;> rfl
    · cases c <;> rfl
    · intro d mem
      exact ⟨d,by cases c <;> exact mem,rfl⟩
    · exact counterSet s c d (counter s c + 1)
    · cases c <;> rfl
    · cases c <;> rfl

theorem keyOfKept {s t : State} (kept : Kept s t) (name : KeyName) : keyOf t name = keyOf s name := by
  cases name with
  | attest => exact kept.attestKey
  | secureAlloc => exact kept.secureAllocKey
  | session k => rfl

theorem encryptEffect {s t : State} (name : KeyName) {tsc : BitVec 64} {nonce : Aes.Nonce}
    (ok : genNonce s (counterOf name) tsc = .ok (t,nonce))
    (session : ∀ k, name = .session k → ∃ c ∈ s.channels, c.sessionKey = k) :
    Effect s (record t name nonce) := by
  obtain ⟨drew,same,_,rfl⟩ := genNonceDrew ok
  refine .encrypted name tsc ⟨⟨drew.kept.1,drew.kept.2,drew.kept.3⟩,drew.fresh,drew.counters,drew.drawn⟩ ?_ session
  rw [record,keyOfKept drew.kept name,same]

theorem effectRing {s t : State} (effect : Effect s t) (same : t.channels = s.channels) (i : Nat)
    {c : Channel} (slot : s.channels[i]? = some c) (aToB : Bool) (r : Ring) :
    Effect s (putRing t i c aToB r) := by
  have sessions : ∀ d ∈ s.channels, ∃ e ∈ (putRing t i c aToB r).channels, e.sessionKey = d.sessionKey := by
    intro d mem
    obtain ⟨e,inT,_,_,_,_,key⟩ := putRingKeeps same slot aToB r mem
    exact ⟨e,inT,key⟩
  cases effect with
  | quiet kept counters drawn encryptions =>
      exact .quiet ⟨kept.1,kept.2,sessions⟩ counters drawn encryptions
  | wasted c drew encryptions =>
      exact .wasted c ⟨⟨drew.kept.1,drew.kept.2,sessions⟩,drew.fresh,drew.counters,drew.drawn⟩ encryptions
  | encrypted name tsc drew encryptions session =>
      exact .encrypted name tsc ⟨⟨drew.kept.1,drew.kept.2,sessions⟩,drew.fresh,drew.counters,drew.drawn⟩
        encryptions session

theorem quietRefl (s : State) : Effect s s := .quiet (keptRefl s) (fun _ => rfl) rfl rfl

theorem attestEffect {s t : State} {pid : Pid} {task : Option TaskRecord} {score : Byte}
    {token : Option (List Byte)} {size : Option (BitVec 32)} {tsc : BitVec 64}
    (ok : after (ccKernelAttestProcess sha256 s pid task score token size tsc) = some t) : Effect s t := by
  unfold ccKernelAttestProcess at ok
  split at ok
  · split at ok
    · cases ok
      exact quietRefl s
    · split at ok
      · cases ok
        exact quietRefl s
      · split at ok
        · cases ok
        · rename_i drew
          cases ok
          exact encryptEffect _ drew (fun k none => by cases none)
  · cases ok
    exact quietRefl s

theorem checkpointEffect {s t : State} {task : Option TaskRecord} {out : Option (List Byte)}
    {size : BitVec 32} {tsc : BitVec 64}
    (ok : after (ccKernelCheckpoint s task out size tsc) = some t) : Effect s t := by
  unfold ccKernelCheckpoint at ok
  split at ok
  · dsimp only at ok
    split at ok
    · cases ok
      exact quietRefl s
    · split at ok
      · cases ok
      · rename_i drew
        cases ok
        exact encryptEffect _ drew (fun k none => by cases none)
  · cases ok
    exact quietRefl s

theorem sealEffect {s t : State} {va pages : BitVec 64} {data : List Byte} {out : Option (List Byte)}
    {size : BitVec 32} {tsc : BitVec 64}
    (ok : after (ccKernelSealMemory s va pages data out size tsc) = some t) : Effect s t := by
  unfold ccKernelSealMemory at ok
  split at ok
  · dsimp only at ok
    split at ok
    · cases ok
      exact quietRefl s
    · split at ok
      · cases ok
      · rename_i drew
        cases ok
        exact encryptEffect _ drew (fun k none => by cases none)
  · cases ok
    exact quietRefl s

theorem createEffect (s : State) (self peer : Pid) (flags : BitVec 32) (f : Fresh) :
    Effect s (ccIpcChannelCreate hmac s self peer flags f).1 := by
  rcases createCases hmac s self peer flags f with ⟨n,_,same,_⟩ | ⟨n,a2b,b2a,fd,_,_,_,_,_,made⟩
  · rw [same]
    exact .quiet ⟨rfl,rfl,fun c mem => ⟨c,mem,rfl⟩⟩ (fun c => by cases c <;> rfl) rfl rfl
  · rw [made]
    exact .quiet ⟨rfl,rfl,fun c mem => ⟨c,List.mem_append_left _ mem,rfl⟩⟩
      (fun c => by cases c <;> rfl) rfl rfl

theorem sendEffect {s t : State} {fd : Int} {buf : Option (List Byte)} {tsc : BitVec 64}
    (ok : after (ccIpcSend s fd buf tsc) = some t) : Effect s t := by
  cases sent : ccIpcSend s fd buf tsc with
  | error stop =>
      rw [sent] at ok
      cases ok
  | ok out =>
      obtain ⟨u,rc⟩ := out
      rw [sent] at ok
      cases ok
      rcases sendCases sent with ⟨rfl,_⟩ | ⟨_,nonce,drew⟩ | ⟨payload,i,c,u,nonce,_,_,_,_,slot,drew,_,rfl,_⟩
      · exact quietRefl _
      · obtain ⟨drew,same,_,_⟩ := genNonceDrew drew
        exact .wasted .ipc drew same
      · have member : c ∈ s.channels := List.mem_of_getElem? slot
        have effect : Effect s (record u (.session c.sessionKey) nonce) :=
          encryptEffect (.session c.sessionKey) drew
            (fun k named => ⟨c,member,KeyName.session.inj named⟩)
        exact effectRing effect (genNonceDrew drew).2.2.1 i slot _ _

theorem recvEffect {s t : State} {fd : Int} {buf : Option (List Byte)}
    (ok : after (ccIpcRecv s fd buf) = some t) : Effect s t := by
  rcases recvCases s fd buf with ⟨out,i,c,_,ready,opens⟩ | ⟨_,rc,_,refused⟩
  · rw [opens,openFrame] at ok
    dsimp only at ok
    split at ok
    · cases ok
    · cases ok
      exact effectRing (quietRefl s) rfl i ready.slot _ _
  · rw [refused] at ok
    cases ok
    exact quietRefl s

theorem stepEffect {s t : State} {e : Event} (next : step hmac sha256 s e = some t) : Effect s t := by
  cases e with
  | attest pid task score token size tsc => exact attestEffect sha256 next
  | checkpoint task out size tsc => exact checkpointEffect next
  | sealMemory va pages data out size tsc => exact sealEffect next
  | channelCreate self peer flags fresh =>
      cases next
      exact createEffect hmac s self peer flags fresh
  | send fd buf tsc => exact sendEffect next
  | recv fd buf => exact recvEffect next

theorem nonceOfInjective {a b : BitVec 32} {t u : BitVec 64} (same : nonceOf a t = nonceOf b u) : a = b := by
  apply BitVec.eq_of_getLsbD_eq
  intro i hi
  have place : 3 - i/8 < 12 := by omega
  have byte := congrArg (fun v => v[3 - i/8]) same
  simp only [nonceOf,Vector.getElem_ofFn,if_pos (show 3 - i/8 < 4 by omega)] at byte
  have bit := congrArg (fun b => b.getLsbD (i % 8)) byte
  have back : 24 - 8*(3 - i/8) + i % 8 = i := by omega
  simpa only [Bytes.getLsbDByteAt,back,decide_eq_true (show i % 8 < 8 by omega),Bool.true_and] using bit

structure Inv (s : State) : Prop where
  drawnBelow : ∀ d ∈ s.drawn, d.count.toNat ≤ (counter s d.counter).toNat
  drawnOnce : s.drawn.Nodup
  drawnCount : ∀ c, (s.drawn.filter (·.counter = c)).length = (counter s c).toNat
  usedBelow : ∀ e ∈ s.encryptions, ∃ count tsc, e.iv = nonceOf count tsc ∧
    count.toNat ≤ (counter s (counterOf e.name)).toNat
  usedOnce : s.encryptions.Pairwise fun a b => counterOf a.name = counterOf b.name → a.iv ≠ b.iv
  keys : ∀ e ∈ s.encryptions, e.key = keyOf s e.name
  sessions : ∀ e ∈ s.encryptions, ∀ k, e.name = .session k → ∃ c ∈ s.channels, c.sessionKey = k

theorem nextToNat {s : State} {c : Counter} (fresh : next s c ≠ 0) :
    (next s c).toNat = (counter s c).toNat + 1 := by
  have small : (counter s c).toNat + 1 ≠ 2^32 := by
    intro top
    apply fresh
    apply BitVec.eq_of_toNat_eq
    rw [next,BitVec.toNat_add]
    show ((counter s c).toNat + 1) % 2^32 = 0
    rw [top,Nat.mod_self]
  have below := (counter s c).isLt
  rw [next,BitVec.toNat_add]
  show ((counter s c).toNat + 1) % 2^32 = (counter s c).toNat + 1
  omega

theorem drewGrows {s t : State} {c : Counter} (drew : Drew s t c) (d : Counter) :
    (counter s d).toNat ≤ (counter t d).toNat := by
  rw [drew.counters d]
  split
  · rename_i here
    rw [here,nextToNat drew.fresh]
    omega
  · exact Nat.le_refl _

theorem drewDrawn {s t : State} {c : Counter} (inv : Inv s) (drew : Drew s t c) :
    (∀ d ∈ t.drawn, d.count.toNat ≤ (counter t d.counter).toNat) ∧ t.drawn.Nodup ∧
    ∀ d, (t.drawn.filter (·.counter = d)).length = (counter t d).toNat := by
  have here : counter t c = next s c := by rw [drew.counters c,if_pos rfl]
  refine ⟨?_,?_,?_⟩
  · intro d mem
    rw [drew.drawn,List.mem_append,List.mem_singleton] at mem
    rcases mem with old | rfl
    · exact Nat.le_trans (inv.drawnBelow d old) (drewGrows drew d.counter)
    · exact Nat.le_of_eq (congrArg BitVec.toNat here.symm)
  · rw [drew.drawn,List.nodup_append]
    refine ⟨inv.drawnOnce,List.nodup_singleton _,?_⟩
    rintro d old e new rfl
    rw [List.mem_singleton] at new
    subst new
    have below := inv.drawnBelow _ old
    rw [nextToNat drew.fresh] at below
    exact absurd below (Nat.not_succ_le_self _)
  · intro d
    rw [drew.drawn,List.filter_append,List.length_append,inv.drawnCount d,drew.counters d]
    by_cases same : d = c
    · subst same
      rw [if_pos rfl,nextToNat drew.fresh]
      simp
    · rw [if_neg same]
      simp [Ne.symm same]

theorem usedKept {s t : State} (inv : Inv s) (kept : Kept s t)
    (grows : ∀ c, (counter s c).toNat ≤ (counter t c).toNat) {e : Encryption} (mem : e ∈ s.encryptions) :
    (∃ count tsc, e.iv = nonceOf count tsc ∧ count.toNat ≤ (counter t (counterOf e.name)).toNat) ∧
    e.key = keyOf t e.name ∧ ∀ k, e.name = .session k → ∃ c ∈ t.channels, c.sessionKey = k := by
  obtain ⟨count,tsc,iv,below⟩ := inv.usedBelow e mem
  refine ⟨⟨count,tsc,iv,Nat.le_trans below (grows _)⟩,?_,?_⟩
  · rw [keyOfKept kept]
    exact inv.keys e mem
  · intro k named
    obtain ⟨c,member,same⟩ := inv.sessions e mem k named
    obtain ⟨d,kept,equal⟩ := kept.sessions c member
    exact ⟨d,kept,equal.trans same⟩

theorem effectInv {s t : State} (inv : Inv s) (effect : Effect s t) : Inv t := by
  cases effect with
  | quiet kept counters drawn encryptions =>
      have used := fun e mem => usedKept inv kept (fun c => by rw [counters c]) (e := e) mem
      refine ⟨?_,by rw [drawn]; exact inv.drawnOnce,?_,?_,by rw [encryptions]; exact inv.usedOnce,?_,?_⟩
      · intro d mem
        rw [drawn] at mem
        rw [counters]
        exact inv.drawnBelow d mem
      · intro c
        rw [drawn,counters]
        exact inv.drawnCount c
      all_goals
        intro e mem
        rw [encryptions] at mem
      · exact (used e mem).1
      · exact (used e mem).2.1
      · exact (used e mem).2.2
  | wasted c drew encryptions =>
      have used := fun e mem => usedKept inv drew.kept (drewGrows drew) (e := e) mem
      obtain ⟨below,once,count⟩ := drewDrawn inv drew
      refine ⟨below,once,count,?_,by rw [encryptions]; exact inv.usedOnce,?_,?_⟩
      all_goals
        intro e mem
        rw [encryptions] at mem
      · exact (used e mem).1
      · exact (used e mem).2.1
      · exact (used e mem).2.2
  | encrypted name tsc drew encryptions session =>
      have used := fun e mem => usedKept inv drew.kept (drewGrows drew) (e := e) mem
      have here : counter t (counterOf name) = next s (counterOf name) := by
        rw [drew.counters,if_pos rfl]
      obtain ⟨below,once,count⟩ := drewDrawn inv drew
      refine ⟨below,once,count,?_,?_,?_,?_⟩
      · intro e mem
        rw [encryptions,List.mem_append,List.mem_singleton] at mem
        rcases mem with old | rfl
        · exact (used e old).1
        · exact ⟨_,tsc,rfl,Nat.le_of_eq (congrArg BitVec.toNat here.symm)⟩
      · rw [encryptions,List.pairwise_append]
        refine ⟨inv.usedOnce,List.pairwise_singleton _ _,?_⟩
        rintro e old f new same
        rw [List.mem_singleton] at new
        subst new
        -- the new count is above every count this counter has given
        obtain ⟨count,u,iv,below⟩ := inv.usedBelow e old
        intro equal
        rw [iv] at equal
        have counts := nonceOfInjective equal
        rw [same,counts,nextToNat drew.fresh] at below
        exact absurd below (Nat.not_succ_le_self _)
      · intro e mem
        rw [encryptions,List.mem_append,List.mem_singleton] at mem
        rcases mem with old | rfl
        · exact (used e old).2.1
        · exact (keyOfKept drew.kept name).symm
      · intro e mem k named
        rw [encryptions,List.mem_append,List.mem_singleton] at mem
        rcases mem with old | rfl
        · exact (used e old).2.2 k named
        · obtain ⟨c,member,same⟩ := session k named
          obtain ⟨d,kept,equal⟩ := drew.kept.sessions c member
          exact ⟨d,kept,equal.trans same⟩

theorem initInv (low : Nat → Byte) (fingerprint : Key) (tsc : BitVec 64) :
    Inv (ccProcInit hmac (boot low) fingerprint tsc) := by
  refine ⟨?_,List.nodup_nil,fun c => by cases c <;> rfl,?_,List.Pairwise.nil,?_,?_⟩
  all_goals
    intro x mem
    cases mem

theorem runInv {low : Nat → Byte} {fingerprint : Key} {tsc : BitVec 64} {events : List Event} {s : State}
    (ran : run (step hmac sha256) (ccProcInit hmac (boot low) fingerprint tsc) events = some s) : Inv s := by
  exact GuardedRun.runInvariant Inv (fun s e t inv next => effectInv inv (stepEffect hmac sha256 next))
    (initInv hmac low fingerprint tsc) ran

theorem noNonceReuse {low : Nat → Byte} {fingerprint : Key} {tsc : BitVec 64} {events : List Event}
    {s : State}
    (ran : run (step hmac sha256) (ccProcInit hmac (boot low) fingerprint tsc) events = some s) :
    (s.encryptions.Pairwise fun a b => a.name = b.name → a.iv ≠ b.iv) ∧
    (s.attestKey ≠ s.secureAllocKey →
      (∀ c ∈ s.channels, c.sessionKey ≠ s.attestKey ∧ c.sessionKey ≠ s.secureAllocKey) →
      s.encryptions.Pairwise fun a b => a.key = b.key → a.iv ≠ b.iv) ∧
    s.drawn.Nodup ∧ (∀ c, (s.drawn.filter (·.counter = c)).length = (counter s c).toNat) := by
  have inv := runInv hmac sha256 ran
  refine ⟨inv.usedOnce.imp fun once same => once (congrArg counterOf same),?_,inv.drawnOnce,inv.drawnCount⟩
  intro apart sessions
  refine inv.usedOnce.imp_of_mem ?_
  rintro a b inA inB once same
  apply once
  have keyA := inv.keys a inA
  have keyB := inv.keys b inB
  have noSession : ∀ e ∈ s.encryptions, ∀ k, e.name = .session k → k ≠ s.attestKey ∧ k ≠ s.secureAllocKey := by
    intro e mem k named
    obtain ⟨c,member,rfl⟩ := inv.sessions e mem k named
    exact sessions c member
  rw [keyA,keyB] at same
  cases nameA : a.name with
  | attest =>
      cases nameB : b.name with
      | attest => rfl
      | secureAlloc => rw [nameA,nameB] at same; exact absurd same apart
      | session k => rw [nameA,nameB] at same; exact absurd same.symm (noSession b inB k nameB).1
  | secureAlloc =>
      cases nameB : b.name with
      | attest => rw [nameA,nameB] at same; exact absurd same.symm apart
      | secureAlloc => rfl
      | session k => rw [nameA,nameB] at same; exact absurd same.symm (noSession b inB k nameB).2
  | session k =>
      cases nameB : b.name with
      | attest => rw [nameA,nameB] at same; exact absurd same (noSession a inA k nameA).1
      | secureAlloc => rw [nameA,nameB] at same; exact absurd same (noSession a inA k nameA).2
      | session k' => rfl

end Runs

def twoSends : List Event :=
  [.channelCreate 1 2 0 ⟨true,true,fun _ => 0,fun _ => 0,0,0⟩,.send 100 (some [1]) 5,.send 101 (some [2]) 5]

theorem twoSendsRun :
    (run (step plainHmac plainSha) plainInit twoSends).map (fun s => s.encryptions.length) = some 2 := by
  decide +kernel

theorem noNonceReuseTwoSends : ∃ s : State,
    run (step plainHmac plainSha) plainInit twoSends = some s ∧ s.encryptions.length = 2 ∧
    s.encryptions.Pairwise fun a b => a.name = b.name → a.iv ≠ b.iv := by
  obtain ⟨s,ran,two⟩ := Option.map_eq_some_iff.mp twoSendsRun
  exact ⟨s,ran,two,(noNonceReuse plainHmac plainSha ran).1⟩

end Nekros.NonceReuse
