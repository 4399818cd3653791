import Nekros.IpcRuns

/-! Who can use a channel. The system calls nk_ipc_channel, nk_ipc_send and nk_ipc_recv
hand a descriptor to cc_proc.c, which looks it up among all channels and never asks
who is calling. -/
namespace Nekros.IpcEndpoints
open Bytes (Byte)
open Aes (Key)
open CcProc IpcRuns
open Syscall (uptrValid low32)
open GuardedRun (run Guarded Along)

def intOf (fd : BitVec 64) : Int := (fd.setWidth 32).toInt

def sysNkIpcChannel (hmac : Key → List Byte → Key) (w : World) (caller : Option Pid) (peer flags : BitVec 64)
    (f : Fresh) : Option World :=
  match caller with
  | none => if w.stopped then none else some w
  | some self => create hmac w self (peer.setWidth 32) (flags.setWidth 32) f

def sysNkIpcSend (w : World) (caller : Pid) (fd : BitVec 64) (buf : Nat) (payload : List Byte)
    (tsc : BitVec 64) : Option World :=
  if w.stopped then none
  else if !uptrValid buf payload.length then some w
  else if payload.length = 0 ∨ payload.length > 65536 then some w
  else send w caller (intOf fd) (some payload) tsc

def sysNkIpcRecv (w : World) (caller : Pid) (fd : BitVec 64) (buf : Nat) (out : List Byte) : Option World :=
  if w.stopped then none
  else if !uptrValid buf out.length then some w
  else recv w caller (intOf fd) (some out)

inductive Event where
  | channel (caller : Option Pid) (peer flags : BitVec 64) (fresh : Fresh)
  | send (caller : Pid) (fd : BitVec 64) (buf : Nat) (payload : List Byte) (tsc : BitVec 64)
  | recv (caller : Pid) (fd : BitVec 64) (buf : Nat) (out : List Byte)

def step (hmac : Key → List Byte → Key) (w : World) : Event → Option World
  | .channel caller peer flags fresh => sysNkIpcChannel hmac w caller peer flags fresh
  | .send caller fd buf payload tsc => sysNkIpcSend w caller fd buf payload tsc
  | .recv caller fd buf out => sysNkIpcRecv w caller fd buf out

def Endpoint (s : State) (m : Message) : Prop :=
  ∃ c ∈ s.channels, (c.fdA = m.fd ∨ c.fdB = m.fd) ∧ (m.caller = c.pidA ∨ m.caller = c.pidB)

def EndpointsOnly (w : World) : Prop :=
  (∀ m ∈ w.delivered, Endpoint w.cc m) ∧ ∀ m ∈ w.accepted, Endpoint w.cc m

structure Admits (w : World) (fd : Int) (buf : Nat) (payload : List Byte) (i : Nat) (c : Channel) : Prop where
  running : w.stopped = false
  user : uptrValid buf payload.length = true
  nonempty : 0 < payload.length
  fits : payload.length ≤ ipcRingBytes / 2
  found : channelOf w.cc fd = some i
  slot : w.cc.channels[i]? = some c
  fresh : w.cc.ipcCtr + 1 ≠ 0
  room : low32 ((c.ring (c.fdA == fd)).tail + frameSize payload.length) ≤ ipcRingBytes

def FromEndpoint (w : World) : Event → Prop
  | .send caller fd buf payload _ => ∀ i c, Admits w (intOf fd) buf payload i c →
      caller = c.pidA ∨ caller = c.pidB
  | _ => True

def KeepsEnds (s t : State) : Prop :=
  ∀ c ∈ s.channels, ∃ d ∈ t.channels, d.fdA = c.fdA ∧ d.fdB = c.fdB ∧ d.pidA = c.pidA ∧ d.pidB = c.pidB

theorem endpointKept {s t : State} (keeps : KeepsEnds s t) {m : Message} (is : Endpoint s m) : Endpoint t m := by
  obtain ⟨c,mem,fds,pids⟩ := is
  obtain ⟨d,inT,fdA,fdB,pidA,pidB⟩ := keeps c mem
  exact ⟨d,inT,by rw [fdA,fdB]; exact fds,by rw [pidA,pidB]; exact pids⟩

theorem sameEnds {s t : State} (same : SameIpc s t) : KeepsEnds s t := by
  intro c mem
  exact ⟨c,by rw [same.channels]; exact mem,rfl,rfl,rfl,rfl⟩

theorem createEnds (hmac : Key → List Byte → Key) (s : State) (self peer : Pid) (flags : BitVec 32) (f : Fresh) :
    KeepsEnds s (ccIpcChannelCreate hmac s self peer flags f).1 := by
  intro c mem
  rcases createCases hmac s self peer flags f with ⟨n,_,same,_⟩ | ⟨n,a2b,b2a,fd,_,_,_,_,_,made⟩
  · rw [same]
    exact ⟨c,mem,rfl,rfl,rfl,rfl⟩
  · rw [made]
    exact ⟨c,List.mem_append_left _ mem,rfl,rfl,rfl,rfl⟩

theorem slotEnds {s t : State} (same : SameIpc s t) {i : Nat} {c : Channel} (slot : s.channels[i]? = some c)
    (aToB : Bool) (r : Ring) : ∃ d, (putRing t i c aToB r).channels[i]? = some d ∧
      d.fdA = c.fdA ∧ d.fdB = c.fdB ∧ d.pidA = c.pidA ∧ d.pidB = c.pidB := by
  have after := putRingAt same.channels slot aToB r i
  rw [if_pos rfl] at after
  refine ⟨_,after,?_⟩
  cases aToB <;> exact ⟨rfl,rfl,rfl,rfl⟩

theorem storedEnds {s t : State} (same : SameIpc s t) {i : Nat} {c : Channel} (slot : s.channels[i]? = some c)
    (aToB : Bool) (r : Ring) : KeepsEnds s (putRing t i c aToB r) := by
  intro d mem
  obtain ⟨e,inT,fdA,fdB,pidA,pidB,_⟩ := putRingKeeps same.channels slot aToB r mem
  exact ⟨e,inT,fdA,fdB,pidA,pidB⟩

def EndInv (w : World) : Prop := (w.stopped = true ∨ Inv w) ∧ EndpointsOnly w

theorem invRunning {w : World} (inv : EndInv w) (running : ¬ w.stopped = true) : Inv w :=
  inv.1.resolve_left running

theorem keptOnly {w v : World} (only : EndpointsOnly w) (keeps : KeepsEnds w.cc v.cc)
    (delivered : v.delivered = w.delivered) (accepted : v.accepted = w.accepted) : EndpointsOnly v := by
  rw [EndpointsOnly,delivered,accepted]
  exact ⟨fun m mem => endpointKept keeps (only.1 m mem),fun m mem => endpointKept keeps (only.2 m mem)⟩

theorem channelKeeps {hmac : Key → List Byte → Key} {w v : World} {caller : Option Pid}
    {peer flags : BitVec 64} {f : Fresh} (inv : EndInv w)
    (next : sysNkIpcChannel hmac w caller peer flags f = some v) : EndInv v := by
  cases caller with
  | none =>
      rw [sysNkIpcChannel] at next
      split at next
      · cases next
      · cases next
        exact inv
  | some self =>
      rw [sysNkIpcChannel] at next
      by_cases stopped : w.stopped = true
      · rw [create,if_pos stopped] at next
        cases next
      · have kept := createKeeps (invRunning inv stopped) next
        rw [create,if_neg stopped] at next
        cases next
        exact ⟨.inr kept,keptOnly inv.2 (createEnds hmac w.cc self _ _ f) rfl rfl⟩

theorem sendEndKeeps {w v : World} {caller : Pid} {fd : BitVec 64} {buf : Nat} {payload : List Byte}
    {tsc : BitVec 64} (inv : EndInv w)
    (guard : ∀ i c, Admits w (intOf fd) buf payload i c → caller = c.pidA ∨ caller = c.pidB)
    (next : sysNkIpcSend w caller fd buf payload tsc = some v) : EndInv v := by
  rw [sysNkIpcSend] at next
  split at next
  · cases next
  · rename_i stopped
    split at next
    · cases next
      exact inv
    · rename_i user
      split at next
      · cases next
        exact inv
      · have running := invRunning inv stopped
        refine ⟨.inr (sendKeeps running next),?_⟩
        rcases sentCases next with ⟨cc,same,rfl⟩ |
          ⟨p,i,c,cc,nonce,out,isP,nonempty,fits,found,slot,fresh,room,same,rfl⟩
        · exact keptOnly inv.2 (sameEnds same) rfl rfl
        · cases isP
          have keeps := storedEnds same slot (c.fdA == intOf fd)
            (writeFrame (c.ring (c.fdA == intOf fd)) nonce payload.length out)
          have endpoint := guard i c ⟨running.running,by simpa using user,nonempty,fits,found,slot,fresh,room⟩
          obtain ⟨c',slot',named⟩ := channelOfSome found
          cases slot.symm.trans slot'
          refine ⟨fun m mem => endpointKept keeps (inv.2.1 m mem),fun m mem => ?_⟩
          rcases List.mem_append.mp mem with old | new
          · exact endpointKept keeps (inv.2.2 m old)
          · rw [List.mem_singleton] at new
            subst new
            exact endpointKept keeps ⟨c,List.mem_of_getElem? slot,named,endpoint⟩

theorem recvEndKeeps {w v : World} {caller : Pid} {fd : BitVec 64} {buf : Nat} {out : List Byte}
    (inv : EndInv w) (next : sysNkIpcRecv w caller fd buf out = some v) : EndInv v := by
  rw [sysNkIpcRecv] at next
  split at next
  · cases next
  · rename_i stopped
    split at next
    · cases next
      exact inv
    · rcases recvExact (invRunning inv stopped) caller (intOf fd) (some out) with
        ⟨_,_,_,faults⟩ | ⟨_,refused⟩
      · cases faults.symm.trans next
        exact ⟨.inl rfl,inv.2⟩
      · cases refused.symm.trans next
        exact inv

theorem stepKeeps {hmac : Key → List Byte → Key} {w v : World} {e : Event} (inv : EndInv w)
    (guard : FromEndpoint w e) (next : step hmac w e = some v) : EndInv v := by
  cases e with
  | channel caller peer flags fresh => exact channelKeeps inv next
  | send caller fd buf payload tsc => exact sendEndKeeps inv guard next
  | recv caller fd buf out => exact recvEndKeeps inv next

theorem strangerAccepted {w : World} (inv : Inv w) {caller : Pid} {fd : BitVec 64} {buf : Nat}
    {payload : List Byte} {tsc : BitVec 64} {i : Nat} {c : Channel} (admits : Admits w (intOf fd) buf payload i c)
    (stranger : ¬ (caller = c.pidA ∨ caller = c.pidB)) :
    ∃ v, sysNkIpcSend w caller fd buf payload tsc = some v ∧ ¬ EndpointsOnly v := by
  obtain ⟨t,called⟩ := sendAdmitted tsc inv.started admits.nonempty admits.fits admits.found admits.slot
    admits.fresh admits.room
  have small := admits.fits
  have nonempty := admits.nonempty
  unfold ipcRingBytes ipcRingPages at small
  have sent : send w caller (intOf fd) (some payload) tsc =
      some {w with cc := t,accepted := w.accepted ++ [⟨caller,intOf fd,payload⟩]} := by
    rw [send,if_neg (by rw [inv.running]; decide),called]
    dsimp only
    rw [if_neg (by omega)]
    rfl
  refine ⟨{w with cc := t,accepted := w.accepted ++ [⟨caller,intOf fd,payload⟩]},?_,?_⟩
  · rw [sysNkIpcSend,if_neg (by rw [inv.running]; decide),if_neg (by rw [admits.user]; decide),
      if_neg (by omega)]
    exact sent
  · intro only
    have after := sendKeeps inv sent
    obtain ⟨d,mem,named,endpoint⟩ := only.2 ⟨caller,intOf fd,payload⟩
      (List.mem_append_right _ (List.mem_singleton_self _))
    obtain ⟨j,atJ⟩ := List.mem_iff_getElem?.mp mem
    rcases sentCases sent with ⟨cc,_,same⟩ | ⟨p,k,e,cc,nonce,out,_,_,_,found,slot,_,_,same,stored⟩
    · have lengths := congrArg (fun v => v.accepted.length) same
      simp at lengths
    · cases found.symm.trans admits.found
      cases slot.symm.trans admits.slot
      have isT : t = putRing cc i c (c.fdA == intOf fd)
          (writeFrame (c.ring (c.fdA == intOf fd)) nonce p.length out) := congrArg World.cc stored
      obtain ⟨e,atI,fdA,fdB,pidA,pidB⟩ := slotEnds same slot (c.fdA == intOf fd)
        (writeFrame (c.ring (c.fdA == intOf fd)) nonce p.length out)
      rw [← isT] at atI
      obtain ⟨c',slot',holds⟩ := channelOfSome found
      cases slot.symm.trans slot'
      have place := sameChannel after atI atJ (by rw [fdA,fdB]; exact holds) named
      subst place
      cases atI.symm.trans atJ
      rw [pidA,pidB] at endpoint
      exact stranger endpoint

theorem stepBreaks {hmac : Key → List Byte → Key} {w : World} {e : Event} (inv : EndInv w)
    (missed : ¬ FromEndpoint w e) : ∃ v, step hmac w e = some v ∧ ¬ EndpointsOnly v := by
  cases e with
  | channel caller peer flags fresh => exact absurd trivial missed
  | send caller fd buf payload tsc =>
      rw [FromEndpoint] at missed
      push Not at missed
      obtain ⟨i,c,admits,stranger⟩ := missed
      have running : Inv w := invRunning inv (by rw [admits.running]; decide)
      exact strangerAccepted running admits (by rw [not_or]; exact stranger)
  | recv caller fd buf out => exact absurd trivial missed

theorem endpointsExact (hmac : Key → List Byte → Key) (low : Nat → Byte) (fingerprint : Key)
    (tsc : BitVec 64) (events : List Event) :
    Along (step hmac) EndpointsOnly (start hmac low fingerprint tsc) events ↔
      Guarded (step hmac) FromEndpoint (start hmac low fingerprint tsc) events := by
  have initial : EndInv (start hmac low fingerprint tsc) :=
    ⟨.inr (startInv hmac low fingerprint tsc),fun m mem => (by cases mem),fun m mem => (by cases mem)⟩
  have anything : Guarded (step hmac) (fun _ _ => True) (start hmac low fingerprint tsc) events :=
    GuardedRun.guardedAlways (fun _ _ => trivial) _ _
  exact GuardedRun.guardExact EndInv (fun _ inv => inv.2)
    (fun _ _ _ inv _ guard next => stepKeeps inv guard next)
    (fun _ _ inv _ missed => stepBreaks inv missed) initial anything

def thirdProcess : List Event :=
  [.channel (some 1) 2 0 ⟨true,true,fun _ => 0,fun _ => 0,0,0⟩,.send 3 100 0x400000 [7] 0]

theorem thirdProcessAccepted :
    (run (step plainHmac) (start plainHmac (fun _ => 0) (Vector.replicate 32 1) 0) thirdProcess).map
      (fun w => (w.cc.channels.map (fun c => (c.pidA,c.pidB,c.fdA,c.fdB)),w.accepted)) =
    some ([(1,2,100,101)],[⟨3,100,[7]⟩]) := by
  decide +kernel

end Nekros.IpcEndpoints
