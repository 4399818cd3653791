import Nekros.CcProc
import Nekros.GuardedRun

/-! Runs of the zero-trust channels of cc_proc.c: the calls, with a record of what was
accepted and what was delivered. A receive that faults stops the machine. -/
namespace Nekros.IpcRuns
open Errno
open Bytes (Byte byteAt littleEndian)
open Aes (Key Nonce)
open CcProc
open Syscall (low32)

structure Message where
  caller : Pid
  fd : Int
  payload : List Byte
  deriving DecidableEq, Repr

/- `failed`: a receive that found a message ended without it, by -EACCES or a fault. -/
structure World where
  cc : State
  accepted : List Message
  delivered : List Message
  failed : Bool
  stopped : Bool

def payloadsOn (l : List Message) (fd : Int) : List (List Byte) :=
  (l.filter fun m => m.fd == fd).map Message.payload

section Calls
variable (hmac : Key → List Byte → Key)

def start (low : Nat → Byte) (fingerprint : Key) (tsc : BitVec 64) : World :=
  ⟨ccProcInit hmac (boot low) fingerprint tsc,[],[],false,false⟩

def create (w : World) (self peer : Pid) (flags : BitVec 32) (f : Fresh) : Option World :=
  if w.stopped then none
  else some {w with cc := (ccIpcChannelCreate hmac w.cc self peer flags f).1}

end Calls

def send (w : World) (caller : Pid) (fd : Int) (buf : Option (List Byte)) (tsc : BitVec 64) : Option World :=
  if w.stopped then none
  else
    match ccIpcSend w.cc fd buf tsc with
    | .error _ => none
    | .ok (cc,rc) =>
        if rc < 0 then some {w with cc := cc}
        else some {w with cc := cc,accepted := w.accepted ++ [⟨caller,fd,buf.getD []⟩]}

def recv (w : World) (caller : Pid) (fd : Int) (buf : Option (List Byte)) : Option World :=
  if w.stopped then none
  else
    match ccIpcRecv w.cc fd buf with
    | .error _ => some {w with failed := true,stopped := true}
    | .ok (cc,r) =>
        if r.rc = -eacces then some {w with cc := cc,failed := true}
        else if r.rc < 0 then some {w with cc := cc}
        else some {w with
          cc := cc
          delivered := w.delivered ++ [⟨caller,fd,(r.buf.getD []).take r.rc.toNat⟩]}

structure RingInv (r : Ring) (sent : List (List Byte)) : Prop where
  head : r.head = 0
  tail : r.tail = (sent.map fun p => frameSize p.length).sum
  inside : r.tail ≤ ipcRingBytes
  first : ∀ p rest, sent = p::rest → (r.word 12).toNat = p.length
  sizes : ∀ p ∈ sent, 0 < p.length ∧ p.length ≤ ipcRingBytes / 2
  base : 2^48 ≤ r.base

structure Inv (w : World) : Prop where
  started : w.cc.ready = true
  running : w.stopped = false
  window : 2^48 ≤ w.cc.vmallocNext
  few : w.cc.channels.length ≤ maxIpcChannels
  nextFd : w.cc.nextFd = 100 + 2 * (w.cc.channels.length : Int)
  fds : ∀ (i : Nat) c, w.cc.channels[i]? = some c →
    c.fdA = 100 + 2 * (i : Int) ∧ c.fdB = 101 + 2 * (i : Int)
  rings : ∀ c ∈ w.cc.channels, RingInv c.a2b (payloadsOn w.accepted c.fdA) ∧
    RingInv c.b2a (payloadsOn w.accepted c.fdB)
  below : ∀ m ∈ w.accepted, m.fd < w.cc.nextFd
  undelivered : w.delivered = []
  unfailed : w.failed = false

theorem payloadsOnSnoc (l : List Message) (m : Message) (fd : Int) :
    payloadsOn (l ++ [m]) fd = if m.fd = fd then payloadsOn l fd ++ [m.payload] else payloadsOn l fd := by
  rw [payloadsOn,List.filter_append,List.map_append]
  by_cases same : m.fd = fd
  · have taken : [m].filter (fun m => m.fd == fd) = [m] := by simp [same]
    rw [if_pos same,taken]
    rfl
  · have dropped : [m].filter (fun m => m.fd == fd) = [] := by simp [same]
    rw [if_neg same,dropped,List.map_nil,List.append_nil]
    rfl

theorem payloadsOnNone {l : List Message} {fd : Int} (none : ∀ m ∈ l, m.fd ≠ fd) : payloadsOn l fd = [] := by
  rw [payloadsOn,List.filter_eq_nil_iff.mpr (fun m mem => by simpa using none m mem)]
  rfl

theorem startInv (hmac : Key → List Byte → Key) (low : Nat → Byte) (fingerprint : Key) (tsc : BitVec 64) :
    Inv (start hmac low fingerprint tsc) := by
  have window : 2^48 ≤ 0xFFFF000000000000 := by decide
  refine ⟨rfl,rfl,window,Nat.zero_le _,rfl,fun i c slot => ?_,fun c mem => ?_,fun m mem => ?_,rfl,rfl⟩
  · cases slot
  · cases mem
  · cases mem

theorem channelOfSome {s : State} {fd : Int} {i : Nat} (found : channelOf s fd = some i) :
    ∃ c, s.channels[i]? = some c ∧ (c.fdA = fd ∨ c.fdB = fd) := by
  obtain ⟨bound,here,_⟩ := List.findIdx?_eq_some_iff_getElem.mp found
  refine ⟨s.channels[i],List.getElem?_eq_getElem bound,?_⟩
  simpa using here

theorem channelOfMember {s : State} {fd : Int} {c : Channel} (mem : c ∈ s.channels)
    (holds : c.fdA = fd ∨ c.fdB = fd) : ∃ i, channelOf s fd = some i := by
  rw [channelOf,← Option.isSome_iff_exists,List.findIdx?_isSome,List.any_eq_true]
  exact ⟨c,mem,by simpa using holds⟩

theorem sameChannel {w : World} (inv : Inv w) {i j : Nat} {c d : Channel} {fd : Int}
    (atI : w.cc.channels[i]? = some c) (atJ : w.cc.channels[j]? = some d)
    (ofC : c.fdA = fd ∨ c.fdB = fd) (ofD : d.fdA = fd ∨ d.fdB = fd) : i = j := by
  have fdsC := inv.fds i c atI
  have fdsD := inv.fds j d atJ
  omega

theorem writeBefore (r : Ring) {start i : Nat} (bytes : List Byte) (h : i < start) :
    (r.write start bytes).bytes i = r.bytes i := by
  rw [Ring.write]
  exact if_neg (by omega)

theorem writeInside (r : Ring) {start j : Nat} {bytes : List Byte} (h : j < bytes.length) :
    (r.write start bytes).bytes (start + j) = bytes.getD j 0 := by
  rw [Ring.write]
  dsimp only
  rw [if_pos (by omega),Nat.add_sub_cancel_left]

theorem frameBefore (r : Ring) (nonce : Nonce) (len : Nat) (out : AesGcm.Sealed) {i : Nat} (h : i < r.tail) :
    (writeFrame r nonce len out).bytes i = r.bytes i := by
  rw [writeFrame]
  dsimp only
  rw [writeBefore _ _ (show i < r.tail + 16 + len by omega),writeBefore _ _ (show i < r.tail + 16 by omega),
    writeBefore _ _ (show i < r.tail + 12 by omega),writeBefore _ _ h]

theorem frameLength (r : Ring) (nonce : Nonce) (len : Nat) (out : AesGcm.Sealed) {j : Nat} (h : j < 4) :
    (writeFrame r nonce len out).bytes (r.tail + 12 + j) = byteAt (BitVec.ofNat 32 len) (8*j) := by
  have size : (littleEndian 4 (BitVec.ofNat 32 len)).length = 4 := rfl
  rw [writeFrame]
  dsimp only
  rw [writeBefore _ _ (show r.tail + 12 + j < r.tail + 16 + len by omega),
    writeBefore _ _ (show r.tail + 12 + j < r.tail + 16 by omega)]
  refine (writeInside _ (by omega)).trans ?_
  rw [littleEndian,List.getD_eq_getElem _ _ (by rw [List.length_map,List.length_range]; exact h),
    List.getElem_map,List.getElem_range]

theorem wordOfBytes (x : BitVec 32) :
    (byteAt x 24 ++ byteAt x 16 ++ byteAt x 8 ++ byteAt x 0 : BitVec (8+8+8+8)) = x := by
  apply BitVec.eq_of_getLsbD_eq
  intro i hi
  simp only [BitVec.getLsbD_append,Bytes.getLsbDByteAt]
  rcases Nat.lt_or_ge i 8 with b0 | b0
  · simp [b0]
  · rcases Nat.lt_or_ge i 16 with b1 | b1
    · rw [if_neg (by omega),if_pos (by omega),decide_eq_true (by omega),Bool.true_and,
        show 8 + (i - 8) = i by omega]
    · rcases Nat.lt_or_ge i 24 with b2 | b2
      · rw [if_neg (by omega),if_neg (by omega),if_pos (by omega),decide_eq_true (by omega),Bool.true_and,
          show 16 + (i - 8 - 8) = i by omega]
      · rw [if_neg (by omega),if_neg (by omega),if_neg (by omega),decide_eq_true (by omega),Bool.true_and,
          show 24 + (i - 8 - 8 - 8) = i by omega]

theorem frameWord (r : Ring) (nonce : Nonce) (len : Nat) (out : AesGcm.Sealed) :
    (writeFrame r nonce len out).word (r.tail + 12) = BitVec.ofNat 32 len := by
  have b0 := frameLength r nonce len out (show 0 < 4 by decide)
  have b1 := frameLength r nonce len out (show 1 < 4 by decide)
  have b2 := frameLength r nonce len out (show 2 < 4 by decide)
  have b3 := frameLength r nonce len out (show 3 < 4 by decide)
  rw [Nat.add_zero] at b0
  rw [Ring.word,b0,b1,b2,b3]
  exact wordOfBytes _

theorem frameWordBefore (r : Ring) (nonce : Nonce) (len : Nat) (out : AesGcm.Sealed) (h : 16 ≤ r.tail) :
    (writeFrame r nonce len out).word 12 = r.word 12 := by
  rw [Ring.word,Ring.word,frameBefore r nonce len out (show 12 + 3 < r.tail by omega),
    frameBefore r nonce len out (show 12 + 2 < r.tail by omega),
    frameBefore r nonce len out (show 12 + 1 < r.tail by omega),
    frameBefore r nonce len out (show 12 < r.tail by omega)]

theorem ringSent {r : Ring} {sent : List (List Byte)} (inv : RingInv r sent) {payload : List Byte}
    (some : 0 < payload.length) (fits : payload.length ≤ ipcRingBytes / 2) (nonce : Nonce)
    (out : AesGcm.Sealed) (room : low32 (r.tail + frameSize payload.length) ≤ ipcRingBytes) :
    RingInv (writeFrame r nonce payload.length out) (sent ++ [payload]) := by
  have inside := inv.inside
  unfold low32 frameSize ipcRingBytes ipcRingPages at room
  unfold ipcRingBytes ipcRingPages at fits inside
  refine ⟨inv.head,?_,?_,?_,?_,inv.base⟩
  · rw [List.map_append,List.sum_append,← inv.tail]
    show r.tail + frameSize payload.length = _
    simp
  · show r.tail + frameSize payload.length ≤ ipcRingBytes
    unfold frameSize ipcRingBytes ipcRingPages
    omega
  · intro p rest same
    cases sent with
    | nil =>
        cases same
        have empty : r.tail = 0 := inv.tail
        have word := frameWord r nonce payload.length out
        rw [empty,Nat.zero_add] at word
        rw [word,BitVec.toNat_ofNat]
        omega
    | cons q others =>
        cases same
        have long : frameSize p.length ≤ r.tail := by
          rw [inv.tail,List.map_cons,List.sum_cons]
          exact Nat.le_add_right _ _
        unfold frameSize at long
        rw [frameWordBefore r nonce payload.length out (by omega)]
        exact inv.first p others rfl
  · intro p mem
    rcases List.mem_append.mp mem with old | new
    · exact inv.sizes p old
    · rw [List.mem_singleton] at new
      subst new
      exact ⟨some,by unfold ipcRingBytes ipcRingPages; exact fits⟩

theorem invOfSame {w : World} (inv : Inv w) {cc : State} (same : SameIpc w.cc cc) :
    Inv {w with cc := cc} := by
  refine ⟨same.ready.trans inv.started,inv.running,?_,?_,?_,?_,?_,?_,inv.undelivered,inv.unfailed⟩
  · show 2^48 ≤ cc.vmallocNext
    rw [same.vmallocNext]
    exact inv.window
  · show cc.channels.length ≤ _
    rw [same.channels]
    exact inv.few
  · show cc.nextFd = 100 + 2 * (cc.channels.length : Int)
    rw [same.nextFd,same.channels]
    exact inv.nextFd
  · show ∀ (i : Nat) c, cc.channels[i]? = some c → _
    rw [same.channels]
    exact inv.fds
  · show ∀ c ∈ cc.channels, _
    rw [same.channels]
    exact inv.rings
  · show ∀ m ∈ w.accepted, m.fd < cc.nextFd
    rw [same.nextFd]
    exact inv.below

theorem createKeeps {hmac : Key → List Byte → Key} {w v : World} {self peer : Pid} {flags : BitVec 32} {f : Fresh}
    (inv : Inv w) (made : create hmac w self peer flags f = some v) : Inv v := by
  rw [create,if_neg (by rw [inv.running]; decide)] at made
  cases made
  rcases createCases hmac w.cc self peer flags f with
    ⟨n,up,same,_⟩ | ⟨n,a2b,b2a,fd,up,upA,upB,room,isFd,done⟩
  · have window := inv.window
    rw [same]
    exact ⟨inv.started,inv.running,by show 2^48 ≤ n; omega,inv.few,inv.nextFd,inv.fds,inv.rings,inv.below,
      inv.undelivered,inv.unfailed⟩
  · have window := inv.window
    have next := inv.nextFd
    have fresh : fd = w.cc.nextFd := by
      unfold maxIpcChannels at room
      rw [isFd,if_neg (by omega)]
    have empty : ∀ g, w.cc.nextFd ≤ g → payloadsOn w.accepted g = [] := by
      intro g late
      exact payloadsOnNone (fun m mem same => by have := inv.below m mem; omega)
    have clean : ∀ base bytes g, 2^48 ≤ base → w.cc.nextFd ≤ g →
        RingInv ⟨base,bytes,0,0⟩ (payloadsOn w.accepted g) := by
      intro base bytes g high late
      rw [empty g late]
      exact ⟨rfl,rfl,Nat.zero_le _,fun p rest none => (by cases none),fun p mem => (by cases mem),high⟩
    rw [done]
    refine ⟨inv.started,inv.running,by show 2^48 ≤ n; omega,?_,?_,?_,?_,?_,inv.undelivered,inv.unfailed⟩
    · show (w.cc.channels ++ [_]).length ≤ maxIpcChannels
      rw [List.length_append,List.length_singleton]
      exact room
    · show fd + 2 = 100 + 2 * ((w.cc.channels ++ [_]).length : Int)
      rw [List.length_append,List.length_singleton,fresh,next]
      omega
    · intro i c slot
      rcases Nat.lt_or_ge i w.cc.channels.length with old | new
      · rw [List.getElem?_append_left old] at slot
        exact inv.fds i c slot
      · have bound := (List.getElem?_eq_some_iff.mp slot).1
        rw [List.length_append,List.length_singleton] at bound
        have here : i = w.cc.channels.length := by omega
        subst here
        rw [List.getElem?_concat_length] at slot
        cases slot
        exact ⟨by rw [fresh,next],by show fd + 1 = _; rw [fresh,next]; omega⟩
    · intro c mem
      rcases List.mem_append.mp mem with old | new
      · exact inv.rings c old
      · rw [List.mem_singleton] at new
        subst new
        exact ⟨clean a2b _ _ (by omega) (by rw [fresh]),clean b2a _ _ (by omega) (by show _ ≤ fd + 1; omega)⟩
    · intro m mem
      have below := inv.below m mem
      show m.fd < fd + 2
      omega

theorem putRingCases {s t : State} (same : t.channels = s.channels) {i j : Nat} {c d : Channel}
    (slot : s.channels[i]? = some c) {aToB : Bool} {r : Ring} (atJ : (putRing t i c aToB r).channels[j]? = some d) :
    (i = j ∧ d = if aToB then {c with a2b := r} else {c with b2a := r}) ∨ (i ≠ j ∧ s.channels[j]? = some d) := by
  rw [putRingAt same slot] at atJ
  by_cases here : i = j
  · rw [if_pos here] at atJ
    exact .inl ⟨here,(Option.some.inj atJ).symm⟩
  · rw [if_neg here] at atJ
    exact .inr ⟨here,atJ⟩

def RingsInv (accepted : List Message) (c : Channel) : Prop :=
  RingInv c.a2b (payloadsOn accepted c.fdA) ∧ RingInv c.b2a (payloadsOn accepted c.fdB)

theorem ringsSent {accepted : List Message} {c : Channel} (rings : RingsInv accepted c) (ends : c.fdA ≠ c.fdB)
    (m : Message) (named : c.fdA = m.fd ∨ c.fdB = m.fd) (nonempty : 0 < m.payload.length)
    (fits : m.payload.length ≤ ipcRingBytes / 2) (nonce : Nonce) (out : AesGcm.Sealed)
    (room : low32 ((c.ring (c.fdA == m.fd)).tail + frameSize m.payload.length) ≤ ipcRingBytes) :
    RingsInv (accepted ++ [m])
      (if c.fdA == m.fd then {c with a2b := writeFrame (c.ring (c.fdA == m.fd)) nonce m.payload.length out}
        else {c with b2a := writeFrame (c.ring (c.fdA == m.fd)) nonce m.payload.length out}) := by
  cases first : c.fdA == m.fd with
  | true =>
      have isA : c.fdA = m.fd := beq_iff_eq.mp first
      rw [first] at room
      refine ⟨?_,?_⟩
      · show RingInv (writeFrame c.a2b nonce m.payload.length out) (payloadsOn (accepted ++ [m]) c.fdA)
        rw [payloadsOnSnoc,if_pos isA.symm]
        exact ringSent rings.1 nonempty fits nonce out room
      · show RingInv c.b2a (payloadsOn (accepted ++ [m]) c.fdB)
        rw [payloadsOnSnoc,if_neg (isA ▸ ends)]
        exact rings.2
  | false =>
      have notA : c.fdA ≠ m.fd := fun eq => by rw [beq_iff_eq.mpr eq] at first; cases first
      have isB : c.fdB = m.fd := named.resolve_left notA
      rw [first] at room
      refine ⟨?_,?_⟩
      · show RingInv c.a2b (payloadsOn (accepted ++ [m]) c.fdA)
        rw [payloadsOnSnoc,if_neg (Ne.symm notA)]
        exact rings.1
      · show RingInv (writeFrame c.b2a nonce m.payload.length out) (payloadsOn (accepted ++ [m]) c.fdB)
        rw [payloadsOnSnoc,if_pos isB.symm]
        exact ringSent rings.2 nonempty fits nonce out room

theorem ringsUnsent {accepted : List Message} {d : Channel} (rings : RingsInv accepted d) {m : Message}
    (away : ¬ (d.fdA = m.fd ∨ d.fdB = m.fd)) : RingsInv (accepted ++ [m]) d := by
  unfold RingsInv
  rw [payloadsOnSnoc,payloadsOnSnoc,if_neg (fun eq => away (.inl eq.symm)),if_neg (fun eq => away (.inr eq.symm))]
  exact rings

theorem acceptedKeeps {w : World} (inv : Inv w) {cc : State} (same : SameIpc w.cc cc) {caller : Pid} {fd : Int}
    {payload : List Byte} {i : Nat} {c : Channel} (slot : w.cc.channels[i]? = some c)
    (named : c.fdA = fd ∨ c.fdB = fd) (nonempty : 0 < payload.length)
    (fits : payload.length ≤ ipcRingBytes / 2) (nonce : Nonce) (out : AesGcm.Sealed)
    (room : low32 ((c.ring (c.fdA == fd)).tail + frameSize payload.length) ≤ ipcRingBytes) :
    Inv {w with
      cc := putRing cc i c (c.fdA == fd) (writeFrame (c.ring (c.fdA == fd)) nonce payload.length out)
      accepted := w.accepted ++ [⟨caller,fd,payload⟩]} := by
  have bound : i < w.cc.channels.length := (List.getElem?_eq_some_iff.mp slot).1
  have fdsC := inv.fds i c slot
  refine ⟨same.ready.trans inv.started,inv.running,?_,?_,?_,?_,?_,?_,inv.undelivered,inv.unfailed⟩
  · show 2^48 ≤ cc.vmallocNext
    rw [same.vmallocNext]
    exact inv.window
  · show (cc.channels.set i _).length ≤ _
    rw [List.length_set,same.channels]
    exact inv.few
  · show cc.nextFd = 100 + 2 * ((cc.channels.set i _).length : Int)
    rw [List.length_set,same.nextFd,same.channels]
    exact inv.nextFd
  · intro j d atJ
    rcases putRingCases same.channels slot atJ with ⟨rfl,rfl⟩ | ⟨_,old⟩
    · cases c.fdA == fd <;> exact fdsC
    · exact inv.fds j d old
  · intro d mem
    obtain ⟨j,atJ⟩ := List.mem_iff_getElem?.mp mem
    rcases putRingCases same.channels slot atJ with ⟨rfl,rfl⟩ | ⟨other,old⟩
    · exact ringsSent (inv.rings c (List.mem_of_getElem? slot)) (by omega) ⟨caller,fd,payload⟩ named nonempty fits
        nonce out room
    · exact ringsUnsent (inv.rings d (List.mem_of_getElem? old))
        fun holds => other (sameChannel inv slot old named holds)
  · intro m mem
    show m.fd < cc.nextFd
    rw [same.nextFd]
    rcases List.mem_append.mp mem with old | new
    · exact inv.below m old
    · rw [List.mem_singleton] at new
      subst new
      have next := inv.nextFd
      show fd < w.cc.nextFd
      omega

theorem sentCases {w v : World} {caller : Pid} {fd : Int} {buf : Option (List Byte)} {tsc : BitVec 64}
    (sent : send w caller fd buf tsc = some v) :
    (∃ cc, SameIpc w.cc cc ∧ v = {w with cc := cc}) ∨
    ∃ payload i c cc nonce out, buf = some payload ∧ 0 < payload.length ∧
      payload.length ≤ ipcRingBytes / 2 ∧ channelOf w.cc fd = some i ∧ w.cc.channels[i]? = some c ∧
      w.cc.ipcCtr + 1 ≠ 0 ∧ low32 ((c.ring (c.fdA == fd)).tail + frameSize payload.length) ≤ ipcRingBytes ∧
      SameIpc w.cc cc ∧
      v = {w with
        cc := putRing cc i c (c.fdA == fd) (writeFrame (c.ring (c.fdA == fd)) nonce payload.length out)
        accepted := w.accepted ++ [⟨caller,fd,payload⟩]} := by
  rw [send] at sent
  split at sent
  · cases sent
  · cases called : ccIpcSend w.cc fd buf tsc with
    | error stop =>
        rw [called] at sent
        cases sent
    | ok answer =>
        obtain ⟨cc,rc⟩ := answer
        rw [called] at sent
        dsimp only at sent
        rcases sendCases called with ⟨rfl,negative⟩ | ⟨negative,nonce,drew⟩ |
          ⟨payload,i,c,u,nonce,rfl,nonempty,fits,found,slot,drew,room,rfl,rfl⟩
        · rw [if_pos negative] at sent
          cases sent
          exact .inl ⟨w.cc,⟨rfl,rfl,rfl,rfl⟩,rfl⟩
        · rw [if_pos negative] at sent
          cases sent
          exact .inl ⟨cc,genNonceSame drew,rfl⟩
        · rw [if_neg (by omega)] at sent
          cases sent
          have same := genNonceSame drew
          have fresh : w.cc.ipcCtr + 1 ≠ 0 := by
            intro wrapped
            have panics : genNonce w.cc .ipc tsc = .error .panic := if_pos wrapped
            cases panics.symm.trans drew
          exact .inr ⟨payload,i,c,record u (.session c.sessionKey) nonce,nonce,_,rfl,nonempty,fits,found,slot,
            fresh,room,⟨same.1,same.2,same.3,same.4⟩,rfl⟩

theorem sendKeeps {w v : World} {caller : Pid} {fd : Int} {buf : Option (List Byte)} {tsc : BitVec 64}
    (inv : Inv w) (sent : send w caller fd buf tsc = some v) : Inv v := by
  rcases sentCases sent with ⟨cc,same,rfl⟩ |
    ⟨payload,i,c,cc,nonce,out,rfl,nonempty,fits,found,slot,_,room,same,rfl⟩
  · exact invOfSame inv same
  · obtain ⟨c',slot',named⟩ := channelOfSome found
    cases slot.symm.trans slot'
    exact acceptedKeeps inv same slot named nonempty fits nonce out room

def peerFd (c : Channel) (fd : Int) : Int := if c.fdB == fd then c.fdA else c.fdB

def Waiting (w : World) (fd : Int) (len : Nat) : Prop :=
  len ≠ 0 ∧ ∃ c ∈ w.cc.channels, (c.fdA = fd ∨ c.fdB = fd) ∧ ∃ payload rest,
    payloadsOn w.accepted (peerFd c fd) = payload::rest ∧ payload.length ≤ low32 len

theorem ringRead {w : World} (inv : Inv w) {c : Channel} (mem : c ∈ w.cc.channels) (fd : Int) :
    RingInv (c.ring (c.fdB == fd)) (payloadsOn w.accepted (peerFd c fd)) := by
  rw [peerFd]
  cases c.fdB == fd with
  | true => exact (inv.rings c mem).1
  | false => exact (inv.rings c mem).2

theorem pendingLenFirst {w : World} (inv : Inv w) {c : Channel} (mem : c ∈ w.cc.channels) {fd : Int}
    {payload : List Byte} {rest : List (List Byte)}
    (lane : payloadsOn w.accepted (peerFd c fd) = payload::rest) : pendingLen c fd = payload.length := by
  have ring := ringRead inv mem fd
  rw [pendingLen,ring.head]
  exact ring.first payload rest lane

theorem readyWaiting {w : World} (inv : Inv w) {fd : Int} {out : List Byte} :
    (∃ i c, Ready w.cc fd out i c) ↔ Waiting w fd out.length := by
  constructor
  · rintro ⟨i,c,ready⟩
    have mem := List.mem_of_getElem? ready.slot
    obtain ⟨c',slot',named⟩ := channelOfSome ready.found
    cases ready.slot.symm.trans slot'
    have ring := ringRead inv mem fd
    cases lane : payloadsOn w.accepted (peerFd c fd) with
    | nil =>
        rw [lane] at ring
        exact absurd (ring.head.trans ring.tail.symm) ready.pending
    | cons payload rest =>
        have fits := ready.fits
        rw [pendingLenFirst inv mem lane] at fits
        exact ⟨ready.room,c,mem,named,payload,rest,lane,fits⟩
  · rintro ⟨room,c,mem,named,payload,rest,lane,fits⟩
    obtain ⟨i,found⟩ := channelOfMember mem named
    obtain ⟨j,atJ⟩ := List.mem_iff_getElem?.mp mem
    obtain ⟨c',slot,named'⟩ := channelOfSome found
    have same := sameChannel inv slot atJ named' named
    subst same
    cases slot.symm.trans atJ
    have ring := ringRead inv mem fd
    have length := pendingLenFirst inv mem lane
    have size := ring.sizes payload (by rw [lane]; exact List.mem_cons_self)
    have whole := ring.tail
    have inside := ring.inside
    rw [lane,List.map_cons,List.sum_cons] at whole
    refine ⟨i,c,inv.started,room,found,slot,?_,?_,?_,?_⟩
    · rw [ring.head,whole]
      unfold frameSize
      omega
    · rw [length]
      exact size.2
    · rw [length]
      exact fits
    · rw [ring.head,length,Nat.zero_add]
      unfold low32
      exact Nat.le_trans (Nat.mod_le _ _) (by omega)

theorem openFaults {w : World} (inv : Inv w) {fd : Int} {out : List Byte} {i : Nat} {c : Channel}
    (ready : Ready w.cc fd out i c) :
    openFrame w.cc i c (c.fdB == fd) (pendingLen c fd) out = .error .fault := by
  have ring := ringRead inv (List.mem_of_getElem? ready.slot) fd
  have base := ring.base
  have past : (c.ring (c.fdB == fd)).read ((c.ring (c.fdB == fd)).head + 16 + pendingLen c fd)
      ((c.ring (c.fdB == fd)).base + (c.ring (c.fdB == fd)).head) = none := by
    rw [Ring.read]
    unfold ipcRingBytes ipcRingPages
    exact if_neg (by omega)
  rw [openFrame]
  dsimp only
  rw [past]
  cases (c.ring (c.fdB == fd)).read (c.ring (c.fdB == fd)).head 12 with
  | none => rfl
  | some iv =>
      cases (c.ring (c.fdB == fd)).read ((c.ring (c.fdB == fd)).head + 16) (pendingLen c fd) with
      | none => rfl
      | some aad => rfl

theorem recvExact {w : World} (inv : Inv w) (caller : Pid) (fd : Int) (buf : Option (List Byte)) :
    (∃ out, buf = some out ∧ Waiting w fd out.length ∧
      recv w caller fd buf = some {w with failed := true,stopped := true}) ∨
    ((∀ out, buf = some out → ¬ Waiting w fd out.length) ∧ recv w caller fd buf = some w) := by
  rw [recv,if_neg (by rw [inv.running]; decide)]
  rcases recvCases w.cc fd buf with ⟨out,i,c,rfl,ready,opens⟩ | ⟨none,rc,⟨negative,other⟩,refused⟩
  · exact .inl ⟨out,rfl,(readyWaiting inv).mp ⟨i,c,ready⟩,by rw [opens,openFaults inv ready]⟩
  · refine .inr ⟨fun out same waiting => ?_,?_⟩
    · obtain ⟨i,c,ready⟩ := (readyWaiting inv).mpr waiting
      exact none out i c same ready
    · rw [refused]
      dsimp only
      rw [if_neg other,if_pos negative]

end Nekros.IpcRuns
