import Nekros.CcProc
import Nekros.Pmm
import Nekros.SlotRing

/-! ipc/ipc.c: channels over a ring of 64 slots in eight shared pages, each message
signed with the key of its channel. While a channel is active its pages are the `ring`
of its record; what is written to them outside that time goes to the memory of the page
allocator. HMAC and HKDF are any functions. The spinlocks, the counters that only
`ipc_close` prints and the audit record of a send are left out. -/
namespace Nekros.SharedIpc
open Words Errno
open Bytes (Byte littleEndian)
open Aes (Key)
open CcProc (Pid ascii)
open Function (update)

@[irreducible] def ipcMaxChannels : Nat := 1024

def ipcPagePool : Nat := 8

def ipcSlots : Nat := 64

def ringHdrSize : Nat := 80

def msgHdrSize : Nat := 64

def zeroKey : Key := Vector.replicate 32 0

structure Slot where
  seq : Nat
  senderPid : Pid
  len : Nat
  hmac : Key
  payload : Nat → Byte

structure Ring where
  writeSeq : Nat
  readSeq : Nat
  slotSize : Nat
  nSlots : Nat
  channelKey : Key
  slots : Nat → Slot

structure Channel where
  active : Bool
  creatorPid : Pid
  peerPid : Pid
  sharedPa : Nat
  ring : Ring
  channelKey : Key

structure State where
  channels : Nat → Channel
  machineFingerprint : Key
  pmm : Pmm.State

structure Message where
  sender : Pid
  payload : List Byte
  deriving DecidableEq, Repr

def Slot.zeroed : Slot := ⟨0,0,0,zeroKey,fun _ => 0⟩

def Ring.zeroed : Ring := ⟨0,0,0,0,zeroKey,fun _ => Slot.zeroed⟩

def ipcInit (fingerprint : Key) (pmm : Pmm.State) : State :=
  ⟨fun _ => ⟨false,0,0,0,Ring.zeroed,zeroKey⟩,fingerprint,pmm⟩

def setChannel (s : State) (i : Nat) (ch : Channel) : State := {s with channels := update s.channels i ch}

def channelOf (fd : Int) : Option Nat := if 0 ≤ fd ∧ fd < ipcMaxChannels then some fd.toNat else none

def zeroFill (mem : Nat → Nat) (start len : Nat) : Nat → Nat :=
  fun a => if sub64 a start < len then 0 else mem a

def freeChannel (s : State) : Option Nat :=
  (List.range ipcMaxChannels).find? fun i => !(s.channels i).active

/- The key of the slot's last user stays in `channel_key` until a connect replaces it. -/
def ipcCreate (s : State) (creatorPid : Pid) : State × Int :=
  match freeChannel s with
  | none => (s,-(enfile : Int))
  | some fd =>
      let taken := Pmm.pmmAllocPages s.pmm 3
      let ch := {s.channels fd with active := true,creatorPid := creatorPid,peerPid := -1,sharedPa := taken.2}
      if taken.2 = 0 then (setChannel {s with pmm := taken.1} fd {ch with active := false},-(enomem : Int))
      else
        let bytes := ipcPagePool * pageSize
        let ring := {Ring.zeroed with slotSize := (bytes - ringHdrSize) / ipcSlots,nSlots := ipcSlots}
        let pmm := {taken.1 with mem := zeroFill taken.1.mem (physToVirt taken.2) bytes}
        (setChannel {s with pmm := pmm} fd {ch with ring := ring},fd)

section Keyed
variable (hmac : Key → List Byte → Key) (hkdf : List Byte → List Byte → Key)

def deriveChannelKey (s : State) (creator peer : Pid) : Key :=
  hkdf (s.machineFingerprint.toList ++ littleEndian 4 creator ++ littleEndian 4 peer ++ List.replicate 32 0)
    (ascii "nekros-ipc-v1   ")

def ipcConnect (s : State) (fd : Int) (peerPid : Pid) : State × Int :=
  match channelOf fd with
  | none => (s,-(einval : Int))
  | some i =>
      let ch := s.channels i
      if !ch.active then (s,-(enoent : Int))
      else
        let key := deriveChannelKey hkdf s ch.creatorPid peerPid
        let ring := {ch.ring with channelKey := key}
        (setChannel s i {ch with peerPid := peerPid,channelKey := key,ring := ring},0)

/- What the HMAC covers; of a payload at most 4096 bytes. -/
def macInput (seq : Nat) (pid : Pid) (data : List Byte) : List Byte :=
  littleEndian 8 (BitVec.ofNat 64 seq) ++ littleEndian 4 pid ++ data.take 4096

def copyTo (area : Nat → Byte) (data : List Byte) : Nat → Byte := fun j => data.getD j (area j)

def Slot.bytes (slot : Slot) (n : Nat) : List Byte := (List.range n).map slot.payload

/- `ipc_send` once its arguments are accepted. Nothing looks at `read_seq`. -/
def Ring.send (r : Ring) (key : Key) (m : Message) : Ring :=
  let wseq := r.writeSeq
  let old := r.slots (wseq % r.nSlots)
  let new := ⟨wseq,m.sender,m.payload.length,hmac key (macInput wseq m.sender m.payload),copyTo old.payload m.payload⟩
  {r with writeSeq := wrap (wseq + 1),slots := update r.slots (wseq % r.nSlots) new}

def Ring.room (r : Ring) : Nat := sub64 r.slotSize msgHdrSize

def ipcSend (s : State) (fd : Int) (senderPid : Pid) (data : Option (List Byte)) : State × Int :=
  match channelOf fd,data with
  | some i,some data =>
      let ch := s.channels i
      if !ch.active || ch.peerPid.slt 0 then (s,-(enotconn : Int))
      else if ch.ring.room < data.length then (s,-(emsgsize : Int))
      else (setChannel s i {ch with ring := ch.ring.send hmac ch.channelKey ⟨senderPid,data⟩},data.length)
  | _,_ => (s,-(einval : Int))

structure Reply where
  ring : Ring
  rc : Int
  out : Option Message

/- `ipc_recv` on an open ring. A call that waits is one that is made when the wait is
over. A header that does not verify stays where it is, and so does `read_seq`. -/
def Ring.recv (r : Ring) (key : Key) (buflen : Nat) : Reply :=
  if r.readSeq < r.writeSeq then
    let hdr := r.slots (r.readSeq % r.nSlots)
    if buflen < hdr.len then ⟨r,-(erange : Int),none⟩
    else if hdr.hmac ≠ hmac key (macInput hdr.seq hdr.senderPid (hdr.bytes hdr.len)) then
      ⟨r,-(ebadmsg : Int),none⟩
    else ⟨{r with readSeq := wrap (r.readSeq + 1)},hdr.len,some ⟨hdr.senderPid,hdr.bytes hdr.len⟩⟩
  else ⟨r,-(eagain : Int),none⟩

def ipcRecv (s : State) (fd : Int) (buf : Option Nat) : State × Int × Option Message :=
  match channelOf fd,buf with
  | some i,some buflen =>
      let ch := s.channels i
      if !ch.active then (s,-(enoent : Int),none)
      else
        let reply := ch.ring.recv hmac ch.channelKey buflen
        (setChannel s i {ch with ring := reply.ring},reply.rc,reply.out)
  | _,_ => (s,-(einval : Int),none)

end Keyed

/- The pages go back to the allocator before the header in them is erased. -/
def ipcClose (s : State) (fd : Int) : State :=
  match channelOf fd with
  | none => s
  | some i =>
      let ch := s.channels i
      if !ch.active then s
      else
        let freed := Pmm.pmmFreePages s.pmm ch.sharedPa 3
        let pmm := {freed with mem := zeroFill freed.mem (physToVirt ch.sharedPa) ringHdrSize}
        let ring := {Ring.zeroed with slots := ch.ring.slots}
        setChannel {s with pmm := pmm} i {ch with active := false,ring := ring,channelKey := zeroKey}

theorem channelOfCases {fd : Int} {i : Nat} (h : channelOf fd = some i) : fd = i ∧ i < ipcMaxChannels := by
  unfold channelOf at h
  split at h
  · rename_i inside
    cases Option.some.inj h
    have natural := Int.toNat_of_nonneg inside.1
    refine ⟨natural.symm,Int.ofNat_lt.mp ?_⟩
    rw [natural]
    exact inside.2
  · cases h

theorem channelOfNat {i : Nat} (small : i < ipcMaxChannels) : channelOf i = some i := by
  rw [channelOf,if_pos ⟨Int.natCast_nonneg i,Int.ofNat_lt.mpr small⟩,Int.toNat_natCast]

theorem setChannelSelf (s : State) (i : Nat) (ch : Channel) : (setChannel s i ch).channels i = ch :=
  Function.update_self _ _ _

theorem setChannelOther {i j : Nat} (s : State) (ch : Channel) (different : j ≠ i) :
    (setChannel s i ch).channels j = s.channels j := Function.update_of_ne different _ _

theorem freeChannelCases {s : State} {i : Nat} (h : freeChannel s = some i) :
    i < ipcMaxChannels ∧ (s.channels i).active = false := by
  unfold freeChannel at h
  have listed := List.mem_of_find?_eq_some h
  have idle := List.find?_some h
  exact ⟨List.mem_range.mp listed,by simpa using idle⟩

structure Opened (ch : Channel) (creator : Pid) : Prop where
  active : ch.active = true
  creator : ch.creatorPid = creator
  write : ch.ring.writeSeq = 0
  read : ch.ring.readSeq = 0
  count : ch.ring.nSlots = 64
  size : ch.ring.slotSize = 510

theorem createCases (s : State) (creator : Pid) :
    (∃ i, i < ipcMaxChannels ∧ (ipcCreate s creator).2 = i ∧ (s.channels i).active = false ∧
      Opened ((ipcCreate s creator).1.channels i) creator ∧
      ∀ j, j ≠ i → (ipcCreate s creator).1.channels j = s.channels j) ∨
    ((ipcCreate s creator).2 < 0 ∧
      ∀ j, ((ipcCreate s creator).1.channels j).active = true →
        (ipcCreate s creator).1.channels j = s.channels j) := by
  unfold ipcCreate
  cases found : freeChannel s with
  | none => exact .inr ⟨(show -(enfile : Int) < 0 by decide),fun _ _ => rfl⟩
  | some i =>
      obtain ⟨small,idle⟩ := freeChannelCases found
      dsimp only
      by_cases none : (Pmm.pmmAllocPages s.pmm 3).2 = 0
      · rw [if_pos none]
        refine .inr ⟨(show -(enomem : Int) < 0 by decide),fun j open' => ?_⟩
        by_cases same : j = i
        · subst same
          rw [setChannelSelf] at open'
          cases open'
        · exact setChannelOther _ _ same
      · rw [if_neg none]
        refine .inl ⟨i,small,rfl,idle,?_,fun j different => setChannelOther _ _ different⟩
        rw [setChannelSelf]
        exact ⟨rfl,rfl,rfl,rfl,rfl,rfl⟩

theorem connectCases (hkdf : List Byte → List Byte → Key) (s : State) (fd : Int) (peer : Pid) :
    ((ipcConnect hkdf s fd peer).1 = s ∧ (ipcConnect hkdf s fd peer).2 < 0) ∨
    ∃ i : Nat, fd = i ∧ i < ipcMaxChannels ∧ (s.channels i).active = true ∧
      ipcConnect hkdf s fd peer =
        (setChannel s i {s.channels i with
          peerPid := peer
          channelKey := deriveChannelKey hkdf s (s.channels i).creatorPid peer
          ring := {(s.channels i).ring with
            channelKey := deriveChannelKey hkdf s (s.channels i).creatorPid peer}},0) := by
  unfold ipcConnect
  cases named : channelOf fd with
  | none => exact .inl ⟨rfl,(show -(einval : Int) < 0 by decide)⟩
  | some i =>
      obtain ⟨same,small⟩ := channelOfCases named
      dsimp only
      by_cases on : (s.channels i).active = true
      · rw [if_neg (by simp [on])]
        exact .inr ⟨i,same,small,on,rfl⟩
      · rw [if_pos (by simp [on])]
        exact .inl ⟨rfl,(show -(enoent : Int) < 0 by decide)⟩

theorem sendCases (hmac : Key → List Byte → Key) (s : State) (fd : Int) (sender : Pid)
    (data : Option (List Byte)) :
    ((ipcSend hmac s fd sender data).1 = s ∧ (ipcSend hmac s fd sender data).2 < 0) ∨
    ∃ (i : Nat) (payload : List Byte), fd = i ∧ data = some payload ∧ i < ipcMaxChannels ∧
      (s.channels i).active = true ∧ payload.length ≤ (s.channels i).ring.room ∧
      ipcSend hmac s fd sender data =
        (setChannel s i {s.channels i with
          ring := (s.channels i).ring.send hmac (s.channels i).channelKey ⟨sender,payload⟩},
          (payload.length : Int)) := by
  unfold ipcSend
  cases named : channelOf fd with
  | none => exact .inl ⟨rfl,(show -(einval : Int) < 0 by decide)⟩
  | some i =>
      obtain ⟨same,small⟩ := channelOfCases named
      cases data with
      | none => exact .inl ⟨rfl,(show -(einval : Int) < 0 by decide)⟩
      | some payload =>
          dsimp only
          by_cases closed : (!(s.channels i).active || (s.channels i).peerPid.slt 0) = true
          · rw [if_pos closed]
            exact .inl ⟨rfl,(show -(enotconn : Int) < 0 by decide)⟩
          · rw [if_neg closed]
            have on : (s.channels i).active = true := by
              by_contra off
              rw [Bool.not_eq_true] at off
              simp [off] at closed
            by_cases large : (s.channels i).ring.room < payload.length
            · rw [if_pos large]
              exact .inl ⟨rfl,(show -(emsgsize : Int) < 0 by decide)⟩
            · rw [if_neg large]
              exact .inr ⟨i,payload,same,rfl,small,on,Nat.not_lt.mp large,rfl⟩

theorem recvCases (hmac : Key → List Byte → Key) (s : State) (fd : Int) (buf : Option Nat) :
    (ipcRecv hmac s fd buf = (s,-(einval : Int),none) ∨ ipcRecv hmac s fd buf = (s,-(enoent : Int),none)) ∨
    ∃ i buflen : Nat, fd = i ∧ buf = some buflen ∧ i < ipcMaxChannels ∧ (s.channels i).active = true ∧
      ipcRecv hmac s fd buf =
        (setChannel s i {s.channels i with
          ring := ((s.channels i).ring.recv hmac (s.channels i).channelKey buflen).ring},
          ((s.channels i).ring.recv hmac (s.channels i).channelKey buflen).rc,
          ((s.channels i).ring.recv hmac (s.channels i).channelKey buflen).out) := by
  unfold ipcRecv
  cases named : channelOf fd with
  | none => exact .inl (.inl rfl)
  | some i =>
      obtain ⟨same,small⟩ := channelOfCases named
      cases buf with
      | none => exact .inl (.inl rfl)
      | some buflen =>
          dsimp only
          by_cases on : (s.channels i).active = true
          · rw [if_neg (by simp [on])]
            exact .inr ⟨i,buflen,same,rfl,small,on,rfl⟩
          · rw [if_pos (by simp [on])]
            exact .inl (.inr rfl)

theorem closeCases (s : State) (fd : Int) :
    ipcClose s fd = s ∨ ∃ i : Nat, fd = i ∧ i < ipcMaxChannels ∧
      ((ipcClose s fd).channels i).active = false ∧
      ∀ j, j ≠ i → (ipcClose s fd).channels j = s.channels j := by
  unfold ipcClose
  cases named : channelOf fd with
  | none => exact .inl rfl
  | some i =>
      obtain ⟨same,small⟩ := channelOfCases named
      dsimp only
      by_cases on : (s.channels i).active = true
      · rw [if_neg (by simp [on])]
        refine .inr ⟨i,same,small,?_,fun j different => setChannelOther _ _ different⟩
        exact congrArg Channel.active (setChannelSelf _ _ _)
      · rw [if_pos (by simp [on])]
        exact .inl rfl

structure Carries (hmac : Key → List Byte → Key) (key : Key) (i : Nat) (m : Message) (slot : Slot) : Prop where
  seq : slot.seq = wrap i
  sender : slot.senderPid = m.sender
  len : slot.len = m.payload.length
  payload : slot.bytes m.payload.length = m.payload
  mac : slot.hmac = hmac key (macInput (wrap i) m.sender m.payload)

def Stored (hmac : Key → List Byte → Key) (key : Key) (sent : List Message) (i : Nat) (slot : Slot) : Prop :=
  ∃ m, sent[i]? = some m ∧ Carries hmac key i m slot

structure Queued (hmac : Key → List Byte → Key) (key : Key) (r : Ring) (sent : List Message) (read : Nat) :
    Prop where
  writeSeq : r.writeSeq = wrap sent.length
  readSeq : r.readSeq = wrap read
  behind : read ≤ sent.length
  count : r.nSlots = 64
  size : r.slotSize = 510
  fits : ∀ m ∈ sent, m.payload.length ≤ 446
  held : SlotRing.Holds 64 (Stored hmac key sent) r.slots read sent.length

section Keyed
variable {hmac : Key → List Byte → Key}

theorem wrapSlot (i : Nat) : wrap i % 64 = i % 64 := by
  unfold wrap
  omega

theorem wrapSucc (i : Nat) : wrap (wrap i + 1) = wrap (i + 1) := by
  unfold wrap
  omega

theorem roomOf {r : Ring} (size : r.slotSize = 510) : r.room = 446 := by
  rw [Ring.room,size]
  rfl

theorem copyBytes (area : Nat → Byte) (data : List Byte) :
    (List.range data.length).map (copyTo area data) = data := by
  apply List.ext_getElem
  · rw [List.length_map,List.length_range]
  · intro j inside _
    rw [List.length_map,List.length_range] at inside
    rw [List.getElem_map,List.getElem_range,copyTo,List.getD_eq_getElem _ _ inside]

theorem sendCarries (key : Key) (i : Nat) (m : Message) (area : Nat → Byte) :
    Carries hmac key i m ⟨wrap i,m.sender,m.payload.length,hmac key (macInput (wrap i) m.sender m.payload),
      copyTo area m.payload⟩ :=
  ⟨rfl,rfl,rfl,copyBytes area m.payload,rfl⟩

theorem storedAppend {key : Key} {sent : List Message} {i : Nat} {slot : Slot} (m : Message)
    (h : Stored hmac key sent i slot) : Stored hmac key (sent ++ [m]) i slot := by
  obtain ⟨old,at',carries⟩ := h
  have inside : i < sent.length := (List.getElem?_eq_some_iff.mp at').1
  exact ⟨old,by rw [List.getElem?_append_left inside]; exact at',carries⟩

theorem sendQueued {key : Key} {r : Ring} {sent : List Message} {read : Nat} {m : Message}
    (fits : m.payload.length ≤ r.room) (h : Queued hmac key r sent read) :
    Queued hmac key (r.send hmac key m) (sent ++ [m]) read := by
  rw [roomOf h.size] at fits
  have behind := h.behind
  have grown := SlotRing.holdsImp (fun i slot _ stored => storedAppend m stored) h.held
  have new : Stored hmac key (sent ++ [m]) sent.length
      ⟨wrap sent.length,m.sender,m.payload.length,
        hmac key (macInput (wrap sent.length) m.sender m.payload),
        copyTo (r.slots (sent.length % 64)).payload m.payload⟩ :=
    ⟨m,List.getElem?_concat_length,sendCarries key _ m _⟩
  refine ⟨?_,h.readSeq,?_,h.count,h.size,?_,?_⟩
  · rw [Ring.send,h.writeSeq,List.length_append,List.length_singleton]
    exact wrapSucc sent.length
  · rw [List.length_append]
    omega
  · intro x mem
    rcases List.mem_append.mp mem with old | last
    · exact h.fits x old
    · rw [List.mem_singleton.mp last]
      exact fits
  · rw [Ring.send,h.writeSeq,h.count,wrapSlot,List.length_append,List.length_singleton]
    exact SlotRing.holdsPush new grown

theorem recvQueued {key : Key} {r : Ring} {sent : List Message} {read : Nat} (buflen : Nat)
    (ready : r.readSeq < r.writeSeq) (h : Queued hmac key r sent read) :
    read < sent.length ∧ ∃ m, sent[SlotRing.latest 64 sent.length read]? = some m ∧
      (r.recv hmac key buflen = if buflen < m.payload.length then ⟨r,-(erange : Int),none⟩
        else ⟨{r with readSeq := wrap (read + 1)},m.payload.length,some m⟩) := by
  have behind := h.behind
  have waiting : read < sent.length := by
    rw [h.readSeq,h.writeSeq] at ready
    rcases Nat.lt_or_eq_of_le behind with before | same
    · exact before
    · rw [same] at ready
      exact absurd ready (Nat.lt_irrefl _)
  obtain ⟨m,at',carries⟩ := SlotRing.holdsLatest (by decide) (Nat.le_refl read) waiting h.held
  have bytes : (r.slots (read % 64)).bytes (r.slots (read % 64)).len = m.payload := by
    rw [carries.len,carries.payload]
  have verifies : (r.slots (read % 64)).hmac = hmac key (macInput (r.slots (read % 64)).seq
      (r.slots (read % 64)).senderPid ((r.slots (read % 64)).bytes (r.slots (read % 64)).len)) := by
    rw [bytes,carries.seq,carries.sender,carries.mac]
  have next : wrap (r.readSeq + 1) = wrap (read + 1) := by rw [h.readSeq,wrapSucc]
  have slot : r.readSeq % r.nSlots = read % 64 := by rw [h.readSeq,h.count,wrapSlot]
  refine ⟨waiting,m,at',?_⟩
  rw [Ring.recv,if_pos ready]
  dsimp only
  rw [slot,if_neg (not_not.mpr verifies),bytes,next,carries.len,carries.sender]

theorem recvAnswers {key : Key} {r : Ring} {sent : List Message} {read : Nat} (buflen : Nat)
    (h : Queued hmac key r sent read) :
    (∃ e, (e = erange ∨ e = eagain) ∧ r.recv hmac key buflen = ⟨r,-(e : Int),none⟩) ∨
    (read < sent.length ∧ ∃ m, sent[SlotRing.latest 64 sent.length read]? = some m ∧
      r.recv hmac key buflen = ⟨{r with readSeq := wrap (read + 1)},m.payload.length,some m⟩) := by
  by_cases ready : r.readSeq < r.writeSeq
  · obtain ⟨waiting,m,last,answer⟩ := recvQueued buflen ready h
    by_cases large : buflen < m.payload.length
    · rw [if_pos large] at answer
      exact .inl ⟨erange,.inl rfl,answer⟩
    · rw [if_neg large] at answer
      exact .inr ⟨waiting,m,last,answer⟩
  · exact .inl ⟨eagain,.inr rfl,if_neg ready⟩

theorem readQueued {key : Key} {r : Ring} {sent : List Message} {read : Nat} (waiting : read < sent.length)
    (h : Queued hmac key r sent read) : Queued hmac key {r with readSeq := wrap (read + 1)} sent (read + 1) :=
  ⟨h.writeSeq,rfl,waiting,h.count,h.size,h.fits,SlotRing.holdsLater (Nat.le_succ read) h.held⟩

theorem openedQueued {ch : Channel} {creator : Pid} (key : Key) (h : Opened ch creator) :
    Queued hmac key ch.ring [] 0 :=
  ⟨h.write,h.read,Nat.le_refl 0,h.count,h.size,by simp,SlotRing.holdsNone _ _ _ 0⟩

theorem rekeyQueued {key : Key} {r : Ring} {sent : List Message} {read : Nat} (other : Key)
    (settled : read = sent.length ∨ other = key) (h : Queued hmac key r sent read) :
    Queued hmac other {r with channelKey := other} sent read := by
  refine ⟨h.writeSeq,h.readSeq,h.behind,h.count,h.size,h.fits,?_⟩
  rcases settled with rfl | rfl
  · exact SlotRing.holdsNone _ _ _ _
  · exact h.held

end Keyed

end Nekros.SharedIpc
