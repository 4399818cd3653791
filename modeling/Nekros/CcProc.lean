import Nekros.AesGcm
import Nekros.Errno
import Nekros.UserMemory

/-! CortexCrypto's kernel half, drivers/cortexcrypto/core/cc_proc.c: attestation, memory
sealing, checkpoints and the zero-trust channels. A pointer is the memory that can be
reached from it, `none` is the null pointer. The calls pass their arguments to
`aes256_gcm_encrypt` and `aes256_gcm_decrypt` in another order than crypto.h declares;
what happens is what the declared order makes of them. -/
namespace Nekros.CcProc
open Errno
open Bytes (Byte Block byteAt littleEndian)
open Aes (Key Nonce)
open AesGcm (Sealed Opened aes256GcmEncrypt aes256GcmDecrypt)
open Syscall (low32)

abbrev Pid := BitVec 32

def attestPlainLen : Nat := 96

def attestTokenLen : Nat := attestPlainLen + 16 + 12

def maxIpcChannels : Nat := 128

def ipcRingPages : Nat := 4

def ipcRingBytes : Nat := ipcRingPages * 4096

structure Ring where
  base : Nat
  bytes : Nat → Byte
  head : Nat
  tail : Nat

structure Channel where
  pidA : Pid
  pidB : Pid
  flags : BitVec 32
  sessionKey : Key
  a2b : Ring
  b2a : Ring
  fdA : Int
  fdB : Int

inductive KeyName where
  | attest
  | secureAlloc
  | session (key : Key)
  deriving DecidableEq

inductive Counter where
  | attest
  | secmem
  | ipc
  deriving DecidableEq, Repr

structure Encryption where
  name : KeyName
  key : Key
  iv : Nonce
  deriving DecidableEq

structure Draw where
  counter : Counter
  count : BitVec 32
  deriving DecidableEq, Repr

/- The statics of the file and `vmalloc_next`. `cc_ipc_close`, which clears `active`, is left to
IpcFds; without it the channels are the active slots, in order. `low` is what lies at the bottom of memory;
the last two fields record the calls of `aes256_gcm_encrypt` and of `gen_nonce`. -/
structure State where
  ready : Bool
  machineKey : Key
  attestKey : Key
  ipcKey : Key
  secureAllocKey : Key
  attestCtr : BitVec 32
  secmemCtr : BitVec 32
  ipcCtr : BitVec 32
  bootTimestamp : BitVec 64
  channels : List Channel
  nextFd : Int
  vmallocNext : Nat
  low : Nat → Byte
  encryptions : List Encryption
  drawn : List Draw

inductive Stop where
  | panic
  | fault
  deriving DecidableEq, Repr

def ascii (text : String) : List Byte := text.toList.map fun c => BitVec.ofNat 8 c.toNat

section Keyed
variable (hmac : Key → List Byte → Key)

def boot (low : Nat → Byte) : State :=
  ⟨false,Vector.replicate 32 0,Vector.replicate 32 0,Vector.replicate 32 0,Vector.replicate 32 0,
    0,0,0,0,[],100,0xFFFF000000000000,low,[],[]⟩

def ccProcInit (s : State) (machineFingerprint : Key) (tsc : BitVec 64) : State :=
  let machineKey := hmac machineFingerprint (ascii "nekros-master-v1")
  {s with
    bootTimestamp := tsc
    machineKey := machineKey
    attestKey := hmac machineKey (ascii "nekros-attest-v1")
    ipcKey := hmac machineKey (ascii "nekros-ipc-v1")
    secureAllocKey := hmac machineKey (ascii "nekros-secmem-v1")
    ready := true}

def counter (s : State) : Counter → BitVec 32
  | .attest => s.attestCtr
  | .secmem => s.secmemCtr
  | .ipc => s.ipcCtr

def setCounter (s : State) (c : Counter) (count : BitVec 32) : State :=
  match c with
  | .attest => {s with attestCtr := count}
  | .secmem => {s with secmemCtr := count}
  | .ipc => {s with ipcCtr := count}

def nonceOf (count : BitVec 32) (tsc : BitVec 64) : Nonce :=
  Vector.ofFn fun i => if i.val < 4 then byteAt count (24 - 8*i.val) else byteAt tsc (8*(i.val - 4))

def genNonce (s : State) (c : Counter) (tsc : BitVec 64) : Except Stop (State × Nonce) :=
  let count := counter s c + 1
  if count = 0 then .error .panic
  else .ok ({setCounter s c count with drawn := s.drawn ++ [⟨c,count⟩]},nonceOf count tsc)

def keyOf (s : State) : KeyName → Key
  | .attest => s.attestKey
  | .secureAlloc => s.secureAllocKey
  | .session key => key

def record (s : State) (name : KeyName) (iv : Nonce) : State :=
  {s with encryptions := s.encryptions ++ [⟨name,keyOf s name,iv⟩]}

def encrypt (s : State) (name : KeyName) (iv : Nonce) (aad pt : List Byte) : State × Sealed :=
  (record s name iv,aes256GcmEncrypt (keyOf s name) iv aad pt)

def decrypt (key : Key) (iv : Option (List Byte)) (aad ct : Option (List Byte)) (tag : Block)
    (pt : List Byte) : Except Stop Opened :=
  match iv,aad,ct with
  | some iv,some aad,some ct => .ok (aes256GcmDecrypt key (Vector.ofFn fun i => iv.getD i 0) aad ct tag pt)
  | _,_,_ => .error .fault

def readAt (memory : List Byte) (start len : Nat) : Option (List Byte) :=
  if start + len ≤ memory.length then some ((memory.drop start).take len) else none

def writeAt (memory : List Byte) (start : Nat) (bytes : List Byte) : List Byte :=
  memory.take start ++ bytes ++ memory.drop (start + bytes.length)

def lowBlock (s : State) (address : Nat) : Block := Vector.ofFn fun i => s.low (address + i.val)

structure TaskRecord where
  pid : Pid
  name : List Byte
  state : BitVec 32
  priority : BitVec 32
  cpuTime : BitVec 64
  ctxRsp : BitVec 64
  ctxRbp : BitVec 64
  ctxRbx : BitVec 64
  ctxRip : BitVec 64
  ctxRflags : BitVec 64
  cpuGranted : BitVec 64
  ramGranted : BitVec 64

structure Reply where
  rc : Int
  out : Option (List Byte)
  size : BitVec 32

def attestPlain (sha256 : List Byte → Key) (s : State) (pid : Pid) (t : TaskRecord) (score : Byte) :
    List Byte :=
  littleEndian 4 pid ++ littleEndian 4 t.priority ++ littleEndian 8 t.cpuGranted ++
    littleEndian 8 t.ramGranted ++ [score] ++ List.replicate 7 0 ++
    (sha256 ((t.name.take 31).takeWhile (· ≠ 0))).toList ++ littleEndian 8 s.bootTimestamp ++
    s.machineKey.toList.take 24

/- The plaintext goes where the additional data belongs and the pid where the text
belongs: four bytes are encrypted, the rest is only authenticated. -/
def ccKernelAttestProcess (sha256 : List Byte → Key) (s : State) (pid : Pid) (task : Option TaskRecord)
    (score : Byte) (token : Option (List Byte)) (size : Option (BitVec 32)) (tsc : BitVec 64) :
    Except Stop (State × Reply) :=
  match s.ready,token,size with
  | true,some token,some size =>
      if size.toNat < attestTokenLen then
        .ok (s,⟨-einval,some token,BitVec.ofNat 32 attestTokenLen⟩)
      else
        match task with
        | none => .ok (s,⟨-esrch,some token,size⟩)
        | some t =>
            let plain := attestPlain sha256 s pid t score
            match genNonce s .attest tsc with
            | .error stop => .error stop
            | .ok (s,nonce) =>
                let token := writeAt token 0 nonce.toList
                let (s,out) := encrypt s .attest nonce plain (littleEndian 4 pid)
                let token := writeAt token 12 out.ct
                let token := writeAt token (12 + attestPlainLen) out.tag.toList
                .ok (s,⟨0,some token,BitVec.ofNat 32 attestTokenLen⟩)
  | _,_,_ => .ok (s,⟨-einval,token,size.getD 0⟩)

def ctMemcmp (a b : List Byte) : Byte := (List.zipWith (· ^^^ ·) a b).foldl (· ||| ·) 0

/- The declared order takes the tag for the ciphertext, the address of the local `aad`
for its length and the number 4 for the tag. -/
def ccKernelVerifyAttestation (s : State) (token : Option (List Byte)) (size : BitVec 32)
    (expectedPid : Pid) (aadAddress : Nat) (plain : List Byte) : Except Stop Int :=
  match s.ready,token with
  | true,some token =>
      if size.toNat < attestTokenLen then .ok (-einval)
      else
        match decrypt s.attestKey (readAt token 0 12) (readAt token 12 attestPlainLen)
            (readAt token (12 + attestPlainLen) aadAddress) (lowBlock s 4) plain with
        | .error stop => .error stop
        | .ok opened =>
            if opened.rc ≠ 0 then .ok (-eacces)
            else
              let claimedPid := opened.pt.take 4
              if expectedPid ≠ 0 ∧ claimedPid ≠ littleEndian 4 expectedPid then .ok (-eacces)
              else if ctMemcmp ((opened.pt.drop 72).take 24) (s.machineKey.toList.take 24) ≠ 0 then
                .ok (-eacces)
              else .ok 0
  | _,_ => .ok (-einval)

def ccKernelSealMemory (s : State) (va pages : BitVec 64) (data : List Byte) (out : Option (List Byte))
    (size : BitVec 32) (tsc : BitVec 64) : Except Stop (State × Reply) :=
  match s.ready,out with
  | true,some out =>
      let dataLen := pages * 4096
      let needed : BitVec 32 := (12 + dataLen + 16).setWidth 32
      if size < needed then .ok (s,⟨-einval,some out,needed⟩)
      else
        match genNonce s .secmem tsc with
        | .error stop => .error stop
        | .ok (s,nonce) =>
            let out := writeAt out 0 nonce.toList
            let (s,result) := encrypt s .secureAlloc nonce data (littleEndian 8 va)
            let out := writeAt out 12 result.ct
            let out := writeAt out (12 + dataLen.toNat) result.tag.toList
            .ok (s,⟨0,some out,needed⟩)
  | _,_ => .ok (s,⟨-einval,out,size⟩)

def checkpointPlain (t : TaskRecord) : List Byte :=
  let fields := littleEndian 4 t.pid ++ littleEndian 4 t.state ++ littleEndian 8 t.ctxRsp ++
    littleEndian 8 t.ctxRip ++ littleEndian 8 t.ctxRflags ++ littleEndian 8 t.ctxRbx ++
    littleEndian 8 t.ctxRbp ++ littleEndian 8 t.cpuGranted ++ littleEndian 8 t.ramGranted ++
    littleEndian 8 t.cpuTime ++ (t.name.takeWhile (· ≠ 0)).take 31
  fields ++ List.replicate (256 - fields.length) 0

def ccKernelCheckpoint (s : State) (task : Option TaskRecord) (out : Option (List Byte))
    (size : BitVec 32) (tsc : BitVec 64) : Except Stop (State × Reply) :=
  match s.ready,task,out with
  | true,some t,some out =>
      let needed : BitVec 32 := 12 + 256 + 16
      if size < needed then .ok (s,⟨-einval,some out,needed⟩)
      else
        match genNonce s .attest tsc with
        | .error stop => .error stop
        | .ok (s,nonce) =>
            let out := writeAt out 0 nonce.toList
            let (s,result) := encrypt s .attest nonce (checkpointPlain t) (littleEndian 4 t.pid)
            let out := writeAt out 12 result.ct
            let out := writeAt out (12 + 256) result.tag.toList
            .ok (s,⟨0,some out,needed⟩)
  | _,_,_ => .ok (s,⟨-einval,out,size⟩)

/- `vmm_alloc` in the vmalloc window; `backed` says whether every page could be
allocated and mapped. The window is never given back. -/
def vmmAlloc (s : State) (pages : Nat) (backed : Bool) : State × Option Nat :=
  if Words.wrap (s.vmallocNext + pages * 4096) > 0xFFFF008000000000 then (s,none)
  else
    ({s with vmallocNext := s.vmallocNext + pages * 4096},
      if backed then some s.vmallocNext else none)

/- What `cc_ipc_channel_create` takes from outside: the answers for both rings with
what their pages hold, the TSC, and the last four bytes of `sk_input`, which are
never written. -/
structure Fresh where
  backedA2b : Bool
  backedB2a : Bool
  a2b : Nat → Byte
  b2a : Nat → Byte
  tsc : BitVec 64
  stale : BitVec 32

def skInput (self peer : Pid) (f : Fresh) : List Byte :=
  littleEndian 4 (if self.slt peer then self else peer) ++
    littleEndian 4 (if peer.slt self then self else peer) ++
    littleEndian 8 f.tsc ++ littleEndian 4 f.stale

def ccIpcChannelCreate (s : State) (self peer : Pid) (flags : BitVec 32) (f : Fresh) : State × Int :=
  if !s.ready then (s,-enodev)
  else if maxIpcChannels ≤ s.channels.length then (s,-enomem)
  else
    let (s,a2b) := vmmAlloc s ipcRingPages f.backedA2b
    let (s,b2a) := vmmAlloc s ipcRingPages f.backedB2a
    match a2b,b2a with
    | some a2b,some b2a =>
        let sessionKey := hmac s.ipcKey (skInput self peer f)
        let nextFd := if s.nextFd > 0x7FFFFF00 then 100 else s.nextFd
        let ch : Channel := ⟨self,peer,flags,sessionKey,⟨a2b,f.a2b,0,0⟩,⟨b2a,f.b2a,0,0⟩,nextFd,nextFd + 1⟩
        ({s with channels := s.channels ++ [ch],nextFd := nextFd + 2},nextFd)
    | _,_ => (s,-enomem)

def channelOf (s : State) (fd : Int) : Option Nat :=
  s.channels.findIdx? fun c => c.fdA == fd || c.fdB == fd

def Ring.read (r : Ring) (start len : Nat) : Option (List Byte) :=
  if start + len ≤ ipcRingBytes then some ((List.range len).map fun i => r.bytes (start + i)) else none

def Ring.write (r : Ring) (start : Nat) (bytes : List Byte) : Ring :=
  {r with bytes := fun i =>
    if start ≤ i ∧ i < start + bytes.length then bytes.getD (i - start) 0 else r.bytes i}

def Ring.word (r : Ring) (start : Nat) : BitVec 32 :=
  (r.bytes (start+3) ++ r.bytes (start+2) ++ r.bytes (start+1) ++ r.bytes start : BitVec (8+8+8+8))

def frameSize (len : Nat) : Nat := 12 + 4 + len + 16

def writeFrame (r : Ring) (nonce : Nonce) (len : Nat) (out : Sealed) : Ring :=
  let dst := r.tail
  let r := r.write dst nonce.toList
  let r := r.write (dst + 12) (littleEndian 4 (BitVec.ofNat 32 len))
  let r := r.write (dst + 16) out.ct
  let r := r.write (dst + 16 + len) out.tag.toList
  {r with tail := dst + frameSize len}

def Channel.ring (c : Channel) (aToB : Bool) : Ring := if aToB then c.a2b else c.b2a

def putRing (s : State) (i : Nat) (c : Channel) (aToB : Bool) (r : Ring) : State :=
  {s with channels := s.channels.set i (if aToB then {c with a2b := r} else {c with b2a := r})}

/- The payload goes where the additional data belongs and the nonce where the text
belongs. -/
def ccIpcSend (s : State) (fd : Int) (buf : Option (List Byte)) (tsc : BitVec 64) :
    Except Stop (State × Int) :=
  match s.ready,buf with
  | true,some payload =>
      if payload.length = 0 then .ok (s,-einval)
      else if payload.length > ipcRingBytes / 2 then .ok (s,-emsgsize)
      else
        match channelOf s fd with
        | none => .ok (s,-ebadf)
        | some i =>
            match s.channels[i]? with
            | none => .ok (s,-ebadf)
            | some c =>
                match genNonce s .ipc tsc with
                | .error stop => .error stop
                | .ok (s,nonce) =>
                    let aToB := c.fdA == fd
                    let ring := c.ring aToB
                    if low32 (ring.tail + frameSize payload.length) > ipcRingBytes then .ok (s,-enobufs)
                    else
                      let (s,out) := encrypt s (.session c.sessionKey) nonce payload nonce.toList
                      .ok (putRing s i c aToB (writeFrame ring nonce payload.length out),payload.length)
  | _,_ => .ok (s,-einval)

structure Received where
  rc : Int
  buf : Option (List Byte)

/- The declared order takes the tag for the ciphertext, the address of the frame for
its length and the number 12 for the tag. -/
def openFrame (s : State) (i : Nat) (c : Channel) (aToB : Bool) (plen : Nat) (out : List Byte) :
    Except Stop (State × Received) :=
  let ring := c.ring aToB
  match decrypt c.sessionKey (ring.read ring.head 12) (ring.read (ring.head + 16) plen)
      (ring.read (ring.head + 16 + plen) (ring.base + ring.head)) (lowBlock s 12) out with
  | .error stop => .error stop
  | .ok opened =>
      let head := ring.head + frameSize plen
      let ring := if head ≥ ring.tail then {ring with head := 0,tail := 0} else {ring with head := head}
      .ok (putRing s i c aToB ring,⟨if opened.rc ≠ 0 then -eacces else plen,some opened.pt⟩)

def ccIpcRecv (s : State) (fd : Int) (buf : Option (List Byte)) : Except Stop (State × Received) :=
  match s.ready,buf with
  | true,some out =>
      if out.length = 0 then .ok (s,⟨-einval,some out⟩)
      else
        match channelOf s fd with
        | none => .ok (s,⟨-ebadf,some out⟩)
        | some i =>
            match s.channels[i]? with
            | none => .ok (s,⟨-ebadf,some out⟩)
            | some c =>
                let aToB := c.fdB == fd
                let ring := c.ring aToB
                if ring.head = ring.tail then .ok (s,⟨-eagain,some out⟩)
                else
                  let plen := (ring.word (ring.head + 12)).toNat
                  if plen > ipcRingBytes / 2 then .ok (s,⟨-emsgsize,some out⟩)
                  else if plen > low32 out.length then .ok (s,⟨-emsgsize,some out⟩)
                  else if low32 (ring.head + frameSize plen) > ipcRingBytes then
                    .ok (s,⟨-ebadmsg,some out⟩)
                  else openFrame s i c aToB plen out
  | _,_ => .ok (s,⟨-einval,buf⟩)

theorem putRingAt {s t : State} (same : t.channels = s.channels) {i : Nat} {c : Channel}
    (slot : s.channels[i]? = some c) (aToB : Bool) (r : Ring) (j : Nat) :
    (putRing t i c aToB r).channels[j]? =
      if i = j then some (if aToB then {c with a2b := r} else {c with b2a := r}) else s.channels[j]? := by
  have bound : i < s.channels.length := (List.getElem?_eq_some_iff.mp slot).1
  rw [putRing,same]
  by_cases here : i = j
  · subst here
    rw [if_pos rfl,List.getElem?_set_self bound]
  · rw [if_neg here,List.getElem?_set_ne here]

theorem putRingKeeps {s t : State} (same : t.channels = s.channels) {i : Nat} {c : Channel}
    (slot : s.channels[i]? = some c) (aToB : Bool) (r : Ring) {d : Channel} (mem : d ∈ s.channels) :
    ∃ e ∈ (putRing t i c aToB r).channels, e.fdA = d.fdA ∧ e.fdB = d.fdB ∧ e.pidA = d.pidA ∧
      e.pidB = d.pidB ∧ e.sessionKey = d.sessionKey := by
  obtain ⟨j,atJ⟩ := List.mem_iff_getElem?.mp mem
  have after := putRingAt same slot aToB r j
  by_cases here : i = j
  · subst here
    cases slot.symm.trans atJ
    rw [if_pos rfl] at after
    refine ⟨_,List.mem_of_getElem? after,?_⟩
    cases aToB <;> exact ⟨rfl,rfl,rfl,rfl,rfl⟩
  · rw [if_neg here] at after
    exact ⟨d,List.mem_of_getElem? (after.trans atJ),rfl,rfl,rfl,rfl,rfl⟩

theorem vmmAllocSame (s : State) (pages : Nat) (backed : Bool) :
    ∃ n, (vmmAlloc s pages backed).1 = {s with vmallocNext := n} ∧ s.vmallocNext ≤ n ∧
      ∀ base, (vmmAlloc s pages backed).2 = some base → base = s.vmallocNext := by
  rw [vmmAlloc]
  split
  · exact ⟨s.vmallocNext,rfl,Nat.le_refl _,fun base none => by cases none⟩
  · refine ⟨s.vmallocNext + pages * 4096,rfl,Nat.le_add_right _ _,fun base some => ?_⟩
    cases backed with
    | false => cases some
    | true => exact (Option.some.inj some).symm

theorem vmmAllocCases {s : State} {pages : Nat} (few : pages ≤ 4096) (backed : Bool)
    (bound : s.vmallocNext ≤ 0xFFFF008000000000) :
    vmmAlloc s pages backed = (s,none) ∨
    (s.vmallocNext + pages * 4096 ≤ 0xFFFF008000000000 ∧ vmmAlloc s pages backed =
      ({s with vmallocNext := s.vmallocNext + pages * 4096},if backed then some s.vmallocNext else none)) := by
  unfold vmmAlloc
  rw [Words.wrapOfLt (by omega)]
  by_cases full : s.vmallocNext + pages * 4096 > 0xFFFF008000000000
  · rw [if_pos full]
    exact .inl rfl
  · rw [if_neg full]
    exact .inr ⟨Nat.not_lt.mp full,rfl⟩

structure SameIpc (s t : State) : Prop where
  ready : t.ready = s.ready
  channels : t.channels = s.channels
  nextFd : t.nextFd = s.nextFd
  vmallocNext : t.vmallocNext = s.vmallocNext

theorem genNonceSame {s t : State} {c : Counter} {tsc : BitVec 64} {nonce : Nonce}
    (ok : genNonce s c tsc = .ok (t,nonce)) : SameIpc s t := by
  rw [genNonce] at ok
  split at ok
  · cases ok
  · cases ok
    cases c <;> exact ⟨rfl,rfl,rfl,rfl⟩

theorem createCases (s : State) (self peer : Pid) (flags : BitVec 32) (f : Fresh) :
    (∃ n, s.vmallocNext ≤ n ∧ (ccIpcChannelCreate hmac s self peer flags f).1 = {s with vmallocNext := n} ∧
      (ccIpcChannelCreate hmac s self peer flags f).2 < 0) ∨
    (∃ n a2b b2a fd, s.vmallocNext ≤ n ∧ s.vmallocNext ≤ a2b ∧ s.vmallocNext ≤ b2a ∧
      s.channels.length < maxIpcChannels ∧ fd = (if s.nextFd > 0x7FFFFF00 then 100 else s.nextFd) ∧
      ccIpcChannelCreate hmac s self peer flags f =
        ({s with
          vmallocNext := n
          channels := s.channels ++ [⟨self,peer,flags,hmac s.ipcKey (skInput self peer f),
            ⟨a2b,f.a2b,0,0⟩,⟨b2a,f.b2a,0,0⟩,fd,fd + 1⟩]
          nextFd := fd + 2},fd)) := by
  obtain ⟨m,first,up,atA⟩ := vmmAllocSame s ipcRingPages f.backedA2b
  -- named, the two answers are pairs that the definition takes apart at once
  rcases gotA : vmmAlloc s ipcRingPages f.backedA2b with ⟨s1,a2b⟩
  obtain ⟨n,second,up',atB⟩ := vmmAllocSame s1 ipcRingPages f.backedB2a
  rcases gotB : vmmAlloc s1 ipcRingPages f.backedB2a with ⟨s2,b2a⟩
  rw [gotA] at first atA
  rw [gotB] at second atB
  dsimp only at first atA second atB
  subst first
  subst second
  dsimp only at up' atB
  have refused (code : Nat) (pos : 0 < code) : (-(code : Int)) < 0 := by omega
  -- the allocator stays closed: only its two answers matter
  obtain ⟨alloc,closed⟩ : ∃ alloc, alloc = vmmAlloc := ⟨_,rfl⟩
  unfold ccIpcChannelCreate
  rw [← closed] at gotA gotB ⊢
  split
  · exact .inl ⟨s.vmallocNext,Nat.le_refl _,rfl,refused enodev (by decide)⟩
  · split
    · exact .inl ⟨s.vmallocNext,Nat.le_refl _,rfl,refused enomem (by decide)⟩
    · rename_i room
      rw [gotA]
      dsimp only
      rw [gotB]
      dsimp only
      split
      · rename_i a2b b2a
        refine .inr ⟨n,a2b,b2a,_,Nat.le_trans up up',?_,?_,Nat.not_le.mp room,rfl,rfl⟩
        · rw [atA a2b rfl]
        · rw [atB b2a rfl]
          exact up
      · exact .inl ⟨n,Nat.le_trans up up',rfl,refused enomem (by decide)⟩

theorem sendCases {s t : State} {fd : Int} {buf : Option (List Byte)} {tsc : BitVec 64} {rc : Int}
    (ok : ccIpcSend s fd buf tsc = .ok (t,rc)) :
    (t = s ∧ rc < 0) ∨ (rc < 0 ∧ ∃ nonce, genNonce s .ipc tsc = .ok (t,nonce)) ∨
    ∃ payload i c u nonce, buf = some payload ∧ 0 < payload.length ∧
      payload.length ≤ ipcRingBytes / 2 ∧ channelOf s fd = some i ∧ s.channels[i]? = some c ∧
      genNonce s .ipc tsc = .ok (u,nonce) ∧
      low32 ((c.ring (c.fdA == fd)).tail + frameSize payload.length) ≤ ipcRingBytes ∧
      t = putRing (record u (.session c.sessionKey) nonce) i c (c.fdA == fd)
        (writeFrame (c.ring (c.fdA == fd)) nonce payload.length
          (aes256GcmEncrypt c.sessionKey nonce payload nonce.toList)) ∧
      rc = payload.length := by
  have refused (code : Nat) (pos : 0 < code) : (-(code : Int)) < 0 := by omega
  unfold ccIpcSend at ok
  split at ok
  · rename_i payload _
    split at ok
    · cases ok
      exact .inl ⟨rfl,refused einval (by decide)⟩
    · rename_i some
      split at ok
      · cases ok
        exact .inl ⟨rfl,refused emsgsize (by decide)⟩
      · rename_i fits
        split at ok
        · cases ok
          exact .inl ⟨rfl,refused ebadf (by decide)⟩
        · rename_i i found
          split at ok
          · cases ok
            exact .inl ⟨rfl,refused ebadf (by decide)⟩
          · rename_i c slot
            split at ok
            · cases ok
            · rename_i u nonce drew
              dsimp only at ok
              split at ok
              · cases ok
                exact .inr (.inl ⟨refused enobufs (by decide),nonce,drew⟩)
              · rename_i room
                cases ok
                exact .inr (.inr ⟨payload,i,c,u,nonce,rfl,Nat.pos_of_ne_zero some,Nat.not_lt.mp fits,found,
                  slot,drew,Nat.not_lt.mp room,rfl,rfl⟩)
  · cases ok
    exact .inl ⟨rfl,refused einval (by decide)⟩

theorem sendAdmitted {s : State} {fd : Int} {payload : List Byte} {i : Nat} {c : Channel} (tsc : BitVec 64)
    (started : s.ready = true) (nonempty : 0 < payload.length)
    (fits : payload.length ≤ ipcRingBytes / 2) (found : channelOf s fd = some i)
    (slot : s.channels[i]? = some c) (fresh : s.ipcCtr + 1 ≠ 0)
    (room : low32 ((c.ring (c.fdA == fd)).tail + frameSize payload.length) ≤ ipcRingBytes) :
    ∃ t, ccIpcSend s fd (some payload) tsc = .ok (t,payload.length) := by
  have drew : ∃ u nonce, genNonce s .ipc tsc = .ok (u,nonce) := ⟨_,_,if_neg fresh⟩
  obtain ⟨u,nonce,drew⟩ := drew
  unfold ccIpcSend
  rw [started]
  dsimp only
  rw [if_neg (Nat.pos_iff_ne_zero.mp nonempty),if_neg (Nat.not_lt.mpr fits),found]
  dsimp only
  rw [slot]
  dsimp only
  rw [drew]
  dsimp only
  rw [if_neg (Nat.not_lt.mpr room)]
  exact ⟨_,rfl⟩

def pendingLen (c : Channel) (fd : Int) : Nat :=
  ((c.ring (c.fdB == fd)).word ((c.ring (c.fdB == fd)).head + 12)).toNat

structure Ready (s : State) (fd : Int) (out : List Byte) (i : Nat) (c : Channel) : Prop where
  started : s.ready = true
  room : out.length ≠ 0
  found : channelOf s fd = some i
  slot : s.channels[i]? = some c
  pending : (c.ring (c.fdB == fd)).head ≠ (c.ring (c.fdB == fd)).tail
  sane : pendingLen c fd ≤ ipcRingBytes / 2
  fits : pendingLen c fd ≤ low32 out.length
  inside : low32 ((c.ring (c.fdB == fd)).head + frameSize (pendingLen c fd)) ≤ ipcRingBytes

theorem recvCases (s : State) (fd : Int) (buf : Option (List Byte)) :
    (∃ out i c, buf = some out ∧ Ready s fd out i c ∧
      ccIpcRecv s fd buf = openFrame s i c (c.fdB == fd) (pendingLen c fd) out) ∨
    ((∀ out i c, buf = some out → ¬ Ready s fd out i c) ∧
      ∃ rc, (rc < 0 ∧ rc ≠ -(eacces : Int)) ∧ ccIpcRecv s fd buf = .ok (s,⟨rc,buf⟩)) := by
  have refused (code : Nat) (pos : 0 < code ∧ code ≠ eacces) :
      (-(code : Int)) < 0 ∧ -(code : Int) ≠ -(eacces : Int) := by omega
  unfold ccIpcRecv
  split
  · rename_i out started
    split
    · rename_i empty
      refine .inr ⟨fun out' i c same ready => ?_,_,refused einval (by decide),rfl⟩
      cases same
      exact ready.room empty
    · rename_i room
      split
      · rename_i missing
        refine .inr ⟨fun out' i c same ready => ?_,_,refused ebadf (by decide),rfl⟩
        cases missing.symm.trans ready.found
      · rename_i i found
        split
        · rename_i empty
          refine .inr ⟨fun out' j c same ready => ?_,_,refused ebadf (by decide),rfl⟩
          cases found.symm.trans ready.found
          cases empty.symm.trans ready.slot
        · rename_i c slot
          -- whatever passes the checks is this buffer and this channel
          have only : ∀ out' j d, some out = some out' → Ready s fd out' j d → Ready s fd out i c := by
            intro out' j d same ready
            cases same
            cases found.symm.trans ready.found
            cases slot.symm.trans ready.slot
            exact ready
          dsimp only
          split
          · rename_i drained
            exact .inr ⟨fun out' j d same ready => (only out' j d same ready).pending drained,_,
              refused eagain (by decide),rfl⟩
          · rename_i pending
            split
            · rename_i long
              exact .inr ⟨fun out' j d same ready => Nat.not_lt.mpr (only out' j d same ready).sane long,_,
                refused emsgsize (by decide),rfl⟩
            · rename_i sane
              split
              · rename_i small
                exact .inr ⟨fun out' j d same ready => Nat.not_lt.mpr (only out' j d same ready).fits small,_,
                  refused emsgsize (by decide),rfl⟩
              · rename_i fits
                split
                · rename_i past
                  exact .inr ⟨fun out' j d same ready =>
                    Nat.not_lt.mpr (only out' j d same ready).inside past,_,refused ebadmsg (by decide),rfl⟩
                · rename_i inside
                  exact .inl ⟨out,i,c,rfl,⟨started,room,found,slot,pending,Nat.not_lt.mp sane,
                    Nat.not_lt.mp fits,Nat.not_lt.mp inside⟩,rfl⟩
  · rename_i stopped
    refine .inr ⟨fun out i c same ready => ?_,_,refused einval (by decide),rfl⟩
    exact stopped out ready.started same

end Keyed

def plainHmac (_ : Key) (_ : List Byte) : Key := Vector.replicate 32 0

def plainSha (_ : List Byte) : Key := Vector.replicate 32 0

def plainInit : State := ccProcInit plainHmac (boot fun _ => 0) (Vector.replicate 32 1) 0

end Nekros.CcProc
