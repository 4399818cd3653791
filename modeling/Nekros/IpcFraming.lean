import Nekros.IpcRuns
import Nekros.Spans
import Nekros.Window

/-! The frames in the rings of a zero-trust channel. The two calls of cc_proc.c are taken again
with the cipher as a parameter that writes only to the body of the frame and to the caller's
buffer; whatever it computes, the receiver finds the frames as they were sent. -/
namespace Nekros.IpcFraming
open Errno
open Bytes (Byte Block littleEndian)
open Aes (Key Nonce)
open CcProc
open GuardedRun (run)
open IpcRuns (channelOfSome wordOfBytes)
open Spans (Span)
open Syscall (low32)
open Window (window overwrite)

/- `encrypt` gives the body it leaves, from the text and what the body held before, and a tag;
`decrypt` gives its return value and what it leaves in the caller's buffer. -/
structure Aead where
  encrypt : Key → Nonce → List Byte → List Byte → List Byte × Block
  inside : ∀ key nonce text body, (encrypt key nonce text body).1.length = body.length
  decrypt : Key → List Byte → List Byte → List Byte → List Byte → Int × List Byte

def put (r : Ring × List Span) (start : Nat) (bytes : List Byte) : Ring × List Span :=
  (r.1.write start bytes,r.2 ++ [⟨start,bytes.length⟩])

section Cipher
variable (aead : Aead)

def putFrame (r : Ring) (key : Key) (nonce : Nonce) (payload : List Byte) : Ring × List Span :=
  let dst := r.tail
  let r := put (r,[]) dst nonce.toList
  let r := put r (dst + 12) (littleEndian 4 (BitVec.ofNat 32 payload.length))
  let out := aead.encrypt key nonce payload (window r.1.bytes (dst + 16) payload.length)
  let r := put r (dst + 16) out.1
  let r := put r (dst + 16 + payload.length) out.2.toList
  ({r.1 with tail := low32 (dst + frameSize payload.length)},r.2)

def ipcSend (s : State) (fd : Int) (buf : Option (List Byte)) (tsc : BitVec 64) :
    Except Stop (State × Int × List Span) :=
  match s.ready,buf with
  | true,some payload =>
      if payload.length = 0 then .ok (s,-einval,[])
      else if payload.length > ipcRingBytes / 2 then .ok (s,-emsgsize,[])
      else
        match channelOf s fd with
        | none => .ok (s,-ebadf,[])
        | some i =>
            match s.channels[i]? with
            | none => .ok (s,-ebadf,[])
            | some c =>
                match genNonce s .ipc tsc with
                | .error stop => .error stop
                | .ok (s,nonce) =>
                    let aToB := c.fdA == fd
                    let ring := c.ring aToB
                    if low32 (ring.tail + frameSize payload.length) > ipcRingBytes then .ok (s,-enobufs,[])
                    else
                      let (ring,writes) := putFrame aead ring c.sessionKey nonce payload
                      .ok (putRing (record s (.session c.sessionKey) nonce) i c aToB ring,payload.length,writes)
  | _,_ => .ok (s,-einval,[])

/- Where `cc_ipc_recv` returns: `tooLong` is the first -EMSGSIZE, `noRoom` the second. -/
inductive Exit where
  | invalid
  | badFd
  | empty
  | tooLong
  | noRoom
  | badMsg
  | denied
  | done (len : Nat)
  deriving DecidableEq, Repr

def Exit.rc : Exit → Int
  | .invalid => -einval
  | .badFd => -ebadf
  | .empty => -eagain
  | .tooLong => -emsgsize
  | .noRoom => -emsgsize
  | .badMsg => -ebadmsg
  | .denied => -eacces
  | .done len => len

def dropFrame (r : Ring) (plen : Nat) : Ring :=
  let head := low32 (r.head + frameSize plen)
  if head ≥ r.tail then {r with head := 0,tail := 0} else {r with head := head}

def takeFrame (s : State) (i : Nat) (c : Channel) (aToB : Bool) (plen : Nat) (out : List Byte) :
    Except Stop (State × Exit × Option (List Byte)) :=
  let ring := c.ring aToB
  match ring.read ring.head 12,ring.read (ring.head + 16) plen,ring.read (ring.head + 16 + plen) 16 with
  | some nonce,some body,some tag =>
      let (rc,out) := aead.decrypt c.sessionKey nonce body tag out
      .ok (putRing s i c aToB (dropFrame ring plen),if rc ≠ 0 then .denied else .done plen,some out)
  | _,_,_ => .error .fault

def ipcRecv (s : State) (fd : Int) (buf : Option (List Byte)) : Except Stop (State × Exit × Option (List Byte)) :=
  match s.ready,buf with
  | true,some out =>
      if out.length = 0 then .ok (s,.invalid,buf)
      else
        match channelOf s fd with
        | none => .ok (s,.badFd,buf)
        | some i =>
            match s.channels[i]? with
            | none => .ok (s,.badFd,buf)
            | some c =>
                let aToB := c.fdB == fd
                let ring := c.ring aToB
                if ring.head = ring.tail then .ok (s,.empty,buf)
                else if ring.head + 16 > ipcRingBytes then .error .fault
                else
                  let plen := (ring.word (ring.head + 12)).toNat
                  if plen > ipcRingBytes / 2 then .ok (s,.tooLong,buf)
                  else if plen > low32 out.length then .ok (s,.noRoom,buf)
                  else if low32 (ring.head + frameSize plen) > ipcRingBytes then .ok (s,.badMsg,buf)
                  else takeFrame aead s i c aToB plen out
  | _,_ => .ok (s,.invalid,buf)

end Cipher

structure Frame where
  nonce : Nonce
  body : List Byte
  tag : Block
  nonempty : 0 < body.length
  short : body.length ≤ ipcRingBytes / 2

def Frame.bytes (f : Frame) : List Byte :=
  f.nonce.toList ++ littleEndian 4 (BitVec.ofNat 32 f.body.length) ++ f.body ++ f.tag.toList

def joined (frames : List Frame) : List Byte := (frames.map Frame.bytes).flatten

structure Framed (r : Ring) (frames : List Frame) : Prop where
  ordered : r.head ≤ r.tail
  inside : r.tail ≤ ipcRingBytes
  content : window r.bytes r.head (r.tail - r.head) = joined frames

theorem frameBytesLength (f : Frame) : f.bytes.length = frameSize f.body.length := by
  have word : (littleEndian 4 (BitVec.ofNat 32 f.body.length)).length = 4 := rfl
  rw [Frame.bytes,List.length_append,List.length_append,List.length_append,Vector.length_toList,
    Vector.length_toList,word]
  rfl

theorem joinedSnoc (frames : List Frame) (f : Frame) : joined (frames ++ [f]) = joined frames ++ f.bytes := by
  rw [joined,List.map_append,List.flatten_append]
  exact congrArg (_ ++ ·) (List.append_nil _)

theorem framedNew (base : Nat) (bytes : Nat → Byte) : Framed ⟨base,bytes,0,0⟩ [] :=
  ⟨Nat.le_refl 0,Nat.zero_le _,rfl⟩

section Ring
variable {r : Ring} {f : Frame} {frames : List Frame}

theorem framedLength (h : Framed r frames) : r.tail - r.head = (joined frames).length := by
  rw [← h.content,Window.windowLength]

theorem framedSome (h : Framed r frames) (more : r.head ≠ r.tail) : ∃ f rest, frames = f::rest := by
  cases frames with
  | nil =>
      have none := framedLength h
      have ordered := h.ordered
      rw [joined,List.map_nil,List.flatten_nil,List.length_nil] at none
      omega
  | cons f rest => exact ⟨f,rest,rfl⟩

theorem framedCons (h : Framed r (f::frames)) :
    r.head + frameSize f.body.length ≤ r.tail ∧ window r.bytes r.head (frameSize f.body.length) = f.bytes ∧
      window r.bytes (r.head + frameSize f.body.length) (r.tail - (r.head + frameSize f.body.length)) =
        joined frames := by
  have ordered := h.ordered
  have parts : joined (f::frames) = f.bytes ++ joined frames := rfl
  have size := framedLength h
  rw [parts,List.length_append,frameBytesLength] at size
  have split : r.tail - r.head = frameSize f.body.length + (r.tail - (r.head + frameSize f.body.length)) := by omega
  have content := h.content
  rw [split,Window.windowAppend,parts] at content
  obtain ⟨first,others⟩ := List.append_inj content (by rw [Window.windowLength,frameBytesLength])
  exact ⟨by omega,first,others⟩

theorem writeBytes (r : Ring) (start : Nat) (bytes : List Byte) :
    (r.write start bytes).bytes = overwrite r.bytes start bytes := by
  funext i
  rcases Nat.lt_or_ge i start with before | behind
  · rw [Window.overwriteOutside (.inl before),Ring.write]
    exact if_neg (by omega)
  · rcases Nat.lt_or_ge i (start + bytes.length) with inside | outside
    · rw [Ring.write,overwrite,if_pos behind]
      refine (if_pos ⟨behind,inside⟩).trans ?_
      rw [List.getD_eq_getElem _ _ (by omega),List.getD_eq_getElem _ _ (by omega)]
    · rw [Window.overwriteOutside (.inr outside),Ring.write]
      exact if_neg (by omega)

theorem fourWrites (r : Ring) (dst : Nat) (nonce : Nonce) {word body : List Byte} (tag : Block) (four : word.length = 4) :
    (((r.write dst nonce.toList).write (dst + 12) word).write (dst + 16) body).write (dst + 16 + body.length) tag.toList =
      {r with bytes := overwrite r.bytes dst (nonce.toList ++ word ++ body ++ tag.toList)} := by
  have n12 : nonce.toList.length = 12 := Vector.length_toList
  have first : dst + 12 = dst + nonce.toList.length := by rw [n12]
  have second : dst + 16 = dst + (nonce.toList ++ word).length := by rw [List.length_append,n12,four]
  have bytes : ((((r.write dst nonce.toList).write (dst + 12) word).write (dst + 16) body).write
      (dst + 16 + body.length) tag.toList).bytes =
        overwrite r.bytes dst (nonce.toList ++ word ++ body ++ tag.toList) := by
    rw [writeBytes,writeBytes,writeBytes,writeBytes,first,Window.overwriteAppend r.bytes,
      Window.overwriteAppend _ (dst + 16),second,Window.overwriteAppend,← List.append_assoc]
  rw [← bytes]
  rfl

theorem putFrameSpec (aead : Aead) (r : Ring) (key : Key) (nonce : Nonce) (payload : List Byte) :
    ∃ (body : List Byte) (tag : Block), body.length = payload.length ∧
      (putFrame aead r key nonce payload).1 = {r with
        bytes := overwrite r.bytes r.tail
          (nonce.toList ++ littleEndian 4 (BitVec.ofNat 32 payload.length) ++ body ++ tag.toList),
        tail := low32 (r.tail + frameSize payload.length)} ∧
      (putFrame aead r key nonce payload).2 = [⟨r.tail,12⟩,⟨r.tail + 12,4⟩,⟨r.tail + 16,payload.length⟩,
        ⟨r.tail + 16 + payload.length,16⟩] := by
  have inside := aead.inside key nonce payload (window ((r.write r.tail nonce.toList).write (r.tail + 12)
    (littleEndian 4 (BitVec.ofNat 32 payload.length))).bytes (r.tail + 16) payload.length)
  rw [Window.windowLength] at inside
  rcases sealed : aead.encrypt key nonce payload (window ((r.write r.tail nonce.toList).write (r.tail + 12)
    (littleEndian 4 (BitVec.ofNat 32 payload.length))).bytes (r.tail + 16) payload.length) with ⟨body,tag⟩
  rw [sealed] at inside
  dsimp only at inside
  refine ⟨body,tag,inside,?_,?_⟩
  all_goals
    unfold putFrame
    dsimp only [put]
    rw [sealed]
    dsimp only
  · rw [← inside,fourWrites r r.tail nonce tag rfl]
  · rw [Vector.length_toList,Vector.length_toList,inside]
    rfl

theorem framedSent (aead : Aead) (h : Framed r frames) (key : Key) (nonce : Nonce) {payload : List Byte}
    (nonempty : 0 < payload.length) (short : payload.length ≤ ipcRingBytes / 2)
    (room : low32 (r.tail + frameSize payload.length) ≤ ipcRingBytes) :
    (∃ f, Framed (putFrame aead r key nonce payload).1 (frames ++ [f])) ∧
      (putFrame aead r key nonce payload).1.head = r.head ∧
      (putFrame aead r key nonce payload).1.tail = r.tail + frameSize payload.length ∧
      (∀ w ∈ (putFrame aead r key nonce payload).2, Spans.Within w ⟨r.tail,frameSize payload.length⟩) ∧
      ∀ i, i < r.tail ∨ r.tail + frameSize payload.length ≤ i →
        (putFrame aead r key nonce payload).1.bytes i = r.bytes i := by
  obtain ⟨body,tag,same,ring,writes⟩ := putFrameSpec aead r key nonce payload
  have ring16 : ipcRingBytes = 16384 := rfl
  have inside := h.inside
  have ordered := h.ordered
  have tail : low32 (r.tail + frameSize payload.length) = r.tail + frameSize payload.length := by
    unfold frameSize low32
    rw [ring16] at short inside
    omega
  rw [tail] at ring room
  let f : Frame := ⟨nonce,body,tag,by omega,by omega⟩
  have bytes : nonce.toList ++ littleEndian 4 (BitVec.ofNat 32 payload.length) ++ body ++ tag.toList = f.bytes := by
    rw [← same]
    rfl
  have size : f.bytes.length = frameSize payload.length := by rw [frameBytesLength,same]
  rw [bytes] at ring
  rw [ring,writes]
  refine ⟨⟨f,⟨by show r.head ≤ r.tail + _; omega,room,?_⟩⟩,rfl,rfl,?_,fun i outside => ?_⟩
  · show window (overwrite r.bytes r.tail f.bytes) r.head (r.tail + frameSize payload.length - r.head) = _
    have parts : r.tail + frameSize payload.length - r.head = (r.tail - r.head) + f.bytes.length := by omega
    have place : r.head + (r.tail - r.head) = r.tail := by omega
    rw [parts,Window.windowAppend,Window.windowElsewhere (by omega),h.content,place,Window.windowOverwrite,joinedSnoc]
  · intro w mem
    have whole : frameSize payload.length = 12 + 4 + payload.length + 16 := rfl
    simp only [List.mem_cons,List.not_mem_nil,or_false] at mem
    unfold Spans.Within Spans.Span.stop
    rcases mem with rfl | rfl | rfl | rfl
    all_goals
      dsimp only
      omega
  · exact Window.overwriteOutside (by rw [size]; exact outside)

theorem framedWord (h : Framed r (f::frames)) : (r.word (r.head + 12)).toNat = f.body.length := by
  obtain ⟨_,first,_⟩ := framedCons h
  have n12 : f.nonce.toList.length = 12 := Vector.length_toList
  have byte (j : Nat) (low : j < 4) : r.bytes (r.head + 12 + j) = Bytes.byteAt (BitVec.ofNat 32 f.body.length) (8*j) := by
    have there := Window.windowGet r.bytes r.head (n := frameSize f.body.length) (i := 12 + j)
      (by unfold frameSize; omega)
    rw [first,Frame.bytes,List.append_assoc,List.append_assoc,List.getElem?_append_right (by omega),n12,
      Nat.add_sub_cancel_left,List.getElem?_append_left (by show j < 4; exact low),littleEndian,
      List.getElem?_map,List.getElem?_range low,Option.map_some,← Nat.add_assoc] at there
    exact (Option.some.inj there).symm
  have b0 := byte 0 (by decide)
  have b1 := byte 1 (by decide)
  have b2 := byte 2 (by decide)
  have b3 := byte 3 (by decide)
  rw [Nat.add_zero] at b0
  have short := f.short
  have ring16 : ipcRingBytes = 16384 := rfl
  rw [Ring.word,b0,b1,b2,b3]
  refine (congrArg BitVec.toNat (wordOfBytes _)).trans ?_
  rw [BitVec.toNat_ofNat]
  omega

theorem framedDropped (h : Framed r (f::frames)) : Framed (dropFrame r f.body.length) frames := by
  obtain ⟨fits,_,others⟩ := framedCons h
  have inside := h.inside
  have ring16 : ipcRingBytes = 16384 := rfl
  have head : low32 (r.head + frameSize f.body.length) = r.head + frameSize f.body.length := by
    unfold low32
    omega
  unfold dropFrame
  dsimp only
  rw [head]
  split
  · rename_i drained
    have none : joined frames = [] := by
      rw [← others]
      refine List.eq_nil_of_length_eq_zero ?_
      rw [Window.windowLength]
      omega
    exact ⟨Nat.le_refl 0,Nat.zero_le _,none.symm⟩
  · exact ⟨fits,inside,others⟩

end Ring

/-! ### The cipher of the source

`aes256_gcm_encrypt`, called as the source does, leaves twelve bytes; those that reach behind a short
body are covered by the tag. -/

def cortexEncrypt (key : Key) (nonce : Nonce) (text body : List Byte) : List Byte × Block :=
  let out := AesGcm.aes256GcmEncrypt key nonce text nonce.toList
  (out.ct.take body.length ++ body.drop out.ct.length,out.tag)

theorem putFrameCortex {aead : Aead} (same : aead.encrypt = cortexEncrypt) {r : Ring} (inside : r.tail ≤ ipcRingBytes)
    (key : Key) (nonce : Nonce) {payload : List Byte} (short : payload.length ≤ ipcRingBytes / 2) :
    (putFrame aead r key nonce payload).1 =
      writeFrame r nonce payload.length (AesGcm.aes256GcmEncrypt key nonce payload nonce.toList) := by
  have ring16 : ipcRingBytes = 16384 := rfl
  have tail : low32 (r.tail + frameSize payload.length) = r.tail + frameSize payload.length := by
    unfold frameSize low32
    omega
  have twelve : (AesGcm.aes256GcmEncrypt key nonce payload nonce.toList).ct.length = 12 :=
    (AesGcm.ctrCryptLength _ _ _ _).trans Vector.length_toList
  unfold putFrame writeFrame
  dsimp only [put]
  rw [same,cortexEncrypt,tail,Window.windowLength]
  dsimp only
  generalize (r.write r.tail nonce.toList).write (r.tail + 12) (littleEndian 4 (BitVec.ofNat 32 payload.length)) = u
  have covered : (AesGcm.aes256GcmEncrypt key nonce payload nonce.toList).ct.length ≤
      payload.length + (AesGcm.aes256GcmEncrypt key nonce payload nonce.toList).tag.toList.length := by
    rw [twelve,Vector.length_toList]
    omega
  have bytes := Window.overwriteCovered u.bytes (r.tail + 16) covered
  rw [← writeBytes,← writeBytes,← writeBytes,← writeBytes] at bytes
  exact congrArg (fun b => CcProc.Ring.mk u.base b u.head (r.tail + frameSize payload.length)) bytes

def Kept (s : State) : Prop := ∀ c ∈ s.channels, ∀ aToB, ∃ frames, Framed (c.ring aToB) frames

theorem keptSame {s t : State} (h : Kept s) (same : t.channels = s.channels) : Kept t := by
  intro c mem
  rw [same] at mem
  exact h c mem

theorem keptPut {s t : State} {i : Nat} {c : Channel} {aToB : Bool} {r : Ring} {frames : List Frame} (h : Kept s)
    (same : t.channels = s.channels) (slot : s.channels[i]? = some c) (framed : Framed r frames) :
    Kept (putRing t i c aToB r) := by
  intro d mem dir
  have old := h c (List.mem_of_getElem? slot)
  rw [putRing,same] at mem
  rcases List.mem_or_eq_of_mem_set mem with other | rfl
  · exact h d other dir
  · cases aToB <;> cases dir
    · exact ⟨frames,framed⟩
    · exact old true
    · exact old false
    · exact ⟨frames,framed⟩

def Sends (s t : State) (writes : List Span) : Prop :=
  ∃ i c aToB r, s.channels[i]? = some c ∧ t.channels = (putRing s i c aToB r).channels ∧
    r.head = (c.ring aToB).head ∧ (∀ w ∈ writes, (c.ring aToB).tail ≤ w.start ∧ w.stop ≤ r.tail) ∧
    ∀ k, k < (c.ring aToB).tail ∨ r.tail ≤ k → r.bytes k = (c.ring aToB).bytes k

section Calls
variable (aead : Aead) {s : State}

theorem sendSpec (h : Kept s) (fd : Int) (buf : Option (List Byte)) (tsc : BitVec 64) :
    ipcSend aead s fd buf tsc = .error .panic ∧ s.ipcCtr + 1 = 0 ∨
    ∃ t rc writes, ipcSend aead s fd buf tsc = .ok (t,rc,writes) ∧ Kept t ∧
      (t.channels = s.channels ∧ writes = [] ∨ 0 < rc ∧ Sends s t writes) := by
  unfold ipcSend
  split
  case h_2 => exact .inr ⟨s,_,[],rfl,h,.inl ⟨rfl,rfl⟩⟩
  rename_i payload _
  split
  · exact .inr ⟨s,_,[],rfl,h,.inl ⟨rfl,rfl⟩⟩
  rename_i nonempty
  split
  · exact .inr ⟨s,_,[],rfl,h,.inl ⟨rfl,rfl⟩⟩
  rename_i short
  split
  · exact .inr ⟨s,_,[],rfl,h,.inl ⟨rfl,rfl⟩⟩
  rename_i i found
  split
  · exact .inr ⟨s,_,[],rfl,h,.inl ⟨rfl,rfl⟩⟩
  rename_i c slot
  split
  · rename_i stop drew
    rw [genNonce] at drew
    split at drew
    · rename_i wrapped
      cases drew
      exact .inl ⟨rfl,wrapped⟩
    · cases drew
  · rename_i u nonce drew
    have same := (genNonceSame drew).channels
    dsimp only
    split
    · exact .inr ⟨u,_,[],rfl,keptSame h same,.inl ⟨same,rfl⟩⟩
    · rename_i room
      obtain ⟨frames,framed⟩ := h c (List.mem_of_getElem? slot) (c.fdA == fd)
      obtain ⟨⟨f,grown⟩,head,tail,writes,outside⟩ := framedSent aead framed c.sessionKey nonce
        (Nat.pos_of_ne_zero nonempty) (Nat.not_lt.mp short) (Nat.not_lt.mp room)
      have positive : (0 : Int) < payload.length := Int.natCast_pos.mpr (Nat.pos_of_ne_zero nonempty)
      refine .inr ⟨_,_,_,rfl,keptPut h same slot grown,.inr ⟨positive,i,c,_,_,slot,?_,head,fun w mem => ?_,fun k far => ?_⟩⟩
      · show u.channels.set i _ = s.channels.set i _
        rw [same]
      · obtain ⟨low,high⟩ := writes w mem
        exact ⟨low,by rw [tail]; exact high⟩
      · refine outside k ?_
        rw [tail] at far
        exact far

theorem recvSpec (h : Kept s) (fd : Int) (buf : Option (List Byte)) :
    ∃ t exit out, ipcRecv aead s fd buf = .ok (t,exit,out) ∧ Kept t ∧ exit ≠ .tooLong ∧ exit ≠ .badMsg ∧
      (t.channels = s.channels ∨ exit = .denied ∨ ∃ len, exit = .done len) := by
  unfold ipcRecv
  split
  case h_2 => exact ⟨s,.invalid,_,rfl,h,by decide,by decide,.inl rfl⟩
  rename_i out _
  split
  · exact ⟨s,.invalid,_,rfl,h,by decide,by decide,.inl rfl⟩
  split
  · exact ⟨s,.badFd,_,rfl,h,by decide,by decide,.inl rfl⟩
  rename_i i found
  split
  · exact ⟨s,.badFd,_,rfl,h,by decide,by decide,.inl rfl⟩
  rename_i c slot
  dsimp only
  split
  · exact ⟨s,.empty,_,rfl,h,by decide,by decide,.inl rfl⟩
  rename_i more
  obtain ⟨frames,framed⟩ := h c (List.mem_of_getElem? slot) (c.fdB == fd)
  obtain ⟨f,rest,rfl⟩ := framedSome framed more
  obtain ⟨fits,_,_⟩ := framedCons framed
  have inside := framed.inside
  have ring16 : ipcRingBytes = 16384 := rfl
  have whole : frameSize f.body.length = 12 + 4 + f.body.length + 16 := rfl
  rw [framedWord framed,if_neg (show ¬ _ > ipcRingBytes by omega),if_neg (Nat.not_lt.mpr f.short)]
  split
  · exact ⟨s,.noRoom,_,rfl,h,by decide,by decide,.inl rfl⟩
  have small : low32 ((c.ring (c.fdB == fd)).head + frameSize f.body.length) ≤ ipcRingBytes := by
    unfold low32
    omega
  rw [if_neg (Nat.not_lt.mpr small)]
  -- the three parts of the frame lie in the ring
  have part (start len : Nat) (below : start + len ≤ ipcRingBytes) :
      ∃ bytes, (c.ring (c.fdB == fd)).read start len = some bytes := ⟨_,if_pos below⟩
  obtain ⟨nonce,readNonce⟩ := part (c.ring (c.fdB == fd)).head 12 (by omega)
  obtain ⟨body,readBody⟩ := part ((c.ring (c.fdB == fd)).head + 16) f.body.length (by omega)
  obtain ⟨tag,readTag⟩ := part ((c.ring (c.fdB == fd)).head + 16 + f.body.length) 16 (by omega)
  unfold takeFrame
  dsimp only
  rw [readNonce,readBody,readTag]
  dsimp only
  refine ⟨_,_,_,rfl,keptPut h rfl slot (framedDropped framed),?_⟩
  split
  · exact ⟨by decide,by decide,.inr (.inl rfl)⟩
  · exact ⟨Exit.noConfusion,Exit.noConfusion,.inr (.inr ⟨_,rfl⟩)⟩

end Calls

theorem sendIsCcIpcSend {aead : Aead} (same : aead.encrypt = cortexEncrypt) {s : State} (h : Kept s) (fd : Int)
    (buf : Option (List Byte)) (tsc : BitVec 64) :
    ccIpcSend s fd buf tsc = (ipcSend aead s fd buf tsc).map fun answer => (answer.1,answer.2.1) := by
  unfold ccIpcSend ipcSend
  cases ready : s.ready with
  | false => rfl
  | true =>
    cases buf with
    | none => rfl
    | some payload =>
      dsimp only
      by_cases empty : payload.length = 0
      · rw [if_pos empty,if_pos empty]
        rfl
      by_cases long : payload.length > ipcRingBytes / 2
      · rw [if_neg empty,if_neg empty,if_pos long,if_pos long]
        rfl
      rw [if_neg empty,if_neg empty,if_neg long,if_neg long]
      cases found : channelOf s fd with
      | none => rfl
      | some i =>
        dsimp only
        cases slot : s.channels[i]? with
        | none => rfl
        | some c =>
          dsimp only
          rcases drew : genNonce s .ipc tsc with stop | ⟨u,nonce⟩
          · rfl
          obtain ⟨frames,framed⟩ := h c (List.mem_of_getElem? slot) (c.fdA == fd)
          have frame := putFrameCortex same framed.inside c.sessionKey nonce (Nat.not_lt.mp long)
          dsimp only
          by_cases full : low32 ((c.ring (c.fdA == fd)).tail + frameSize payload.length) > ipcRingBytes
          · rw [if_pos full,if_pos full]
            rfl
          · rw [if_neg full,if_neg full,frame]
            rfl

theorem recvIsCcIpcRecv {aead : Aead} {s t : State} {fd : Int} {buf out : Option (List Byte)} {exit : Exit}
    (got : ipcRecv aead s fd buf = .ok (t,exit,out)) (early : exit ≠ .denied) (undone : ∀ len, exit ≠ .done len) :
    ccIpcRecv s fd buf = .ok (t,⟨exit.rc,out⟩) := by
  unfold ipcRecv at got
  unfold ccIpcRecv
  cases ready : s.ready with
  | false =>
    rw [ready] at got
    cases got
    rfl
  | true =>
    rw [ready] at got
    cases buf with
    | none =>
      cases got
      rfl
    | some dst =>
      dsimp only at got ⊢
      split at got
      · rename_i empty
        cases got
        rw [if_pos empty]
        rfl
      rename_i room
      rw [if_neg room]
      cases found : channelOf s fd with
      | none =>
        rw [found] at got
        cases got
        rfl
      | some i =>
        rw [found] at got
        dsimp only at got ⊢
        cases slot : s.channels[i]? with
        | none =>
          rw [slot] at got
          cases got
          rfl
        | some c =>
          rw [slot] at got
          dsimp only at got ⊢
          split at got
          · rename_i drained
            cases got
            rw [if_pos drained]
            rfl
          rename_i more
          rw [if_neg more]
          split at got
          · cases got
          split at got
          · rename_i long
            cases got
            rw [if_pos long]
            rfl
          rename_i sane
          rw [if_neg sane]
          split at got
          · rename_i small
            cases got
            rw [if_pos small]
            rfl
          rename_i fits
          rw [if_neg fits]
          split at got
          · rename_i bad
            cases got
            rw [if_pos bad]
            rfl
          -- the cipher is called
          unfold takeFrame at got
          dsimp only at got
          split at got
          · cases got
            split at early
            · exact absurd rfl early
            · rename_i opened
              exact absurd (if_neg opened) (undone _)
          · cases got

inductive Event where
  | create (self peer : Pid) (flags : BitVec 32) (fresh : Fresh)
  | send (fd : Int) (buf : Option (List Byte)) (tsc : BitVec 64)
  | recv (fd : Int) (buf : Option (List Byte))

def step (aead : Aead) (hmac : Key → List Byte → Key) (s : State) : Event → Option State
  | .create self peer flags fresh => some (ccIpcChannelCreate hmac s self peer flags fresh).1
  | .send fd buf tsc => (ipcSend aead s fd buf tsc).toOption.map Prod.fst
  | .recv fd buf => (ipcRecv aead s fd buf).toOption.map Prod.fst

theorem createKept {hmac : Key → List Byte → Key} {s : State} (h : Kept s) (self peer : Pid) (flags : BitVec 32)
    (fresh : Fresh) : Kept (ccIpcChannelCreate hmac s self peer flags fresh).1 := by
  rcases createCases hmac s self peer flags fresh with ⟨n,_,same,_⟩ | ⟨n,a2b,b2a,fd,_,_,_,_,_,made⟩
  · rw [same]
    exact keptSame h rfl
  · rw [made]
    intro c mem dir
    rcases List.mem_append.mp mem with old | new
    · exact h c old dir
    · rw [List.mem_singleton.mp new]
      cases dir
      · exact ⟨[],framedNew _ _⟩
      · exact ⟨[],framedNew _ _⟩

theorem stepKept {aead : Aead} {hmac : Key → List Byte → Key} (s : State) (e : Event) (s' : State) (h : Kept s)
    (next : step aead hmac s e = some s') : Kept s' := by
  cases e with
  | create self peer flags fresh =>
      cases next
      exact createKept h self peer flags fresh
  | send fd buf tsc =>
      rcases sendSpec aead h fd buf tsc with ⟨stopped,_⟩ | ⟨t,rc,writes,sent,kept,_⟩
      · rw [step,stopped] at next
        cases next
      · rw [step,sent] at next
        cases next
        exact kept
  | recv fd buf =>
      obtain ⟨t,exit,out,got,kept,_⟩ := recvSpec aead h fd buf
      rw [step,got] at next
      cases next
      exact kept

def Refused (rc : Int) : Prop := rc = -enobufs ∨ rc = -emsgsize ∨ rc = -eagain ∨ rc = -ebadf

theorem refusedNegative {rc : Int} (h : Refused rc) : rc < 0 ∧ rc ≠ -(eacces : Int) := by
  unfold Refused enobufs emsgsize eagain ebadf at h
  unfold eacces
  omega

theorem framingKept (aead : Aead) (hmac : Key → List Byte → Key) (low : Nat → Byte) (fingerprint : Key)
    (start : BitVec 64) {events : List Event} {s : State}
    (ran : run (step aead hmac) (ccProcInit hmac (boot low) fingerprint start) events = some s) :
    (∀ c ∈ s.channels, ∀ aToB, ∃ frames, Framed (c.ring aToB) frames) ∧
    (∀ fd buf tsc, ipcSend aead s fd buf tsc = .error .panic ∧ s.ipcCtr + 1 = 0 ∨
      ∃ t rc writes, ipcSend aead s fd buf tsc = .ok (t,rc,writes) ∧ (Refused rc → t.channels = s.channels) ∧
        (t.channels = s.channels ∧ writes = [] ∨ Sends s t writes)) ∧
    ∀ fd buf, ∃ t exit out, ipcRecv aead s fd buf = .ok (t,exit,out) ∧ exit ≠ .tooLong ∧ exit ≠ .badMsg ∧
      (Refused exit.rc → t.channels = s.channels) := by
  have kept : Kept s := GuardedRun.runInvariant Kept stepKept (fun c mem => by cases mem) ran
  refine ⟨kept,fun fd buf tsc => ?_,fun fd buf => ?_⟩
  · rcases sendSpec aead kept fd buf tsc with stopped | ⟨t,rc,writes,sent,_,what⟩
    · exact .inl stopped
    · refine .inr ⟨t,rc,writes,sent,fun refused => ?_,?_⟩
      · rcases what with ⟨same,_⟩ | ⟨positive,_⟩
        · exact same
        · have negative := (refusedNegative refused).1
          omega
      · exact what.imp_right And.right
  · obtain ⟨t,exit,out,got,_,notLong,notBad,what⟩ := recvSpec aead kept fd buf
    refine ⟨t,exit,out,got,notLong,notBad,fun refused => ?_⟩
    have negative := refusedNegative refused
    rcases what with same | rfl | ⟨len,rfl⟩
    · exact same
    · exact absurd rfl negative.2
    · have positive : (0 : Int) ≤ len := Int.natCast_nonneg _
      exact absurd negative.1 (Int.not_lt.mpr positive)

def copying : Aead :=
  ⟨fun _ _ text body => (text.take body.length ++ body.drop text.length,Vector.replicate 16 0),
    fun _ _ text body => by
      rw [List.length_append,List.length_take,List.length_drop]
      omega,
    fun _ _ body _ out => (0,body ++ out.drop body.length)⟩

def twoFrames : List Event :=
  [.create 1 2 0 ⟨true,true,fun _ => 0,fun _ => 0,0,0⟩,.send 100 (some [7]) 0,.send 100 (some [8,9]) 0,.recv 101 (some [0])]

theorem framingKeptTwo :
    ∃ s, run (step copying plainHmac) plainInit twoFrames = some s ∧
      s.channels.map (fun c => (c.a2b.head,c.a2b.tail)) = [(33,67)] ∧
      ∀ c ∈ s.channels, ∀ aToB, ∃ frames, Framed (c.ring aToB) frames := by
  have data : (run (step copying plainHmac) plainInit twoFrames).map
      (fun s => s.channels.map (fun c => (c.a2b.head,c.a2b.tail))) = some [(33,67)] := by decide +kernel
  obtain ⟨s,ran,cursors⟩ := Option.map_eq_some_iff.mp data
  exact ⟨s,ran,cursors,(framingKept copying plainHmac (fun _ => 0) (Vector.replicate 32 1) 0 ran).1⟩

end Nekros.IpcFraming
