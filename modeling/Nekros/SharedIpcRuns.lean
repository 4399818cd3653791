import Nekros.GuardedRun
import Nekros.SharedIpc

/-! Runs of complete calls of ipc/ipc.c by any callers, beside what went through each
channel since it was created: the messages accepted by `ipc_send` and those returned by
`ipc_recv`. -/
namespace Nekros.SharedIpcRuns
open SharedIpc Errno
open Bytes (Byte)
open Aes (Key)
open CcProc (Pid)
open SlotRing (latest)
open GuardedRun (run Guarded Along guardExact guardedAlways guardedImp guardedInvariant)
open Function (update)

structure World where
  ipc : State
  sent : Nat → List Message
  received : Nat → List Message

inductive Call where
  | create (creator : Pid)
  | connect (fd : Int) (peer : Pid)
  | send (fd : Int) (sender : Pid) (data : Option (List Byte))
  | recv (fd : Int) (buf : Option Nat)
  | close (fd : Int)

def noted (log : Nat → List Message) (fd : Int) : Option Message → Nat → List Message
  | none => log
  | some m => update log fd.toNat (log fd.toNat ++ [m])

def begun (log : Nat → List Message) (fd : Int) : Nat → List Message :=
  if 0 ≤ fd then update log fd.toNat [] else log

section Keyed
variable (hmac : Key → List Byte → Key) (hkdf : List Byte → List Byte → Key)

def created (w : World) (creator : Pid) : World :=
  let r := ipcCreate w.ipc creator
  ⟨r.1,begun w.sent r.2,begun w.received r.2⟩

def afterSend (w : World) (fd : Int) (sender : Pid) (data : Option (List Byte)) : World :=
  let r := ipcSend hmac w.ipc fd sender data
  let accepted := if 0 ≤ r.2 then data.map (Message.mk sender) else none
  ⟨r.1,noted w.sent fd accepted,w.received⟩

def afterRecv (w : World) (fd : Int) (buf : Option Nat) : World :=
  let r := ipcRecv hmac w.ipc fd buf
  ⟨r.1,w.sent,noted w.received fd r.2.2⟩

def step (w : World) : Call → Option World
  | .create creator => some (created w creator)
  | .connect fd peer => some {w with ipc := (ipcConnect hkdf w.ipc fd peer).1}
  | .send fd sender data => some (afterSend hmac w fd sender data)
  | .recv fd buf => some (afterRecv hmac w fd buf)
  | .close fd => some {w with ipc := ipcClose w.ipc fd}

def Settled (w : World) : Call → Prop
  | .connect fd peer => ∀ i ∈ channelOf fd, (w.ipc.channels i).active = true →
      (w.received i).length = (w.sent i).length ∨
      deriveChannelKey hkdf w.ipc (w.ipc.channels i).creatorPid peer = (w.ipc.channels i).channelKey
  | _ => True
instance (w c) : Decidable (Settled hkdf w c) := by cases c <;> unfold Settled <;> infer_instance

end Keyed

section Keyed
variable {hmac : Key → List Byte → Key} {hkdf : List Byte → List Byte → Key}

theorem notedSelf (log : Nat → List Message) (i : Nat) (m : Message) :
    noted log i (some m) i = log i ++ [m] := by
  rw [noted,Int.toNat_natCast,Function.update_self]

theorem notedOther {log : Nat → List Message} {i j : Nat} (m : Option Message) (different : j ≠ i) :
    noted log i m j = log j := by
  cases m with
  | none => rfl
  | some m => rw [noted,Int.toNat_natCast,Function.update_of_ne different]

theorem begunSelf (log : Nat → List Message) (i : Nat) : begun log i i = [] := by
  rw [begun,if_pos (Int.natCast_nonneg i),Int.toNat_natCast,Function.update_self]

theorem begunOther {log : Nat → List Message} {i j : Nat} (different : j ≠ i) : begun log i j = log j := by
  rw [begun,if_pos (Int.natCast_nonneg i),Int.toNat_natCast,Function.update_of_ne different]

def withRing (s : State) (i : Nat) (r : Ring) : State := setChannel s i {s.channels i with ring := r}

theorem withRingOwn (s : State) (i : Nat) : withRing s i (s.channels i).ring = s := by
  unfold withRing setChannel
  rw [Function.update_eq_self]

theorem sendStep (hmac : Key → List Byte → Key) (w : World) (fd : Int) (sender : Pid)
    (data : Option (List Byte)) :
    afterSend hmac w fd sender data = w ∨
    ∃ (i : Nat) (m : Message), (w.ipc.channels i).active = true ∧
      m.payload.length ≤ (w.ipc.channels i).ring.room ∧
      afterSend hmac w fd sender data =
        ⟨withRing w.ipc i ((w.ipc.channels i).ring.send hmac (w.ipc.channels i).channelKey m),
          noted w.sent i (some m),w.received⟩ := by
  unfold afterSend
  rcases sendCases hmac w.ipc fd sender data with
    ⟨same,negative⟩ | ⟨i,payload,rfl,rfl,_,on,fits,answer⟩
  · dsimp only
    rw [same,if_neg (Int.not_le.mpr negative)]
    exact .inl rfl
  · refine .inr ⟨i,⟨sender,payload⟩,on,fits,?_⟩
    rw [answer]
    dsimp only
    rw [if_pos (Int.natCast_nonneg _)]
    rfl

theorem recvStep (hmac : Key → List Byte → Key) (w : World) (fd : Int) (buf : Option Nat) :
    (afterRecv hmac w fd buf = w ∧ (ipcRecv hmac w.ipc fd buf).2.2 = none) ∨
    ∃ i buflen : Nat, fd = i ∧ buf = some buflen ∧ (w.ipc.channels i).active = true ∧
      (ipcRecv hmac w.ipc fd buf).2.2 =
        ((w.ipc.channels i).ring.recv hmac (w.ipc.channels i).channelKey buflen).out ∧
      afterRecv hmac w fd buf =
        ⟨withRing w.ipc i ((w.ipc.channels i).ring.recv hmac (w.ipc.channels i).channelKey buflen).ring,
          w.sent,noted w.received i
            ((w.ipc.channels i).ring.recv hmac (w.ipc.channels i).channelKey buflen).out⟩ := by
  unfold afterRecv
  rcases recvCases hmac w.ipc fd buf with
    (refused | refused) | ⟨i,buflen,rfl,rfl,_,on,answer⟩
  · rw [refused]
    exact .inl ⟨rfl,rfl⟩
  · rw [refused]
    exact .inl ⟨rfl,rfl⟩
  · refine .inr ⟨i,buflen,rfl,rfl,on,?_⟩
    rw [answer]
    exact ⟨rfl,rfl⟩

def Sound (hmac : Key → List Byte → Key) (w : World) (i : Nat) : Prop :=
  (w.ipc.channels i).active = true →
    Queued hmac (w.ipc.channels i).channelKey (w.ipc.channels i).ring (w.sent i) (w.received i).length

theorem soundSame {w w' : World} {i : Nat} (h : Sound hmac w i)
    (channel : w'.ipc.channels i = w.ipc.channels i) (sent : w'.sent i = w.sent i)
    (received : w'.received i = w.received i) : Sound hmac w' i := by
  unfold Sound
  rw [channel,sent,received]
  exact h

theorem createSound {w : World} {creator : Pid} {i : Nat} (h : Sound hmac w i) :
    Sound hmac (created w creator) i := by
  unfold created
  dsimp only
  rcases createCases w.ipc creator with ⟨j,_,answer,_,opened,others⟩ | ⟨negative,kept⟩
  · rw [answer]
    by_cases same : i = j
    · subst same
      intro _
      dsimp only
      rw [begunSelf,begunSelf]
      exact openedQueued _ opened
    · refine soundSame h ?_ ?_ ?_
      · exact others i same
      · exact begunOther same
      · exact begunOther same
  · rw [begun,begun,if_neg (Int.not_le.mpr negative),if_neg (Int.not_le.mpr negative)]
    intro on
    exact soundSame h (kept i on) rfl rfl on

theorem connectSound {w : World} {fd : Int} {peer : Pid} {i : Nat} (h : Sound hmac w i)
    (settled : Settled hkdf w (.connect fd peer)) :
    Sound hmac {w with ipc := (ipcConnect hkdf w.ipc fd peer).1} i := by
  rcases connectCases hkdf w.ipc fd peer with ⟨same,_⟩ | ⟨j,rfl,small,on,answer⟩
  · rw [same]
    exact h
  · rw [answer]
    by_cases same : i = j
    · subst same
      intro _
      dsimp only
      rw [setChannelSelf]
      exact rekeyQueued _ (settled i (channelOfNat small) on) (h on)
    · exact soundSame h (setChannelOther _ _ same) rfl rfl

theorem sendSound {w : World} {i : Nat} (fd : Int) (sender : Pid) (data : Option (List Byte))
    (h : Sound hmac w i) : Sound hmac (afterSend hmac w fd sender data) i := by
  rcases sendStep hmac w fd sender data with same | ⟨j,m,on,fits,next⟩
  · rw [same]
    exact h
  · rw [next]
    by_cases same : i = j
    · subst same
      intro _
      dsimp only
      rw [withRing,setChannelSelf,notedSelf]
      exact sendQueued fits (h on)
    · refine soundSame h (setChannelOther _ _ same) ?_ rfl
      dsimp only
      exact notedOther _ same

theorem recvAnswered {w : World} {i : Nat} (buflen : Nat) (on : (w.ipc.channels i).active = true)
    (h : Sound hmac w i) :
    (afterRecv hmac w i (some buflen) = w ∧ (ipcRecv hmac w.ipc i (some buflen)).2.2 = none) ∨
    ((w.received i).length < (w.sent i).length ∧
      ∃ m r, (w.sent i)[latest 64 (w.sent i).length (w.received i).length]? = some m ∧
        (ipcRecv hmac w.ipc i (some buflen)).2.2 = some m ∧
        Queued hmac (w.ipc.channels i).channelKey r (w.sent i) ((w.received i).length + 1) ∧
        afterRecv hmac w i (some buflen) = ⟨withRing w.ipc i r,w.sent,noted w.received i (some m)⟩) := by
  rcases recvStep hmac w i (some buflen) with nothing | ⟨j,n,same,length,_,out,next⟩
  · exact .inl nothing
  · cases Int.ofNat_inj.mp same
    cases Option.some.inj length
    rcases recvAnswers buflen (h on) with ⟨e,_,answer⟩ | ⟨waiting,m,last,answer⟩
    · rw [answer] at out next
      refine .inl ⟨?_,out⟩
      rw [next,withRingOwn]
      rfl
    · rw [answer] at out next
      exact .inr ⟨waiting,m,_,last,out,readQueued waiting (h on),next⟩

theorem recvSound {w : World} {i : Nat} (fd : Int) (buf : Option Nat) (h : Sound hmac w i) :
    Sound hmac (afterRecv hmac w fd buf) i := by
  rcases recvStep hmac w fd buf with ⟨same,_⟩ | ⟨j,buflen,rfl,rfl,on,_,next⟩
  · rw [same]
    exact h
  · by_cases same : i = j
    · subst same
      rcases recvAnswered buflen on h with ⟨same,_⟩ | ⟨_,m,r,_,_,queued,next⟩
      · rw [same]
        exact h
      · rw [next]
        intro _
        dsimp only
        rw [withRing,setChannelSelf,notedSelf,List.length_append]
        exact queued
    · rw [next]
      refine soundSame h (setChannelOther _ _ same) rfl ?_
      dsimp only
      exact notedOther _ same

theorem closeSound {w : World} {fd : Int} {i : Nat} (h : Sound hmac w i) :
    Sound hmac {w with ipc := ipcClose w.ipc fd} i := by
  rcases closeCases w.ipc fd with same | ⟨j,rfl,_,off,others⟩
  · rw [same]
    exact h
  · by_cases same : i = j
    · subst same
      intro on
      dsimp only at on
      rw [off] at on
      cases on
    · exact soundSame h (others i same) rfl rfl

theorem stepSound {w w' : World} {c : Call} {i : Nat} (h : Sound hmac w i) (settled : Settled hkdf w c)
    (stepped : step hmac hkdf w c = some w') : Sound hmac w' i := by
  cases c with
  | create creator => cases Option.some.inj stepped; exact createSound h
  | connect fd peer => cases Option.some.inj stepped; exact connectSound h settled
  | send fd sender data => cases Option.some.inj stepped; exact sendSound fd sender data h
  | recv fd buf => cases Option.some.inj stepped; exact recvSound fd buf h
  | close fd => cases Option.some.inj stepped; exact closeSound h

inductive Traffic where
  | send (fd : Int) (sender : Pid) (data : Option (List Byte))
  | recv (fd : Int) (buf : Option Nat)

def Traffic.call : Traffic → Call
  | .send fd sender data => .send fd sender data
  | .recv fd buf => .recv fd buf

structure Opening where
  before : State
  creator : Pid
  peer : Pid
  fd : Nat
  created : (ipcCreate before creator).2 = fd

def Opening.world (hkdf : List Byte → List Byte → Key) (o : Opening) : World :=
  ⟨(ipcConnect hkdf (ipcCreate o.before o.creator).1 o.fd o.peer).1,fun _ => [],fun _ => []⟩

def exchange (hmac : Key → List Byte → Key) (hkdf : List Byte → List Byte → Key) (w : World)
    (t : Traffic) : Option World := step hmac hkdf w t.call

def InOrder (fd : Nat) (w : World) : Prop := w.received fd <+: w.sent fd
instance (fd w) : Decidable (InOrder fd w) := by unfold InOrder; infer_instance

def taking (hmac : Key → List Byte → Key) (fd : Nat) (w : World) : Traffic → Bool
  | .send _ _ _ => false
  | .recv fd' buf => decide (fd' = fd) && (ipcRecv hmac w.ipc fd' buf).2.2.isSome

def Undisturbed (hmac : Key → List Byte → Key) (fd : Nat) (w : World) (t : Traffic) : Prop :=
  taking hmac fd w t = true →
    (w.sent fd)[latest 64 (w.sent fd).length (w.received fd).length]? = (w.sent fd)[(w.received fd).length]?

def KeepsUp (hmac : Key → List Byte → Key) (fd : Nat) (w : World) (t : Traffic) : Prop :=
  taking hmac fd w t = true → (w.sent fd).length ≤ (w.received fd).length + 64

theorem prefixGrows {l sent : List Message} (m m' : Message) (h : l <+: sent) (due : sent[l.length]? = some m) :
    l ++ [m'] <+: sent ↔ m' = m := by
  obtain ⟨rest,rfl⟩ := h
  rw [List.prefix_append_right_inj]
  rw [List.getElem?_append_right (Nat.le_refl _),Nat.sub_self] at due
  cases rest with
  | nil => cases due
  | cons x rest =>
      cases Option.some.inj due
      constructor
      · exact fun h => (List.cons_prefix_cons.mp h).1
      · rintro rfl
        exact List.cons_prefix_cons.mpr ⟨rfl,List.nil_prefix⟩

structure Flow (hmac : Key → List Byte → Key) (fd : Nat) (w : World) : Prop where
  on : (w.ipc.channels fd).active = true
  sound : Sound hmac w fd
  order : InOrder fd w

theorem openingFlow (o : Opening) : Flow hmac o.fd (o.world hkdf) := by
  rcases createCases o.before o.creator with ⟨i,small,answer,_,opened,_⟩ | ⟨negative,_⟩
  · have same : i = o.fd := Int.ofNat_inj.mp (answer.symm.trans o.created)
    subst same
    rcases connectCases hkdf (ipcCreate o.before o.creator).1 o.fd o.peer with
      ⟨_,negative⟩ | ⟨j,same,_,_,done⟩
    · rw [ipcConnect,channelOfNat small] at negative
      dsimp only at negative
      rw [if_neg (by simp [opened.active])] at negative
      exact absurd negative (Int.lt_irrefl 0)
    · cases Int.ofNat_inj.mp same
      refine ⟨?_,fun _ => ?_,List.prefix_rfl⟩ <;> unfold Opening.world <;> rw [done] <;> dsimp only <;>
        rw [setChannelSelf]
      · exact opened.active
      · exact rekeyQueued _ (.inl rfl) (openedQueued zeroKey opened)
  · rw [o.created] at negative
    exact absurd negative (Int.not_lt.mpr (Int.natCast_nonneg _))

theorem sendFlow {fd : Nat} {w : World} (fd' : Int) (sender : Pid) (data : Option (List Byte))
    (h : Flow hmac fd w) : Flow hmac fd (afterSend hmac w fd' sender data) := by
  have sound := sendSound fd' sender data h.sound
  rcases sendStep hmac w fd' sender data with same | ⟨j,m,_,_,next⟩
  · rw [same]
    exact h
  · rw [next] at sound ⊢
    by_cases same : fd = j
    · subst same
      refine ⟨?_,sound,?_⟩
      · exact (congrArg Channel.active (setChannelSelf _ _ _)).trans h.on
      · unfold InOrder
        dsimp only
        rw [notedSelf]
        exact h.order.trans (List.prefix_append _ _)
    · refine ⟨?_,sound,?_⟩
      · exact (congrArg Channel.active (setChannelOther _ _ same)).trans h.on
      · unfold InOrder
        dsimp only
        rw [notedOther _ same]
        exact h.order

theorem recvFlow {fd : Nat} {w : World} (fd' : Int) (buf : Option Nat) (h : Flow hmac fd w) :
    (taking hmac fd w (.recv fd' buf) = false ∧ Flow hmac fd (afterRecv hmac w fd' buf)) ∨
    (taking hmac fd w (.recv fd' buf) = true ∧ ∃ m due,
      (w.sent fd)[latest 64 (w.sent fd).length (w.received fd).length]? = some m ∧
      (w.sent fd)[(w.received fd).length]? = some due ∧
      (InOrder fd (afterRecv hmac w fd' buf) ↔ m = due) ∧
      (m = due → Flow hmac fd (afterRecv hmac w fd' buf))) := by
  have sound := recvSound fd' buf h.sound
  rcases recvStep hmac w fd' buf with ⟨same,none⟩ | ⟨j,buflen,rfl,rfl,on,_,next⟩
  · rw [same]
    exact .inl ⟨by rw [taking,none]; exact Bool.and_false _,h⟩
  · by_cases same : fd = j
    · subst same
      rcases recvAnswered buflen on h.sound with ⟨same,none⟩ | ⟨waiting,m,r,last,out,_,next⟩
      · rw [same]
        exact .inl ⟨by rw [taking,none]; exact Bool.and_false _,h⟩
      · have due := List.getElem?_eq_getElem waiting
        have order : InOrder fd (afterRecv hmac w fd (some buflen)) ↔ m = (w.sent fd)[(w.received fd).length] := by
          rw [next]
          unfold InOrder
          dsimp only
          rw [notedSelf]
          exact prefixGrows _ m h.order due
        refine .inr ⟨?_,m,_,last,due,order,fun same => ⟨?_,sound,order.mpr same⟩⟩
        · rw [taking,out]
          simp
        · rw [next]
          exact (congrArg Channel.active (setChannelSelf _ _ _)).trans h.on
    · refine .inl ⟨?_,?_,sound,?_⟩
      · have different : ((j : Int) = fd) = False := eq_false (fun e => same (Int.ofNat_inj.mp e).symm)
        rw [taking]
        simp only [different,decide_false,Bool.false_and]
      · rw [next]
        exact (congrArg Channel.active (setChannelOther _ _ same)).trans h.on
      · rw [next]
        unfold InOrder
        dsimp only
        rw [notedOther _ same]
        exact h.order

theorem exchangeKeeps {fd : Nat} (w : World) (t : Traffic) (w' : World) (h : Flow hmac fd w)
    (clear : Undisturbed hmac fd w t) (stepped : exchange hmac hkdf w t = some w') : Flow hmac fd w' := by
  cases t with
  | send fd' sender data =>
      cases Option.some.inj stepped
      exact sendFlow fd' sender data h
  | recv fd' buf =>
      cases Option.some.inj stepped
      rcases recvFlow fd' buf h with ⟨_,after⟩ | ⟨takes,m,due,last,next,_,after⟩
      · exact after
      · have same := clear takes
        rw [last,next] at same
        exact after (Option.some.inj same)

theorem exchangeBreaks {fd : Nat} (w : World) (t : Traffic) (h : Flow hmac fd w)
    (disturbed : ¬ Undisturbed hmac fd w t) :
    ∃ w', exchange hmac hkdf w t = some w' ∧ ¬ InOrder fd w' := by
  obtain ⟨takes,different⟩ := Classical.not_imp.mp disturbed
  cases t with
  | send fd' sender data => cases takes
  | recv fd' buf =>
      refine ⟨_,rfl,?_⟩
      rcases recvFlow fd' buf h with ⟨idle,_⟩ | ⟨_,m,due,last,next,order,_⟩
      · rw [idle] at takes
        cases takes
      · intro after
        rw [last,next,order.mp after] at different
        exact different rfl

theorem keepsUpUndisturbed {fd : Nat} (w : World) (t : Traffic) (h : KeepsUp hmac fd w t) :
    Undisturbed hmac fd w t := by
  intro takes
  rw [SlotRing.latestSelf (h takes)]

theorem sharedDeliveryExact (hmac : Key → List Byte → Key) (hkdf : List Byte → List Byte → Key) (o : Opening)
    (traffic : List Traffic) :
    (Along (exchange hmac hkdf) (InOrder o.fd) (o.world hkdf) traffic ↔
      Guarded (exchange hmac hkdf) (Undisturbed hmac o.fd) (o.world hkdf) traffic) ∧
    (Guarded (exchange hmac hkdf) (KeepsUp hmac o.fd) (o.world hkdf) traffic →
      Along (exchange hmac hkdf) (InOrder o.fd) (o.world hkdf) traffic) := by
  have exact' : Along (exchange hmac hkdf) (InOrder o.fd) (o.world hkdf) traffic ↔
      Guarded (exchange hmac hkdf) (Undisturbed hmac o.fd) (o.world hkdf) traffic :=
    guardExact (Flow hmac o.fd) (fun _ h => h.order)
      (fun w t w' h _ clear stepped => exchangeKeeps w t w' h clear stepped)
      (fun w t h _ disturbed => exchangeBreaks w t h disturbed) (openingFlow o)
      (guardedAlways (fun _ _ => True.intro) _ _)
  exact ⟨exact',fun keeps => exact'.mpr (guardedImp keepsUpUndisturbed keeps)⟩

end Keyed

def oneBlock : Pmm.State :=
  let boot := Pmm.boot (fun _ => 0) (fun _ => true)
  let free := fun ord => if ord = 3 then Words.physToVirt 0x1000000 else 0
  {boot with nodes := fun _ => ⟨free,8,8,0x1000000,0x1008000⟩,nnodes := 1}

/- Stand-ins for the two functions: the tag is the key, and the key is the last bytes
of the fingerprint with both pids. -/
def tagOfKey (key : Key) (_ : List Byte) : Key := key

def keyOfPids (ikm _ : List Byte) : Key := Vector.ofFn fun j => ikm.getD (8 + j.val) 0

def oneChannel : Opening := ⟨ipcInit zeroKey oneBlock,1,2,0,by decide +kernel⟩

def numbered (i : Nat) : Traffic := .send 0 7 (some [BitVec.ofNat 8 i])

theorem overrunLosesFirst :
    (run (exchange tagOfKey keyOfPids) (oneChannel.world keyOfPids)
        ((List.range 65).map numbered ++ [.recv 0 (some 446)])).map
      (fun w => (w.received 0,(w.sent 0).length,(w.sent 0)[0]?)) =
      some ([⟨7,[64]⟩],65,some ⟨7,[0]⟩) := by
  decide +kernel

def start (fingerprint : Key) (pmm : Pmm.State) : World :=
  ⟨ipcInit fingerprint pmm,fun _ => [],fun _ => []⟩

theorem startSound (hmac : Key → List Byte → Key) (fingerprint : Key) (pmm : Pmm.State) (i : Nat) :
    Sound hmac (start fingerprint pmm) i := fun on => Bool.noConfusion on

section Keyed
variable {hmac : Key → List Byte → Key}

theorem recvVerifies {w : World} (sound : ∀ i, Sound hmac w i) (fd : Int) (buf : Option Nat) :
    (ipcRecv hmac w.ipc fd buf).2.1 ≠ -(ebadmsg : Int) := by
  rcases recvCases hmac w.ipc fd buf with (refused | refused) | ⟨i,buflen,_,_,_,on,answer⟩
  · rw [refused]
    exact (show -(einval : Int) ≠ -(ebadmsg : Int) by decide)
  · rw [refused]
    exact (show -(enoent : Int) ≠ -(ebadmsg : Int) by decide)
  · rw [answer]
    rcases recvAnswers buflen (sound i on) with ⟨e,which,reply⟩ | ⟨_,m,_,reply⟩
    · rw [reply]
      rcases which with rfl | rfl
      · exact (show -(erange : Int) ≠ -(ebadmsg : Int) by decide)
      · exact (show -(eagain : Int) ≠ -(ebadmsg : Int) by decide)
    · rw [reply]
      have positive := Int.natCast_nonneg m.payload.length
      have negative : -(ebadmsg : Int) < 0 := by decide
      dsimp only
      omega

theorem recvTakes {w : World} {i n : Nat} (sound : Sound hmac w i) (small : i < ipcMaxChannels)
    (on : (w.ipc.channels i).active = true)
    (ready : (w.ipc.channels i).ring.readSeq < (w.ipc.channels i).ring.writeSeq) (room : 446 ≤ n) :
    ∃ m, (ipcRecv hmac w.ipc i (some n)).2 = ((m.payload.length : Int),some m) := by
  obtain ⟨_,m,last,answer⟩ := recvQueued n ready (sound on)
  have fits := (sound on).fits m (List.mem_of_getElem? last)
  rw [if_neg (by omega)] at answer
  refine ⟨m,?_⟩
  unfold ipcRecv
  rw [channelOfNat small]
  dsimp only
  rw [if_neg (by simp [on]),answer]

end Keyed

end Nekros.SharedIpcRuns
