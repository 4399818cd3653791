import Nekros.SharedIpcRuns

/-! `ipc_send` and `ipc_recv` cut into their reads and writes of the shared ring, one
sender beside one receiver. A sender claims its slot by the increment of `write_seq` and
fills it afterwards; the receiver looks at `write_seq` alone. `sent` grows with the
increment, `received` with the last access of a receive that returns a message. -/
namespace Nekros.SharedIpcPublish
open Words SharedIpc
open Bytes (Byte)
open Aes (Key)
open CcProc (Pid)
open SharedIpcRuns (tagOfKey)
open SlotRing (Holds holdsImp holdsLater holdsTouch holdsPush)
open GuardedRun (run Guarded Along guardExact guardedAnd guardedInvariant)
open Function (update)

/- The accesses of `ipc_send` after the increment, in order; the two loads fill
`hdr_fields`. -/
inductive Access where
  | seq
  | senderPid
  | len
  | payload
  | loadSeq
  | loadPid
  | hmac
  deriving DecidableEq, Repr

structure Sending where
  wseq : Nat
  m : Message
  next : Access
  fieldSeq : Nat
  fieldPid : Pid

inductive Receiving where
  | writeSeq (buflen rseq : Nat)
  | len (buflen rseq : Nat)
  | seq (rseq plen : Nat)
  | senderPid (rseq plen number : Nat)
  | payload (rseq plen number : Nat) (pid : Pid)
  | hmac (rseq plen : Nat) (expected : Key)
  | copy (rseq plen : Nat)
  | sender (rseq : Nat) (out : List Byte)
  | readSeq (rseq : Nat) (out : Message)

structure World where
  ring : Ring
  sender : Option Sending
  receiver : Option Receiving
  sent : List Message
  received : List Message

section Keyed
variable (hmac : Key → List Byte → Key) (key : Key)

def Sending.access (x : Sending) (slot : Slot) : Slot × Option Sending :=
  match x.next with
  | .seq => ({slot with seq := x.wseq},some {x with next := .senderPid})
  | .senderPid => ({slot with senderPid := x.m.sender},some {x with next := .len})
  | .len => ({slot with len := x.m.payload.length},some {x with next := .payload})
  | .payload => ({slot with payload := copyTo slot.payload x.m.payload},some {x with next := .loadSeq})
  | .loadSeq => (slot,some {x with next := .loadPid,fieldSeq := slot.seq})
  | .loadPid => (slot,some {x with next := .hmac,fieldPid := slot.senderPid})
  | .hmac => ({slot with hmac := hmac key (macInput x.fieldSeq x.fieldPid x.m.payload)},none)

def sendNext (w : World) (x : Sending) : World :=
  let r := x.access hmac key (w.ring.slots (x.wseq % w.ring.nSlots))
  {w with ring := {w.ring with slots := update w.ring.slots (x.wseq % w.ring.nSlots) r.1},sender := r.2}

def Receiving.access (ring : Ring) : Receiving → Option Receiving
  | .writeSeq buflen rseq => if rseq < ring.writeSeq then some (.len buflen rseq) else none
  | .len buflen rseq =>
      let plen := (ring.slots (rseq % ring.nSlots)).len
      if buflen < plen then none else some (.seq rseq plen)
  | .seq rseq plen => some (.senderPid rseq plen (ring.slots (rseq % ring.nSlots)).seq)
  | .senderPid rseq plen number => some (.payload rseq plen number (ring.slots (rseq % ring.nSlots)).senderPid)
  | .payload rseq plen number pid =>
      some (.hmac rseq plen (hmac key (macInput number pid ((ring.slots (rseq % ring.nSlots)).bytes plen))))
  | .hmac rseq plen expected =>
      if (ring.slots (rseq % ring.nSlots)).hmac ≠ expected then none else some (.copy rseq plen)
  | .copy rseq plen => some (.sender rseq ((ring.slots (rseq % ring.nSlots)).bytes plen))
  | .sender rseq out => some (.readSeq rseq ⟨(ring.slots (rseq % ring.nSlots)).senderPid,out⟩)
  | .readSeq _ _ => none

def Receiving.returned : Receiving → Option Message
  | .readSeq _ out => some out
  | _ => none

def recvNext (w : World) (y : Receiving) : World :=
  match y.returned with
  | some m =>
      let ring := {w.ring with readSeq := wrap (w.ring.readSeq + 1)}
      {w with ring := ring,receiver := none,received := w.received ++ [m]}
  | none => {w with receiver := y.access hmac key w.ring}

inductive Move where
  | send (m : Message)
  | sender
  | recv (buflen : Nat)
  | receiver

def claim (w : World) (m : Message) : World :=
  let ring := {w.ring with writeSeq := wrap (w.ring.writeSeq + 1)}
  {w with ring := ring,sender := some ⟨w.ring.writeSeq,m,.seq,0,0⟩,sent := w.sent ++ [m]}

def step (w : World) : Move → Option World
  | .send m => if w.sender.isNone ∧ m.payload.length ≤ w.ring.room then some (claim w m) else none
  | .sender => w.sender.map (sendNext hmac key w)
  | .recv buflen =>
      if w.receiver.isNone then some {w with receiver := some (.writeSeq buflen w.ring.readSeq)} else none
  | .receiver => w.receiver.map (recvNext hmac key w)

end Keyed

def start (key : Key) : World :=
  ⟨⟨0,0,510,64,key,fun _ => Slot.zeroed⟩,none,none,[],[]⟩

def Room (w : World) : Move → Prop
  | .send _ => w.sent.length < w.received.length + 64
  | _ => True
instance (w e) : Decidable (Room w e) := by cases e <;> unfold Room <;> infer_instance

def finished (sender : Option Sending) (sent : List Message) : Nat :=
  if sender.isSome then sent.length - 1 else sent.length

structure Complete (hmac : Key → List Byte → Key) (key : Key) (w : World) (i : Nat) : Prop where
  written : i < finished w.sender w.sent
  stored : Stored hmac key w.sent i (w.ring.slots (i % 64))

def Published (hmac : Key → List Byte → Key) (key : Key) (w : World) : Prop :=
  ∀ i, w.received.length ≤ i → i < w.sent.length → Complete hmac key w i

def NoneSent (w : World) : Move → Prop
  | .send m => ¬ (w.sender.isNone = true ∧ m.payload.length ≤ w.ring.room)
  | _ => True

def polls : Option Receiving → Bool
  | some (.writeSeq _ _) => true
  | _ => false

def Clean (w : World) : Move → Prop
  | .receiver => polls w.receiver = true → w.sender.isNone = true ∨ w.received.length + 1 < w.sent.length
  | _ => True
instance (w e) : Decidable (Clean w e) := by cases e <;> unfold Clean <;> infer_instance

def Written (x : Sending) (slot : Slot) : Prop :=
  match x.next with
  | .seq => True
  | .senderPid => slot.seq = x.wseq
  | .len => slot.seq = x.wseq ∧ slot.senderPid = x.m.sender
  | .payload => slot.seq = x.wseq ∧ slot.senderPid = x.m.sender ∧ slot.len = x.m.payload.length
  | .loadSeq => slot.seq = x.wseq ∧ slot.senderPid = x.m.sender ∧ slot.len = x.m.payload.length ∧
      slot.bytes x.m.payload.length = x.m.payload
  | .loadPid => (slot.seq = x.wseq ∧ slot.senderPid = x.m.sender ∧ slot.len = x.m.payload.length ∧
      slot.bytes x.m.payload.length = x.m.payload) ∧ x.fieldSeq = x.wseq
  | .hmac => (slot.seq = x.wseq ∧ slot.senderPid = x.m.sender ∧ slot.len = x.m.payload.length ∧
      slot.bytes x.m.payload.length = x.m.payload) ∧ x.fieldSeq = x.wseq ∧ x.fieldPid = x.m.sender

def Receiving.rseq : Receiving → Nat
  | .writeSeq _ rseq => rseq
  | .len _ rseq => rseq
  | .seq rseq _ => rseq
  | .senderPid rseq _ _ => rseq
  | .payload rseq _ _ _ => rseq
  | .hmac rseq _ _ => rseq
  | .copy rseq _ => rseq
  | .sender rseq _ => rseq
  | .readSeq rseq _ => rseq

def Receiving.past : Receiving → Prop
  | .writeSeq _ _ => False
  | _ => True

def Receiving.Agrees (m : Message) : Receiving → Prop
  | .writeSeq _ _ => True
  | .len _ _ => True
  | .seq _ plen => plen = m.payload.length
  | .senderPid _ plen _ => plen = m.payload.length
  | .payload _ plen _ _ => plen = m.payload.length
  | .hmac _ plen _ => plen = m.payload.length
  | .copy _ plen => plen = m.payload.length
  | .sender _ out => out = m.payload
  | .readSeq _ out => out = m

section Keyed
variable {hmac : Key → List Byte → Key} {key : Key}

theorem accessWritten (hmac : Key → List Byte → Key) (key : Key) {x : Sending} {slot : Slot}
    (h : Written x slot) :
    (∃ x', (x.access hmac key slot).2 = some x' ∧ x'.wseq = x.wseq ∧ x'.m = x.m ∧
      Written x' (x.access hmac key slot).1) ∨
    ((x.access hmac key slot).2 = none ∧
      ∀ i, x.wseq = wrap i → Carries hmac key i x.m (x.access hmac key slot).1) := by
  obtain ⟨wseq,m,next,fieldSeq,fieldPid⟩ := x
  cases next with
  | seq => exact .inl ⟨_,rfl,rfl,rfl,rfl⟩
  | senderPid => exact .inl ⟨_,rfl,rfl,rfl,h,rfl⟩
  | len => exact .inl ⟨_,rfl,rfl,rfl,h.1,h.2,rfl⟩
  | payload => exact .inl ⟨_,rfl,rfl,rfl,h.1,h.2.1,h.2.2,copyBytes slot.payload m.payload⟩
  | loadSeq => exact .inl ⟨_,rfl,rfl,rfl,h,h.1⟩
  | loadPid => exact .inl ⟨_,rfl,rfl,rfl,h.1,h.2,h.1.2.1⟩
  | hmac =>
      obtain ⟨⟨seq,pid,len,bytes⟩,fieldSeq',fieldPid'⟩ := h
      refine .inr ⟨rfl,fun i number => ⟨seq.trans number,pid,len,bytes,?_⟩⟩
      rw [← number,← fieldSeq',← fieldPid']
      rfl

structure Inv (hmac : Key → List Byte → Key) (key : Key) (w : World) : Prop where
  writeSeq : w.ring.writeSeq = wrap w.sent.length
  readSeq : w.ring.readSeq = wrap w.received.length
  count : w.ring.nSlots = 64
  size : w.ring.slotSize = 510
  lap : w.sent.length ≤ w.received.length + 64
  behind : w.received.length ≤ w.sent.length
  held : Holds 64 (Stored hmac key w.sent) w.ring.slots w.received.length (finished w.sender w.sent)
  sending : ∀ x, w.sender = some x → ∃ i, w.sent.length = i + 1 ∧ x.wseq = wrap i ∧
    w.sent[i]? = some x.m ∧ Written x (w.ring.slots (i % 64))
  receiving : ∀ y, w.receiver = some y → y.rseq = wrap w.received.length ∧
    (y.past → w.received.length < w.sent.length)

theorem startInv (hmac : Key → List Byte → Key) (key : Key) : Inv hmac key (start key) :=
  ⟨rfl,rfl,rfl,rfl,Nat.zero_le _,Nat.le_refl _,SlotRing.holdsNone _ _ _ 0,fun _ none => (by cases none),
    fun _ none => (by cases none)⟩

theorem finishedIdle {sender : Option Sending} (sent : List Message) (idle : sender = none) :
    finished sender sent = sent.length := by
  rw [finished,idle]
  rfl

theorem finishedBusy {sender : Option Sending} {x : Sending} {sent : List Message} {i : Nat}
    (busy : sender = some x) (length : sent.length = i + 1) : finished sender sent = i := by
  rw [finished,busy,length]
  rfl

theorem claimInv {w : World} {m : Message} (inv : Inv hmac key w) (idle : w.sender = none)
    (room : w.sent.length < w.received.length + 64) : Inv hmac key (claim w m) := by
  have length : (w.sent ++ [m]).length = w.sent.length + 1 := List.length_append
  have grown := holdsImp (fun i slot _ stored => storedAppend m stored) inv.held
  rw [finishedIdle w.sent idle] at grown
  refine ⟨?_,inv.readSeq,inv.count,inv.size,?_,?_,?_,?_,?_⟩
  · show wrap (w.ring.writeSeq + 1) = wrap (w.sent ++ [m]).length
    rw [inv.writeSeq,wrapSucc,length]
  · show (w.sent ++ [m]).length ≤ w.received.length + 64
    omega
  · show w.received.length ≤ (w.sent ++ [m]).length
    exact Nat.le_trans inv.behind (by omega)
  · have unchanged : finished (claim w m).sender (claim w m).sent = w.sent.length := finishedBusy rfl length
    rw [unchanged]
    exact grown
  · intro x busy
    cases Option.some.inj busy
    exact ⟨w.sent.length,length,inv.writeSeq,List.getElem?_concat_length,trivial⟩
  · intro y reading
    obtain ⟨number,waiting⟩ := inv.receiving y reading
    refine ⟨number,fun past => ?_⟩
    show w.received.length < (w.sent ++ [m]).length
    have := waiting past
    omega

theorem sendNextInv {w : World} {x : Sending} (inv : Inv hmac key w) (busy : w.sender = some x) :
    Inv hmac key (sendNext hmac key w x) := by
  obtain ⟨i,length,number,last,written⟩ := inv.sending x busy
  have slot : x.wseq % w.ring.nSlots = i % 64 := by rw [number,inv.count,wrapSlot]
  have held := inv.held
  have lap := inv.lap
  have before := finishedBusy busy length
  rw [before] at held
  unfold sendNext
  rw [slot]
  dsimp only
  rcases accessWritten hmac key written with ⟨x',next,wseq,m,done⟩ | ⟨next,carries⟩
  · refine ⟨inv.writeSeq,inv.readSeq,inv.count,inv.size,inv.lap,inv.behind,?_,?_,inv.receiving⟩
    · dsimp only
      rw [finishedBusy next length]
      exact holdsTouch (by omega) held
    · intro x'' busy'
      cases Option.some.inj (next.symm.trans busy')
      refine ⟨i,length,wseq.trans number,m ▸ last,?_⟩
      dsimp only
      rw [Function.update_self]
      exact done
  · refine ⟨inv.writeSeq,inv.readSeq,inv.count,inv.size,inv.lap,inv.behind,?_,?_,inv.receiving⟩
    · dsimp only
      rw [finishedIdle w.sent next,length]
      exact holdsPush ⟨x.m,last,carries i number⟩ held
    · intro x' busy'
      cases next.symm.trans busy'

theorem accessReceiving {ring : Ring} {y y' : Receiving} (h : y.access hmac key ring = some y') :
    y'.rseq = y.rseq ∧ y'.past ∧ (y.past ∨ y.rseq < ring.writeSeq) ∧
    ∀ i m, Carries hmac key i m (ring.slots (y.rseq % ring.nSlots)) → y.Agrees m → y'.Agrees m := by
  cases y with
  | writeSeq buflen rseq =>
      simp only [Receiving.access] at h
      split at h
      · rename_i ready
        cases Option.some.inj h
        exact ⟨rfl,trivial,.inr ready,fun _ _ _ _ => trivial⟩
      · cases h
  | len buflen rseq =>
      simp only [Receiving.access] at h
      split at h
      · cases h
      · cases Option.some.inj h
        exact ⟨rfl,trivial,.inl trivial,fun _ _ carries _ => carries.len⟩
  | seq rseq plen =>
      cases Option.some.inj h
      exact ⟨rfl,trivial,.inl trivial,fun _ _ _ agrees => agrees⟩
  | senderPid rseq plen number =>
      cases Option.some.inj h
      exact ⟨rfl,trivial,.inl trivial,fun _ _ _ agrees => agrees⟩
  | payload rseq plen number pid =>
      cases Option.some.inj h
      exact ⟨rfl,trivial,.inl trivial,fun _ _ _ agrees => agrees⟩
  | hmac rseq plen expected =>
      simp only [Receiving.access] at h
      split at h
      · cases h
      · cases Option.some.inj h
        exact ⟨rfl,trivial,.inl trivial,fun _ _ _ agrees => agrees⟩
  | copy rseq plen =>
      cases Option.some.inj h
      refine ⟨rfl,trivial,.inl trivial,fun i m carries (agrees : plen = m.payload.length) => ?_⟩
      subst agrees
      exact carries.payload
  | sender rseq out =>
      cases Option.some.inj h
      refine ⟨rfl,trivial,.inl trivial,fun i m carries (agrees : out = m.payload) => ?_⟩
      subst agrees
      exact congrArg (Message.mk · m.payload) carries.sender
  | readSeq rseq out => cases h

theorem returnedCases {y : Receiving} {m : Message} (h : y.returned = some m) :
    ∃ rseq, y = .readSeq rseq m := by
  cases y with
  | readSeq rseq out =>
      cases Option.some.inj h
      exact ⟨rseq,rfl⟩
  | _ => cases h

theorem claimed {w : World} (inv : Inv hmac key w) (ready : wrap w.received.length < w.ring.writeSeq) :
    w.received.length < w.sent.length := by
  rw [inv.writeSeq] at ready
  rcases Nat.lt_or_eq_of_le inv.behind with before | same
  · exact before
  · rw [same] at ready
    exact absurd ready (Nat.lt_irrefl _)

theorem recvNextInv {w : World} {y : Receiving} (inv : Inv hmac key w) (busy : w.receiver = some y) :
    Inv hmac key (recvNext hmac key w y) := by
  obtain ⟨number,waiting⟩ := inv.receiving y busy
  unfold recvNext
  cases done : y.returned with
  | some m =>
      obtain ⟨rseq,rfl⟩ := returnedCases done
      have length : (w.received ++ [m]).length = w.received.length + 1 := List.length_append
      have lap := inv.lap
      have more := waiting trivial
      refine ⟨inv.writeSeq,?_,inv.count,inv.size,?_,?_,?_,inv.sending,fun y' none => (by cases none)⟩ <;>
        dsimp only <;> rw [length]
      · rw [inv.readSeq,wrapSucc]
      · omega
      · exact more
      · exact holdsLater (Nat.le_succ _) inv.held
  | none =>
      refine ⟨inv.writeSeq,inv.readSeq,inv.count,inv.size,inv.lap,inv.behind,inv.held,inv.sending,?_⟩
      intro y' next
      obtain ⟨same,_,found,_⟩ := accessReceiving next
      have more : w.received.length < w.sent.length := by
        rcases found with past | ready
        · exact waiting past
        · rw [number] at ready
          exact claimed inv ready
      exact ⟨same.trans number,fun _ => more⟩

theorem stepCases {w w' : World} {e : Move} (stepped : step hmac key w e = some w') :
    (∃ m, e = .send m ∧ w.sender = none ∧ m.payload.length ≤ w.ring.room ∧ w' = claim w m) ∨
    (∃ x, e = .sender ∧ w.sender = some x ∧ w' = sendNext hmac key w x) ∨
    (∃ buflen, e = .recv buflen ∧ w.receiver = none ∧
      w' = {w with receiver := some (.writeSeq buflen w.ring.readSeq)}) ∨
    (∃ y, e = .receiver ∧ w.receiver = some y ∧ w' = recvNext hmac key w y) := by
  cases e with
  | send m =>
      simp only [step] at stepped
      split at stepped
      · rename_i free
        cases Option.some.inj stepped
        exact .inl ⟨m,rfl,Option.isNone_iff_eq_none.mp free.1,free.2,rfl⟩
      · cases stepped
  | sender =>
      obtain ⟨x,busy,rfl⟩ := Option.map_eq_some_iff.mp stepped
      exact .inr (.inl ⟨x,rfl,busy,rfl⟩)
  | recv buflen =>
      simp only [step] at stepped
      split at stepped
      · rename_i free
        cases Option.some.inj stepped
        exact .inr (.inr (.inl ⟨buflen,rfl,Option.isNone_iff_eq_none.mp free,rfl⟩))
      · cases stepped
  | receiver =>
      obtain ⟨y,busy,rfl⟩ := Option.map_eq_some_iff.mp stepped
      exact .inr (.inr (.inr ⟨y,rfl,busy,rfl⟩))

theorem stepInv (w : World) (e : Move) (w' : World) (inv : Inv hmac key w) (room : Room w e)
    (stepped : step hmac key w e = some w') : Inv hmac key w' := by
  rcases stepCases stepped with ⟨m,rfl,idle,_,rfl⟩ | ⟨x,rfl,busy,rfl⟩ | ⟨n,rfl,_,rfl⟩ | ⟨y,rfl,busy,rfl⟩
  · exact claimInv inv idle room
  · exact sendNextInv inv busy
  · refine ⟨inv.writeSeq,inv.readSeq,inv.count,inv.size,inv.lap,inv.behind,inv.held,inv.sending,?_⟩
    intro y reading
    cases Option.some.inj reading
    exact ⟨inv.readSeq,False.elim⟩
  · exact recvNextInv inv busy

theorem undeliveredComplete {w : World} {i : Nat} (inv : Inv hmac key w) (low : w.received.length ≤ i)
    (high : i < finished w.sender w.sent) : Complete hmac key w i := by
  refine ⟨high,inv.held i low high ?_⟩
  have lap := inv.lap
  have most : finished w.sender w.sent ≤ w.sent.length := by
    unfold finished
    split <;> omega
  omega

theorem publishedIff {w : World} (inv : Inv hmac key w) :
    Published hmac key w ↔ w.sender = none ∨ w.received.length = w.sent.length := by
  constructor
  · intro published
    cases busy : w.sender with
    | none => exact .inl rfl
    | some x =>
        obtain ⟨i,length,_,_,_⟩ := inv.sending x busy
        have behind := inv.behind
        refine .inr (Nat.le_antisymm behind (Nat.le_of_not_lt fun more => ?_))
        -- the message under way would be complete
        have written := (published i (by omega) (by omega)).written
        rw [finishedBusy busy length] at written
        omega
  · rintro (idle | all) i low high
    · exact undeliveredComplete inv low (by rwa [finishedIdle w.sent idle])
    · omega

theorem runPublished {moves : List Move} (room : Guarded (step hmac key) Room (start key) moves) :
    Along (step hmac key) (Published hmac key) (start key) moves ↔
      Guarded (step hmac key) NoneSent (start key) moves := by
  refine guardExact (fun w => Inv hmac key w ∧ w.sender = none)
    (fun w h => (publishedIff h.1).mpr (.inl h.2)) ?_ ?_ ⟨startInv hmac key,rfl⟩ room
  · intro w e w' ⟨inv,idle⟩ fits none stepped
    refine ⟨stepInv w e w' inv fits stepped,?_⟩
    rcases stepCases stepped with ⟨m,rfl,_,small,rfl⟩ | ⟨x,rfl,busy,rfl⟩ | ⟨n,rfl,_,rfl⟩ | ⟨y,rfl,busy,rfl⟩
    · exact absurd ⟨Option.isNone_iff_eq_none.mpr idle,small⟩ none
    · cases idle.symm.trans busy
    · exact idle
    · unfold recvNext
      split <;> exact idle
  · intro w e ⟨inv,idle⟩ fits some
    cases e with
    | send m =>
        have begun := not_not.mp some
        refine ⟨claim w m,if_pos begun,fun published => ?_⟩
        have inv' := claimInv (m := m) inv idle fits
        have length : (claim w m).sent.length = w.sent.length + 1 := List.length_append
        have behind : (claim w m).received.length ≤ w.sent.length := inv.behind
        rcases (publishedIff inv').mp published with none | all
        · cases none
        · omega
    | _ => exact absurd trivial some

structure Marked (w : World) : Prop where
  numbers : ∀ i < finished w.sender w.sent, w.sent.length ≤ i + 64 → (w.ring.slots (i % 64)).seq = wrap i
  blank : ∀ i, w.sent.length ≤ i → i < 64 → w.ring.slots i = Slot.zeroed

theorem claimMarked {w : World} (h : Marked w) (idle : w.sender = none) (m : Message) :
    Marked (claim w m) := by
  have length : (claim w m).sent.length = w.sent.length + 1 := List.length_append
  have unchanged : finished (claim w m).sender (claim w m).sent = finished w.sender w.sent := by
    rw [finishedIdle w.sent idle]
    exact finishedBusy rfl length
  refine ⟨fun i low stays => h.numbers i (unchanged ▸ low) (by omega),fun i high small => ?_⟩
  exact h.blank i (by omega) small

theorem sendNextMarked {w : World} {x : Sending} (h : Marked w) (inv : Inv hmac key w)
    (busy : w.sender = some x) : Marked (sendNext hmac key w x) := by
  obtain ⟨i,length,number,_,written⟩ := inv.sending x busy
  have slot : x.wseq % w.ring.nSlots = i % 64 := by rw [number,inv.count,wrapSlot]
  have numbers := h.numbers
  rw [finishedBusy busy length] at numbers
  unfold sendNext
  rw [slot]
  constructor
  · intro k low stays
    dsimp only at low stays ⊢
    rcases Nat.lt_or_ge k i with before | reached
    · rw [Function.update_of_ne (SlotRing.slotsApart before (by omega))]
      exact numbers k before stays
    · -- only the last access of a send counts its message as finished
      rcases accessWritten hmac key written with ⟨x',next,_⟩ | ⟨next,carries⟩
      · rw [finishedBusy next length] at low
        omega
      · rw [finishedIdle w.sent next] at low
        have last : k = i := by omega
        rw [last,Function.update_self]
        exact (carries i number).seq
  · intro k high small
    dsimp only at high ⊢
    have apart : k ≠ i % 64 := by
      rw [Nat.mod_eq_of_lt (by omega)]
      omega
    rw [Function.update_of_ne apart]
    exact h.blank k high small

theorem stepMarked (w : World) (e : Move) (w' : World) (h : Inv hmac key w ∧ Marked w) (room : Room w e)
    (stepped : step hmac key w e = some w') : Inv hmac key w' ∧ Marked w' := by
  refine ⟨stepInv w e w' h.1 room stepped,?_⟩
  rcases stepCases stepped with ⟨m,rfl,idle,_,rfl⟩ | ⟨x,rfl,busy,rfl⟩ | ⟨n,rfl,_,rfl⟩ | ⟨y,rfl,busy,rfl⟩
  · exact claimMarked h.2 idle m
  · exact sendNextMarked h.2 h.1 busy
  · exact ⟨h.2.numbers,h.2.blank⟩
  · unfold recvNext
    split <;> exact ⟨h.2.numbers,h.2.blank⟩

theorem startMarked (key : Key) : Marked (start key) :=
  ⟨fun i low => absurd low (Nat.not_lt_zero i),fun _ _ _ => rfl⟩

theorem claimedNumber {w : World} (h : Marked w) (idle : w.sender = none) (some : w.sent ≠ []) :
    (w.ring.slots (w.sent.length % 64)).seq ≠ wrap w.sent.length := by
  have pos := List.length_pos_iff.mpr some
  rcases Nat.lt_or_ge w.sent.length 64 with first | later
  · rw [Nat.mod_eq_of_lt first,h.blank _ (Nat.le_refl _) first,wrapOfLt (by omega)]
    show 0 ≠ w.sent.length
    omega
  · have before := h.numbers (w.sent.length - 64) (by rw [finishedIdle w.sent idle]; omega) (by omega)
    rw [Nat.mod_eq_sub_mod later,before]
    unfold wrap
    omega

structure Flow (hmac : Key → List Byte → Key) (key : Key) (w : World) : Prop where
  inv : Inv hmac key w
  order : w.received <+: w.sent
  due : ∀ y, w.receiver = some y → (y.past → w.received.length < finished w.sender w.sent) ∧
    ∀ m, w.sent[w.received.length]? = some m → y.Agrees m

theorem startFlow (hmac : Key → List Byte → Key) (key : Key) : Flow hmac key (start key) :=
  ⟨startInv hmac key,List.prefix_rfl,fun _ none => (by cases none)⟩

theorem claimFlow {w : World} {m : Message} (h : Flow hmac key w) (idle : w.sender = none)
    (room : w.sent.length < w.received.length + 64) : Flow hmac key (claim w m) := by
  refine ⟨claimInv h.inv idle room,h.order.trans (List.prefix_append _ _),fun y reading => ?_⟩
  obtain ⟨behind,agrees⟩ := h.due y reading
  obtain ⟨_,waiting⟩ := h.inv.receiving y reading
  have unchanged : finished (claim w m).sender (claim w m).sent = w.sent.length :=
    finishedBusy rfl List.length_append
  refine ⟨fun past => ?_,fun due at' => ?_⟩
  · rw [unchanged]
    exact waiting past
  · by_cases past : y.past
    · refine agrees due ?_
      have at' : (w.sent ++ [m])[w.received.length]? = some due := at'
      rwa [List.getElem?_append_left (waiting past)] at at'
    · cases y with
      | writeSeq buflen rseq => trivial
      | _ => exact absurd trivial past

theorem finishedGrows {w : World} {x : Sending} (inv : Inv hmac key w) (busy : w.sender = some x) :
    finished w.sender w.sent ≤
      finished (sendNext hmac key w x).sender (sendNext hmac key w x).sent := by
  obtain ⟨i,length,_,_,_⟩ := inv.sending x busy
  rw [finishedBusy busy length]
  unfold finished
  have same : (sendNext hmac key w x).sent = w.sent := rfl
  rw [same]
  split <;> omega

theorem sendNextFlow {w : World} {x : Sending} (h : Flow hmac key w) (busy : w.sender = some x) :
    Flow hmac key (sendNext hmac key w x) := by
  refine ⟨sendNextInv h.inv busy,h.order,fun y reading => ?_⟩
  obtain ⟨behind,agrees⟩ := h.due y reading
  exact ⟨fun past => Nat.lt_of_lt_of_le (behind past) (finishedGrows h.inv busy),agrees⟩

theorem dueCarries {w : World} {y : Receiving} (h : Flow hmac key w) (busy : w.receiver = some y)
    (behind : w.received.length < finished w.sender w.sent) :
    ∃ m, w.sent[w.received.length]? = some m ∧
      Carries hmac key w.received.length m (w.ring.slots (y.rseq % w.ring.nSlots)) := by
  obtain ⟨m,at',carries⟩ := (undeliveredComplete h.inv (Nat.le_refl _) behind).stored
  have slot : y.rseq % w.ring.nSlots = w.received.length % 64 := by
    rw [(h.inv.receiving y busy).1,h.inv.count,wrapSlot]
  rw [slot]
  exact ⟨m,at',carries⟩

theorem recvNextFlow {w : World} {y : Receiving} (h : Flow hmac key w) (busy : w.receiver = some y)
    (clean : Clean w .receiver) : Flow hmac key (recvNext hmac key w y) := by
  have inv := recvNextInv h.inv busy
  obtain ⟨behind,agrees⟩ := h.due y busy
  unfold recvNext at inv ⊢
  cases done : y.returned with
  | some m =>
      rw [done] at inv
      obtain ⟨rseq,rfl⟩ := returnedCases done
      obtain ⟨due,at',_⟩ := dueCarries h busy (behind trivial)
      have same : m = due := agrees due at'
      obtain ⟨rest,whole⟩ := h.order
      refine ⟨inv,?_,fun y' none => (by cases none)⟩
      rw [← whole,List.getElem?_append_right (Nat.le_refl _),Nat.sub_self] at at'
      cases rest with
      | nil => cases at'
      | cons first rest =>
          cases Option.some.inj at'
          refine ⟨rest,?_⟩
          dsimp only
          rw [same,List.append_assoc,← whole]
          rfl
  | none =>
      rw [done] at inv
      refine ⟨inv,h.order,fun y' next => ?_⟩
      obtain ⟨number,waiting⟩ := h.inv.receiving y busy
      obtain ⟨_,_,found,goes⟩ := accessReceiving next
      -- the poll is the only access that finds a message which may still be under way
      have complete : w.received.length < finished w.sender w.sent := by
        by_cases past : y.past
        · exact behind past
        · cases y with
          | writeSeq buflen rseq =>
              have ready := found.resolve_left past
              rw [number] at ready
              have more := claimed h.inv ready
              unfold Clean at clean
              rw [busy] at clean
              rcases clean rfl with idle | early
              · rw [finishedIdle w.sent (Option.isNone_iff_eq_none.mp idle)]
                exact more
              · unfold finished
                split <;> omega
          | _ => exact absurd trivial past
      obtain ⟨m,at',carries⟩ := dueCarries h busy complete
      refine ⟨fun _ => complete,fun due here => ?_⟩
      cases Option.some.inj (at'.symm.trans here)
      exact goes _ _ carries (agrees _ at')

theorem stepFlow (w : World) (e : Move) (w' : World) (h : Flow hmac key w) (ok : Room w e ∧ Clean w e)
    (stepped : step hmac key w e = some w') : Flow hmac key w' := by
  have inv := stepInv w e w' h.inv ok.1 stepped
  rcases stepCases stepped with ⟨m,rfl,idle,_,rfl⟩ | ⟨x,rfl,busy,rfl⟩ | ⟨n,rfl,_,rfl⟩ | ⟨y,rfl,busy,rfl⟩
  · exact claimFlow h idle ok.1
  · exact sendNextFlow h busy
  · refine ⟨inv,h.order,fun y reading => ?_⟩
    cases Option.some.inj reading
    exact ⟨False.elim,fun _ _ => trivial⟩
  · exact recvNextFlow h busy ok.2

end Keyed

theorem sendAlone (hmac : Key → List Byte → Key) (key : Key) (r : Ring) (y : Option Receiving)
    (sent received : List Message) (m : Message) (fits : m.payload.length ≤ r.room) :
    run (step hmac key) ⟨r,none,y,sent,received⟩ (.send m::List.replicate 7 .sender) =
      some ⟨r.send hmac key m,none,y,sent ++ [m],received⟩ := by
  have first : step hmac key ⟨r,none,y,sent,received⟩ (.send m) = some (claim ⟨r,none,y,sent,received⟩ m) :=
    if_pos ⟨rfl,fits⟩
  rw [run,first]
  simp only [List.replicate,run,step,claim,sendNext,Sending.access,Option.map_some,Option.bind_some,
    Function.update_self,Function.update_idem,Ring.send]

theorem recvAlone (hmac : Key → List Byte → Key) (key : Key) (r : Ring) (x : Option Sending)
    (sent received : List Message) (buflen : Nat) (m : Message)
    (taken : (r.recv hmac key buflen).out = some m) :
    run (step hmac key) ⟨r,x,none,sent,received⟩ (.recv buflen::List.replicate 9 .receiver) =
      some ⟨(r.recv hmac key buflen).ring,x,none,sent,received ++ [m]⟩ := by
  unfold Ring.recv at taken ⊢
  by_cases ready : r.readSeq < r.writeSeq
  · rw [if_pos ready] at taken ⊢
    dsimp only at taken ⊢
    by_cases large : buflen < (r.slots (r.readSeq % r.nSlots)).len
    · rw [if_pos large] at taken
      cases taken
    · rw [if_neg large] at taken ⊢
      split at taken
      · cases taken
      · rename_i verifies
        cases Option.some.inj taken
        rw [if_neg verifies]
        simp only [List.replicate,run,step,recvNext,Receiving.returned,Receiving.access,Option.isNone_none,
          if_true,Option.map_some,Option.bind_some,if_pos ready,if_neg large,if_neg verifies]
  · rw [if_neg ready] at taken
    cases taken

theorem publishedExact (hmac : Key → List Byte → Key) (key : Key) (moves : List Move) (w : World)
    (room : Guarded (step hmac key) Room (start key) moves)
    (ran : run (step hmac key) (start key) moves = some w) :
    w.ring.readSeq = wrap w.received.length ∧ w.ring.writeSeq = wrap w.sent.length ∧
    (Published hmac key w ↔ w.sender = none ∨ w.received.length = w.sent.length) ∧
    (∀ m w', step hmac key w (.send m) = some w' → w.sent ≠ [] →
      (w'.ring.slots (w.sent.length % 64)).seq ≠ wrap w.sent.length) ∧
    (Along (step hmac key) (Published hmac key) (start key) moves ↔
      Guarded (step hmac key) NoneSent (start key) moves) ∧
    (Guarded (step hmac key) Clean (start key) moves → w.received <+: w.sent) := by
  obtain ⟨inv,marked⟩ := guardedInvariant (fun w => Inv hmac key w ∧ Marked w) stepMarked
    ⟨startInv hmac key,startMarked key⟩ room ran
  refine ⟨inv.readSeq,inv.writeSeq,publishedIff inv,fun m w' begun some => ?_,runPublished room,fun clean => ?_⟩
  · rcases stepCases begun with ⟨m',_,idle,_,rfl⟩ | ⟨_,other,_⟩ | ⟨_,other,_⟩ | ⟨_,other,_⟩
    · exact claimedNumber marked idle some
    all_goals cases other
  · exact (guardedInvariant (Flow hmac key) stepFlow (startFlow hmac key) (guardedAnd room clean) ran).order

def numbered (i : Nat) : Message := ⟨7,[BitVec.ofNat 8 i]⟩

def turn (i : Nat) : List Move :=
  .send (numbered i)::List.replicate 7 .sender ++ .recv 446::List.replicate 9 .receiver

def overlapping : List Move :=
  .send (numbered 0)::List.replicate 7 .sender ++ [.recv 446,.receiver,.receiver,.send (numbered 1),.sender] ++
    List.replicate 7 .receiver

theorem publishedExactOverlapping :
    ∃ w, run (step tagOfKey zeroKey) (start zeroKey) overlapping = some w ∧ w.received.length = 1 ∧
      w.sent.length = 2 ∧ ¬ Published tagOfKey zeroKey w ∧ w.received <+: w.sent := by
  have ran : (run (step tagOfKey zeroKey) (start zeroKey) overlapping).map
      (fun w => (w.received.length,w.sent.length,w.sender.isSome)) = some (1,2,true) := by decide +kernel
  obtain ⟨w,here,counts⟩ := Option.map_eq_some_iff.mp ran
  obtain ⟨received,rest⟩ := Prod.mk.inj counts
  obtain ⟨sent,busy⟩ := Prod.mk.inj rest
  obtain ⟨_,_,exactly,_,_,order⟩ :=
    publishedExact tagOfKey zeroKey overlapping w (by decide +kernel) here
  refine ⟨w,here,received,sent,fun published => ?_,order (by decide +kernel)⟩
  rcases exactly.mp published with idle | all
  · rw [idle] at busy
    cases busy
  · rw [received,sent] at all
    cases all

/- After a whole lap the sender has claimed slot 0 again and written nothing to it yet:
the receiver finds message 0 there, which verifies, and returns it as message 64. -/
def lapAndClaim : List Move := (List.range 64).flatMap turn ++ [.send (numbered 64)]

theorem staleMessageReturned :
    Guarded (step tagOfKey zeroKey) Room (start zeroKey)
      (lapAndClaim ++ .recv 446::List.replicate 9 .receiver) ∧
    ((run (step tagOfKey zeroKey) (start zeroKey) lapAndClaim).map
      (fun w => (w.ring.readSeq,w.ring.writeSeq,(w.ring.slots (64 % 64)).seq)) = some (64,65,0)) ∧
    (run (step tagOfKey zeroKey) (start zeroKey)
        (lapAndClaim ++ .recv 446::List.replicate 9 .receiver)).map
      (fun w => (w.received[64]?,w.sent[64]?)) = some (some (numbered 0),some (numbered 64)) :=
  ⟨by decide +kernel,by decide +kernel,by decide +kernel⟩

end Nekros.SharedIpcPublish
