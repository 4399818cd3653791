import Nekros.GuardedRun
import Nekros.SharedIpc

/-! Who can put words into a channel of ipc/ipc.c. The ring lies in shared pages: between two calls
anybody may write anything there, the header of the ring included. A tag covers the number, the
sender and the first 4096 bytes, but not the length, and nothing compares the number with `read_seq`. -/
namespace Nekros.IpcAuthentic
open Bytes (Byte)
open Aes (Key)
open GuardedRun (run Guarded guardedInvariant)
open SharedIpc

structure World where
  ring : Ring
  signed : List (Nat × Message)
  received : List Message

inductive Event where
  | send (m : Message)
  | recv (buflen : Nat)
  | write (ring : Ring)

section Keyed
variable (hmac : Key → List Byte → Key) (key : Key)

/- A ring without slots makes both calls divide by zero. -/
def step (w : World) : Event → Option World
  | .send m =>
      if w.ring.room < m.payload.length then some w
      else if w.ring.nSlots = 0 then none
      else some {w with ring := w.ring.send hmac key m,signed := w.signed ++ [(w.ring.writeSeq,m)]}
  | .recv buflen =>
      if w.ring.nSlots = 0 then none
      else
        let reply := w.ring.recv hmac key buflen
        some {w with ring := reply.ring,received := w.received ++ reply.out.toList}
  | .write ring => some {w with ring}

def next (w : World) : Slot := w.ring.slots (w.ring.readSeq % w.ring.nSlots)

/- Nobody has made a tag of their own: one that verifies is over something `ipc_send` has signed. -/
def NoForgery (w : World) : Event → Prop
  | .recv _ =>
      let hdr := next w
      hdr.hmac = hmac key (macInput hdr.seq hdr.senderPid (hdr.bytes hdr.len)) →
        ∃ s ∈ w.signed, macInput s.1 s.2.sender s.2.payload = macInput hdr.seq hdr.senderPid (hdr.bytes hdr.len)
  | _ => True

def Sent (signed : List (Nat × Message)) (m : Message) : Prop :=
  ∃ s ∈ signed, s.2.sender = m.sender ∧ s.2.payload.take 4096 = m.payload.take 4096

theorem macInputParts {seq seq' : Nat} {pid pid' : CcProc.Pid} {data data' : List Byte}
    (same : macInput seq pid data = macInput seq' pid' data') : pid = pid' ∧ data.take 4096 = data'.take 4096 := by
  unfold macInput at same
  rw [List.append_assoc,List.append_assoc] at same
  obtain ⟨_,same⟩ := Bytes.littleEndianSplit (by decide) same
  exact Bytes.littleEndianSplit (by decide) same

theorem sentMore {signed more : List (Nat × Message)} {m : Message} (h : Sent signed m) : Sent (signed ++ more) m := by
  obtain ⟨s,mem,same⟩ := h
  exact ⟨s,List.mem_append_left _ mem,same⟩

variable {hmac key}

theorem recvVerified {r : Ring} {buflen : Nat} {m : Message} (out : (r.recv hmac key buflen).out = some m) :
    let hdr := r.slots (r.readSeq % r.nSlots)
    hdr.hmac = hmac key (macInput hdr.seq hdr.senderPid (hdr.bytes hdr.len)) ∧ m = ⟨hdr.senderPid,hdr.bytes hdr.len⟩ := by
  unfold Ring.recv at out
  split at out
  · dsimp only at out
    split at out
    · cases out
    · split at out
      · cases out
      · next verifies => exact ⟨not_not.mp verifies,(Option.some.inj out).symm⟩
  · cases out

theorem stepSent {w w' : World} {e : Event} (h : ∀ m ∈ w.received, Sent w.signed m) (honest : NoForgery hmac key w e)
    (stepped : step hmac key w e = some w') : ∀ m ∈ w'.received, Sent w'.signed m := by
  cases e with
  | write ring =>
      cases stepped
      exact h
  | send m =>
      simp only [step] at stepped
      split at stepped
      · cases stepped
        exact h
      · split at stepped
        · cases stepped
        · cases stepped
          exact fun m mem => sentMore (h m mem)
  | recv buflen =>
      simp only [step] at stepped
      split at stepped
      · cases stepped
      · cases stepped
        intro m mem
        rcases List.mem_append.mp mem with old | new
        · exact h m old
        · obtain ⟨verifies,rfl⟩ := recvVerified (Option.mem_toList.mp new)
          obtain ⟨s,was,same⟩ := honest verifies
          obtain ⟨sender,payload⟩ := macInputParts same
          exact ⟨s,was,sender,payload⟩

end Keyed

def plainTag (_ : Key) (input : List Byte) : Key := Vector.ofFn fun j => input.getD j.val 0

def freshRing : Ring := {Ring.zeroed with slotSize := 510,nSlots := ipcSlots}

def hello : Message := ⟨7,[104,105]⟩

def replayed : List Event :=
  [.send hello,.recv 446,.write {freshRing.send plainTag zeroKey hello with readSeq := 0},.recv 446]

instance (w : World) : (e : Event) → Decidable (NoForgery plainTag zeroKey w e)
  | .send _ => .isTrue trivial
  | .write _ => .isTrue trivial
  | .recv _ => inferInstanceAs (Decidable (_ = _ → ∃ s ∈ w.signed,_ = _))

theorem replayedHonest : Guarded (step plainTag zeroKey) (NoForgery plainTag zeroKey) ⟨freshRing,[],[]⟩ replayed := by
  decide +kernel

end Nekros.IpcAuthentic
