import Nekros.IpcRuns

/-! Delivery over a zero-trust channel. What is accepted stays in the ring: the receive
that should take it out passes the address of the frame where `aes256_gcm_decrypt`
expects the length of the ciphertext, and never returns. -/
namespace Nekros.IpcDelivery
open Bytes (Byte)
open Aes (Key)
open CcProc IpcRuns
open GuardedRun (run Guarded Along)

inductive Event where
  | create (self peer : Pid) (flags : BitVec 32) (fresh : Fresh)
  | send (caller : Pid) (fd : Int) (buf : Option (List Byte)) (tsc : BitVec 64)
  | recv (caller : Pid) (fd : Int) (buf : Option (List Byte))

def step (hmac : Key → List Byte → Key) (w : World) : Event → Option World
  | .create self peer flags fresh => create hmac w self peer flags fresh
  | .send caller fd buf tsc => send w caller fd buf tsc
  | .recv caller fd buf => recv w caller fd buf

def Delivers (w : World) : Prop :=
  w.failed = false ∧ ∀ c ∈ w.cc.channels,
    payloadsOn w.delivered c.fdB <+: payloadsOn w.accepted c.fdA ∧
    payloadsOn w.delivered c.fdA <+: payloadsOn w.accepted c.fdB

def NoneWaiting (w : World) : Event → Prop
  | .recv _ fd buf => ∀ out, buf = some out → ¬ Waiting w fd out.length
  | _ => True

theorem invDelivers {w : World} (inv : Inv w) : Delivers w := by
  refine ⟨inv.unfailed,fun c _ => ?_⟩
  rw [inv.undelivered]
  exact ⟨List.nil_prefix,List.nil_prefix⟩

theorem stepKeeps {hmac : Key → List Byte → Key} {w v : World} {e : Event} (inv : Inv w)
    (guard : NoneWaiting w e) (next : step hmac w e = some v) : Inv v := by
  cases e with
  | create self peer flags fresh => exact createKeeps inv next
  | send caller fd buf tsc => exact sendKeeps inv next
  | recv caller fd buf =>
      rcases recvExact inv caller fd buf with ⟨out,same,waiting,_⟩ | ⟨_,refused⟩
      · exact absurd waiting (guard out same)
      · cases refused.symm.trans next
        exact inv

theorem stepBreaks {hmac : Key → List Byte → Key} {w : World} {e : Event} (inv : Inv w)
    (missed : ¬ NoneWaiting w e) : ∃ v, step hmac w e = some v ∧ ¬ Delivers v := by
  cases e with
  | create self peer flags fresh => exact absurd trivial missed
  | send caller fd buf tsc => exact absurd trivial missed
  | recv caller fd buf =>
      rcases recvExact inv caller fd buf with ⟨_,_,_,faults⟩ | ⟨none,_⟩
      · exact ⟨_,faults,fun delivers => by cases delivers.1⟩
      · exact absurd none missed

theorem deliveryExact (hmac : Key → List Byte → Key) (low : Nat → Byte) (fingerprint : Key)
    (tsc : BitVec 64) (events : List Event) :
    Along (step hmac) Delivers (start hmac low fingerprint tsc) events ↔
      Guarded (step hmac) NoneWaiting (start hmac low fingerprint tsc) events := by
  have anything : Guarded (step hmac) (fun _ _ => True) (start hmac low fingerprint tsc) events :=
    GuardedRun.guardedAlways (fun _ _ => trivial) _ _
  exact GuardedRun.guardExact Inv (fun _ inv => invDelivers inv)
    (fun _ _ _ inv _ guard next => stepKeeps inv guard next)
    (fun _ _ inv _ missed => stepBreaks inv missed) (startInv hmac low fingerprint tsc) anything

def oneByte : List Event :=
  [.create 1 2 0 ⟨true,true,fun _ => 0,fun _ => 0,0,0⟩,.send 1 100 (some [7]) 0,.recv 2 101 (some [0])]

theorem oneByteLost :
    (run (step plainHmac) (start plainHmac (fun _ => 0) (Vector.replicate 32 1) 0) oneByte).map
      (fun w => (w.failed,w.accepted.map Message.payload,w.delivered.map Message.payload)) =
    some (true,[[7]],[]) := by
  decide +kernel

end Nekros.IpcDelivery
