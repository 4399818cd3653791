import Nekros.AesConforms
import Nekros.Errno

/-! The sealed telemetry snapshots of drivers/neri/core/neri_sec.c. Sealing takes the epoch
from its argument, opening takes it from the sealed structure, where sealing does not put it. -/
namespace Nekros.NeriSec
open Errno
open Bytes (Byte Block byteAt littleEndian)
open Aes (Key Nonce)
open AesGcm

/- `sizeof(neri_utb_snapshot_t)`: three power readings, three tables of 256 entries (one of
bytes), a time stamp and an epoch. -/
def snapshotSize : Nat := 3*8 + 256 + 256*8 + 256*8 + 2*8

abbrev Snapshot := {bytes : List Byte // bytes.length = snapshotSize}

structure SealedSnap where
  epoch : BitVec 64
  snapshot : Snapshot
  tag : Block

structure Nsm where
  key : Key
  ready : Bool

/- The epoch, and four bytes of zeros. -/
def ivOf (epoch : BitVec 64) : Nonce := Vector.ofFn fun i => if i.val < 8 then byteAt epoch (8*i.val) else 0

theorem sealedLength (key : Key) (iv : Nonce) (aad : List Byte) (snap : Snapshot) :
    (aes256GcmEncrypt key iv aad snap.val).ct.length = snapshotSize :=
  (ctrCryptLength _ iv 2 snap.val).trans snap.property

theorem openedLength (key : Key) (iv : Nonce) (aad : List Byte) (ct buf : Snapshot) (tag : Block) :
    (aes256GcmDecrypt key iv aad ct.val tag buf.val).pt.length = snapshotSize := by
  rcases decryptCases key iv aad ct.val tag buf.val with ⟨_,opened⟩ | ⟨_,opened⟩
  · have size : (aes256CtrCrypt key iv 2 ct.val).length = ct.val.length := ctrCryptLength _ iv 2 ct.val
    rw [opened,List.length_append,List.length_drop,size,ct.property,buf.property,Nat.sub_self,Nat.add_zero]
  · rw [opened]
    exact buf.property

def neriSecSealSnapshot (nsm : Nsm) (snap : Option Snapshot) (epoch : BitVec 64) (out : Option SealedSnap) :
    Int × Option SealedSnap :=
  match nsm.ready,snap,out with
  | true,some snap,some out =>
      let result := aes256GcmEncrypt nsm.key (ivOf epoch) (littleEndian 8 epoch) snap.val
      (0,some {out with snapshot := ⟨result.ct,sealedLength _ _ _ snap⟩,tag := result.tag})
  | _,_,_ => (-einval,out)

def neriSecOpenSnapshot (nsm : Nsm) (sealed : Option SealedSnap) (out : Option Snapshot) :
    Int × Option Snapshot :=
  match nsm.ready,sealed,out with
  | true,some sealed,some out =>
      let result := aes256GcmDecrypt nsm.key (ivOf sealed.epoch) (littleEndian 8 sealed.epoch) sealed.snapshot.val
        sealed.tag out.val
      (result.rc,some ⟨result.pt,openedLength _ _ _ sealed.snapshot out sealed.tag⟩)
  | _,_,_ => (-einval,out)

theorem xorCancel {text k k' : List Byte} (size : k.length = text.length) (size' : k'.length = text.length)
    (same : List.zipWith (· ^^^ ·) text k = List.zipWith (· ^^^ ·) text k') : k = k' := by
  induction text generalizing k k' with
  | nil => rw [List.length_eq_zero_iff.mp size,List.length_eq_zero_iff.mp size']
  | cons b rest ih =>
      cases k with
      | nil => cases size
      | cons x xs =>
          cases k' with
          | nil => cases size'
          | cons y ys =>
              rw [List.zipWith_cons_cons,List.zipWith_cons_cons,List.cons.injEq] at same
              rw [(BitVec.xor_right_inj b).mp same.1,ih (Nat.succ.inj size) (Nat.succ.inj size') same.2]

theorem firstBlock {encrypt : Block → Block} {iv iv' : Nonce} {ctr : Aes.Word} {l : List Byte} (long : 16 ≤ l.length)
    (same : ctrCrypt encrypt iv ctr l = ctrCrypt encrypt iv' ctr l) :
    encrypt (Aes.counterBlock iv ctr) = encrypt (Aes.counterBlock iv' ctr) := by
  have some : l ≠ [] := by
    rintro rfl
    cases long
  have chunk : ∀ keystream : Block, (List.zipWith (· ^^^ ·) (l.take 16) keystream.toList).length = 16 :=
    fun keystream => (chunkLength l keystream).trans (Nat.min_eq_left long)
  rw [ctrCryptNonempty _ _ some,ctrCryptNonempty _ _ some] at same
  have first := (List.append_inj same ((chunk _).trans (chunk _).symm)).1
  have size : ∀ keystream : Block, keystream.toList.length = (l.take 16).length := by
    intro keystream
    rw [Vector.length_toList,List.length_take,Nat.min_eq_left long]
  exact Vector.toList_inj.mp (xorCancel (size _) (size _) first)

theorem counterBlockIv {iv iv' : Nonce} {ctr : Aes.Word} (same : Aes.counterBlock iv ctr = Aes.counterBlock iv' ctr) :
    iv = iv' := by
  apply Vector.ext
  intro i lt
  have byte := congrArg (fun b : Block => b.getD i 0) same
  simpa only [Aes.counterBlock,Bytes.getDOfLt _ (show i < 16 by omega),Vector.getElem_ofFn,if_pos lt,
    Bytes.getDOfLt _ lt] using byte

theorem ivOfInjective {a b : BitVec 64} (same : ivOf a = ivOf b) : a = b := by
  apply BitVec.eq_of_getLsbD_eq
  intro i lt
  have byte := congrArg (fun v : Nonce => (v.getD (i/8) 0).getLsbD (i%8)) same
  have place : 8 * (i/8) + i%8 = i := by omega
  simpa only [ivOf,Bytes.getDOfLt _ (show i/8 < 12 by omega),Vector.getElem_ofFn,if_pos (show i/8 < 8 by omega),
    Bytes.getLsbDByteAt,decide_eq_true (show i%8 < 8 by omega),Bool.true_and,place] using byte

theorem sealedEpoch {key : Key} {snap : Snapshot} {a b : BitVec 64}
    (same : aes256GcmEncrypt key (ivOf a) (littleEndian 8 a) snap.val =
      aes256GcmEncrypt key (ivOf b) (littleEndian 8 b) snap.val) : a = b := by
  have texts := congrArg Sealed.ct same
  have long : 16 ≤ snap.val.length := by
    rw [snap.property]
    decide
  exact ivOfInjective (counterBlockIv (AesConforms.encryptInjective key (firstBlock long texts)))

theorem sealCases {nsm : Nsm} {snap : Option Snapshot} {epoch : BitVec 64} {out : Option SealedSnap}
    (sealed : (neriSecSealSnapshot nsm snap epoch out).1 = 0) :
    nsm.ready = true ∧ ∃ s o, snap = some s ∧ out = some o := by
  unfold neriSecSealSnapshot at sealed
  split at sealed
  · rename_i s o ready
    exact ⟨ready,s,o,rfl,rfl⟩
  · cases sealed

theorem openedFields (o : Opened) (rc : Int) (pt : List Byte) : o.rc = rc ∧ o.pt = pt ↔ o = ⟨rc,pt⟩ := by
  cases o
  rw [Opened.mk.injEq]

theorem openSealed {nsm : Nsm} (s : Snapshot) (epoch : BitVec 64) (o : SealedSnap) (res : Snapshot)
    (ready : nsm.ready = true) :
    neriSecOpenSnapshot nsm (neriSecSealSnapshot nsm (some s) epoch (some o)).2 (some res) = (0,some s) ↔
      o.epoch = epoch := by
  have opens := decryptExact nsm.key (ivOf o.epoch) (littleEndian 8 o.epoch)
    (aes256GcmEncrypt nsm.key (ivOf epoch) (littleEndian 8 epoch) s.val).ct s.val
    (aes256GcmEncrypt nsm.key (ivOf epoch) (littleEndian 8 epoch) s.val).tag res.val
  have size := sealedLength nsm.key (ivOf epoch) (littleEndian 8 epoch) s
  have whole : res.val.drop (aes256GcmEncrypt nsm.key (ivOf epoch) (littleEndian 8 epoch) s.val).ct.length = [] := by
    rw [size]
    exact List.drop_of_length_le (Nat.le_of_eq res.property)
  rw [whole,List.append_nil,and_iff_left (s.property.trans size.symm),← openedFields] at opens
  simp only [neriSecOpenSnapshot,neriSecSealSnapshot,ready,Prod.mk.injEq,Option.some.injEq,Subtype.ext_iff]
  rw [opens]
  constructor
  · exact fun same => sealedEpoch same
  · rintro rfl
    rfl

theorem sealOpens {nsm : Nsm} {snap : Option Snapshot} {epoch : BitVec 64} {out : Option SealedSnap} (res : Snapshot)
    (sealed : (neriSecSealSnapshot nsm snap epoch out).1 = 0) :
    neriSecOpenSnapshot nsm (neriSecSealSnapshot nsm snap epoch out).2 (some res) = (0,snap) ↔
      out.map SealedSnap.epoch = some epoch := by
  obtain ⟨ready,s,o,rfl,rfl⟩ := sealCases sealed
  rw [Option.map_some,Option.some.injEq]
  exact openSealed s epoch o res ready

def zeroSnapshot : Snapshot := ⟨List.replicate snapshotSize 0,List.length_replicate⟩

def zeroSealed : SealedSnap := ⟨0,zeroSnapshot,Vector.replicate 16 0⟩

def zeroNsm : Nsm := ⟨Vector.replicate 32 0,true⟩

def countingSnapshot : Snapshot :=
  ⟨(List.range snapshotSize).map (BitVec.ofNat 8),by rw [List.length_map,List.length_range]⟩

theorem sealOpensSeven :
    neriSecOpenSnapshot zeroNsm
      (neriSecSealSnapshot zeroNsm (some countingSnapshot) 7 (some {zeroSealed with epoch := 7})).2
      (some zeroSnapshot) = (0,some countingSnapshot) :=
  (sealOpens zeroSnapshot rfl).mpr rfl

theorem firstEpochNotOpened :
    (neriSecSealSnapshot zeroNsm (some zeroSnapshot) 1 (some zeroSealed)).1 = 0 ∧
    neriSecOpenSnapshot zeroNsm (neriSecSealSnapshot zeroNsm (some zeroSnapshot) 1 (some zeroSealed)).2
      (some zeroSnapshot) ≠ (0,some zeroSnapshot) := by
  refine ⟨rfl,fun opened => ?_⟩
  have same := (openSealed zeroSnapshot 1 zeroSealed zeroSnapshot rfl).mp opened
  exact absurd same (by decide)

end Nekros.NeriSec
