import Nekros.CcProc

/-! Whether the blobs of `cc_kernel_seal_memory` and `cc_kernel_checkpoint` can be opened.
Both hand their data to `aes256_gcm_encrypt` as additional data and the additional data as
the text: only the latter is encrypted, and the space meant for the ciphertext keeps what the
caller's buffer held. -/
namespace Nekros.SealedMemory
open Bytes (Byte Block littleEndian)
open Aes (Key Nonce)
open AesGcm
open CcProc

theorem writeAtMiddle (before : List Byte) {old new : List Byte} (behind : List Byte) (size : old.length = new.length) :
    writeAt (before ++ old ++ behind) before.length new = before ++ new ++ behind := by
  have front : (before ++ old ++ behind).take before.length = before := by
    rw [List.append_assoc,List.take_left]
  have back : (before ++ old ++ behind).drop (before.length + new.length) = behind := by
    rw [← size,← List.length_append,List.drop_left]
  rw [writeAt,front,back]

theorem readAtMiddle (before bytes behind : List Byte) :
    readAt (before ++ bytes ++ behind) before.length bytes.length = some bytes := by
  rw [readAt,if_pos (by rw [List.length_append,List.length_append]; omega),List.append_assoc,List.drop_left,
    List.take_left]

theorem cutFive (l : List Byte) (a b c d : Nat) (long : a + b + c + d ≤ l.length) :
    ∃ l1 l2 l3 l4 l5, l = l1 ++ l2 ++ l3 ++ l4 ++ l5 ∧ l1.length = a ∧ l2.length = b ∧ l3.length = c ∧
      l4.length = d := by
  refine ⟨l.take a,(l.drop a).take b,(l.drop (a + b)).take c,(l.drop (a + b + c)).take d,l.drop (a + b + c + d),
    ?_,?_,?_,?_,?_⟩
  · simp only [List.append_assoc,← List.drop_drop,List.take_append_drop]
  all_goals
    simp only [List.length_take,List.length_drop]
    omega

theorem ctrCryptTake (encrypt : Block → Block) (iv : Nonce) (ctr : Aes.Word) (l : List Byte) (n : Nat) :
    (ctrCrypt encrypt iv ctr l).take n = ctrCrypt encrypt iv ctr (l.take n) := by
  induction ctr,l using ctrCrypt.induct encrypt iv generalizing n with
  | case1 ctr => simp [ctrCrypt]
  | case2 ctr b rest ih =>
      rcases Nat.eq_zero_or_pos n with rfl | pos
      · simp [ctrCrypt]
      · have full : (b::rest).take n ≠ [] := by
          rw [ne_eq,List.take_eq_nil_iff]
          simp
          omega
        rw [ctrCryptNonempty encrypt iv (List.cons_ne_nil b rest),ctrCryptNonempty encrypt iv full]
        generalize b::rest = l at ih ⊢
        generalize (encrypt (Aes.counterBlock iv ctr)) = keystream
        have size := chunkLength l keystream
        have chunk : (List.zipWith (· ^^^ ·) (l.take 16) keystream.toList).take n =
            List.zipWith (· ^^^ ·) ((l.take n).take 16) keystream.toList := by
          have short : (List.zipWith (· ^^^ ·) ((l.take n).take 16) keystream.toList).take n =
              List.zipWith (· ^^^ ·) ((l.take n).take 16) keystream.toList :=
            List.take_of_length_le (by simp only [List.length_zipWith,List.length_take]; omega)
          rw [← short,List.take_zipWith,List.take_zipWith,List.take_take,List.take_take,List.take_take]
          congr 2
          omega
        have rest : (l.drop 16).take (n - min 16 l.length) = (l.take n).drop 16 := by
          rw [List.drop_take]
          rcases Nat.lt_or_ge l.length 16 with short | long
          · rw [List.drop_of_length_le (Nat.le_of_lt short),List.take_nil,List.take_nil]
          · rw [Nat.min_eq_left long]
        rw [List.take_append,chunk,size,ih,rest]

def openBlob (key : Key) (aad blob : List Byte) (len : Nat) (buf : List Byte) : Except Stop Opened :=
  decrypt key (readAt blob 0 12) (some aad) (readAt blob 12 len)
    (Vector.ofFn fun i => blob.getD (12 + len + i.val) 0) buf

def Opens (key : Key) (aad blob data : List Byte) : Prop :=
  ∀ buf : List Byte, buf.length = data.length → openBlob key aad blob data.length buf = .ok ⟨0,data⟩

/- What both functions write to `out`: `data` and `aad` have changed places. -/
def swappedBlob (key : Key) (nonce : Nonce) (aad data out : List Byte) : List Byte :=
  let result := aes256GcmEncrypt key nonce data aad
  writeAt (writeAt (writeAt out 0 nonce.toList) 12 result.ct) (12 + data.length) result.tag.toList

def stale (aad data out : List Byte) : List Byte := (out.drop (12 + aad.length)).take (data.length - aad.length)

theorem swappedParts (key : Key) (nonce : Nonce) {aad data out : List Byte} (inside : aad.length ≤ data.length)
    (room : 12 + data.length + 16 ≤ out.length) :
    ∃ behind, swappedBlob key nonce aad data out =
      nonce.toList ++ (aes256CtrCrypt key nonce 2 aad ++ stale aad data out) ++
        (computedTag key nonce data (aes256CtrCrypt key nonce 2 aad)).toList ++ behind := by
  obtain ⟨o1,o2,o3,o4,o5,rfl,h1,h2,h3,h4⟩ := cutFive out 12 aad.length (data.length - aad.length) 16 (by omega)
  have nonceLength : nonce.toList.length = 12 := Vector.length_toList
  have ctLength : (aes256CtrCrypt key nonce 2 aad).length = aad.length := ctrCryptLength _ nonce 2 aad
  have left : stale aad data (o1 ++ o2 ++ o3 ++ o4 ++ o5) = o3 := by
    have front : (o1 ++ o2).length = 12 + aad.length := by rw [List.length_append,h1,h2]
    rw [stale,List.append_assoc (o1 ++ o2 ++ o3),List.append_assoc (o1 ++ o2),← front,List.drop_left,← h3,
      List.take_left]
  refine ⟨o5,?_⟩
  rw [swappedBlob,left]
  simp only [aes256GcmEncrypt]
  generalize computedTag key nonce data (aes256CtrCrypt key nonce 2 aad) = tag
  generalize aes256CtrCrypt key nonce 2 aad = ct at ctLength ⊢
  have tagLength : tag.toList.length = 16 := Vector.length_toList
  have first : writeAt (o1 ++ o2 ++ o3 ++ o4 ++ o5) 0 nonce.toList = nonce.toList ++ o2 ++ (o3 ++ o4 ++ o5) := by
    have written := writeAtMiddle [] (o2 ++ o3 ++ o4 ++ o5) (h1.trans nonceLength.symm)
    simpa only [List.nil_append,List.append_assoc,List.length_nil] using written
  have second : writeAt (nonce.toList ++ o2 ++ (o3 ++ o4 ++ o5)) 12 ct =
      nonce.toList ++ ct ++ o3 ++ o4 ++ o5 := by
    have written := writeAtMiddle nonce.toList (o3 ++ o4 ++ o5) (h2.trans ctLength.symm)
    rw [nonceLength] at written
    simpa only [List.append_assoc] using written
  have third := writeAtMiddle (nonce.toList ++ ct ++ o3) o5 (h4.trans tagLength.symm)
  have place : (nonce.toList ++ ct ++ o3).length = 12 + data.length := by
    rw [List.length_append,List.length_append,nonceLength,ctLength,h3]
    omega
  rw [place] at third
  rw [first,second,third,List.append_assoc nonce.toList]

structure Lucky (key : Key) (nonce : Nonce) (aad data out : List Byte) : Prop where
  text : aes256CtrCrypt key nonce 2 data = aes256CtrCrypt key nonce 2 aad ++ stale aad data out
  tag : computedTag key nonce aad (aes256CtrCrypt key nonce 2 data) =
    computedTag key nonce data (aes256CtrCrypt key nonce 2 aad)

theorem vectorOfList {n : Nat} (v : Vector Byte n) (before behind : List Byte) :
    (Vector.ofFn fun i : Fin n => (before ++ v.toList ++ behind).getD (before.length + i.val) 0) = v := by
  apply Vector.ext
  intro i lt
  have size : v.toList.length = n := Vector.length_toList
  rw [Vector.getElem_ofFn,List.append_assoc,List.getD_append_right _ _ _ _ (Nat.le_add_right _ _),
    Nat.add_sub_cancel_left,List.getD_append _ _ _ _ (by omega),List.getD_eq_getElem _ _ (by omega),
    Vector.getElem_toList]

theorem openSwapped (key : Key) (nonce : Nonce) {aad data out buf : List Byte} (inside : aad.length ≤ data.length)
    (room : 12 + data.length + 16 ≤ out.length) :
    openBlob key aad (swappedBlob key nonce aad data out) data.length buf =
      .ok (aes256GcmDecrypt key nonce aad (aes256CtrCrypt key nonce 2 aad ++ stale aad data out)
        (computedTag key nonce data (aes256CtrCrypt key nonce 2 aad)) buf) := by
  obtain ⟨behind,parts⟩ := swappedParts key nonce inside room
  have ctLength : (aes256CtrCrypt key nonce 2 aad ++ stale aad data out).length = data.length := by
    rw [List.length_append,stale,List.length_take,List.length_drop,aes256CtrCrypt,ctrCryptLength]
    omega
  have nonceLength : nonce.toList.length = 12 := Vector.length_toList
  rw [parts]
  generalize computedTag key nonce data (aes256CtrCrypt key nonce 2 aad) = tag
  generalize aes256CtrCrypt key nonce 2 aad ++ stale aad data out = ct at ctLength ⊢
  have readNonce := readAtMiddle [] nonce.toList (ct ++ tag.toList ++ behind)
  have readText := readAtMiddle nonce.toList ct (tag.toList ++ behind)
  have readTag := vectorOfList tag (nonce.toList ++ ct) behind
  rw [List.length_append,nonceLength,ctLength] at readTag
  rw [nonceLength,ctLength,← List.append_assoc] at readText
  rw [List.length_nil,nonceLength,List.nil_append,List.append_assoc ct,← List.append_assoc,← List.append_assoc]
    at readNonce
  have iv := vectorOfList nonce [] []
  simp only [List.nil_append,List.append_nil,List.length_nil,Nat.zero_add] at iv
  rw [openBlob,readNonce,readText,readTag,decrypt,iv]

theorem opensExact (key : Key) (nonce : Nonce) {aad data out : List Byte} (inside : aad.length ≤ data.length)
    (room : 12 + data.length + 16 ≤ out.length) :
    Opens key aad (swappedBlob key nonce aad data out) data ↔ Lucky key nonce aad data out := by
  have length : (aes256CtrCrypt key nonce 2 aad ++ stale aad data out).length = data.length := by
    rw [List.length_append,stale,List.length_take,List.length_drop,aes256CtrCrypt,ctrCryptLength]
    omega
  constructor
  · intro opens
    have opened := opens data rfl
    rw [openSwapped key nonce inside room] at opened
    have both := (decryptExact key nonce aad _ data _ data).mp ⟨by
      rw [length,List.drop_length,List.append_nil]
      exact Except.ok.inj opened,length.symm⟩
    rw [aes256GcmEncrypt,Sealed.mk.injEq] at both
    exact ⟨both.1,both.2⟩
  · intro lucky buf size
    rw [openSwapped key nonce inside room,← lucky.text]
    have encrypted : aes256GcmEncrypt key nonce aad data = ⟨aes256CtrCrypt key nonce 2 data,
        computedTag key nonce data (aes256CtrCrypt key nonce 2 aad)⟩ := by
      rw [aes256GcmEncrypt,lucky.tag]
    have opened := ((decryptExact key nonce aad _ data _ buf).mpr encrypted).1
    have textLength : (aes256CtrCrypt key nonce 2 data).length = data.length := ctrCryptLength _ nonce 2 data
    rw [textLength,List.drop_of_length_le (by omega),List.append_nil] at opened
    exact congrArg Except.ok opened

theorem luckyPrefix {key : Key} {nonce : Nonce} {aad data out : List Byte} (lucky : Lucky key nonce aad data out) :
    data.take aad.length = aad := by
  have length : (aes256CtrCrypt key nonce 2 aad).length = aad.length := ctrCryptLength _ nonce 2 aad
  have cut := congrArg (List.take aad.length) lucky.text
  rw [List.take_left' length,aes256CtrCrypt,ctrCryptTake] at cut
  have back := congrArg (aes256CtrCrypt key nonce 2) cut
  simpa only [aes256CtrCrypt,ctrCryptTwice] using back

def used (s : State) (c : Counter) (name : KeyName) (tsc : BitVec 64) : State :=
  record {setCounter s c (counter s c + 1) with drawn := s.drawn ++ [⟨c,counter s c + 1⟩]} name
    (nonceOf (counter s c + 1) tsc)

theorem genNonceFresh {s : State} {c : Counter} (tsc : BitVec 64) (fresh : counter s c + 1 ≠ 0) :
    genNonce s c tsc = .ok ({setCounter s c (counter s c + 1) with drawn := s.drawn ++ [⟨c,counter s c + 1⟩]},
      nonceOf (counter s c + 1) tsc) := by
  rw [genNonce]
  exact if_neg fresh

theorem sealWrites {s : State} (va : BitVec 64) {pages : BitVec 64} {data : List Byte} (out : List Byte)
    {size : BitVec 32} (tsc : BitVec 64)
    (started : s.ready = true) (fresh : s.secmemCtr + 1 ≠ 0) (few : pages.toNat ≤ 4096)
    (whole : data.length = pages.toNat * 4096) (room : 12 + data.length + 16 ≤ size.toNat) :
    ccKernelSealMemory s va pages data (some out) size tsc = .ok (used s .secmem .secureAlloc tsc,
      ⟨0,some (swappedBlob s.secureAllocKey (nonceOf (s.secmemCtr + 1) tsc) (littleEndian 8 va) data out),
        BitVec.ofNat 32 (12 + data.length + 16)⟩) := by
  have bytes : (pages * 4096).toNat = data.length := by
    rw [BitVec.toNat_mul,whole]
    exact Nat.mod_eq_of_lt (Nat.lt_of_le_of_lt (Nat.mul_le_mul_right 4096 few) (by decide))
  have needed : (12 + pages * 4096 + 16 : BitVec 64).setWidth 32 = BitVec.ofNat 32 (12 + data.length + 16) := by
    apply BitVec.eq_of_toNat_eq
    rw [BitVec.toNat_setWidth,BitVec.toNat_add,BitVec.toNat_add,bytes,BitVec.toNat_ofNat,
      show BitVec.toNat (12 : BitVec 64) = 12 from rfl,show BitVec.toNat (16 : BitVec 64) = 16 from rfl]
    omega
  have enough : ¬ size < BitVec.ofNat 32 (12 + data.length + 16) := by
    rw [BitVec.lt_def,BitVec.toNat_ofNat]
    omega
  unfold ccKernelSealMemory
  rw [started]
  dsimp only
  rw [needed,if_neg enough,genNonceFresh (c := .secmem) tsc fresh,bytes]
  rfl

theorem checkpointPlainLength (t : TaskRecord) : (checkpointPlain t).length = 256 := by
  have name : ((t.name.takeWhile (· ≠ 0)).take 31).length ≤ 31 := List.length_take_le _ _
  simp only [checkpointPlain,List.length_append,List.length_replicate,littleEndian,List.length_map,List.length_range]
  omega

theorem checkpointWrites {s : State} {t : TaskRecord} {out : List Byte} {size : BitVec 32} (tsc : BitVec 64)
    (started : s.ready = true) (fresh : s.attestCtr + 1 ≠ 0) (room : 12 + 256 + 16 ≤ size.toNat) :
    ccKernelCheckpoint s (some t) (some out) size tsc = .ok (used s .attest .attest tsc,
      ⟨0,some (swappedBlob s.attestKey (nonceOf (s.attestCtr + 1) tsc) (littleEndian 4 t.pid) (checkpointPlain t) out),
        12 + 256 + 16⟩) := by
  have enough : ¬ size < (12 + 256 + 16 : BitVec 32) := by
    rw [BitVec.lt_def]
    exact Nat.not_lt.mpr room
  unfold ccKernelCheckpoint
  rw [started]
  dsimp only
  rw [if_neg enough,genNonceFresh (c := .attest) tsc fresh,swappedBlob,checkpointPlainLength]
  rfl

theorem littleEndianLength {w : Nat} (n : Nat) (x : BitVec w) : (littleEndian n x).length = n := by
  rw [littleEndian,List.length_map,List.length_range]

theorem sealedExact (s : State) (tsc : BitVec 64) (started : s.ready = true) :
    (∀ (va pages : BitVec 64) (data out : List Byte) (size : BitVec 32), s.secmemCtr + 1 ≠ 0 →
      1 ≤ pages.toNat → pages.toNat ≤ 4096 → data.length = pages.toNat * 4096 →
      12 + data.length + 16 ≤ size.toNat → 12 + data.length + 16 ≤ out.length →
      ∃ t blob, ccKernelSealMemory s va pages data (some out) size tsc =
          .ok (t,⟨0,some blob,BitVec.ofNat 32 (12 + data.length + 16)⟩) ∧
        (Opens s.secureAllocKey (littleEndian 8 va) blob data ↔
          Lucky s.secureAllocKey (nonceOf (s.secmemCtr + 1) tsc) (littleEndian 8 va) data out)) ∧
    (∀ (task : TaskRecord) (out : List Byte) (size : BitVec 32), s.attestCtr + 1 ≠ 0 →
      12 + 256 + 16 ≤ size.toNat → 12 + 256 + 16 ≤ out.length →
      ∃ t blob, ccKernelCheckpoint s (some task) (some out) size tsc = .ok (t,⟨0,some blob,12 + 256 + 16⟩) ∧
        (Opens s.attestKey (littleEndian 4 task.pid) blob (checkpointPlain task) ↔
          Lucky s.attestKey (nonceOf (s.attestCtr + 1) tsc) (littleEndian 4 task.pid) (checkpointPlain task) out)) := by
  constructor
  · intro va pages data out size fresh some few whole room space
    refine ⟨_,_,sealWrites _ _ tsc started fresh few whole room,opensExact _ _ ?_ space⟩
    rw [littleEndianLength]
    omega
  · intro task out size fresh room space
    have length := checkpointPlainLength task
    refine ⟨_,_,checkpointWrites tsc started fresh room,opensExact _ _ ?_ (by rw [length]; exact space)⟩
    rw [littleEndianLength,length]
    decide

def zeroPage : List Byte := List.replicate 4096 0

def window : BitVec 64 := 0xFFFF000000000000

theorem sealedZeroPage : ∃ t blob, ccKernelSealMemory plainInit window 1 zeroPage (some (List.replicate 4124 0)) 4124 0 =
      .ok (t,⟨0,some blob,4124⟩) ∧
    (Opens plainInit.secureAllocKey (littleEndian 8 window) blob zeroPage ↔
      Lucky plainInit.secureAllocKey (nonceOf 1 0) (littleEndian 8 window) zeroPage (List.replicate 4124 0)) := by
  have size : zeroPage.length = 4096 := List.length_replicate
  have exact := (sealedExact plainInit 0 rfl).1 window 1 zeroPage (List.replicate 4124 0) 4124 (by decide) (by decide)
    (by decide) (by rw [size]; rfl) (by rw [size]; decide) (by rw [size,List.length_replicate])
  rw [size] at exact
  exact exact

theorem zeroPageNotOpened : ∃ t blob,
    ccKernelSealMemory plainInit window 1 zeroPage (some (List.replicate 4124 0)) 4124 0 =
      .ok (t,⟨0,some blob,4124⟩) ∧ ¬ Opens plainInit.secureAllocKey (littleEndian 8 window) blob zeroPage := by
  have size : zeroPage.length = 4096 := List.length_replicate
  have written := sealWrites (s := plainInit) window (List.replicate 4124 0) 0 rfl (by decide)
    (show BitVec.toNat (1 : BitVec 64) ≤ 4096 by decide) (by rw [size]; rfl)
    (show 12 + zeroPage.length + 16 ≤ BitVec.toNat (4124 : BitVec 32) by rw [size]; decide)
  rw [size] at written
  refine ⟨_,_,written,fun opens => ?_⟩
  have lucky := (opensExact _ _ (by rw [littleEndianLength,size]; decide)
    (by rw [size,List.length_replicate])).mp opens
  have same := luckyPrefix lucky
  rw [littleEndianLength,zeroPage,List.take_replicate] at same
  exact absurd same (by decide)

end Nekros.SealedMemory
