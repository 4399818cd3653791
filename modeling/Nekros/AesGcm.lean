import Nekros.Aes
import Nekros.Errno
import Nekros.Words

/-! AES-256-GCM of crypto/aes_gcm.c. A buffer the caller passes for a result is
an argument, and the result is its contents afterwards. -/
namespace Nekros.AesGcm
open Errno
open Bytes (Byte Block byteAt bigEndian blockOf xorBlock)
open Aes (Key Nonce Word RoundKeys sbox rcon gfMul)
open Loops (upTo)

def keyNext (i : Nat) (w : Word) : Word :=
  if i % 8 = 0 then
    (sbox (byteAt w 16) ^^^ rcon (i/8)).setWidth 32 <<< 24 ||| (sbox (byteAt w 8)).setWidth 32 <<< 16 |||
      (sbox (byteAt w 0)).setWidth 32 <<< 8 ||| (sbox (byteAt w 24)).setWidth 32
  else if i % 8 = 4 then
    (sbox (byteAt w 24)).setWidth 32 <<< 24 ||| (sbox (byteAt w 16)).setWidth 32 <<< 16 |||
      (sbox (byteAt w 8)).setWidth 32 <<< 8 ||| (sbox (byteAt w 0)).setWidth 32
  else w

def aes256KeyExpand (key : Key) : RoundKeys := Aes.keyExpand keyNext key

def aesMixColumns (s : Block) : Block :=
  upTo 4 (fun k s =>
    let a := s.getD (k*4) 0
    let b := s.getD (k*4+1) 0
    let c := s.getD (k*4+2) 0
    let d := s.getD (k*4+3) 0
    let s := s.setIfInBounds (k*4) (gfMul 2 a ^^^ gfMul 3 b ^^^ c ^^^ d)
    let s := s.setIfInBounds (k*4+1) (a ^^^ gfMul 2 b ^^^ gfMul 3 c ^^^ d)
    let s := s.setIfInBounds (k*4+2) (a ^^^ b ^^^ gfMul 2 c ^^^ gfMul 3 d)
    s.setIfInBounds (k*4+3) (gfMul 3 a ^^^ b ^^^ c ^^^ gfMul 2 d)) s

def aes256EncryptBlock (key : Key) (input : Block) : Block :=
  Aes.encryptRounds aesMixColumns (aes256KeyExpand key) input

section CounterMode
variable (encrypt : Block → Block) (iv : Nonce)

/- One call encrypts what is left of the input: a chunk of at most sixteen bytes
and, with the next counter, the rest. -/
def ctrCrypt (ctr : Word) : List Byte → List Byte
  | [] => []
  | b::rest =>
      let keystream := encrypt (Aes.counterBlock iv ctr)
      List.zipWith (· ^^^ ·) ((b::rest).take 16) keystream.toList ++
        ctrCrypt (ctr+1) ((b::rest).drop 16)
termination_by input => input.length
decreasing_by
  rw [List.length_drop,List.length_cons]
  omega

theorem ctrCryptNonempty {ctr : Word} {l : List Byte} (some : l ≠ []) :
    ctrCrypt encrypt iv ctr l =
      List.zipWith (· ^^^ ·) (l.take 16) (encrypt (Aes.counterBlock iv ctr)).toList ++
        ctrCrypt encrypt iv (ctr+1) (l.drop 16) := by
  cases l with
  | nil => exact absurd rfl some
  | cons b rest => rw [ctrCrypt]

theorem chunkLength (l : List Byte) (keystream : Block) :
    (List.zipWith (· ^^^ ·) (l.take 16) keystream.toList).length = min 16 l.length := by
  rw [List.length_zipWith,List.length_take,Vector.length_toList]
  omega

theorem ctrCryptLength (ctr : Word) (l : List Byte) :
    (ctrCrypt encrypt iv ctr l).length = l.length := by
  induction ctr,l using ctrCrypt.induct encrypt iv with
  | case1 ctr => rw [ctrCrypt]
  | case2 ctr b rest ih =>
      rw [ctrCryptNonempty encrypt iv (List.cons_ne_nil b rest),List.length_append,chunkLength,ih,
        List.length_drop]
      omega

theorem xorTwice (l keystream : List Byte) (fits : l.length ≤ keystream.length) :
    List.zipWith (· ^^^ ·) (List.zipWith (· ^^^ ·) l keystream) keystream = l := by
  induction l generalizing keystream with
  | nil => rfl
  | cons b rest ih =>
      cases keystream with
      | nil => cases fits
      | cons k ks =>
          have tail := ih ks (Nat.le_of_succ_le_succ fits)
          simp only [List.zipWith_cons_cons,tail,BitVec.xor_assoc,BitVec.xor_self,BitVec.xor_zero]

/- A chunk that is followed by anything is sixteen bytes long, so the second pass
cuts the ciphertext where the first one cut the plaintext. -/
theorem ctrCryptTwice (ctr : Word) (l : List Byte) :
    ctrCrypt encrypt iv ctr (ctrCrypt encrypt iv ctr l) = l := by
  induction ctr,l using ctrCrypt.induct encrypt iv with
  | case1 ctr => rw [ctrCrypt,ctrCrypt]
  | case2 ctr b rest ih =>
      have full : ctrCrypt encrypt iv ctr (b::rest) ≠ [] := by
        intro empty
        have length := ctrCryptLength encrypt iv ctr (b::rest)
        rw [empty] at length
        cases length
      rw [ctrCryptNonempty encrypt iv full,ctrCryptNonempty encrypt iv (List.cons_ne_nil b rest)]
      generalize b::rest = l at ih ⊢
      generalize (encrypt (Aes.counterBlock iv ctr)) = keystream
      have size := chunkLength l keystream
      have after := ctrCryptLength encrypt iv (ctr+1) (l.drop 16)
      rw [List.length_drop] at after
      have front : (List.zipWith (· ^^^ ·) (l.take 16) keystream.toList ++
          ctrCrypt encrypt iv (ctr+1) (l.drop 16)).take 16 =
          List.zipWith (· ^^^ ·) (l.take 16) keystream.toList := by
        rcases Nat.lt_or_ge l.length 16 with short | long
        · have none : ctrCrypt encrypt iv (ctr+1) (l.drop 16) = [] :=
            List.eq_nil_of_length_eq_zero (by omega)
          rw [none,List.append_nil,List.take_of_length_le (by omega)]
        · exact List.take_left' (by omega)
      have back : (List.zipWith (· ^^^ ·) (l.take 16) keystream.toList ++
          ctrCrypt encrypt iv (ctr+1) (l.drop 16)).drop 16 =
          ctrCrypt encrypt iv (ctr+1) (l.drop 16) := by
        rcases Nat.lt_or_ge l.length 16 with short | long
        · have none : ctrCrypt encrypt iv (ctr+1) (l.drop 16) = [] :=
            List.eq_nil_of_length_eq_zero (by omega)
          rw [none,List.append_nil,List.drop_of_length_le (by omega)]
        · exact List.drop_left' (by omega)
      rw [front,back,ih,xorTwice _ _ (by rw [List.length_take,Vector.length_toList]; omega),
        List.take_append_drop]

end CounterMode

def aes256CtrCrypt (key : Key) (iv : Nonce) (ctr : Word) (input : List Byte) : List Byte :=
  ctrCrypt (aes256EncryptBlock key) iv ctr input

structure U128 where
  hi : BitVec 64
  lo : BitVec 64
  deriving DecidableEq, Repr

structure Product where
  z : U128
  v : U128

def gf128Step (x : U128) (i : Nat) (s : Product) : Product :=
  let bit := if i < 64 then (x.hi >>> (63 - i)) &&& 1 else (x.lo >>> (127 - i)) &&& 1
  let z : U128 := if bit ≠ 0 then ⟨s.z.hi ^^^ s.v.hi,s.z.lo ^^^ s.v.lo⟩ else s.z
  let lsb := s.v.lo &&& 1
  let lo := (s.v.lo >>> 1) ||| (s.v.hi <<< 63)
  let hi := s.v.hi >>> 1
  let hi := if lsb ≠ 0 then hi ^^^ 0xe100000000000000 else hi
  ⟨z,⟨hi,lo⟩⟩

def gf128Mul (x h : U128) : U128 := (upTo 128 (gf128Step x) ⟨⟨0,0⟩,h⟩).z

def xorIn (x : U128) (block : Block) : U128 :=
  ⟨upTo 8 (fun j hi => hi ^^^ (block.getD j 0).setWidth 64 <<< (56 - j*8)) x.hi,
    upTo 8 (fun j lo => lo ^^^ (block.getD (8+j) 0).setWidth 64 <<< (56 - j*8)) x.lo⟩

def absorbData (h : U128) (data : List Byte) (x : U128) : U128 :=
  let n := Words.wrap (data.length + 15) / 16
  upTo n (fun i x =>
    let copy := min 16 (data.length - i*16)
    let block := blockOf ((data.drop (i*16)).take copy)
    gf128Mul (xorIn x block) h) x

def loadU128 (b : Block) : U128 := ⟨bigEndian 64 (b.toList.take 8),bigEndian 64 (b.toList.drop 8)⟩

def storeU128 (x : U128) : Block :=
  Vector.ofFn fun i => if i.val < 8 then byteAt x.hi (56 - i.val*8) else byteAt x.lo (56 - (i.val-8)*8)

def ghash (key : Block) (aad ct : List Byte) : Block :=
  let h := loadU128 key
  let x := absorbData h aad ⟨0,0⟩
  let x := absorbData h ct x
  let lA := BitVec.ofNat 64 (aad.length * 8)
  let lC := BitVec.ofNat 64 (ct.length * 8)
  storeU128 (gf128Mul ⟨x.hi ^^^ lA,x.lo ^^^ lC⟩ h)

def computedTag (key : Key) (iv : Nonce) (aad ct : List Byte) : Block :=
  let h := aes256EncryptBlock key (Vector.replicate 16 0)
  let ek0 := aes256EncryptBlock key (Aes.initialBlock iv)
  xorBlock (ghash h aad ct) ek0

structure Sealed where
  ct : List Byte
  tag : Block
  deriving DecidableEq, Repr

def aes256GcmEncrypt (key : Key) (iv : Nonce) (aad pt : List Byte) : Sealed :=
  let ct := aes256CtrCrypt key iv 2 pt
  ⟨ct,computedTag key iv aad ct⟩

def tagDiff (computed expected : Block) : Byte :=
  upTo 16 (fun i diff => diff ||| (computed.getD i 0 ^^^ expected.getD i 0)) 0#8

theorem tagDiffZero (computed expected : Block) : tagDiff computed expected = 0#8 ↔ computed = expected := by
  have upto : ∀ n, n ≤ 16 → (upTo n (fun i diff => diff ||| (computed.getD i 0 ^^^ expected.getD i 0)) 0#8 = 0#8 ↔
      ∀ i, i < n → computed.getD i 0 = expected.getD i 0) := by
    intro n bound
    induction n with
    | zero => exact ⟨fun _ i lt => absurd lt (Nat.not_lt_zero i),fun _ => rfl⟩
    | succ n ih =>
        rw [upTo,BitVec.or_eq_zero_iff,BitVec.xor_eq_zero_iff,ih (by omega)]
        constructor
        · rintro ⟨before,last⟩ i lt
          rcases Nat.lt_succ_iff_lt_or_eq.mp lt with less | rfl
          · exact before i less
          · exact last
        · intro all
          exact ⟨fun i lt => all i (Nat.lt_succ_of_lt lt),all n (Nat.lt_succ_self n)⟩
  rw [tagDiff,upto 16 (Nat.le_refl 16)]
  constructor
  · intro all
    apply Vector.ext
    intro i lt
    have here := all i lt
    rwa [Bytes.getDOfLt _ lt,Bytes.getDOfLt _ lt] at here
  · rintro rfl i _
    rfl

structure Opened where
  rc : Int
  pt : List Byte
  deriving DecidableEq, Repr

/- `pt` is the plaintext buffer of the caller, of `ct.length` bytes or more. -/
def aes256GcmDecrypt (key : Key) (iv : Nonce) (aad ct : List Byte) (expectedTag : Block)
    (pt : List Byte) : Opened :=
  if tagDiff (computedTag key iv aad ct) expectedTag ≠ 0#8 then ⟨-ebadmsg,pt⟩
  else
    let out := aes256CtrCrypt key iv 2 ct
    ⟨0,out ++ pt.drop out.length⟩

theorem decryptCases (key : Key) (iv : Nonce) (aad ct : List Byte) (tag : Block) (buf : List Byte) :
    (computedTag key iv aad ct = tag ∧ aes256GcmDecrypt key iv aad ct tag buf =
      ⟨0,aes256CtrCrypt key iv 2 ct ++ buf.drop ct.length⟩) ∨
    (computedTag key iv aad ct ≠ tag ∧ aes256GcmDecrypt key iv aad ct tag buf = ⟨-ebadmsg,buf⟩) := by
  by_cases same : computedTag key iv aad ct = tag
  · left
    have zero := (tagDiffZero _ _).mpr same
    refine ⟨same,?_⟩
    have length : (aes256CtrCrypt key iv 2 ct).length = ct.length := ctrCryptLength _ iv 2 ct
    rw [aes256GcmDecrypt,zero,if_neg (not_not.mpr rfl)]
    simp only [length]
  · right
    have differ : tagDiff (computedTag key iv aad ct) tag ≠ 0#8 :=
      fun zero => same ((tagDiffZero _ _).mp zero)
    exact ⟨same,by rw [aes256GcmDecrypt,if_pos differ]⟩

theorem encryptExact (key : Key) (iv : Nonce) (aad pt ct : List Byte) (tag : Block) :
    aes256GcmEncrypt key iv aad pt = ⟨ct,tag⟩ ↔
      aes256CtrCrypt key iv 2 ct = pt ∧ computedTag key iv aad ct = tag := by
  constructor
  · intro sealed
    rw [aes256GcmEncrypt,Sealed.mk.injEq] at sealed
    obtain ⟨rfl,tagged⟩ := sealed
    exact ⟨ctrCryptTwice _ iv 2 pt,tagged⟩
  · rintro ⟨rfl,rfl⟩
    rw [aes256GcmEncrypt,aes256CtrCrypt,aes256CtrCrypt,ctrCryptTwice]

theorem decryptExact (key : Key) (iv : Nonce) (aad ct pt : List Byte) (tag : Block) (buf : List Byte) :
    (aes256GcmDecrypt key iv aad ct tag buf = ⟨0,pt ++ buf.drop ct.length⟩ ∧ pt.length = ct.length) ↔
      aes256GcmEncrypt key iv aad pt = ⟨ct,tag⟩ := by
  have length : (aes256CtrCrypt key iv 2 ct).length = ct.length := ctrCryptLength _ iv 2 ct
  rcases decryptCases key iv aad ct tag buf with ⟨same,opened⟩ | ⟨differ,opened⟩
  · rw [opened,encryptExact,Opened.mk.injEq]
    constructor
    · rintro ⟨⟨_,bytes⟩,size⟩
      exact ⟨(List.append_inj bytes (length.trans size.symm)).1,same⟩
    · rintro ⟨rfl,_⟩
      exact ⟨⟨rfl,rfl⟩,length⟩
  · rw [opened,encryptExact,Opened.mk.injEq]
    constructor
    · rintro ⟨⟨code,_⟩,_⟩
      cases code
    · rintro ⟨_,same⟩
      exact absurd same differ

theorem gcmInvertible (key : Key) (iv : Nonce) (aad ct : List Byte) (tag : Block) (buf : List Byte) :
    (∀ pt, (aes256GcmDecrypt key iv aad ct tag buf = ⟨0,pt ++ buf.drop ct.length⟩ ∧
        pt.length = ct.length) ↔ aes256GcmEncrypt key iv aad pt = ⟨ct,tag⟩) ∧
    ((aes256GcmDecrypt key iv aad ct tag buf).rc = 0 ∨
      (aes256GcmDecrypt key iv aad ct tag buf).rc = -ebadmsg) ∧
    ((aes256GcmDecrypt key iv aad ct tag buf).rc ≠ 0 →
      (aes256GcmDecrypt key iv aad ct tag buf).pt = buf) := by
  refine ⟨fun pt => decryptExact key iv aad ct pt tag buf,?_⟩
  rcases decryptCases key iv aad ct tag buf with ⟨_,opened⟩ | ⟨_,opened⟩
  · rw [opened]
    exact ⟨.inl rfl,fun failed => absurd rfl failed⟩
  · rw [opened]
    exact ⟨.inr rfl,fun _ => rfl⟩

end Nekros.AesGcm
