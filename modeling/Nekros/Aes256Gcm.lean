import Nekros.AesGcm

/-! AES-256-GCM of drivers/cortexcrypto/core/aes256.c. Lengths and the loop
indices are `u32`. A conditional loop takes fuel and answers `none` when it is
still going. -/
namespace Nekros.Aes256Gcm
open Bytes (Byte Block byteAt blockOf xorBlock)
open Aes (Key Nonce Word RoundKeys sbox rcon gfMul)
open AesGcm (Sealed Opened tagDiff)
open Loops (upTo whileLoop)

def wrap32 (x : Nat) : Nat := x % 2^32

def subword (w : Word) : Word :=
  (sbox (byteAt w 24)).setWidth 32 <<< 24 ||| (sbox (byteAt w 16)).setWidth 32 <<< 16 |||
    (sbox (byteAt w 8)).setWidth 32 <<< 8 ||| (sbox (byteAt w 0)).setWidth 32

def rotword (w : Word) : Word := (w <<< 8) ||| (w >>> 24)

def keyNext (i : Nat) (t : Word) : Word :=
  if i % 8 = 0 then subword (rotword t) ^^^ (rcon (i/8)).setWidth 32 <<< 24
  else if i % 8 = 4 then subword t
  else t

def aes256KeyExpand (key : Key) : RoundKeys := Aes.keyExpand keyNext key

def mixColumns (s : Block) : Block :=
  upTo 4 (fun c s =>
    let a0 := s.getD (c*4) 0
    let a1 := s.getD (c*4+1) 0
    let a2 := s.getD (c*4+2) 0
    let a3 := s.getD (c*4+3) 0
    let s := s.setIfInBounds (c*4) (gfMul a0 2 ^^^ gfMul a1 3 ^^^ a2 ^^^ a3)
    let s := s.setIfInBounds (c*4+1) (a0 ^^^ gfMul a1 2 ^^^ gfMul a2 3 ^^^ a3)
    let s := s.setIfInBounds (c*4+2) (a0 ^^^ a1 ^^^ gfMul a2 2 ^^^ gfMul a3 3)
    s.setIfInBounds (c*4+3) (gfMul a0 3 ^^^ a1 ^^^ a2 ^^^ gfMul a3 2)) s

def aes256BlockEncrypt (ks : RoundKeys) (input : Block) : Block :=
  Aes.encryptRounds mixColumns ks input

structure Crypting where
  done : Nat
  ctr : Word
  out : List Byte

def ctrStep (encrypt : Block → Block) (nonce : Nonce) (input : List Byte) (s : Crypting) : Crypting :=
  let keystream := encrypt (Aes.counterBlock nonce s.ctr)
  let chunk := min 16 (input.length - s.done)
  ⟨wrap32 (s.done + chunk),s.ctr + 1,
    s.out ++ List.zipWith (· ^^^ ·) ((input.drop s.done).take chunk) keystream.toList⟩

def aes256CtrCrypt (fuel : Nat) (ks : RoundKeys) (nonce : Nonce) (ctrStart : Word)
    (input : List Byte) : Option (List Byte) :=
  (whileLoop (fun s => s.done < input.length) (ctrStep (aes256BlockEncrypt ks) nonce input) fuel
    ⟨0,ctrStart,[]⟩).map Crypting.out

structure Shifting where
  v : Block
  carry : Byte

def shiftRight (v : Block) : Shifting :=
  upTo 16 (fun j s =>
    let newCarry := s.v.getD j 0 &&& 1
    ⟨s.v.setIfInBounds j ((s.v.getD j 0 >>> 1) ||| (s.carry <<< 7)),newCarry⟩) ⟨v,0⟩

structure Product where
  z : Block
  v : Block

def mulStep (tmp : Block) (i : Nat) (s : Product) : Product :=
  let z := if (tmp.getD (i/8) 0 >>> (7 - i%8)) &&& 1 ≠ 0 then xorBlock s.z s.v else s.z
  let shifted := shiftRight s.v
  let v := if shifted.carry ≠ 0 then shifted.v.set 0 (shifted.v[0] ^^^ 0xE1) else shifted.v
  ⟨z,v⟩

def ghashBlock (y x h : Block) : Block :=
  (upTo 128 (mulStep (xorBlock y x)) ⟨Vector.replicate 16 0,h⟩).z

structure Hashing where
  i : Nat
  y : Block

def hashStep (h : Block) (data : List Byte) (s : Hashing) : Hashing :=
  let chunk := min 16 (data.length - s.i)
  let block := blockOf ((data.drop s.i).take chunk)
  ⟨wrap32 (s.i + 16),ghashBlock s.y block h⟩

def hashData (fuel : Nat) (h : Block) (data : List Byte) (y : Block) : Option Block :=
  (whileLoop (fun s => s.i < data.length) (hashStep h data) fuel ⟨0,y⟩).map Hashing.y

structure Lengths where
  block : Block
  aadBits : BitVec 64
  ctBits : BitVec 64

def lengthStep (k : Nat) (s : Lengths) : Lengths :=
  let j := 7 - k
  let block := s.block.setIfInBounds j (byteAt s.aadBits 0)
  let block := block.setIfInBounds (j+8) (byteAt s.ctBits 0)
  ⟨block,s.aadBits >>> 8,s.ctBits >>> 8⟩

def lengthBlock (aadLen ctLen : Nat) : Block :=
  (upTo 8 lengthStep
    ⟨Vector.replicate 16 0,BitVec.ofNat 64 (aadLen * 8),BitVec.ofNat 64 (ctLen * 8)⟩).block

def ghash (fuel : Nat) (h : Block) (aad ct : List Byte) : Option Block := do
  let y ← hashData fuel h aad (Vector.replicate 16 0)
  let y ← hashData fuel h ct y
  some (ghashBlock y (lengthBlock aad.length ct.length) h)

def computedTag (fuel : Nat) (ks : RoundKeys) (nonce : Nonce) (aad ct : List Byte) : Option Block := do
  let h := aes256BlockEncrypt ks (Vector.replicate 16 0)
  let rawTag ← ghash fuel h aad ct
  some (xorBlock rawTag (aes256BlockEncrypt ks (Aes.initialBlock nonce)))

def aes256gcmEncrypt (fuel : Nat) (key : Key) (nonce : Nonce) (plaintext aad : List Byte) :
    Option Sealed := do
  let ks := aes256KeyExpand key
  let ciphertext ← aes256CtrCrypt fuel ks nonce 2 plaintext
  let tag ← computedTag fuel ks nonce aad ciphertext
  some ⟨ciphertext,tag⟩

def aes256gcmDecrypt (fuel : Nat) (key : Key) (nonce : Nonce) (ciphertext : List Byte) (tag : Block)
    (aad plaintext : List Byte) : Option Opened := do
  let ks := aes256KeyExpand key
  let expectedTag ← computedTag fuel ks nonce aad ciphertext
  if tagDiff expectedTag tag ≠ 0#8 then some ⟨-1,plaintext⟩
  else
    let out ← aes256CtrCrypt fuel ks nonce 2 ciphertext
    some ⟨0,out ++ plaintext.drop out.length⟩

end Nekros.Aes256Gcm
