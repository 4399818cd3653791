import Nekros.Bytes
import Nekros.Loops

/-! The parts of AES-256 that crypto/aes_gcm.c and drivers/cortexcrypto/core/aes256.c
write the same way: both tables, the byte multiplication and the steps of a round
that use no multiplication. -/
namespace Nekros.Aes
open Bytes (Byte Block byteAt)
open Loops (upTo)

abbrev Word := BitVec 32

abbrev Key := Vector Byte 32

abbrev Nonce := Vector Byte 12

abbrev RoundKeys := Vector Word 60

set_option maxRecDepth 2000 in
def sboxTable : Vector Byte 256 := #v[
  0x63,0x7c,0x77,0x7b,0xf2,0x6b,0x6f,0xc5,0x30,0x01,0x67,0x2b,0xfe,0xd7,0xab,0x76,
  0xca,0x82,0xc9,0x7d,0xfa,0x59,0x47,0xf0,0xad,0xd4,0xa2,0xaf,0x9c,0xa4,0x72,0xc0,
  0xb7,0xfd,0x93,0x26,0x36,0x3f,0xf7,0xcc,0x34,0xa5,0xe5,0xf1,0x71,0xd8,0x31,0x15,
  0x04,0xc7,0x23,0xc3,0x18,0x96,0x05,0x9a,0x07,0x12,0x80,0xe2,0xeb,0x27,0xb2,0x75,
  0x09,0x83,0x2c,0x1a,0x1b,0x6e,0x5a,0xa0,0x52,0x3b,0xd6,0xb3,0x29,0xe3,0x2f,0x84,
  0x53,0xd1,0x00,0xed,0x20,0xfc,0xb1,0x5b,0x6a,0xcb,0xbe,0x39,0x4a,0x4c,0x58,0xcf,
  0xd0,0xef,0xaa,0xfb,0x43,0x4d,0x33,0x85,0x45,0xf9,0x02,0x7f,0x50,0x3c,0x9f,0xa8,
  0x51,0xa3,0x40,0x8f,0x92,0x9d,0x38,0xf5,0xbc,0xb6,0xda,0x21,0x10,0xff,0xf3,0xd2,
  0xcd,0x0c,0x13,0xec,0x5f,0x97,0x44,0x17,0xc4,0xa7,0x7e,0x3d,0x64,0x5d,0x19,0x73,
  0x60,0x81,0x4f,0xdc,0x22,0x2a,0x90,0x88,0x46,0xee,0xb8,0x14,0xde,0x5e,0x0b,0xdb,
  0xe0,0x32,0x3a,0x0a,0x49,0x06,0x24,0x5c,0xc2,0xd3,0xac,0x62,0x91,0x95,0xe4,0x79,
  0xe7,0xc8,0x37,0x6d,0x8d,0xd5,0x4e,0xa9,0x6c,0x56,0xf4,0xea,0x65,0x7a,0xae,0x08,
  0xba,0x78,0x25,0x2e,0x1c,0xa6,0xb4,0xc6,0xe8,0xdd,0x74,0x1f,0x4b,0xbd,0x8b,0x8a,
  0x70,0x3e,0xb5,0x66,0x48,0x03,0xf6,0x0e,0x61,0x35,0x57,0xb9,0x86,0xc1,0x1d,0x9e,
  0xe1,0xf8,0x98,0x11,0x69,0xd9,0x8e,0x94,0x9b,0x1e,0x87,0xe9,0xce,0x55,0x28,0xdf,
  0x8c,0xa1,0x89,0x0d,0xbf,0xe6,0x42,0x68,0x41,0x99,0x2d,0x0f,0xb0,0x54,0xbb,0x16
]

def sbox (b : Byte) : Byte := sboxTable.get b.toFin

def rconTable : Vector Byte 11 := #v[0x00,0x01,0x02,0x04,0x08,0x10,0x20,0x40,0x80,0x1b,0x36]

def rcon (i : Nat) : Byte := rconTable.getD i 0

structure Multiplying where
  p : Byte
  a : Byte
  b : Byte

def gfMul (a b : Byte) : Byte :=
  let body := fun (_ : Nat) (s : Multiplying) =>
    let p := if s.b &&& 1 ≠ 0 then s.p ^^^ s.a else s.p
    let hi := s.a &&& 0x80
    let a := s.a <<< 1
    let a := if hi ≠ 0 then a ^^^ 0x1b else a
    ⟨p,a,s.b >>> 1⟩
  (upTo 8 body ⟨0,a,b⟩).p

def aesSubBytes (s : Block) : Block := s.map sbox

def aesShiftRows (s : Block) : Block :=
  let t := s[1]
  let s := s.set 1 s[5]
  let s := s.set 5 s[9]
  let s := s.set 9 s[13]
  let s := s.set 13 t
  let t := s[2]
  let s := s.set 2 s[10]
  let s := s.set 10 t
  let t := s[6]
  let s := s.set 6 s[14]
  let s := s.set 14 t
  let t := s[15]
  let s := s.set 15 s[11]
  let s := s.set 11 s[7]
  let s := s.set 7 s[3]
  s.set 3 t

def xorAt (s : Block) (j : Nat) (b : Byte) : Block := s.setIfInBounds j (s.getD j 0 ^^^ b)

def aesAddRoundKey (s : Block) (rk : RoundKeys) (first : Nat) : Block :=
  let body := fun (i : Nat) (s : Block) =>
    let k := rk.getD (first + i) 0
    let s := xorAt s (i*4) (byteAt k 24)
    let s := xorAt s (i*4+1) (byteAt k 16)
    let s := xorAt s (i*4+2) (byteAt k 8)
    xorAt s (i*4+3) (byteAt k 0)
  upTo 4 body s

def keyWord (key : Key) (i : Nat) : Word :=
  (key.getD (i*4) 0).setWidth 32 <<< 24 ||| (key.getD (i*4+1) 0).setWidth 32 <<< 16 |||
    (key.getD (i*4+2) 0).setWidth 32 <<< 8 ||| (key.getD (i*4+3) 0).setWidth 32

/- The loops of both key schedules: `next i` is what the file computes from
`rk[i-1]` before it adds `rk[i-8]`. -/
def keyExpand (next : Nat → Word → Word) (key : Key) : RoundKeys :=
  let rk : RoundKeys := Vector.replicate 60 0
  let rk := upTo 8 (fun i rk => rk.setIfInBounds i (keyWord key i)) rk
  upTo 52 (fun k rk =>
    let i := k + 8
    rk.setIfInBounds i (rk.getD (i-8) 0 ^^^ next i (rk.getD (i-1) 0))) rk

def encryptRounds (mixColumns : Block → Block) (rk : RoundKeys) (input : Block) : Block :=
  let state := aesAddRoundKey input rk 0
  let state := upTo 13 (fun k state =>
    let r := k + 1
    aesAddRoundKey (mixColumns (aesShiftRows (aesSubBytes state))) rk (r*4)) state
  aesAddRoundKey (aesShiftRows (aesSubBytes state)) rk 56

def counterBlock (iv : Nonce) (ctr : Word) : Block :=
  Vector.ofFn fun j => if j.val < 12 then iv.getD j 0 else byteAt ctr (24 - 8*(j.val - 12))

def initialBlock (iv : Nonce) : Block :=
  Vector.ofFn fun j => if j.val < 12 then iv.getD j 0 else if j.val = 15 then 1 else 0

end Nekros.Aes
