import Mathlib.Data.Nat.NthRoot.Defs
import Mathlib.Data.List.Range
import Nekros.Bytes

/-! The hash function SHA-256 of FIPS 180-4 over messages of whole bytes. Constants are given
by what they are: the first bits of the fractional parts of roots of primes. -/
namespace Nekros.Fips180
open Bytes (Byte bigEndian byteAt)

abbrev Word := BitVec 32

/- Below 18 * 18, a number without a smaller divisor below 18 is prime. -/
def primes : List Nat :=
  (List.range 312).filter fun n => decide (2 ≤ n) && (List.range 18).all fun d => decide (d < 2 ∨ n ≤ d) || n % d != 0

def rootFraction (k p : Nat) : Word := BitVec.ofNat 32 (Nat.nthRoot k (p * 2^(32*k)))

def constants : List Word := primes.map (rootFraction 3)

structure Hash where
  a : Word
  b : Word
  c : Word
  d : Word
  e : Word
  f : Word
  g : Word
  h : Word
  deriving DecidableEq, Repr

def initial : Hash :=
  let r := fun i => rootFraction 2 (primes.getD i 0)
  ⟨r 0,r 1,r 2,r 3,r 4,r 5,r 6,r 7⟩

def ch (x y z : Word) : Word := (x &&& y) ^^^ (~~~ x &&& z)

def maj (x y z : Word) : Word := (x &&& y) ^^^ (x &&& z) ^^^ (y &&& z)

def bigSigma0 (x : Word) : Word := x.rotateRight 2 ^^^ x.rotateRight 13 ^^^ x.rotateRight 22

def bigSigma1 (x : Word) : Word := x.rotateRight 6 ^^^ x.rotateRight 11 ^^^ x.rotateRight 25

def smallSigma0 (x : Word) : Word := x.rotateRight 7 ^^^ x.rotateRight 18 ^^^ x >>> 3

def smallSigma1 (x : Word) : Word := x.rotateRight 17 ^^^ x.rotateRight 19 ^^^ x >>> 10

def scheduled (m : Nat → Word) (t : Nat) : Word :=
  if t < 16 then m t
  else smallSigma1 (scheduled m (t-2)) + scheduled m (t-7) + smallSigma0 (scheduled m (t-15)) + scheduled m (t-16)

def round (k w : Word) (v : Hash) : Hash :=
  let t1 := v.h + bigSigma1 v.e + ch v.e v.f v.g + k + w
  let t2 := bigSigma0 v.a + maj v.a v.b v.c
  ⟨t1+t2,v.a,v.b,v.c,v.d+t1,v.e,v.f,v.g⟩

def rounds (k w : Nat → Word) : Nat → Hash → Hash
  | 0,v => v
  | t+1,v => round (k t) (w t) (rounds k w t v)

def blockWord (block : List Byte) (t : Nat) : Word := bigEndian 32 ((block.drop (t*4)).take 4)

def compress (v : Hash) (block : List Byte) : Hash :=
  let r := rounds (fun t => constants.getD t 0) (scheduled (blockWord block)) 64 v
  ⟨r.a+v.a,r.b+v.b,r.c+v.c,r.d+v.d,r.e+v.e,r.f+v.f,r.g+v.g,r.h+v.h⟩

/- 5.1.1: a one, the fewest zeros that leave room for the length at the end of a block, and the
length in bits. It is defined for lengths below 2^64 bits. -/
def zeros (len : Nat) : Nat := (119 - len % 64) % 64

def lengthBytes (len : Nat) : List Byte := (List.range 8).map fun i => byteAt (BitVec.ofNat 64 (8*len)) (56 - 8*i)

def pad (m : List Byte) : List Byte := m ++ [0x80] ++ List.replicate (zeros m.length) 0 ++ lengthBytes m.length

def hashBlocks (bytes : List Byte) : Nat → Hash → Hash
  | 0,v => v
  | i+1,v => compress (hashBlocks bytes i v) ((bytes.drop (64*i)).take 64)

def wordBytes (w : Word) : List Byte := (List.range 4).map fun i => byteAt w (24 - 8*i)

def sha256 (m : List Byte) : List Byte :=
  let v := hashBlocks (pad m) ((pad m).length / 64) initial
  [v.a,v.b,v.c,v.d,v.e,v.f,v.g,v.h].flatMap wordBytes

theorem padLength (m : List Byte) : (pad m).length % 64 = 0 ∧ m.length + 9 ≤ (pad m).length := by
  have size : (pad m).length = m.length + 1 + zeros m.length + 8 := by
    simp only [pad,lengthBytes,List.length_append,List.length_singleton,List.length_replicate,List.length_map,
      List.length_range]
  rw [size]
  unfold zeros
  omega

end Nekros.Fips180
