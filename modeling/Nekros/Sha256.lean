import Nekros.Bytes
import Nekros.Loops

/-! SHA-256 as crypto/sha256.c computes it. A context keeps the bytes that do not yet
fill a block; feeding it piece by piece is feeding it byte by byte. -/
namespace Nekros.Sha256
open Bytes (Byte byteAt bigEndian)
open Loops (upTo whileLoop)

abbrev Word := BitVec 32

abbrev Digest := Vector Byte 32

def roundConstants : List Word := [
  0x428a2f98,0x71374491,0xb5c0fbcf,0xe9b5dba5,0x3956c25b,0x59f111f1,0x923f82a4,0xab1c5ed5,
  0xd807aa98,0x12835b01,0x243185be,0x550c7dc3,0x72be5d74,0x80deb1fe,0x9bdc06a7,0xc19bf174,
  0xe49b69c1,0xefbe4786,0x0fc19dc6,0x240ca1cc,0x2de92c6f,0x4a7484aa,0x5cb0a9dc,0x76f988da,
  0x983e5152,0xa831c66d,0xb00327c8,0xbf597fc7,0xc6e00bf3,0xd5a79147,0x06ca6351,0x14292967,
  0x27b70a85,0x2e1b2138,0x4d2c6dfc,0x53380d13,0x650a7354,0x766a0abb,0x81c2c92e,0x92722c85,
  0xa2bfe8a1,0xa81a664b,0xc24b8b70,0xc76c51a3,0xd192e819,0xd6990624,0xf40e3585,0x106aa070,
  0x19a4c116,0x1e376c08,0x2748774c,0x34b0bcb5,0x391c0cb3,0x4ed8aa4a,0x5b9cca4f,0x682e6ff3,
  0x748f82ee,0x78a5636f,0x84c87814,0x8cc70208,0x90befffa,0xa4506ceb,0xbef9a3f7,0xc67178f2
]

def rotr32 (x : Word) (n : Nat) : Word := x >>> n ||| x <<< (32 - n)

def ch (x y z : Word) : Word := (x &&& y) ^^^ (~~~ x &&& z)

def maj (x y z : Word) : Word := (x &&& y) ^^^ (x &&& z) ^^^ (y &&& z)

def ep0 (x : Word) : Word := rotr32 x 2 ^^^ rotr32 x 13 ^^^ rotr32 x 22

def ep1 (x : Word) : Word := rotr32 x 6 ^^^ rotr32 x 11 ^^^ rotr32 x 25

def sig0 (x : Word) : Word := rotr32 x 7 ^^^ rotr32 x 18 ^^^ x >>> 3

def sig1 (x : Word) : Word := rotr32 x 17 ^^^ rotr32 x 19 ^^^ x >>> 10

def be32 (block : List Byte) (i : Nat) : Word := bigEndian 32 ((block.drop (i*4)).take 4)

def putBe32 (v : Word) : List Byte := [byteAt v 24,byteAt v 16,byteAt v 8,byteAt v 0]

def putBe64 (v : BitVec 64) : List Byte := putBe32 ((v >>> 32).setWidth 32) ++ putBe32 (v.setWidth 32)

def schedule (block : List Byte) : List Word :=
  let body := fun (j : Nat) (w : List Word) =>
    let i := 16 + j
    w ++ [sig1 (w.getD (i-2) 0) + w.getD (i-7) 0 + sig0 (w.getD (i-15) 0) + w.getD (i-16) 0]
  upTo 48 body ((List.range 16).map (be32 block))

structure State where
  a : Word
  b : Word
  c : Word
  d : Word
  e : Word
  f : Word
  g : Word
  h : Word
  deriving DecidableEq, Repr

def compress (s : State) (k w : Word) : State :=
  let t1 := s.h + ep1 s.e + ch s.e s.f s.g + k + w
  let t2 := ep0 s.a + maj s.a s.b s.c
  ⟨t1+t2,s.a,s.b,s.c,s.d+t1,s.e,s.f,s.g⟩

def sha256Transform (s : State) (block : List Byte) : State :=
  let r := (roundConstants.zip (schedule block)).foldl (fun r kw => compress r kw.1 kw.2) s
  ⟨s.a+r.a,s.b+r.b,s.c+r.c,s.d+r.d,s.e+r.e,s.f+r.f,s.g+r.g,s.h+r.h⟩

def initial : State :=
  ⟨0x6a09e667,0xbb67ae85,0x3c6ef372,0xa54ff53a,0x510e527f,0x9b05688c,0x1f83d9ab,0x5be0cd19⟩

/- `sha256_ctx_t`; `buf` is the first `buflen` bytes of the array, no others are ever read. -/
structure Ctx where
  state : State
  count : BitVec 64
  buf : List Byte
  room : buf.length < 64

def sha256Init : Ctx := ⟨initial,0,[],by decide⟩

def fill (ctx : Ctx) (l : List Byte) (fits : (ctx.buf ++ l).length ≤ 64) : Ctx :=
  if full : (ctx.buf ++ l).length = 64 then ⟨sha256Transform ctx.state (ctx.buf ++ l),ctx.count,[],by decide⟩
  else ⟨ctx.state,ctx.count,ctx.buf ++ l,Nat.lt_of_le_of_ne fits full⟩

def copy (ctx : Ctx) (data : List Byte) : Nat :=
  if data.length < 64 - ctx.buf.length then data.length else 64 - ctx.buf.length

theorem copyFits (ctx : Ctx) (data : List Byte) : (ctx.buf ++ data.take (copy ctx data)).length ≤ 64 := by
  have room := ctx.room
  rw [List.length_append,List.length_take,copy]
  split <;> omega

def absorb (p : Ctx × List Byte) : Ctx × List Byte :=
  (fill p.1 (p.2.take (copy p.1 p.2)) (copyFits p.1 p.2),p.2.drop (copy p.1 p.2))

def more (p : Ctx × List Byte) : Bool := !p.2.isEmpty

theorem absorbShrinks (p : Ctx × List Byte) (going : more p = true) : (absorb p).2.length < p.2.length := by
  have left : 0 < p.2.length := by
    cases empty : p.2 with
    | nil => simp [more,empty] at going
    | cons b rest => exact Nat.succ_pos _
  have room := p.1.room
  rw [absorb,List.length_drop,copy]
  split <;> omega

theorem absorbEnds (p : Ctx × List Byte) : (whileLoop more absorb p.2.length p).isSome := by
  obtain ⟨t,ran,_⟩ := Loops.whileEnds more absorb (fun _ => True) (fun p => p.2.length)
    (fun p _ going => ⟨trivial,absorbShrinks p going⟩) trivial (Nat.le_refl p.2.length)
  rw [ran]
  rfl

def sha256Update (ctx : Ctx) (data : List Byte) : Ctx :=
  let ctx := {ctx with count := ctx.count + BitVec.ofNat 64 data.length}
  ((whileLoop more absorb data.length (ctx,data)).get (absorbEnds (ctx,data))).1

def feed (ctx : Ctx) (b : Byte) : Ctx :=
  fill ctx [b] (by rw [List.length_append]; exact ctx.room)

theorem feedOpen {ctx : Ctx} {b : Byte} (short : ctx.buf.length + 1 < 64) :
    feed ctx b = ⟨ctx.state,ctx.count,ctx.buf ++ [b],by rw [List.length_append]; exact short⟩ := by
  rw [feed,fill,dif_neg (by rw [List.length_append,List.length_singleton]; omega)]

theorem fillFeeds (ctx : Ctx) (l : List Byte) (fits : (ctx.buf ++ l).length ≤ 64) :
    fill ctx l fits = l.foldl feed ctx := by
  induction l generalizing ctx with
  | nil =>
      have room := ctx.room
      rw [fill,dif_neg (by rw [List.append_nil]; omega)]
      simp only [List.append_nil,List.foldl_nil]
  | cons b rest ih =>
      cases rest with
      | nil => rfl
      | cons c rest =>
          have short : ctx.buf.length + 1 < 64 := by
            simp only [List.length_append,List.length_cons] at fits
            omega
          rw [List.foldl_cons,feedOpen short,← ih _ (by simpa using fits)]
          simp only [fill,List.append_assoc,List.singleton_append]

theorem updateFeeds (ctx : Ctx) (data : List Byte) :
    sha256Update ctx data = data.foldl feed {ctx with count := ctx.count + BitVec.ofNat 64 data.length} := by
  let start : Ctx := {ctx with count := ctx.count + BitVec.ofNat 64 data.length}
  obtain ⟨t,ran,same,ended⟩ := Loops.whileEnds more absorb
    (fun p => p.2.foldl feed p.1 = data.foldl feed start) (fun p => p.2.length)
    (fun p same going => ⟨by
      rw [absorb,fillFeeds,← List.foldl_append,List.take_append_drop,same],absorbShrinks p going⟩)
    (s := (start,data)) rfl (Nat.le_refl data.length)
  have empty : t.2 = [] := by simpa [more] using ended
  rw [empty] at same
  have result : sha256Update ctx data = t.1 := by
    simp only [sha256Update]
    exact congrArg Prod.fst (Option.get_of_eq_some _ ran)
  rw [result]
  exact same

theorem feedCount (ctx : Ctx) (n : BitVec 64) (l : List Byte) :
    l.foldl feed {ctx with count := n} = {l.foldl feed ctx with count := n} := by
  induction l generalizing ctx with
  | nil => rfl
  | cons b rest ih =>
      have head : feed {ctx with count := n} b = {feed ctx b with count := n} := by
        simp only [feed,fill]
        split <;> rfl
      rw [List.foldl_cons,List.foldl_cons,head,ih]

theorem feedKeepsCount (ctx : Ctx) (l : List Byte) : (l.foldl feed ctx).count = ctx.count :=
  (congrArg Ctx.count (feedCount ctx ctx.count l) :)

theorem updateAppend (ctx : Ctx) (a b : List Byte) :
    sha256Update (sha256Update ctx a) b = sha256Update ctx (a ++ b) := by
  have total : ctx.count + BitVec.ofNat 64 a.length + BitVec.ofNat 64 b.length =
      ctx.count + BitVec.ofNat 64 (a ++ b).length := by
    rw [List.length_append,BitVec.ofNat_add,BitVec.add_assoc]
  rw [updateFeeds ctx (a ++ b),List.foldl_append,updateFeeds (sha256Update ctx a),updateFeeds ctx a,
    feedKeepsCount,← feedCount]
  exact congrArg (fun n => b.foldl feed (a.foldl feed {ctx with count := n})) total

theorem updateNil (ctx : Ctx) : sha256Update ctx [] = ctx := by
  rw [updateFeeds]
  simp

def padZero (ctx : Ctx) : Ctx := sha256Update ctx [0]

def padding (ctx : Ctx) : Bool := ctx.buf.length != 56

theorem padZeroBuf (ctx : Ctx) :
    (padZero ctx).buf.length = if ctx.buf.length + 1 = 64 then 0 else ctx.buf.length + 1 := by
  rw [padZero,updateFeeds,List.foldl_cons,List.foldl_nil,feed,fill]
  simp only [List.length_append,List.length_singleton]
  split <;> simp [*]

theorem paddingEnds (ctx : Ctx) : (whileLoop padding padZero 64 ctx).isSome := by
  obtain ⟨t,ran,_⟩ := Loops.whileEnds padding padZero (fun _ => True)
    (fun ctx => if ctx.buf.length ≤ 56 then 56 - ctx.buf.length else 120 - ctx.buf.length)
    (fun ctx _ going => ⟨trivial,by
      have room := ctx.room
      have off : ctx.buf.length ≠ 56 := by simpa [padding] using going
      rw [padZeroBuf]
      split <;> split <;> split <;> omega⟩)
    (s := ctx) trivial (show _ ≤ 64 by split <;> omega)
  rw [ran]
  rfl

def digestOf (s : State) : Digest :=
  ⟨([s.a,s.b,s.c,s.d,s.e,s.f,s.g,s.h].flatMap putBe32).toArray,rfl⟩

def sha256Final (ctx : Ctx) : Digest :=
  let bits := ctx.count * 8
  let ctx := sha256Update ctx [0x80]
  let ctx := (whileLoop padding padZero 64 ctx).get (paddingEnds ctx)
  let ctx := sha256Update ctx (putBe64 bits)
  digestOf ctx.state

def sha256 (data : List Byte) : Digest := sha256Final (sha256Update sha256Init data)

-- Nothing outside computes with these except the kernel, on closed inputs.
attribute [irreducible] sha256Transform sha256Update sha256Final

example : (sha256 [0x61,0x62,0x63]).toList.take 4 = [0xba,0x78,0x16,0xbf] := by decide +kernel

end Nekros.Sha256
