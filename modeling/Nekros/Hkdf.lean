import Nekros.Sha256

/-! HMAC-SHA256 and HKDF-SHA256 of crypto/sha256.c. The expansion writes HMAC out once more, with
the pieces of the message fed one by one, and keeps the inner digest in `T` on the way; it is
compared with the blocks T(i) of RFC 5869 over the file's own `hmac_sha256`. -/
namespace Nekros.Hkdf
open Bytes (Byte)
open Sha256 (Digest Ctx sha256 sha256Init sha256Update sha256Final updateAppend updateNil)
open Loops (whileLoop)

def keyBlock (key : List Byte) : List Byte := key ++ List.replicate (64 - key.length) 0

def ipad (k : List Byte) : List Byte := k.map (· ^^^ 0x36)

def opad (k : List Byte) : List Byte := k.map (· ^^^ 0x5c)

def hmacSha256 (key msg : List Byte) : Digest :=
  let k := keyBlock (if key.length > 64 then (sha256 key).toList else key)
  let ctx := sha256Update sha256Init (ipad k)
  let ctx := sha256Update ctx msg
  let inner := sha256Final ctx
  let ctx := sha256Update sha256Init (opad k)
  let ctx := sha256Update ctx inner.toList
  sha256Final ctx

structure Expanding where
  ctr : Byte
  t : Digest
  done : Nat
  out : List Byte

def writeOut (out : List Byte) (done : Nat) (bytes : List Byte) : List Byte :=
  out.take done ++ bytes ++ out.drop (done + bytes.length)

def expandStep (prk info : List Byte) (outLen : Nat) (s : Expanding) : Expanding :=
  let ctr := s.ctr + 1
  let k := keyBlock prk
  let ctx := sha256Update sha256Init (ipad k)
  let ctx := if ctr > 1 then sha256Update ctx s.t.toList else ctx
  let ctx := sha256Update ctx info
  let ctx := sha256Update ctx [ctr]
  let t := sha256Final ctx
  let ctx2 := sha256Update sha256Init (opad k)
  let ctx2 := sha256Update ctx2 t.toList
  let t := sha256Final ctx2
  let copy := min 32 (outLen - s.done)
  ⟨ctr,t,s.done + copy,writeOut s.out s.done (t.toList.take copy)⟩

def unfilled (outLen : Nat) (s : Expanding) : Bool := decide (s.done < outLen)

theorem expandEnds (prk info : List Byte) (outLen : Nat) (s : Expanding) :
    (whileLoop (unfilled outLen) (expandStep prk info outLen) (outLen - s.done) s).isSome := by
  obtain ⟨t,ran,_⟩ := Loops.whileEnds (unfilled outLen) (expandStep prk info outLen) (fun _ => True)
    (fun s => outLen - s.done)
    (fun s _ going => ⟨trivial,by
      have short : s.done < outLen := of_decide_eq_true going
      rw [expandStep]
      dsimp only
      omega⟩)
    (s := s) trivial (Nat.le_refl _)
  rw [ran]
  rfl

def saltOf : Option (List Byte) → List Byte
  | none => List.replicate 32 0
  | some salt => if salt.length = 0 then List.replicate 32 0 else salt

def hkdfSha256 (ikm : List Byte) (salt : Option (List Byte)) (info out : List Byte) (outLen : Nat) : List Byte :=
  let prk := (hmacSha256 (saltOf salt) ikm).toList
  let s : Expanding := ⟨0,Vector.replicate 32 0,0,out⟩
  ((whileLoop (unfilled outLen) (expandStep prk info outLen) (outLen - s.done) s).get (expandEnds prk info outLen s)).out

def block (prk info : List Byte) : Nat → List Byte
  | 0 => []
  | i+1 => (hmacSha256 prk (block prk info i ++ info ++ [BitVec.ofNat 8 (i+1)])).toList

def blocks (prk info : List Byte) (n : Nat) : List Byte := (List.range n).flatMap fun i => block prk info (i+1)

def okm (prk info : List Byte) (len : Nat) : List Byte := (blocks prk info ((len + 31) / 32)).take len

theorem blocksSucc (prk info : List Byte) (n : Nat) :
    blocks prk info (n+1) = blocks prk info n ++ block prk info (n+1) := by
  rw [blocks,List.range_succ,List.flatMap_append,List.flatMap_singleton]
  rfl

theorem blockLength (prk info : List Byte) (i : Nat) : (block prk info (i+1)).length = 32 := Vector.length_toList

theorem blocksLength (prk info : List Byte) (n : Nat) : (blocks prk info n).length = 32 * n := by
  induction n with
  | zero => rfl
  | succ n ih => rw [blocksSucc,List.length_append,ih,blockLength,Nat.mul_succ]

theorem blocksTake (prk info : List Byte) {len n m : Nat} (enough : len ≤ 32 * n) (le : n ≤ m) :
    (blocks prk info m).take len = (blocks prk info n).take len := by
  induction m with
  | zero =>
      obtain rfl : n = 0 := by omega
      rfl
  | succ m ih =>
      rcases Nat.lt_or_ge m n with less | more
      · obtain rfl : n = m + 1 := by omega
        rfl
      · rw [blocksSucc,List.take_append_of_le_length (by rw [blocksLength]; omega),ih more]

theorem blocksOkm (prk info : List Byte) {len n : Nat} (enough : len ≤ 32 * n) :
    (blocks prk info n).take len = okm prk info len := blocksTake prk info (by omega) (by omega)

theorem hmacShort {key : List Byte} (short : key.length ≤ 64) (msg : List Byte) :
    hmacSha256 key msg = sha256Final (sha256Update (sha256Update sha256Init (opad (keyBlock key)))
      (sha256Final (sha256Update (sha256Update sha256Init (ipad (keyBlock key))) msg)).toList) := by
  rw [hmacSha256,if_neg (Nat.not_lt.mpr short)]

structure Turn (prk info out : List Byte) (outLen i : Nat) (s : Expanding) : Prop where
  ctr : s.ctr = BitVec.ofNat 8 i
  t : 0 < i → s.t.toList = block prk info i
  done : s.done = min (32*i) outLen
  out : s.out = (blocks prk info i).take s.done ++ out.drop s.done

theorem expandTurn {prk info out : List Byte} {outLen i : Nat} {s : Expanding} (key : prk.length = 32)
    (bound : outLen ≤ 255 * 32) (h : Turn prk info out outLen i s)
    (going : s.done < outLen) : Turn prk info out outLen (i+1) (expandStep prk info outLen s) := by
  have filled := h.done
  have few : i < 255 := by omega
  have next : s.ctr + 1 = BitVec.ofNat 8 (i+1) := by
    rw [h.ctr,BitVec.ofNat_add]
    rfl
  have first : s.ctr + 1 > 1 ↔ 0 < i := by
    rw [next,gt_iff_lt,BitVec.lt_def,BitVec.toNat_ofNat,Nat.mod_eq_of_lt (by omega)]
    show 1 < i + 1 ↔ _
    omega
  -- the pieces fed one after the other are the message of the standard
  have fed : ∀ ctx : Ctx, sha256Update (sha256Update (if s.ctr + 1 > 1 then sha256Update ctx s.t.toList else ctx) info)
      [s.ctr + 1] = sha256Update ctx (block prk info i ++ info ++ [BitVec.ofNat 8 (i+1)]) := by
    intro ctx
    rw [updateAppend,next]
    by_cases later : 0 < i
    · rw [if_pos (next ▸ first.mpr later),h.t later,updateAppend,List.append_assoc]
    · obtain rfl : i = 0 := by omega
      rw [if_neg (next ▸ fun more => later (first.mp more)),block,List.nil_append]
  have digest : (expandStep prk info outLen s).t.toList = block prk info (i+1) := by
    rw [block,hmacShort (by omega),expandStep]
    simp only [fed]
  have copied : (expandStep prk info outLen s).done = s.done + min 32 (outLen - s.done) := rfl
  refine ⟨next,fun _ => digest,by rw [copied]; omega,?_⟩
  have written : (expandStep prk info outLen s).out =
      writeOut s.out s.done ((expandStep prk info outLen s).t.toList.take (min 32 (outLen - s.done))) := rfl
  have size : (block prk info (i+1)).length = 32 := blockLength prk info i
  have before : (blocks prk info i).length = s.done := by
    rw [blocksLength]
    omega
  have piece : ((block prk info (i+1)).take (min 32 (outLen - s.done))).length = min 32 (outLen - s.done) := by
    rw [List.length_take]
    omega
  have whole : s.out = blocks prk info i ++ out.drop s.done := by
    rw [h.out,List.take_of_length_le (Nat.le_of_eq before)]
  rw [written,digest,copied,writeOut,piece,whole,blocksSucc,List.take_left' before,← List.drop_drop,
    List.drop_left' before,List.drop_drop,List.take_append,before,Nat.add_sub_cancel_left,
    List.take_of_length_le (l := blocks prk info i) (by omega)]

theorem hkdfFills (ikm : List Byte) (salt : Option (List Byte)) (info : List Byte) (out : List Byte) {outLen : Nat}
    (bound : outLen ≤ 255 * 32) :
    hkdfSha256 ikm salt info out outLen =
      okm (hmacSha256 (saltOf salt) ikm).toList info outLen ++ out.drop outLen := by
  have key : (hmacSha256 (saltOf salt) ikm).toList.length = 32 := Vector.length_toList
  rw [hkdfSha256]
  generalize (hmacSha256 (saltOf salt) ikm).toList = prk at key ⊢
  obtain ⟨t,ran,⟨i,turn⟩,ended⟩ := Loops.whileEnds (unfilled outLen) (expandStep prk info outLen)
    (fun s => ∃ i, Turn prk info out outLen i s) (fun s => outLen - s.done)
    (fun s ⟨i,turn⟩ going => by
      have short : s.done < outLen := of_decide_eq_true going
      have next := expandTurn key bound turn short
      refine ⟨⟨i+1,next⟩,?_⟩
      rw [next.done]
      have filled := turn.done
      omega)
    (s := ⟨0,Vector.replicate 32 0,0,out⟩) ⟨0,rfl,fun later => absurd later (Nat.lt_irrefl 0),by simp,rfl⟩
    (Nat.le_refl _)
  have full : t.done = outLen := by
    have stopped : ¬ t.done < outLen := of_decide_eq_false ended
    have filled := turn.done
    omega
  have filled := turn.done
  simp only [Option.get_of_eq_some _ ran]
  rw [turn.out,full,blocksOkm prk info (by omega)]

theorem hkdfExact (ikm : List Byte) (salt : Option (List Byte)) (info out : List Byte) (outLen : Nat)
    (bound : outLen ≤ 255 * 32) :
    hkdfSha256 ikm salt info out outLen =
      okm (hmacSha256 (saltOf salt) ikm).toList info outLen ++ out.drop outLen ∧
    ∀ shorter ≤ outLen, ∀ other : List Byte,
      (hkdfSha256 ikm salt info other shorter).take shorter <+: (hkdfSha256 ikm salt info out outLen).take outLen := by
  have length : ∀ prk len, (okm prk info len).length = len := by
    intro prk len
    rw [okm,List.length_take,blocksLength]
    omega
  refine ⟨hkdfFills ikm salt info out bound,fun shorter le other => ?_⟩
  rw [hkdfFills ikm salt info out bound,hkdfFills ikm salt info other (Nat.le_trans le bound),
    List.take_left' (length _ _),List.take_left' (length _ _),okm,okm,
    ← blocksTake _ info (n := (shorter + 31) / 32) (m := (outLen + 31) / 32) (by omega) (by omega)]
  exact List.take_prefix_take_left le

theorem hkdfTwoBlocks : hkdfSha256 [1,2,3] none [] (List.replicate 50 0) 42 =
    okm (hmacSha256 (List.replicate 32 0) [1,2,3]).toList [] 42 ++ List.replicate 8 0 :=
  (hkdfExact [1,2,3] none [] (List.replicate 50 0) 42 (by decide)).1

end Nekros.Hkdf
