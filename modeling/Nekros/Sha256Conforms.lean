import Nekros.Fips180
import Nekros.Sha256

/-! crypto/sha256.c computes SHA-256 of FIPS 180-4, however the message is cut into pieces. -/
namespace Nekros.Sha256
open Bytes (Byte byteAt bigEndian)
open Loops (upTo whileLoop)

def hashOf (s : State) : Fips180.Hash := ⟨s.a,s.b,s.c,s.d,s.e,s.f,s.g,s.h⟩

theorem constantsExact : Fips180.constants = roundConstants := by decide +kernel

theorem initialExact : Fips180.initial = hashOf initial := by decide +kernel

theorem rotrExact (x : Word) {n : Nat} (lt : n < 32) : rotr32 x n = x.rotateRight n := by
  rw [rotr32,BitVec.rotateRight_def,Nat.mod_eq_of_lt lt]

theorem sigmasExact (x : Word) : ep0 x = Fips180.bigSigma0 x ∧ ep1 x = Fips180.bigSigma1 x ∧
    sig0 x = Fips180.smallSigma0 x ∧ sig1 x = Fips180.smallSigma1 x := by
  simp only [ep0,ep1,sig0,sig1,Fips180.bigSigma0,Fips180.bigSigma1,Fips180.smallSigma0,Fips180.smallSigma1]
  repeat rw [rotrExact x (by decide)]
  exact ⟨rfl,rfl,rfl,rfl⟩

theorem scheduleExact (block : List Byte) : (schedule block).length = 64 ∧
    ∀ t < 64, (schedule block).getD t 0 = Fips180.scheduled (Fips180.blockWord block) t := by
  have filled := Loops.upToInvariant (s := (List.range 16).map (be32 block)) (n := 48)
    (fun (j : Nat) (w : List Word) =>
      w ++ [sig1 (w.getD (16+j-2) 0) + w.getD (16+j-7) 0 + sig0 (w.getD (16+j-15) 0) + w.getD (16+j-16) 0])
    (fun j w => w.length = 16 + j ∧
      ∀ t < 16 + j, w.getD t 0 = Fips180.scheduled (Fips180.blockWord block) t)
  refine filled ?_ ?_
  · refine ⟨by simp,fun t lt => ?_⟩
    rw [List.getD_eq_getElem _ _ (by simpa using lt),Fips180.scheduled,if_pos lt]
    simp [be32,Fips180.blockWord]
  · rintro j w lt ⟨length,words⟩
    refine ⟨by simp [length,Nat.add_assoc],fun t below => ?_⟩
    rcases Nat.lt_or_ge t (16+j) with old | new
    · rw [List.getD_append _ _ _ _ (by omega)]
      exact words t old
    · obtain rfl : t = 16 + j := by omega
      rw [List.getD_append_right _ _ _ _ (by omega),length,Nat.sub_self,List.getD_cons_zero,
        words _ (by omega),words _ (by omega),words _ (by omega),words _ (by omega),
        (sigmasExact _).2.2.1,(sigmasExact _).2.2.2]
      conv_rhs => rw [Fips180.scheduled,if_neg (by omega)]

theorem compressExact (s : State) (k w : Word) : hashOf (compress s k w) = Fips180.round k w (hashOf s) := by
  simp only [compress,hashOf,Fips180.round,(sigmasExact _).1,(sigmasExact _).2.1]
  rfl

theorem roundsExact (ks ws : List Word) (n : Nat) (s : State) (k : n ≤ ks.length) (w : n ≤ ws.length) :
    hashOf (((ks.zip ws).take n).foldl (fun r kw => compress r kw.1 kw.2) s) =
      Fips180.rounds (fun t => ks.getD t 0) (fun t => ws.getD t 0) n (hashOf s) := by
  induction n with
  | zero => rfl
  | succ n ih =>
      have inside : n < (ks.zip ws).length := by
        rw [List.length_zip]
        omega
      rw [List.take_succ_eq_append_getElem inside,List.foldl_append,List.foldl_cons,List.foldl_nil,compressExact,
        ih (by omega) (by omega),List.getElem_zip,Fips180.rounds,List.getD_eq_getElem _ _ (by omega),
        List.getD_eq_getElem _ _ (by omega)]

theorem roundsCongr {k w l x : Nat → Word} {n : Nat} (v : Fips180.Hash) (ks : ∀ t < n, k t = l t)
    (ws : ∀ t < n, w t = x t) : Fips180.rounds k w n v = Fips180.rounds l x n v := by
  induction n with
  | zero => rfl
  | succ n ih =>
      rw [Fips180.rounds,Fips180.rounds,ks n (Nat.lt_succ_self n),ws n (Nat.lt_succ_self n),
        ih (fun t lt => ks t (Nat.lt_succ_of_lt lt)) (fun t lt => ws t (Nat.lt_succ_of_lt lt))]

theorem transformExact (s : State) (block : List Byte) :
    hashOf (sha256Transform s block) = Fips180.compress (hashOf s) block := by
  obtain ⟨length,words⟩ := scheduleExact block
  have ran := roundsExact roundConstants (schedule block) 64 s (by decide) (Nat.le_of_eq length.symm)
  rw [List.take_of_length_le (by rw [List.length_zip,length]; decide),
    roundsCongr (l := fun t => Fips180.constants.getD t 0) _ (fun t _ => by rw [constantsExact]) words] at ran
  rw [sha256Transform,Fips180.compress,← ran]
  simp only [hashOf,BitVec.add_comm]

theorem feedBlock {ctx : Ctx} {block : List Byte} (empty : ctx.buf = []) (size : block.length = 64) :
    (block.foldl feed ctx).buf = [] ∧ (block.foldl feed ctx).state = sha256Transform ctx.state block := by
  have full : (ctx.buf ++ block).length = 64 := by rw [empty,List.nil_append,size]
  rw [← fillFeeds ctx block (Nat.le_of_eq full),fill,dif_pos full,empty]
  exact ⟨rfl,rfl⟩

theorem feedBlocks {ctx : Ctx} (empty : ctx.buf = []) (n : Nat) (bytes : List Byte) (size : 64 * n ≤ bytes.length) :
    ((bytes.take (64*n)).foldl feed ctx).buf = [] ∧
      hashOf ((bytes.take (64*n)).foldl feed ctx).state = Fips180.hashBlocks bytes n (hashOf ctx.state) := by
  induction n with
  | zero => exact ⟨empty,rfl⟩
  | succ n ih =>
      obtain ⟨drained,before⟩ := ih (by omega)
      have split : bytes.take (64*(n+1)) = bytes.take (64*n) ++ (bytes.drop (64*n)).take 64 := by
        rw [Nat.mul_succ,List.take_add]
      have length : ((bytes.drop (64*n)).take 64).length = 64 := by
        rw [List.length_take,List.length_drop]
        omega
      obtain ⟨again,state⟩ := feedBlock drained length
      rw [split,List.foldl_append]
      refine ⟨again,?_⟩
      rw [state,transformExact,before,Fips180.hashBlocks]

theorem feedBufLength (ctx : Ctx) (l : List Byte) :
    (l.foldl feed ctx).buf.length = (ctx.buf.length + l.length) % 64 := by
  induction l generalizing ctx with
  | nil =>
      have room := ctx.room
      rw [List.foldl_nil,List.length_nil,Nat.add_zero,Nat.mod_eq_of_lt room]
  | cons b rest ih =>
      have one : (feed ctx b).buf.length = (ctx.buf.length + 1) % 64 := by
        have room := ctx.room
        rw [feed,fill]
        split
        · rename_i full
          rw [List.length_append,List.length_singleton] at full
          rw [full]
          rfl
        · rename_i short
          rw [List.length_append,List.length_singleton] at *
          omega
      rw [List.foldl_cons,ih,one,List.length_cons]
      omega

theorem updateState (ctx : Ctx) (data : List Byte) :
    (sha256Update ctx data).state = (data.foldl feed ctx).state ∧
      (sha256Update ctx data).buf = (data.foldl feed ctx).buf := by
  rw [updateFeeds,feedCount]
  exact ⟨rfl,rfl⟩

theorem padLoop (ctx : Ctx) (fuel n : Nat) (left : (120 - ctx.buf.length) % 64 = n) (enough : n ≤ fuel) :
    ∃ t, whileLoop padding padZero fuel ctx = some t ∧ t = sha256Update ctx (List.replicate n 0) := by
  have room := ctx.room
  induction n generalizing ctx fuel with
  | zero =>
      have done : padding ctx = false := by
        rw [padding,show ctx.buf.length = 56 by omega]
        rfl
      refine ⟨ctx,?_,(updateNil ctx).symm⟩
      cases fuel <;> rw [whileLoop,if_neg (by simp [done])]
  | succ n ih =>
      have going : padding ctx = true := by
        have off : ctx.buf.length ≠ 56 := by omega
        simpa [padding] using off
      cases fuel with
      | zero => omega
      | succ fuel =>
          have next := padZeroBuf ctx
          obtain ⟨t,ran,same⟩ := ih (padZero ctx) fuel (by split at next <;> omega) (by omega)
            (padZero ctx).room
          refine ⟨t,?_,?_⟩
          · rw [whileLoop,if_pos going,ran]
          · rw [same,padZero,updateAppend,List.replicate_succ,List.singleton_append]

theorem byteOfHalves (v : BitVec 64) {k : Nat} (inside : k + 8 ≤ 32) :
    byteAt ((v >>> 32).setWidth 32) k = byteAt v (32 + k) ∧ byteAt (v.setWidth 32) k = byteAt v k := by
  constructor <;> apply BitVec.eq_of_getLsbD_eq <;> intro i lt
  · rw [Bytes.getLsbDByteAt,Bytes.getLsbDByteAt,BitVec.getLsbD_setWidth,BitVec.getLsbD_ushiftRight,
      decide_eq_true (show k + i < 32 by omega),Bool.true_and,Nat.add_assoc]
  · rw [Bytes.getLsbDByteAt,Bytes.getLsbDByteAt,BitVec.getLsbD_setWidth,decide_eq_true (show k + i < 32 by omega),
      Bool.true_and]

theorem putBe64Exact (n : Nat) : putBe64 (BitVec.ofNat 64 n * 8) = Fips180.lengthBytes n := by
  have bits : BitVec.ofNat 64 n * 8 = BitVec.ofNat 64 (8*n) := by
    rw [Nat.mul_comm,BitVec.ofNat_mul]
    rfl
  rw [bits,Fips180.lengthBytes]
  generalize BitVec.ofNat 64 (8*n) = v
  have high := fun k inside => (byteOfHalves v (k := k) inside).1
  have low := fun k inside => (byteOfHalves v (k := k) inside).2
  rw [putBe64,putBe32,putBe32,high 24 (by decide),high 16 (by decide),high 8 (by decide),high 0 (by decide),
    low 24 (by decide),low 16 (by decide),low 8 (by decide),low 0 (by decide)]
  rfl

theorem finalPads (m : List Byte) :
    sha256Final (sha256Update sha256Init m) = digestOf (sha256Update sha256Init (Fips180.pad m)).state := by
  have count : (sha256Update sha256Init m).count = BitVec.ofNat 64 m.length := by
    rw [updateFeeds,feedKeepsCount]
    exact BitVec.zero_add _
  have buffered : (sha256Update (sha256Update sha256Init m) [0x80]).buf.length = (m.length + 1) % 64 := by
    rw [updateAppend,(updateState _ _).2,feedBufLength,List.length_append]
    exact congrArg (· % 64) (Nat.zero_add _)
  obtain ⟨t,ran,same⟩ := padLoop (sha256Update (sha256Update sha256Init m) [0x80]) 64
    (Fips180.zeros m.length) (by rw [buffered,Fips180.zeros]; omega) (by rw [Fips180.zeros]; omega)
  have whole : sha256Update t (putBe64 ((sha256Update sha256Init m).count * 8)) =
      sha256Update sha256Init (Fips180.pad m) := by
    rw [same,count,putBe64Exact,updateAppend,updateAppend,updateAppend,Fips180.pad]
    simp only [List.append_assoc]
  rw [sha256Final]
  simp only [Option.get_of_eq_some _ ran,whole]

theorem digestBytes {s : State} {v : Fips180.Hash} (same : hashOf s = v) :
    (digestOf s).toList = [v.a,v.b,v.c,v.d,v.e,v.f,v.g,v.h].flatMap Fips180.wordBytes := by
  subst same
  rfl

theorem sha256Exact (m : List Byte) : (sha256 m).toList = Fips180.sha256 m := by
  obtain ⟨whole,_⟩ := Fips180.padLength m
  have size : 64 * ((Fips180.pad m).length / 64) = (Fips180.pad m).length := by omega
  have started : hashOf sha256Init.state = Fips180.initial := initialExact.symm
  have empty : sha256Init.buf = [] := rfl
  have fed := (feedBlocks empty _ (Fips180.pad m) (Nat.le_of_eq size)).2
  rw [size,List.take_length,started,← (updateState _ _).1] at fed
  rw [sha256,finalPads,digestBytes fed,Fips180.sha256]

theorem updateAll (ctx : Ctx) (pieces : List (List Byte)) :
    pieces.foldl sha256Update ctx = sha256Update ctx pieces.flatten := by
  induction pieces generalizing ctx with
  | nil => exact (updateNil ctx).symm
  | cons piece rest ih => rw [List.foldl_cons,ih,updateAppend,List.flatten_cons]

theorem streamingExact (pieces : List (List Byte)) :
    (sha256Final (pieces.foldl sha256Update sha256Init)).toList = Fips180.sha256 pieces.flatten ∧
      sha256Final (pieces.foldl sha256Update sha256Init) = sha256 pieces.flatten := by
  rw [updateAll]
  exact ⟨sha256Exact pieces.flatten,rfl⟩

end Nekros.Sha256
