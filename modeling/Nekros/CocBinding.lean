import Nekros.Coc

/-! What the newest link of the chain of custody stands for. Its digest covers the digest before it,
so it commits to every record ever made, those whose links have been dropped included, as far as no
two different messages among those hashed have one digest. -/
namespace Nekros.CocBinding
open Bytes (Byte)
open Coc
open Sha256 (Digest sha256)

def cocHead (s : Chain) : Option Link := if s.count ≠ 0 then some (s.slot (s.count - 1)) else none

def said (bootTsc : Word) (r : Record) : BitVec 32 × Word × List Byte := (r.sourceId,r.tsc - bootTsc,bytes r)

def newest (bootTsc : Word) (rs : List Record) : Link := linkAt bootTsc rs rs.length

theorem newestSnoc (bootTsc : Word) (rs : List Record) (r : Record) :
    newest bootTsc (rs ++ [r]) = recordLink bootTsc (newest bootTsc rs) r := by
  rw [newest,List.length_append,List.length_singleton,linkAtNew,newest]

theorem headNewest (bootTsc : Word) (rs : List Record) : cocHead (after bootTsc rs) = some (newest bootTsc rs) := by
  have kept := (afterHolds bootTsc rs).kept
  rw [cocHead,if_pos (Nat.ne_of_gt kept.some),kept.last,newest]

def Hashed (bootTsc : Word) (rs : List Record) (m : List Byte) : Prop :=
  m = List.replicate 64 0 ∨ ∃ before r later, rs = before ++ r::later ∧
    m = message (newest bootTsc before).hash (newest bootTsc (before ++ [r])) (bytes r)

def Collision (bootTsc bootTsc' : Word) (rs rs' : List Record) : Prop :=
  ∃ m m', Hashed bootTsc rs m ∧ Hashed bootTsc' rs' m' ∧ m ≠ m' ∧ sha256 m = sha256 m'

theorem hashedSnoc {bootTsc : Word} {rs : List Record} {m : List Byte} (h : Hashed bootTsc rs m) (r : Record) :
    Hashed bootTsc (rs ++ [r]) m := by
  rcases h with genesis | ⟨before,r',later,rfl,same⟩
  · exact .inl genesis
  · exact .inr ⟨before,r',later ++ [r],by rw [List.append_assoc,List.cons_append],same⟩

theorem hashedLast (bootTsc : Word) (rs : List Record) (r : Record) :
    Hashed bootTsc (rs ++ [r]) (message (newest bootTsc rs).hash (newest bootTsc (rs ++ [r])) (bytes r)) :=
  .inr ⟨rs,r,[],rfl,rfl⟩

theorem newestHash (bootTsc : Word) (rs : List Record) (r : Record) : (newest bootTsc (rs ++ [r])).hash =
    sha256 (message (newest bootTsc rs).hash (newest bootTsc (rs ++ [r])) (bytes r)) := by
  rw [newestSnoc]
  exact recordLinkHash _ _ _

theorem messageParts {prev prev' : Digest} {link link' : Link} {data data' : List Byte}
    (same : message prev link data = message prev' link' data') :
    prev = prev' ∧ link.seq = link'.seq ∧ link.timestampNs = link'.timestampNs ∧
      link.sourceId = link'.sourceId ∧ data = data' := by
  simp only [message,List.append_assoc] at same
  obtain ⟨hash,same⟩ := List.append_inj same (by rw [Vector.length_toList,Vector.length_toList])
  obtain ⟨seq,same⟩ := Bytes.littleEndianSplit (by decide) same
  obtain ⟨time,same⟩ := Bytes.littleEndianSplit (by decide) same
  obtain ⟨source,same⟩ := Bytes.littleEndianSplit (by decide) same
  exact ⟨Vector.toList_inj.mp hash,seq,time,source,same⟩

theorem messageNotGenesis {prev : Digest} {link : Link} {data : List Byte} (numbered : link.seq ≠ 0) :
    List.replicate 64 0 ≠ message prev link data := by
  intro same
  have zeros : message (Vector.replicate 32 0) ⟨Vector.replicate 32 0,0,0,0⟩ (List.replicate 12 0) =
      List.replicate 64 (0 : Byte) := by
    decide
  exact numbered (messageParts (same.symm.trans zeros.symm)).2.1

theorem newestNumbered {bootTsc : Word} {rs : List Record} {r : Record} (few : (rs ++ [r]).length < 2^64) :
    (newest bootTsc (rs ++ [r])).seq ≠ 0 := by
  rw [newest,linkAtSeq _ _ (Nat.le_refl _)]
  intro zero
  have value := congrArg BitVec.toNat zero
  rw [BitVec.toNat_ofNat,Nat.mod_eq_of_lt few,List.length_append,List.length_singleton] at value
  exact Nat.succ_ne_zero _ value

theorem sameOrCollision {bootTsc bootTsc' : Word} {rs rs' : List Record} (few : rs.length < 2^64)
    (few' : rs'.length < 2^64) (same : (newest bootTsc rs).hash = (newest bootTsc' rs').hash) :
    rs.map (said bootTsc) = rs'.map (said bootTsc') ∨ Collision bootTsc bootTsc' rs rs' := by
  induction rs using List.reverseRecOn generalizing rs' with
  | nil =>
      rcases List.eq_nil_or_concat' rs' with rfl | ⟨rs',r',rfl⟩
      · exact .inl rfl
      · rw [newestHash] at same
        exact .inr ⟨_,_,.inl rfl,hashedLast bootTsc' rs' r',messageNotGenesis (newestNumbered few'),same⟩
  | append_singleton rs r ih =>
      rcases List.eq_nil_or_concat' rs' with rfl | ⟨rs',r',rfl⟩
      · rw [newestHash] at same
        exact .inr ⟨_,_,hashedLast bootTsc rs r,.inl rfl,(messageNotGenesis (newestNumbered few)).symm,same⟩
      · rw [newestHash,newestHash] at same
        by_cases equal : message (newest bootTsc rs).hash (newest bootTsc (rs ++ [r])) (bytes r) =
            message (newest bootTsc' rs').hash (newest bootTsc' (rs' ++ [r'])) (bytes r')
        · -- the digests before are equal too
          obtain ⟨before,_,time,source,data⟩ := messageParts equal
          rw [newestSnoc,newestSnoc] at time source
          have last : said bootTsc r = said bootTsc' r' := by
            rw [said,said,data]
            exact congrArg₂ (fun a b => (a,b,bytes r')) source time
          rw [List.length_append] at few few'
          rcases ih (by omega) (by omega) before with earlier | ⟨m,m',hashed,hashed',different,digest⟩
          · exact .inl (by rw [List.map_append,List.map_append,earlier,List.map_singleton,List.map_singleton,last])
          · exact .inr ⟨m,m',hashedSnoc hashed r,hashedSnoc hashed' r',different,digest⟩
        · exact .inr ⟨_,_,hashedLast bootTsc rs r,hashedLast bootTsc' rs' r',equal,same⟩

theorem headCommits {bootTsc bootTsc' : Word} {rs rs' : List Record} {head head' : Link} (few : rs.length < 2^64)
    (few' : rs'.length < 2^64) (at' : cocHead (after bootTsc rs) = some head)
    (at'' : cocHead (after bootTsc' rs') = some head') (same : head.hash = head'.hash) :
    rs.map (said bootTsc) = rs'.map (said bootTsc') ∨ Collision bootTsc bootTsc' rs rs' := by
  rw [headNewest,Option.some.injEq] at at' at''
  rw [← at',← at''] at same
  exact sameOrCollision few few' same

theorem headCommitsLater :
    [(⟨8,some [1],5⟩ : Record)].map (said 2) = [(⟨8,some [1],9⟩ : Record)].map (said 6) ∨
      Collision 2 6 [⟨8,some [1],5⟩] [⟨8,some [1],9⟩] :=
  headCommits (by decide) (by decide) (headNewest _ _) (headNewest _ _) rfl

end Nekros.CocBinding
