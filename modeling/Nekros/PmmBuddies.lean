import Nekros.PmmBitmap
import Nekros.PmmLoops

/-! Buddies in a node that starts at a multiple of the largest block, and what is on the lists
after a split or a merge, block by block. -/
namespace Nekros.PmmBuddies
open Words Pmm Spans PmmShape PmmLoops PmmBitmap
open DyadicBlocks (In inStart sameOrder lowerOrUpper inHalves sizeDvd)
open Function (update)

theorem xorLower {x k : Nat} (even : 2^(k+1) ∣ x) : x ^^^ 2^k = x + 2^k := by
  rcases xorTwoPow x k with up | ⟨le,down⟩
  · exact up
  · -- the bits above the one flipped stay
    exfalso
    have above : (x ^^^ 2^k) / 2^(k+1) = x / 2^(k+1) := by
      rw [← Nat.shiftRight_eq_div_pow,Nat.shiftRight_xor_distrib,Nat.shiftRight_eq_div_pow,
        Nat.shiftRight_eq_div_pow,Nat.div_eq_of_lt (Nat.pow_lt_pow_succ (by decide)),Nat.xor_zero]
    obtain ⟨q,rfl⟩ := even
    have pos : 0 < 2^k := Nat.two_pow_pos k
    rw [down,Nat.mul_div_cancel_left _ (Nat.two_pow_pos _)] at above
    have less : (2^(k+1) * q - 2^k) / 2^(k+1) < q := by
      rw [Nat.div_lt_iff_lt_mul (Nat.two_pow_pos _),Nat.mul_comm q]
      omega
    omega

theorem xorUpper {x k : Nat} (le : 2^k ≤ x) (odd : 2^(k+1) ∣ x - 2^k) : x ^^^ 2^k = x - 2^k := by
  have lower := xorLower odd
  have twice : (x - 2^k ^^^ 2^k) ^^^ 2^k = x - 2^k := by rw [Nat.xor_assoc,Nat.xor_self,Nat.xor_zero]
  rwa [lower,Nat.sub_add_cancel le] at twice

theorem blockPower (ord : Nat) : blockSize ord = 2^(12+ord) := by
  rw [blockSizeEq,Nat.pow_add]
  rfl

structure Parent (base ord pa p : Nat) : Prop where
  aligned : blockSize (ord+1) ∣ p
  low : min pa (buddyOf pa ord base) = p
  buddy : blockSize ord ∣ buddyOf pa ord base
  halves : (pa = p ∧ buddyOf pa ord base = p + blockSize ord) ∨
    (pa = p + blockSize ord ∧ buddyOf pa ord base = p)

theorem parentOf {base ord pa : Nat} (top : ord < maxOrder) (even : blockSize maxOrder ∣ base)
    (aligned : blockSize ord ∣ pa) (low : base ≤ pa) (high : pa + blockSize ord < 2^64) :
    ∃ p, Parent base ord pa p := by
  have step : blockSize (ord+1) ∣ base := Nat.dvd_trans (sizeDvd blocksDouble top) even
  have pos := blockSizePos ord
  have double := blockSizeSucc ord
  rcases lowerOrUpper blocksDouble aligned with lower | ⟨le,upper⟩
  · have buddy : buddyOf pa ord base = pa + blockSize ord := by
      have offset : blockSize (ord+1) ∣ pa - base := Nat.dvd_sub lower step
      rw [blockPower,← Nat.add_assoc] at offset
      rw [buddyOf,sub64OfLe low (by omega),blockPower,xorLower offset,← blockPower,wrapOfLt (by omega)]
      omega
    refine ⟨pa,lower,by rw [buddy]; omega,?_,.inl ⟨rfl,buddy⟩⟩
    rw [buddy]
    exact Nat.dvd_add aligned (Nat.dvd_refl _)
  · have below : base ≤ pa - blockSize ord := by
      -- both are multiples of the double size, and less than it apart
      obtain ⟨a,ha⟩ := step
      obtain ⟨c,hc⟩ := upper
      have order : a ≤ c := by
        refine Nat.le_of_lt_succ (Nat.lt_of_mul_lt_mul_left (a := blockSize (ord+1)) ?_)
        rw [Nat.mul_succ]
        omega
      rw [ha,hc]
      exact Nat.mul_le_mul_left _ order
    have buddy : buddyOf pa ord base = pa - blockSize ord := by
      have offset : blockSize (ord+1) ∣ pa - base - blockSize ord := by
        rw [Nat.sub_right_comm]
        exact Nat.dvd_sub upper step
      rw [blockPower,← Nat.add_assoc,blockPower] at offset
      have reach : 2^(12+ord) ≤ pa - base := by
        rw [← blockPower]
        omega
      rw [buddyOf,sub64OfLe low (by omega),blockPower,xorUpper reach offset,← blockPower,wrapOfLt (by omega)]
      omega
    refine ⟨pa - blockSize ord,upper,by rw [buddy]; omega,?_,.inr ⟨by omega,buddy⟩⟩
    rw [buddy]
    exact Nat.dvd_trans (sizeDvd blocksDouble (Nat.le_succ ord)) upper

theorem inParent {base ord pa p x : Nat} (h : Parent base ord pa p) :
    In blockSize (ord+1) p x ↔ In blockSize ord pa x ∨ In blockSize ord (buddyOf pa ord base) x := by
  rw [inHalves blocksDouble]
  rcases h.halves with ⟨rfl,buddy⟩ | ⟨here,buddy⟩
  · rw [buddy]
  · rw [here] at buddy ⊢
    rw [buddy]
    exact or_comm

theorem buddyApart {base ord pa p x : Nat} (h : Parent base ord pa p)
    (inside : In blockSize ord (buddyOf pa ord base) x) : ¬ In blockSize ord pa x := by
  unfold In at *
  rcases h.halves with ⟨rfl,buddy⟩ | ⟨here,buddy⟩ <;> omega

theorem coversFree {lists : Lists} {x : Nat} :
    Covers (freeSpans lists) x ↔ ∃ k ∈ keys, ∃ pa ∈ lists k, In blockSize k.2 pa x := by
  constructor
  · rintro ⟨sp,mem,inside⟩
    obtain ⟨k,hk,mem⟩ := List.mem_flatMap.mp mem
    obtain ⟨pa,listed,rfl⟩ := List.mem_map.mp mem
    exact ⟨k,hk,pa,listed,inside⟩
  · rintro ⟨k,hk,pa,listed,inside⟩
    exact ⟨_,freeMember hk listed,inside⟩

theorem memPushed {lists : Lists} {k j : Nat × Nat} {pa q : Nat} (nonnull : physToVirt pa ≠ 0) :
    q ∈ pushed lists k pa j ↔ (j = k ∧ q = pa) ∨ q ∈ lists j := by
  unfold pushed
  rw [if_neg nonnull]
  by_cases same : j = k
  · subst same
    simp
  · simp [same]

theorem coversPushed {lists : Lists} {k : Nat × Nat} {pa x : Nat} (hk : k ∈ keys) (nonnull : physToVirt pa ≠ 0) :
    Covers (freeSpans (pushed lists k pa)) x ↔ In blockSize k.2 pa x ∨ Covers (freeSpans lists) x := by
  rw [coversFree,coversFree]
  constructor
  · rintro ⟨j,hj,q,mem,inside⟩
    rcases (memPushed nonnull).mp mem with ⟨rfl,rfl⟩ | old
    · exact .inl inside
    · exact .inr ⟨j,hj,q,old,inside⟩
  · rintro (inside | ⟨j,hj,q,old,inside⟩)
    · exact ⟨k,hk,pa,(memPushed nonnull).mpr (.inl ⟨rfl,rfl⟩),inside⟩
    · exact ⟨j,hj,q,(memPushed nonnull).mpr (.inr old),inside⟩

theorem pushedMember {lists : Lists} {k j : Nat × Nat} {pa q : Nat} (mem : q ∈ pushed lists k pa j) :
    (j = k ∧ q = pa ∧ physToVirt pa ≠ 0) ∨ q ∈ lists j := by
  by_cases null : physToVirt pa = 0
  · unfold pushed at mem
    rw [if_pos null] at mem
    by_cases same : j = k
    · subst same
      rw [Function.update_self] at mem
      cases mem
    · rw [Function.update_of_ne same] at mem
      exact .inr mem
  · exact ((memPushed null).mp mem).imp_left fun new => ⟨new.1,new.2,null⟩

theorem carveOrderDvd {pa stop ord : Nat} (aligned : pa % pageSize = 0) : blockSize (carveOrder pa stop ord) ∣ pa := by
  induction ord with
  | zero => exact Nat.dvd_of_mod_eq_zero aligned
  | succ ord ih =>
      unfold carveOrder
      split
      · exact ih
      · rename_i fits
        exact Nat.dvd_of_mod_eq_zero (not_not.mp (not_or.mp fits).1)

theorem carveAligned {fuel i pa stop : Nat} {lists : Lists} (aligned : pa % pageSize = 0) {k : Nat × Nat} {q : Nat}
    (mem : q ∈ carveLists fuel lists i pa stop k) : q ∈ lists k ∨ blockSize k.2 ∣ q := by
  induction fuel generalizing lists pa with
  | zero => exact .inl mem
  | succ fuel ih =>
      rw [carveLists] at mem
      split at mem
      · have pages := blockSizePages (carveOrder pa stop maxOrder)
        rcases ih (by simp [Nat.add_mod,aligned,pages]) mem with old | new
        · rcases pushedMember old with ⟨rfl,rfl,_⟩ | before
          · exact .inr (carveOrderDvd aligned)
          · exact .inl before
        · exact .inr new
      · exact .inl mem

theorem carveCovers {fuel i pa stop : Nat} {lists : Lists} (node : i < maxNodes) (small : stop < 2^64)
    (aligned : pa % pageSize = 0) (whole : stop % pageSize = 0) (flat : NoWrap pa stop)
    (enough : stop - pa ≤ fuel * pageSize) (clear : ¬ (pa ≤ 0x80000000 ∧ 0x80000000 < stop)) {x : Nat} :
    Covers (freeSpans (carveLists fuel lists i pa stop)) x ↔ (pa ≤ x ∧ x < stop) ∨ Covers (freeSpans lists) x := by
  induction fuel generalizing lists pa with
  | zero =>
      have done : ¬ (pa ≤ x ∧ x < stop) := by omega
      rw [carveLists]
      exact ⟨.inr,fun either => either.resolve_left done⟩
  | succ fuel ih =>
      rw [carveLists]
      split
      · rename_i more
        obtain ⟨top,fits⟩ := carveOrderFits (Nat.le_refl maxOrder) small more aligned whole flat
        generalize carveOrder pa stop maxOrder = ord at top fits ⊢
        dsimp only
        have page := pageLeBlock ord
        have pages := blockSizePages ord
        have nonnull : physToVirt pa ≠ 0 := fun null => by
          have place := (physToVirtNull (by omega)).mp null
          omega
        rw [ih (by simp [Nat.add_mod,aligned,pages]) (fun o ho => by have := flat o ho; omega)
            (by unfold pageSize at *; rw [Nat.succ_mul] at enough; omega) (by omega),
          coversPushed (memKeys.mpr ⟨node,top⟩) nonnull,← or_assoc]
        refine or_congr_left ?_
        unfold In
        dsimp only
        omega
      · have done : ¬ (pa ≤ x ∧ x < stop) := by omega
        exact ⟨.inr,fun either => either.resolve_left done⟩

theorem nullNotFree {s : State} {lists : Lists} {hand : List Span} (shape : Shape s lists hand)
    (aligned : ∀ k ∈ keys, ∀ pa ∈ lists k, blockSize k.2 ∣ pa) : ¬ Covers (freeSpans lists) 0x80000000 := by
  intro covered
  obtain ⟨k,hk,pa,listed,inside⟩ := coversFree.mp covered
  have size := blockPower k.2
  have top := (memKeys.mp hk).2
  have even : blockSize k.2 ∣ 0x80000000 := by
    rw [size]
    refine Nat.pow_dvd_pow 2 (show 12 + k.2 ≤ 31 from ?_)
    unfold maxOrder at top
    omega
  obtain rfl := sameOrder blocksDouble (aligned k hk pa listed) even inside (inStart blocksDouble _ _)
  exact LinkChain.chainNonzero (shape.chain k hk) _ (List.mem_map_of_mem listed) ((physToVirtNull (by decide)).mpr rfl)

def Half (pa ord avail o q : Nat) : Prop := ord ≤ o ∧ o < avail ∧ q = pa + blockSize o

theorem memSplit {lists : Lists} {i pa ord avail : Nat}
    (nonnull : ∀ o, ord ≤ o → o < avail → physToVirt (pa + blockSize o) ≠ 0) {j : Nat × Nat} {q : Nat} :
    q ∈ splitLists lists i pa ord avail j ↔ (j.1 = i ∧ Half pa ord avail j.2 q) ∨ q ∈ lists j := by
  induction avail generalizing lists with
  | zero => simp [splitLists,Half]
  | succ avail ih =>
      rw [splitLists]
      split
      · rename_i more
        rw [ih (fun o ge lt => nonnull o ge (by omega)),memPushed (nonnull avail (by omega) (by omega)),← or_assoc]
        refine or_congr_left ?_
        obtain ⟨j1,o⟩ := j
        simp only [Half,Prod.mk.injEq]
        constructor
        · rintro (⟨same,ge,lt,rfl⟩ | ⟨⟨same,rfl⟩,rfl⟩)
          · exact ⟨same,ge,by omega,rfl⟩
          · exact ⟨same,by omega,by omega,rfl⟩
        · rintro ⟨same,ge,lt,rfl⟩
          rcases Nat.lt_or_eq_of_le (Nat.le_of_lt_succ lt) with less | rfl
          · exact .inl ⟨same,ge,less,rfl⟩
          · exact .inr ⟨⟨same,rfl⟩,rfl⟩
      · rename_i done
        have none : ¬ (j.1 = i ∧ Half pa ord (avail+1) j.2 q) := by
          rintro ⟨_,ge,lt,_⟩
          omega
        simp [none]

theorem inPieces {pa ord avail x : Nat} (le : ord ≤ avail) : In blockSize avail pa x ↔
    In blockSize ord pa x ∨ ∃ o q, Half pa ord avail o q ∧ In blockSize o q x := by
  induction avail with
  | zero =>
      obtain rfl : ord = 0 := by omega
      constructor
      · exact .inl
      · rintro (here | ⟨o,q,⟨_,lt,_⟩,_⟩)
        · exact here
        · omega
  | succ avail ih =>
      rcases Nat.lt_or_eq_of_le le with less | rfl
      · rw [inHalves blocksDouble,ih (by omega)]
        constructor
        · rintro ((here | ⟨o,q,⟨ge,lt,rfl⟩,inside⟩) | upper)
          · exact .inl here
          · exact .inr ⟨o,_,⟨ge,by omega,rfl⟩,inside⟩
          · exact .inr ⟨avail,_,⟨by omega,by omega,rfl⟩,upper⟩
        · rintro (here | ⟨o,q,⟨ge,lt,rfl⟩,inside⟩)
          · exact .inl (.inl here)
          · rcases Nat.lt_or_eq_of_le (Nat.le_of_lt_succ lt) with less | rfl
            · exact .inl (.inr ⟨o,_,⟨ge,less,rfl⟩,inside⟩)
            · exact .inr inside
      · constructor
        · exact .inl
        · rintro (here | ⟨o,q,⟨_,lt,_⟩,_⟩)
          · exact here
          · omega

section Served
variable {s t : State} {lists : Lists} {hand : List Span} {ord i avail : Nat} {result : State × Nat}
  {rest : List Nat} (nodes : s.nnodes ≤ maxNodes) (shape : Shape s lists hand)
  (aligned : ∀ k ∈ keys, ∀ pa ∈ lists k, blockSize k.2 ∣ pa)
  (got : Allocated s lists hand ord result i avail rest t)

include nodes got in
theorem servedKey : (i,avail) ∈ keys :=
  memKeys.mpr ⟨Nat.lt_of_lt_of_le got.node nodes,got.orders.2⟩

include got in
theorem servedListed : result.2 ∈ lists (i,avail) := by
  rw [got.listed]
  exact List.mem_cons_self

include nodes aligned got in
theorem servedAligned : blockSize avail ∣ result.2 := aligned _ (servedKey nodes got) _ (servedListed got)

include nodes shape got in
theorem servedSmall : result.2 + blockSize avail < 2^64 := by
  obtain ⟨count,_,inside⟩ := shape.inNode _ (servedKey nodes got) _ (servedListed got)
  exact Nat.lt_of_le_of_lt inside.2 (shape.bounded i count)

include nodes shape aligned got in
theorem servedHalf {n : Nat} (less : n < avail) : physToVirt (result.2 + blockSize n) ≠ 0 := by
  have small := servedSmall nodes shape got
  have next : n + 1 ≤ avail := less
  have double := blockSizeSucc n
  have pos := blockSizePos n
  have larger := Nat.le_of_dvd (blockSizePos avail) (sizeDvd blocksDouble next)
  intro null
  rw [physToVirtNull (by omega)] at null
  have whole : blockSize (n+1) ∣ 0x80000000 :=
    Nat.dvd_trans (sizeDvd blocksDouble (Nat.le_trans next got.orders.2)) (by decide)
  have first : blockSize (n+1) ∣ result.2 :=
    Nat.dvd_trans (sizeDvd blocksDouble next) (servedAligned nodes aligned got)
  have half := (Nat.dvd_add_right first).mp (null ▸ whole)
  have := Nat.le_of_dvd pos half
  omega

include nodes shape aligned got in
theorem servedMember {k : Nat × Nat} {q : Nat} :
    q ∈ splitLists (Function.update lists (i,avail) rest) i result.2 ord avail k ↔
      (k.1 = i ∧ Half result.2 ord avail k.2 q) ∨ q ∈ Function.update lists (i,avail) rest k :=
  memSplit (fun _ _ less => servedHalf nodes shape aligned got less)

include got in
theorem servedRest {k : Nat × Nat} {q : Nat} (mem : q ∈ Function.update lists (i,avail) rest k) :
    q ∈ lists k := by
  by_cases same : k = (i,avail)
  · subst same
    rw [Function.update_self] at mem
    rw [got.listed]
    exact List.mem_cons_of_mem _ mem
  · rwa [Function.update_of_ne same] at mem

include nodes shape aligned got in
theorem servedKept {k : Nat × Nat} {q : Nat} (mem : q ∈ lists k) : (k = (i,avail) ∧ q = result.2) ∨
    q ∈ splitLists (Function.update lists (i,avail) rest) i result.2 ord avail k := by
  by_cases same : k = (i,avail)
  · subst same
    rw [got.listed] at mem
    refine (List.mem_cons.mp mem).imp (fun first => ⟨rfl,first⟩) (fun later => ?_)
    refine (servedMember nodes shape aligned got).mpr (.inr ?_)
    rwa [Function.update_self]
  · refine .inr ((servedMember nodes shape aligned got).mpr (.inr ?_))
    rwa [Function.update_of_ne same]

include nodes shape aligned got in
theorem servedCovers (x : Nat) : Covers (freeSpans lists) x ↔
    Covers (freeSpans (splitLists (Function.update lists (i,avail) rest) i result.2 ord avail)) x ∨
      In blockSize ord result.2 x := by
  have node : i < maxNodes := Nat.lt_of_lt_of_le got.node nodes
  rw [coversFree,coversFree]
  constructor
  · rintro ⟨k,hk,q,mem,inside⟩
    rcases servedKept nodes shape aligned got mem with ⟨rfl,rfl⟩ | left
    · rcases (inPieces got.orders.1).mp inside with first | ⟨n,q,half,near⟩
      · exact .inr first
      · exact .inl ⟨(i,n),memKeys.mpr ⟨node,Nat.le_trans (Nat.le_of_lt half.2.1) got.orders.2⟩,q,
          (servedMember nodes shape aligned got).mpr (.inl ⟨rfl,half⟩),near⟩
    · exact .inl ⟨k,hk,q,left,inside⟩
  · rintro (⟨k,hk,q,mem,inside⟩ | first)
    · rcases (servedMember nodes shape aligned got).mp mem with ⟨_,half⟩ | old
      · exact ⟨_,servedKey nodes got,_,servedListed got,
          (inPieces got.orders.1).mpr (.inr ⟨_,q,half,inside⟩)⟩
      · exact ⟨k,hk,q,servedRest got old,inside⟩
    · exact ⟨_,servedKey nodes got,_,servedListed got,(inPieces got.orders.1).mpr (.inl first)⟩

end Served

theorem mergeSubset {b : Bitmap} {base limit i fuel pa ord : Nat} {lists : Lists} {k : Nat × Nat} {q : Nat}
    (mem : q ∈ mergeLists b base limit i fuel lists pa ord k) : q ∈ lists k := by
  induction fuel generalizing lists pa ord with
  | zero => exact mem
  | succ fuel ih =>
      rw [mergeLists] at mem
      split at mem
      · exact mem
      · split at mem
        · have less := ih mem
          by_cases same : k = (i,ord)
          · subst same
            rw [Function.update_self] at less
            exact List.mem_of_mem_erase less
          · rwa [Function.update_of_ne same] at less
        · exact mem

theorem mergeTop {b : Bitmap} {base limit i fuel pa ord : Nat} {lists : Lists} {j o : Nat} (high : ord + fuel ≤ o) :
    mergeLists b base limit i fuel lists pa ord (j,o) = lists (j,o) := by
  induction fuel generalizing lists pa ord with
  | zero => rfl
  | succ fuel ih =>
      rw [mergeLists]
      split
      · rfl
      · split
        · rw [ih (by omega),Function.update_of_ne]
          intro same
          have := congrArg Prod.snd same
          dsimp only at this
          omega
        · rfl

end Nekros.PmmBuddies
