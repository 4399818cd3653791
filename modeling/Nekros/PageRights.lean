import Nekros.Paging

/-! What the processor lets a program do with a page: the write and user bits of the entries on the
walk are joined with `and`, the no-execute bits with `or`. `Levels` is a hierarchy of tables made of
pointers that are writable and not for users, each to a table of the level below, each table in one
place only. -/
namespace Nekros.PageRights
open Paging
open Function (update)

structure Access where
  write : Bool
  user : Bool
  exec : Bool
  deriving DecidableEq, Repr

def restrict (e : Nat) (a : Access) : Access :=
  ⟨a.write && e.testBit 1,a.user && e.testBit 2,a.exec && !e.testBit 63⟩

def shiftOf (n : Nat) : Nat := 12 + 9 * n

/- Whether an address is canonical is checked before the walk. Large pages end it early and grant
nothing here. -/
def rights (phys : Nat → Nat) : (n table va : Nat) → Option Access
  | 0,_,_ => some ⟨true,true,true⟩
  | n+1,table,va =>
      let e := entry phys table (index (shiftOf n) va)
      if ¬ present e ∨ (n ≠ 0 ∧ large e) then none
      else (rights phys n (frame e) va).map (restrict e)

def granted (phys : Nat → Nat) (root va : Nat) : Option Access := rights phys 4 root va

def leafTable (phys : Nat → Nat) : (n table va : Nat) → Option Nat
  | 0,_,_ => none
  | 1,table,_ => some table
  | n+2,table,va =>
      let e := entry phys table (index (shiftOf (n+1)) va)
      if present e then leafTable phys (n+1) (frame e) va else none

def leafAccess (e : Nat) : Option Access :=
  if present e then some ⟨e.testBit 1,false,!e.testBit 63⟩ else none

def pageOf (va : Nat) : Nat := va / 2^12 % 2^36

theorem pageOfExact (va va' : Nat) : pageOf va = pageOf va' ↔
    index (shiftOf 3) va = index (shiftOf 3) va' ∧ index (shiftOf 2) va = index (shiftOf 2) va' ∧
      index (shiftOf 1) va = index (shiftOf 1) va' ∧ index (shiftOf 0) va = index (shiftOf 0) va' := by
  simp only [indexExact,shiftOf,pageOf]
  omega

structure Levels (phys : Nat → Nat) (root : Nat) (level : Nat → Option Nat) : Prop where
  root : level root = some 4
  page : ∀ t n, level t = some n → Page t
  inner : ∀ t n, level t = some (n+2) → ∀ i < 512,
    entry phys t i = 0 ∨ ∃ c, level c = some (n+1) ∧ entry phys t i = pointer c
  once : ∀ t t' n n' i i' c, level t = some (n+2) → level t' = some (n'+2) → i < 512 → i' < 512 →
    entry phys t i = pointer c → entry phys t' i' = pointer c → t = t' ∧ i = i'

theorem pageBit {c k : Nat} (page : Page c) (out : k < 12 ∨ 52 ≤ k) : c.testBit k = false := by
  obtain ⟨aligned,small⟩ := page
  rcases out with low | high
  · have whole : c = (c / 2^12) <<< 12 := by
      rw [Nat.shiftLeft_eq]
      exact (Nat.div_mul_cancel (Nat.dvd_of_mod_eq_zero aligned)).symm
    rw [whole,Nat.testBit_shiftLeft]
    simp [Nat.not_le.mpr low]
  · exact Nat.testBit_lt_two_pow (Nat.lt_of_lt_of_le small (Nat.pow_le_pow_right (by decide) high))

theorem restrictPointer {c : Nat} (page : Page c) (a : Access) : restrict (pointer c) a = {a with user := false} := by
  rw [restrict,pointer]
  simp only [Nat.testBit_or,pageBit page (.inl (show 1 < 12 by decide)),pageBit page (.inl (show 2 < 12 by decide)),
    pageBit page (.inr (show 52 ≤ 63 by decide))]
  have write : Nat.testBit 3 1 = true := by decide
  have user : Nat.testBit 3 2 = false := by decide
  have exec : Nat.testBit 3 63 = false := by decide
  rw [write,user,exec]
  simp

theorem pointerNotZero (c : Nat) : pointer c ≠ 0 := by
  intro zero
  have bit := congrArg (fun e => e.testBit 0) zero
  simp [pointer] at bit

theorem rightsZero {phys : Nat → Nat} {n t va : Nat} (empty : entry phys t (index (shiftOf n) va) = 0) :
    rights phys (n+1) t va = none := by
  rw [rights,empty]
  exact if_pos (.inl zeroAbsent)

theorem rightsPointer {phys : Nat → Nat} {n t va c : Nat} (page : Page c)
    (found : entry phys t (index (shiftOf n) va) = pointer c) :
    rights phys (n+1) t va = (rights phys n c va).map (fun a => {a with user := false}) := by
  obtain ⟨up,small,place⟩ := pointerExact page
  have entered : ¬ (¬ present (pointer c) ∨ (n ≠ 0 ∧ large (pointer c))) := by
    rintro (absent | ⟨_,big⟩)
    · exact absent up
    · exact small big
  rw [rights,found]
  rw [if_neg entered,place]
  exact congrArg (fun f => (rights phys n c va).map f) (funext (restrictPointer page))

theorem leafZero {phys : Nat → Nat} {n t va : Nat} (empty : entry phys t (index (shiftOf (n+1)) va) = 0) :
    leafTable phys (n+2) t va = none := by
  rw [leafTable,empty]
  exact if_neg zeroAbsent

theorem leafPointer {phys : Nat → Nat} {n t va c : Nat} (page : Page c)
    (found : entry phys t (index (shiftOf (n+1)) va) = pointer c) :
    leafTable phys (n+2) t va = leafTable phys (n+1) c va := by
  obtain ⟨up,_,place⟩ := pointerExact page
  rw [leafTable,found]
  rw [if_pos up,place]

section Walk
variable {phys : Nat → Nat} {root : Nat} {level : Nat → Option Nat}

theorem rightsLeaf (h : Levels phys root level) {n t : Nat} (here : level t = some (n+2)) (va : Nat) :
    rights phys (n+2) t va =
      (leafTable phys (n+2) t va).bind (fun x => leafAccess (entry phys x (index (shiftOf 0) va))) := by
  induction n generalizing t with
  | zero =>
      rcases h.inner t 0 here _ (indexLt (shiftOf 1) va) with empty | ⟨c,below,found⟩
      · rw [rightsZero empty,leafZero empty]
        rfl
      · rw [rightsPointer (h.page c 1 below) found,leafPointer (h.page c 1 below) found,leafTable,
          Option.bind_some,leafAccess,rights]
        by_cases up : present (entry phys c (index (shiftOf 0) va))
        · rw [if_neg (by simp [up]),if_pos up,rights]
          simp [restrict]
        · rw [if_pos (.inl up),if_neg up]
          rfl
  | succ n ih =>
      rcases h.inner t (n+1) here _ (indexLt (shiftOf (n+2)) va) with empty | ⟨c,below,found⟩
      · rw [rightsZero empty,leafZero empty]
        rfl
      · rw [rightsPointer (h.page c _ below) found,leafPointer (h.page c _ below) found,ih below,Option.map_bind]
        refine congrArg _ (funext fun x => ?_)
        show (leafAccess _).map _ = leafAccess _
        unfold leafAccess
        split <;> rfl

theorem leafLevel (h : Levels phys root level) {n t va x : Nat} (here : level t = some (n+1))
    (found : leafTable phys (n+1) t va = some x) : level x = some 1 := by
  induction n generalizing t with
  | zero =>
      cases found
      exact here
  | succ n ih =>
      rcases h.inner t n here _ (indexLt (shiftOf (n+1)) va) with empty | ⟨c,below,pointed⟩
      · rw [leafZero empty] at found
        cases found
      · rw [leafPointer (h.page c _ below) pointed] at found
        exact ih below found

theorem leafSame (h : Levels phys root level) {n t t' va va' x : Nat} (here : level t = some (n+1))
    (here' : level t' = some (n+1)) (found : leafTable phys (n+1) t va = some x)
    (found' : leafTable phys (n+1) t' va' = some x) :
    t = t' ∧ ∀ k, 1 ≤ k → k ≤ n → index (shiftOf k) va = index (shiftOf k) va' := by
  induction n generalizing t t' with
  | zero =>
      cases found
      cases found'
      exact ⟨rfl,fun k low high => absurd (low.trans high) (by decide)⟩
  | succ n ih =>
      rcases h.inner t n here _ (indexLt (shiftOf (n+1)) va) with empty | ⟨c,below,pointed⟩
      · rw [leafZero empty] at found
        cases found
      rcases h.inner t' n here' _ (indexLt (shiftOf (n+1)) va') with empty | ⟨c',below',pointed'⟩
      · rw [leafZero empty] at found'
        cases found'
      rw [leafPointer (h.page c _ below) pointed] at found
      rw [leafPointer (h.page c' _ below') pointed'] at found'
      obtain ⟨rfl,deeper⟩ := ih below below' found found'
      obtain ⟨same,index⟩ := h.once t t' n n _ _ c here here' (indexLt _ va) (indexLt _ va') pointed pointed'
      refine ⟨same,fun k low high => ?_⟩
      rcases Nat.lt_or_ge n k with top | inside
      · have here : k = n + 1 := by omega
        rw [here]
        exact index
      · exact deeper k low inside

theorem innerKept (h : Levels phys root level) {t t' i i' n : Nat} (v : Nat) (leaf : level t = some 1) (hi : i < 512)
    (inner : level t' = some (n+2)) (hi' : i' < 512) :
    entry (update phys (t + 8 * i) v) t' i' = entry phys t' i' := by
  refine entryUpdate (h.page t' _ inner) (h.page t _ leaf) hi' hi (.inl ?_)
  rintro rfl
  rw [leaf] at inner
  cases inner

theorem levelsLeaf (h : Levels phys root level) {t i : Nat} (v : Nat) (leaf : level t = some 1) (hi : i < 512) :
    Levels (update phys (t + 8 * i) v) root level := by
  refine ⟨h.root,h.page,fun t' n inner i' hi' => ?_,fun t1 t2 n1 n2 i1 i2 c in1 in2 h1 h2 e1 e2 => ?_⟩
  · rw [innerKept h v leaf hi inner hi']
    exact h.inner t' n inner i' hi'
  · rw [innerKept h v leaf hi in1 h1] at e1
    rw [innerKept h v leaf hi in2 h2] at e2
    exact h.once t1 t2 n1 n2 i1 i2 c in1 in2 h1 h2 e1 e2

theorem leafTableLeaf (h : Levels phys root level) {t i : Nat} (v : Nat) (leaf : level t = some 1) (hi : i < 512)
    {n t' : Nat} (here : level t' = some (n+1)) (va : Nat) :
    leafTable (update phys (t + 8 * i) v) (n+1) t' va = leafTable phys (n+1) t' va := by
  induction n generalizing t' with
  | zero => rfl
  | succ n ih =>
      have kept := innerKept h v leaf hi here (indexLt (shiftOf (n+1)) va)
      rcases h.inner t' n here _ (indexLt (shiftOf (n+1)) va) with empty | ⟨c,below,found⟩
      · rw [leafZero (kept.trans empty),leafZero empty]
      · rw [leafPointer (h.page c _ below) (kept.trans found),leafPointer (h.page c _ below) found]
        exact ih below

theorem grantedLeaf (h : Levels phys root level) {t va : Nat} (v : Nat)
    (found : leafTable phys 4 root va = some t) (va' : Nat) :
    granted (update phys (t + 8 * index (shiftOf 0) va) v) root va' =
      if pageOf va' = pageOf va then leafAccess v else granted phys root va' := by
  have leaf := leafLevel h h.root found
  have hi := indexLt (shiftOf 0) va
  rw [granted,granted,rightsLeaf (levelsLeaf h v leaf hi) h.root,rightsLeaf h h.root,
    leafTableLeaf h v leaf hi h.root]
  by_cases same : pageOf va' = pageOf va
  · obtain ⟨i3,i2,i1,i0⟩ := (pageOfExact va' va).mp same
    have way : leafTable phys 4 root va' = leafTable phys 4 root va := by
      simp only [leafTable,i3,i2,i1]
    rw [if_pos same,way,found,Option.bind_some,i0,entryHere]
  · rw [if_neg same]
    cases found' : leafTable phys 4 root va' with
    | none => rfl
    | some t' =>
        rw [Option.bind_some,Option.bind_some,entryUpdate (h.page t' _ (leafLevel h h.root found')) (h.page t _ leaf)
          (indexLt (shiftOf 0) va') hi]
        by_cases table : t' = t
        · refine .inr fun sameIndex => same ((pageOfExact va' va).mpr ?_)
          rw [table] at found'
          have indexes := (leafSame h h.root h.root found' found).2
          exact ⟨indexes 3 (by decide) (by decide),indexes 2 (by decide) (by decide),
            indexes 1 (by decide) (by decide),sameIndex⟩
        · exact .inl table

theorem hangEntries (h : Levels phys root level) {t i c n : Nat} (fresh : level c = none) (page : Page c)
    (inner : level t = some (n+2)) (hi : i < 512) {t' m i' : Nat} (here : level t' = some m) (hi' : i' < 512) :
    entry (hang phys t i c) t' i' = if t' = t ∧ i' = i then pointer c else entry phys t' i' := by
  by_cases same : t' = t ∧ i' = i
  · obtain ⟨rfl,rfl⟩ := same
    rw [if_pos ⟨rfl,rfl⟩]
    exact entryHere _ _ _ _
  · rw [if_neg same]
    refine hangOther page (h.page t _ inner) (h.page t' _ here) (freshApart fresh here) hi hi' ?_
    by_cases table : t' = t
    · exact .inr fun sameIndex => same ⟨table,sameIndex⟩
    · exact .inl table

theorem hangEmpty (h : Levels phys root level) {t i c n i' : Nat} (fresh : level c = none) (page : Page c)
    (inner : level t = some (n+2)) (hi : i < 512) (hi' : i' < 512) : entry (hang phys t i c) c i' = 0 :=
  hangNew (h.page t _ inner) page (freshApart fresh inner).symm hi hi'

theorem rightsHang (h : Levels phys root level) {t i c n : Nat} (fresh : level c = none) (page : Page c)
    (inner : level t = some (n+2)) (hi : i < 512) (empty : entry phys t i = 0) {m t' : Nat}
    (here : level t' = some (m+1)) (va : Nat) : rights (hang phys t i c) (m+1) t' va = rights phys (m+1) t' va := by
  induction m generalizing t' with
  | zero =>
      have away : ¬ (t' = t ∧ index (shiftOf 0) va = i) := by
        rintro ⟨rfl,_⟩
        rw [here] at inner
        cases inner
      have kept := hangEntries h fresh page inner hi here (indexLt (shiftOf 0) va)
      rw [if_neg away] at kept
      simp only [rights,kept]
  | succ m ih =>
      have kept := hangEntries h fresh page inner hi here (indexLt (shiftOf (m+1)) va)
      by_cases hung : t' = t ∧ index (shiftOf (m+1)) va = i
      · rw [if_pos hung] at kept
        obtain ⟨rfl,rfl⟩ := hung
        rw [rightsPointer page kept,rightsZero empty,
          rightsZero (hangEmpty h fresh page inner hi (indexLt (shiftOf m) va))]
        rfl
      · rw [if_neg hung] at kept
        rcases h.inner t' m here _ (indexLt (shiftOf (m+1)) va) with nothing | ⟨c',below,found⟩
        · rw [rightsZero (kept.trans nothing),rightsZero nothing]
        · rw [rightsPointer (h.page c' _ below) (kept.trans found),rightsPointer (h.page c' _ below) found,
            ih below]

theorem hangPointer (h : Levels phys root level) {t i c n : Nat} (fresh : level c = none) (page : Page c)
    (inner : level t = some (n+2)) (hi : i < 512) {t' m i' c' : Nat}
    (here : update level c (some (n+1)) t' = some (m+2)) (hi' : i' < 512)
    (found : entry (hang phys t i c) t' i' = pointer c') :
    (t' = t ∧ i' = i ∧ pointer c' = pointer c) ∨ (level t' = some (m+2) ∧ entry phys t' i' = pointer c') := by
  rcases hungCases here with ⟨rfl,_⟩ | ⟨_,old⟩
  · rw [hangEmpty h fresh page inner hi hi'] at found
    exact absurd found.symm (pointerNotZero c')
  · have kept := hangEntries h fresh page inner hi old hi'
    by_cases hung : t' = t ∧ i' = i
    · rw [if_pos hung] at kept
      exact .inl ⟨hung.1,hung.2,found.symm.trans kept⟩
    · rw [if_neg hung] at kept
      exact .inr ⟨old,kept.symm.trans found⟩

theorem pointerInjective {c c' : Nat} (page : Page c) (page' : Page c') (same : pointer c = pointer c') : c = c' := by
  rw [← (pointerExact page).2.2,same,(pointerExact page').2.2]

theorem pointerFresh (h : Levels phys root level) {c t m i c' : Nat} (fresh : level c = none) (page : Page c)
    (here : level t = some (m+2)) (hi : i < 512) (found : entry phys t i = pointer c') : pointer c' ≠ pointer c := by
  intro same
  rcases h.inner t m here i hi with nothing | ⟨c1,below,found'⟩
  · rw [nothing] at found
    exact pointerNotZero c' found.symm
  · have target := pointerInjective (h.page c1 _ below) page (found'.symm.trans (found.trans same))
    exact freshApart fresh below target

theorem levelsHang (h : Levels phys root level) {t i c n : Nat} (fresh : level c = none) (page : Page c)
    (inner : level t = some (n+2)) (hi : i < 512) :
    Levels (hang phys t i c) root (update level c (some (n+1))) := by
  refine ⟨hungOld _ fresh h.root,fun t' m here => ?_,fun t' m here i' hi' => ?_,
    fun t1 t2 n1 n2 i1 i2 c' in1 in2 h1 h2 e1 e2 => ?_⟩
  · rcases hungCases here with ⟨rfl,_⟩ | ⟨_,old⟩
    · exact page
    · exact h.page t' m old
  · rcases hungCases here with ⟨rfl,_⟩ | ⟨_,old⟩
    · exact .inl (hangEmpty h fresh page inner hi hi')
    · rw [hangEntries h fresh page inner hi old hi']
      by_cases hung : t' = t ∧ i' = i
      · rw [hung.1,inner] at old
        cases old
        exact .inr ⟨c,Function.update_self _ _ _,if_pos hung⟩
      · rw [if_neg hung]
        rcases h.inner t' m old i' hi' with nothing | ⟨c',below,found⟩
        · exact .inl nothing
        · exact .inr ⟨c',hungOld _ fresh below,found⟩
  · rcases hangPointer h fresh page inner hi in1 h1 e1 with ⟨rfl,rfl,same⟩ | ⟨old1,found1⟩
    · rcases hangPointer h fresh page inner hi in2 h2 e2 with ⟨rfl,rfl,_⟩ | ⟨old2,found2⟩
      · exact ⟨rfl,rfl⟩
      · exact absurd same (pointerFresh h fresh page old2 h2 found2)
    · rcases hangPointer h fresh page inner hi in2 h2 e2 with ⟨rfl,rfl,same⟩ | ⟨old2,found2⟩
      · exact absurd same (pointerFresh h fresh page old1 h1 found1)
      · exact h.once t1 t2 n1 n2 i1 i2 c' old1 old2 h1 h2 found1 found2

end Walk

end Nekros.PageRights
