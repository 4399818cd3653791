import Mathlib.Data.Nat.Bitwise
import Mathlib.Logic.Function.Basic
import Mathlib.Data.List.Basic
import Mathlib.Tactic.Common

/-! The four-level page walk of x86-64 over a memory of eight-byte words, and the trees
of tables it reads. A tree names its tables by their paths: the table under `p` at index
`i` is the one at `i::p`, and the root is at the empty path. Some entries of the second
level may lead to one directory of 2 MB pages, which is shared and never changes. -/
namespace Nekros.Paging
open Function (update)

def present (e : Nat) : Prop := e &&& 1 ≠ 0
instance (e) : Decidable (present e) := by unfold present; infer_instance

def large (e : Nat) : Prop := e &&& 0x80 ≠ 0
instance (e) : Decidable (large e) := by unfold large; infer_instance

def frame (e : Nat) : Nat := e &&& 0x000FFFFFFFFFF000

def index (shift va : Nat) : Nat := (va >>> shift) &&& 0x1FF

def entry (phys : Nat → Nat) (table i : Nat) : Nat := phys (table + 8 * i)

def Canonical (va : Nat) : Prop := va < 2^47 ∨ (2^64 - 2^47 ≤ va ∧ va < 2^64)
instance (va) : Decidable (Canonical va) := by unfold Canonical; infer_instance

def leaf (e va : Nat) : Option Nat := if present e then some (frame e + va % 2^12) else none

/- Accessed and dirty bits are not kept. The page-size bit is reserved at the first level. -/
def walk (phys : Nat → Nat) (root va : Nat) : Option Nat :=
  if ¬ Canonical va then none else
  let e4 := entry phys root (index 39 va)
  if ¬ present e4 ∨ large e4 then none else
  let e3 := entry phys (frame e4) (index 30 va)
  if ¬ present e3 then none else
  if large e3 then some (frame e3 / 2^30 * 2^30 + va % 2^30) else
  let e2 := entry phys (frame e3) (index 21 va)
  if ¬ present e2 then none else
  if large e2 then some (frame e2 / 2^21 * 2^21 + va % 2^21) else
  leaf (entry phys (frame e2) (index 12 va)) va

theorem indexExact (shift va : Nat) : index shift va = va / 2^shift % 512 := by
  rw [index,Nat.shiftRight_eq_div_pow,show (0x1FF:Nat) = 2^9 - 1 from rfl,Nat.and_two_pow_sub_one_eq_mod]

theorem indexLt (shift va : Nat) : index shift va < 512 := by
  rw [indexExact]
  exact Nat.mod_lt _ (by decide)

theorem frameExact (e : Nat) : frame e = e / 2^12 % 2^40 * 2^12 := by
  have mask : (0x000FFFFFFFFFF000 : Nat) = (2^40 - 1) <<< 12 := by decide
  refine Nat.eq_of_testBit_eq (fun i => ?_)
  rw [frame,mask,← Nat.shiftLeft_eq,Nat.testBit_and,Nat.testBit_shiftLeft,Nat.testBit_shiftLeft,
    Nat.testBit_two_pow_sub_one,Nat.testBit_mod_two_pow,Nat.testBit_div_two_pow]
  by_cases low : 12 ≤ i
  · rw [Nat.sub_add_cancel low]
    cases e.testBit i <;> simp [low]
  · simp [low]

theorem presentExact (e : Nat) : present e ↔ e % 2 = 1 := by
  rw [present,Nat.and_one_is_mod]
  omega

theorem largeExact (e : Nat) : large e ↔ e / 2^7 % 2 = 1 := by
  rw [large,show (0x80:Nat) = 2^7 from rfl,Nat.and_two_pow,Nat.testBit_eq_decide_div_mod_eq]
  simp

def pointer (c : Nat) : Nat := c ||| 3

def Page (t : Nat) : Prop := t % 2^12 = 0 ∧ t < 2^52
instance (t) : Decidable (Page t) := by unfold Page; infer_instance

theorem orLow {c low : Nat} (shift : Nat) (aligned : c % 2^shift = 0) (small : low < 2^shift) :
    c ||| low = c + low := by
  have whole : c = (c / 2^shift) <<< shift := by
    rw [Nat.shiftLeft_eq]
    exact (Nat.div_mul_cancel (Nat.dvd_of_mod_eq_zero aligned)).symm
  rw [whole,Nat.shiftLeft_add_eq_or_of_lt small]

theorem pointerExact {c : Nat} (page : Page c) :
    present (pointer c) ∧ ¬ large (pointer c) ∧ frame (pointer c) = c := by
  obtain ⟨aligned,small⟩ := page
  rw [pointer,orLow 12 aligned (by decide),presentExact,largeExact,frameExact]
  omega

theorem zeroAbsent : ¬ present 0 := by decide

def largePage (k : Nat) : Nat := (k <<< 21) ||| 0x83

theorem largePageExact {k : Nat} (small : k < 512) :
    present (largePage k) ∧ large (largePage k) ∧ frame (largePage k) / 2^21 * 2^21 = k * 2^21 := by
  have shifted : k <<< 21 = k * 2^21 := Nat.shiftLeft_eq k 21
  rw [largePage,shifted,orLow 21 (Nat.mul_mod_left k _) (by decide),presentExact,largeExact,frameExact]
  omega

structure Layout where
  root : Nat
  pd : Nat
  -- the entries of the second level that lead to `pd`
  shared : Nat → Nat → Bool

abbrev Node := List Nat → Option Nat

def Layout.sharedAt (l : Layout) : List Nat → Nat → Bool
  | [j],i => l.shared j i
  | _,_ => false

def Layout.link (l : Layout) (node : Node) (p : List Nat) (i : Nat) : Nat :=
  match node (i::p) with
  | some c => pointer c
  | none => if l.sharedAt p i then pointer l.pd else 0

structure Tree (l : Layout) (phys : Nat → Nat) (node : Node) : Prop where
  rooted : node [] = some l.root
  page : ∀ p t, node p = some t → Page t ∧ t ≠ l.pd
  injective : ∀ p q t, node p = some t → node q = some t → p = q
  closed : ∀ p i, node p = none → node (i::p) = none
  depth : ∀ p t, node p = some t → p.length ≤ 3
  entries : ∀ p t, p.length < 3 → node p = some t → ∀ i < 512, entry phys t i = l.link node p i
  sharedParent : ∀ j i, l.shared j i = true → node [j] ≠ none
  sharedLeaf : ∀ j i, l.shared j i = true → node [i,j] = none
  directory : Page l.pd ∧ ∀ k < 512, entry phys l.pd k = largePage k

def path (va : Nat) : List Nat := [index 21 va,index 30 va,index 39 va]

def look (l : Layout) (phys : Nat → Nat) (node : Node) (va : Nat) : Option Nat :=
  match node (path va) with
  | some t => leaf (entry phys t (index 12 va)) va
  | none =>
      if l.shared (index 39 va) (index 30 va) then some (index 21 va * 2^21 + va % 2^21) else none

theorem linkSome {l : Layout} {node : Node} {p : List Nat} {i c : Nat} (h : node (i::p) = some c) :
    l.link node p i = pointer c := by rw [Layout.link,h]

theorem linkNone {l : Layout} {node : Node} {p : List Nat} {i : Nat} (h : node (i::p) = none)
    (unshared : l.sharedAt p i = false) : l.link node p i = 0 := by
  rw [Layout.link,h]
  simp [unshared]

theorem linkShared {l : Layout} {node : Node} {p : List Nat} {i : Nat} (h : node (i::p) = none)
    (shared : l.sharedAt p i = true) : l.link node p i = pointer l.pd := by
  rw [Layout.link,h]
  simp [shared]

theorem walkTree {l : Layout} {phys : Nat → Nat} {node : Node} (h : Tree l phys node) {va : Nat}
    (canonical : Canonical va) : walk phys l.root va = look l phys node va := by
  have top := h.entries [] l.root (by decide) h.rooted _ (indexLt 39 va)
  unfold walk look path
  rw [if_neg (not_not.mpr canonical)]
  cases first : node [index 39 va] with
  | none =>
      have second := h.closed _ (index 30 va) first
      have third := h.closed _ (index 21 va) second
      have unshared : l.shared (index 39 va) (index 30 va) = false := by
        rw [← Bool.not_eq_true]
        exact fun shared => h.sharedParent _ _ shared first
      have absent : l.link node [] (index 39 va) = 0 := linkNone first rfl
      simp [top,absent,zeroAbsent,third,unshared]
  | some t3 =>
      obtain ⟨up3,small3,at3⟩ := pointerExact (h.page _ _ first).1
      have middle := h.entries _ t3 (by simp) first _ (indexLt 30 va)
      dsimp only
      rw [top,linkSome first,if_neg (not_or.mpr ⟨not_not.mpr up3,small3⟩),at3,middle]
      cases second : node [index 30 va,index 39 va] with
      | none =>
          have third := h.closed _ (index 21 va) second
          rw [third]
          cases shared : l.shared (index 39 va) (index 30 va) with
          | false =>
              rw [linkNone second shared]
              simp [zeroAbsent]
          | true =>
              obtain ⟨upPd,smallPd,atPd⟩ := pointerExact h.directory.1
              obtain ⟨up2,large2,at2⟩ := largePageExact (indexLt 21 va)
              rw [linkShared second shared,if_neg (not_not.mpr upPd),if_neg smallPd,atPd,
                h.directory.2 _ (indexLt 21 va),if_neg (not_not.mpr up2),if_pos large2,at2]
              rfl
      | some t2 =>
          obtain ⟨up2,small2,at2⟩ := pointerExact (h.page _ _ second).1
          have bottom := h.entries _ t2 (by simp) second _ (indexLt 21 va)
          rw [linkSome second,if_neg (not_not.mpr up2),if_neg small2,at2,bottom]
          have unshared : l.shared (index 39 va) (index 30 va) = false := by
            rw [← Bool.not_eq_true]
            intro shared
            rw [h.sharedLeaf _ _ shared] at second
            cases second
          cases third : node [index 21 va,index 30 va,index 39 va] with
          | none =>
              rw [linkNone third rfl]
              simp [zeroAbsent,unshared]
          | some t1 =>
              obtain ⟨up1,small1,at1⟩ := pointerExact (h.page _ _ third).1
              rw [linkSome third,if_neg (not_not.mpr up1),if_neg small1,at1]

theorem wordsDiffer {t t' i i' : Nat} (page : Page t) (page' : Page t') (hi : i < 512) (hi' : i' < 512)
    (other : t ≠ t' ∨ i ≠ i') : t + 8 * i ≠ t' + 8 * i' := by
  unfold Page at *
  omega

theorem entryUpdate {phys : Nat → Nat} {t t' i i' v : Nat} (page : Page t) (page' : Page t') (hi : i < 512)
    (hi' : i' < 512) (other : t ≠ t' ∨ i ≠ i') : entry (update phys (t' + 8 * i') v) t i = entry phys t i :=
  Function.update_of_ne (wordsDiffer page page' hi hi' other) _ _

theorem entryHere (phys : Nat → Nat) (t i v : Nat) : entry (update phys (t + 8 * i) v) t i = v :=
  Function.update_self _ _ _

theorem treeFrame {l : Layout} {phys phys' : Nat → Nat} {node : Node} (h : Tree l phys node)
    (inner : ∀ p t, p.length < 3 → node p = some t → ∀ i < 512, entry phys' t i = entry phys t i)
    (directory : ∀ k < 512, entry phys' l.pd k = entry phys l.pd k) : Tree l phys' node :=
  {h with
    entries := fun p t short found i hi => (inner p t short found i hi).trans (h.entries p t short found i hi)
    directory := ⟨h.directory.1,fun k hk => (directory k hk).trans (h.directory.2 k hk)⟩}

theorem treeSetLeaf {l : Layout} {phys : Nat → Nat} {node : Node} (h : Tree l phys node) {p : List Nat}
    {t i : Nat} (found : node p = some t) (deep : p.length = 3) (hi : i < 512) (v : Nat) :
    Tree l (update phys (t + 8 * i) v) node := by
  obtain ⟨page,offPd⟩ := h.page p t found
  refine treeFrame h (fun q t' short found' j hj => ?_) (fun k hk => ?_)
  · refine entryUpdate (h.page q t' found').1 page hj hi (.inl fun same => ?_)
    have sameAt := h.injective q p t' found' (same ▸ found)
    rw [sameAt,deep] at short
    exact Nat.lt_irrefl 3 short
  · exact entryUpdate h.directory.1 page hk hi (.inl offPd.symm)

theorem lookSetLeaf {l : Layout} {phys : Nat → Nat} {node : Node} (h : Tree l phys node) {va : Nat}
    {t : Nat} (found : node (path va) = some t) (v va' : Nat) :
    look l (update phys (t + 8 * index 12 va) v) node va' =
      if path va' = path va ∧ index 12 va' = index 12 va then leaf v va' else look l phys node va' := by
  have page := (h.page _ t found).1
  by_cases same : path va' = path va ∧ index 12 va' = index 12 va
  · rw [if_pos same]
    unfold look
    rw [same.1,found]
    dsimp only
    rw [same.2,entryHere]
  · rw [if_neg same]
    unfold look
    cases found' : node (path va') with
    | none => rfl
    | some t' =>
        dsimp only
        rw [entryUpdate (h.page _ t' found').1 page (indexLt 12 va') (indexLt 12 va)]
        by_cases sameTable : t' = t
        · subst sameTable
          exact .inr fun sameIndex => same ⟨h.injective _ _ _ found' found,sameIndex⟩
        · exact .inl sameTable

def clearPage (phys : Nat → Nat) (c : Nat) : Nat → Nat :=
  fun a => if c ≤ a ∧ a < c + 2^12 then 0 else phys a

theorem entryCleared {phys : Nat → Nat} {c i : Nat} (hi : i < 512) : entry (clearPage phys c) c i = 0 := by
  unfold entry clearPage
  rw [if_pos (by omega)]

theorem entryKept {phys : Nat → Nat} {t c i : Nat} (page : Page t) (page' : Page c) (other : t ≠ c)
    (hi : i < 512) : entry (clearPage phys c) t i = entry phys t i := by
  unfold entry clearPage
  unfold Page at *
  rw [if_neg (by omega)]

def hang (phys : Nat → Nat) (t i c : Nat) : Nat → Nat := update (clearPage phys c) (t + 8 * i) (pointer c)

structure Free (l : Layout) (node : Node) (c : Nat) : Prop where
  page : Page c
  offPd : c ≠ l.pd
  unused : ∀ p, node p ≠ some c

theorem hangOther {phys : Nat → Nat} {t t' i i' c : Nat} (new : Page c) (page : Page t) (page' : Page t')
    (apart : t' ≠ c) (hi : i < 512) (hi' : i' < 512) (other : t' ≠ t ∨ i' ≠ i) :
    entry (hang phys t i c) t' i' = entry phys t' i' := by
  unfold hang
  rw [entryUpdate page' page hi' hi other,entryKept page' new apart hi']

theorem hangNew {phys : Nat → Nat} {t i i' c : Nat} (page : Page t) (page' : Page c) (apart : c ≠ t)
    (hi : i < 512) (hi' : i' < 512) : entry (hang phys t i c) c i' = 0 := by
  unfold hang
  rw [entryUpdate page' page hi' hi (.inl apart),entryCleared hi']

theorem hungCases {α β : Type} [DecidableEq α] {node : α → Option β} {q r : α} {c t : β}
    (found : update node q (some c) r = some t) : (r = q ∧ t = c) ∨ (r ≠ q ∧ node r = some t) := by
  by_cases new : r = q
  · subst new
    rw [Function.update_self] at found
    exact .inl ⟨rfl,(Option.some.inj found).symm⟩
  · rw [Function.update_of_ne new] at found
    exact .inr ⟨new,found⟩

theorem freshApart {α β : Type} {node : α → Option β} {q r : α} {t : β} (fresh : node q = none)
    (found : node r = some t) : r ≠ q := by
  rintro rfl
  rw [fresh] at found
  cases found

theorem hungOld {α β : Type} [DecidableEq α] {node : α → Option β} {q r : α} {t : β} (c : β) (fresh : node q = none)
    (found : node r = some t) : update node q (some c) r = some t := by
  rw [Function.update_of_ne (freshApart fresh found)]
  exact found

theorem sharedAtNone {l : Layout} {phys : Nat → Nat} {node : Node} (h : Tree l phys node) {p : List Nat}
    {i : Nat} (empty : node (i::p) = none) (j : Nat) : l.sharedAt (i::p) j = false := by
  cases p with
  | nil =>
      rw [← Bool.not_eq_true]
      exact fun shared => h.sharedParent i j shared empty
  | cons k rest => rfl

section Hung
variable {l : Layout} {phys : Nat → Nat} {node : Node} (h : Tree l phys node) {p : List Nat} {t i c : Nat}
  (found : node p = some t) (free : Free l node c)

include h free in
theorem hungInjective (q r : List Nat) (t' : Nat) (at_q : update node (i::p) (some c) q = some t')
    (at_r : update node (i::p) (some c) r = some t') : q = r := by
  rcases hungCases at_q with ⟨rfl,rfl⟩ | ⟨_,oldQ⟩
  · rcases hungCases at_r with ⟨rfl,_⟩ | ⟨_,oldR⟩
    · rfl
    · exact absurd oldR (free.unused r)
  · rcases hungCases at_r with ⟨rfl,rfl⟩ | ⟨_,oldR⟩
    · exact absurd oldQ (free.unused q)
    · exact h.injective q r t' oldQ oldR

include h found in
theorem hungClosed (q : List Nat) (j : Nat) (absent : update node (i::p) (some c) q = none) :
    update node (i::p) (some c) (j::q) = none := by
  have other : q ≠ i::p := by
    rintro rfl
    rw [Function.update_self] at absent
    cases absent
  rw [Function.update_of_ne other] at absent
  have differ : j::q ≠ i::p := by
    intro same
    rw [(List.cons.inj same).2,found] at absent
    cases absent
  rw [Function.update_of_ne differ]
  exact h.closed q j absent

include h found free in
theorem hungEntries (hi : i < 512) (empty : node (i::p) = none) (q : List Nat) (t' : Nat) (short : q.length < 3)
    (at_q : update node (i::p) (some c) q = some t') (j : Nat) (hj : j < 512) :
    entry (hang phys t i c) t' j = l.link (update node (i::p) (some c)) q j := by
  have page := h.page p t found
  have apart : c ≠ t := fun same => free.unused p (same ▸ found)
  rcases hungCases at_q with ⟨rfl,rfl⟩ | ⟨_,old⟩
  · have leafless : update node (i::p) (some t') (j::i::p) = none := by
      rw [Function.update_of_ne (by simp)]
      exact h.closed _ j empty
    rw [hangNew page.1 free.page apart hi hj,linkNone leafless (sharedAtNone h empty j)]
  · by_cases here : j::q = i::p
    · obtain ⟨rfl,rfl⟩ := List.cons.inj here
      rw [found] at old
      cases old
      rw [linkSome (Function.update_self _ _ _)]
      exact entryHere _ _ _ _
    · have away : t' ≠ c := fun same => free.unused q (same ▸ old)
      have other : t' ≠ t ∨ j ≠ i := by
        by_cases sameTable : t' = t
        · refine .inr fun sameIndex => here ?_
          rw [sameIndex,h.injective q p t' old (sameTable ▸ found)]
        · exact .inl sameTable
      have unchanged : l.link (update node (i::p) (some c)) q j = l.link node q j := by
        unfold Layout.link
        rw [Function.update_of_ne here]
      rw [hangOther free.page page.1 (h.page q t' old).1 away hi hj other,unchanged]
      exact h.entries q t' short old j hj

end Hung

theorem treeHang {l : Layout} {phys : Nat → Nat} {node : Node} (h : Tree l phys node) {p : List Nat}
    {t i c : Nat} (found : node p = some t) (short : p.length < 3) (hi : i < 512)
    (empty : node (i::p) = none) (unshared : l.sharedAt p i = false) (free : Free l node c) :
    Tree l (hang phys t i c) (update node (i::p) (some c)) := by
  have page := h.page p t found
  refine {
    rooted := by rw [Function.update_of_ne (by simp)]; exact h.rooted
    page := ?_
    injective := hungInjective h free
    closed := hungClosed h found
    depth := ?_
    entries := hungEntries h found free hi empty
    sharedParent := ?_
    sharedLeaf := ?_
    directory := ⟨h.directory.1,fun k hk => ?_⟩}
  · intro q t' at_q
    rcases hungCases at_q with ⟨_,rfl⟩ | ⟨_,old⟩
    · exact ⟨free.page,free.offPd⟩
    · exact h.page q t' old
  · intro q t' at_q
    rcases hungCases at_q with ⟨rfl,_⟩ | ⟨_,old⟩
    · exact short
    · exact h.depth q t' old
  · intro j k shared
    by_cases new : [j] = i::p
    · rw [new,Function.update_self]
      simp
    · rw [Function.update_of_ne new]
      exact h.sharedParent j k shared
  · intro j k shared
    have differ : [k,j] ≠ i::p := by
      intro same
      obtain ⟨rfl,rfl⟩ := List.cons.inj same
      rw [show l.sharedAt [j] k = l.shared j k from rfl,shared] at unshared
      cases unshared
    rw [Function.update_of_ne differ]
    exact h.sharedLeaf j k shared
  · rw [hangOther free.page page.1 h.directory.1 free.offPd.symm hi hk (.inl page.2.symm)]
    exact h.directory.2 k hk

theorem lookHang {l : Layout} {phys : Nat → Nat} {node : Node} (h : Tree l phys node) {p : List Nat}
    {t i c : Nat} (found : node p = some t) (short : p.length < 3) (hi : i < 512)
    (empty : node (i::p) = none) (free : Free l node c) (va : Nat) :
    look l (hang phys t i c) (update node (i::p) (some c)) va = look l phys node va := by
  have page := h.page p t found
  have apart : c ≠ t := fun same => free.unused p (same ▸ found)
  unfold look
  by_cases new : path va = i::p
  · obtain ⟨rfl,rfl⟩ := List.cons.inj new
    have unshared : l.shared (index 39 va) (index 30 va) = false := by
      rw [← Bool.not_eq_true]
      intro shared
      rw [h.sharedLeaf _ _ shared] at found
      cases found
    rw [new,Function.update_self,empty]
    dsimp only
    rw [hangNew page.1 free.page apart hi (indexLt 12 va),unshared]
    rfl
  · rw [Function.update_of_ne new]
    cases found' : node (path va) with
    | none => rfl
    | some t' =>
        have away : t' ≠ c := fun same => free.unused _ (same ▸ found')
        have other : t' ≠ t := by
          intro same
          have sameAt := h.injective _ p t' found' (same ▸ found)
          rw [← sameAt] at short
          exact absurd short (by simp [path])
        dsimp only
        rw [hangOther free.page page.1 (h.page _ t' found').1 away hi (indexLt 12 va) (.inl other)]

end Nekros.Paging
