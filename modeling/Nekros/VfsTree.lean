import Mathlib.Data.List.TakeWhile
import Nekros.Bytes
import Nekros.GuardedRun
import Nekros.LinkRing
import Nekros.Paths
import Nekros.Ramfs

/-! fs/vfs.c: the inodes, the directory tree and `vfs_lookup`. The children of a directory are a ring
of the `sibling` nodes of their inodes. An inode is its index in `g_inodes`, and a C string the list of its
bytes before the NUL. -/
namespace Nekros.VfsTree
open Bytes (Byte)
open LinkRing (Links Seg Ring init addTail initOther initRing addTailOther addTailRing ringFrame)
open Paths (join components Proper)
open Ramfs (Ops)
open GuardedRun (run Guarded guardedInvariant runInvariant)
open Function (update)

abbrev Char := {b : Byte // b ≠ 0}

abbrev CString := List Char

def slash : Char := ⟨47,by decide⟩

/- `INODE_*`; `unset` is the 0 of an inode that was not allocated. -/
inductive InodeType where
  | unset | file | dir | char | link
  deriving DecidableEq, Repr

inductive Node where
  | null
  | children (n : Nat)
  | sibling (n : Nat)
  deriving DecidableEq, Repr

/- Beside what a file reads and writes: the place in the tree. -/
structure Inode extends Ramfs.Inode where
  type : InodeType
  parent : Option Nat
  name : CString

structure Vfs where
  inodes : Nat → Inode
  nextIno : Nat
  links : Links Node
  root : Option Nat

def maxInodes : Nat := 512

def blank : Inode := ⟨⟨.absent,0,none,0,0⟩,.unset,none,[]⟩

def loaded : Vfs := ⟨fun _ => blank,1,⟨fun _ => .null,fun _ => .null⟩,none⟩

/- `strlcpy` into the 64 bytes of `name` keeps 63. -/
def inodeAlloc (v : Vfs) (name : CString) (type : InodeType) : Option (Vfs × Nat) :=
  if maxInodes ≤ v.nextIno then none
  else
    let n := v.nextIno
    some ({v with
      inodes := update v.inodes n ⟨⟨.absent,0,none,0,0⟩,type,none,name.take 63⟩
      nextIno := n + 1
      links := init (init v.links (.children n)) (.sibling n)},n)

def dirAdd (v : Vfs) (parent child : Nat) : Vfs :=
  {v with
    inodes := update v.inodes child {v.inodes child with parent := some parent}
    links := addTail v.links (.sibling child) (.children parent)}

def make (v : Vfs) (parent : Option Nat) (name : CString) (type : InodeType) (ops : Ops) : Vfs × Option Nat :=
  match inodeAlloc v name type with
  | none => (v,none)
  | some (v,n) =>
      let v := {v with inodes := update v.inodes n {v.inodes n with ops := ops}}
      match parent with
      | none => (v,some n)
      | some p => (dirAdd v p n,some n)

def mkfile (v : Vfs) (parent : Option Nat) (name : CString) (ops : Ops) : Vfs × Option Nat :=
  make v parent name .file ops

def mkdirNode (v : Vfs) (parent : Option Nat) (name : CString) : Vfs × Option Nat := make v parent name .dir .absent

def start : Vfs :=
  let (v,n) := mkdirNode loaded none [slash]
  {v with root := n}

def findChild (v : Vfs) (dir : Nat) (name : CString) : Nat → Node → Option (Option Nat)
  | _,.children d => if d = dir then some none else none
  | fuel+1,.sibling c =>
      if (v.inodes c).name = name then some (some c)
      else findChild v dir name fuel (v.links.next (.sibling c))
  | _,_ => none

def dirLookup (v : Vfs) (dir : Option Nat) (name : CString) : Option (Option Nat) :=
  match dir with
  | none => some none
  | some d =>
      if (v.inodes d).type ≠ .dir then some none
      else findChild v d name maxInodes (v.links.next (.children d))

def lookupFrom (v : Vfs) : Nat → Option Nat → (p : CString) → Option (Option Nat)
  | 0,cur,p => if p = [] then some cur else none
  | fuel+1,cur,p =>
      if p = [] then some cur
      else if cur = none then some none
      else
        let component := p.takeWhile (· ≠ slash)
        if 64 ≤ component.length then some none
        else
          (dirLookup v cur component).bind fun cur =>
            -- behind the slash, or at the end
            let p := (p.drop component.length).drop 1
            if p = [] then some cur else lookupFrom v fuel cur p

def vfsLookup (v : Vfs) : (path : CString) → Option (Option Nat)
  | [] => some none
  | first :: p =>
      if first ≠ slash then some none
      else if p = [] then some v.root
      else lookupFrom v p.length v.root p

/- The last one is the assignment `n->type = INODE_CHAR` that `vfs_init` makes to a device's file. -/
inductive Event where
  | mkdirNode (parent : Nat) (name : CString)
  | mkfile (parent : Nat) (name : CString) (ops : Ops)
  | device (n : Nat)

def step (v : Vfs) : Event → Option Vfs
  | .mkdirNode parent name => some (mkdirNode v (some parent) name).1
  | .mkfile parent name ops => some (mkfile v (some parent) name ops).1
  | .device n => some {v with inodes := update v.inodes n {v.inodes n with type := .char}}

structure GoodName (name : CString) : Prop where
  proper : Proper slash name
  short : name.length ≤ 63

def Addable (v : Vfs) (parent : Nat) (name : CString) : Prop :=
  (v.inodes parent).type = .dir ∧ GoodName name ∧
    ∀ c < v.nextIno, (v.inodes c).parent = some parent → (v.inodes c).name ≠ name

def Valid (v : Vfs) : Event → Prop
  | .mkdirNode parent name => Addable v parent name
  | .mkfile parent name _ => Addable v parent name
  | .device n => (v.inodes n).type = .file

inductive Chain (v : Vfs) : Nat → List CString → Prop where
  | root {n : Nat} (top : v.root = some n) : Chain v n []
  | child {p n : Nat} {names : List CString} (above : Chain v p names)
      (parent : (v.inodes n).parent = some p) : Chain v n (names ++ [(v.inodes n).name])

def descend (v : Vfs) : Option Nat → List CString → Option (Option Nat)
  | cur,[] => some cur
  | none,_ :: _ => some none
  | some c,name :: rest =>
      if 64 ≤ name.length then some none
      else (dirLookup v (some c) name).bind fun cur => descend v cur rest

theorem descendNone (v : Vfs) (names : List CString) : descend v none names = some none := by
  cases names with
  | nil => rfl
  | cons name rest => rfl

theorem descendAppend (v : Vfs) (cur : Option Nat) (first second : List CString) :
    descend v cur (first ++ second) = (descend v cur first).bind (fun cur => descend v cur second) := by
  induction first generalizing cur with
  | nil => rfl
  | cons name rest ih =>
      cases cur with
      | none => exact (descendNone v second).symm
      | some c =>
          rw [List.cons_append,descend,descend]
          split
          · exact (descendNone v second).symm
          · rw [Option.bind_assoc]
            exact congrArg (dirLookup v (some c) name).bind (funext ih)

theorem pathCases (p : CString) :
    (slash ∉ p ∧ p.takeWhile (· ≠ slash) = p) ∨
    ∃ first rest, p = first ++ slash :: rest ∧ slash ∉ first ∧ p.takeWhile (· ≠ slash) = first := by
  have parts : p.takeWhile (· ≠ slash) ++ p.dropWhile (· ≠ slash) = p := List.takeWhile_append_dropWhile
  have plain : slash ∉ p.takeWhile (· ≠ slash) := fun mem => by
    simpa using List.mem_takeWhile_imp mem
  cases tail : p.dropWhile (· ≠ slash) with
  | nil =>
      rw [tail,List.append_nil] at parts
      rw [parts] at plain
      exact .inl ⟨plain,parts⟩
  | cons x rest =>
      have stop := List.head?_dropWhile_not (· ≠ slash) p
      rw [tail] at stop
      have same : x = slash := by simpa using stop
      rw [tail,same] at parts
      exact .inr ⟨_,rest,parts.symm,plain,rfl⟩

theorem lookupDescends (v : Vfs) {fuel : Nat} {cur : Option Nat} {p : CString} (more : p ≠ [])
    (enough : p.length ≤ fuel) : lookupFrom v fuel cur p = descend v cur (components slash p) := by
  induction fuel generalizing cur p with
  | zero => exact absurd (List.eq_nil_of_length_eq_zero (Nat.le_zero.mp enough)) more
  | succ fuel ih =>
      rw [lookupFrom,if_neg more]
      cases cur with
      | none => rw [if_pos rfl,descendNone]
      | some c =>
          rw [if_neg (Option.some_ne_none c)]
          dsimp only
          -- one component is left, with or without a slash behind it, or the path goes on
          rcases pathCases p with ⟨plain,whole⟩ | ⟨first,rest,rfl,plain,whole⟩
          · rw [whole,Paths.componentsPlain plain,descend,List.drop_length]
            rfl
          · rw [whole,List.drop_left]
            by_cases last : rest = []
            · subst last
              rw [Paths.componentsSnoc plain,descend]
              rfl
            · rw [Paths.componentsCons plain last,descend]
              rw [List.length_append,List.length_cons] at enough
              have later (cur : Option Nat) : lookupFrom v fuel cur rest = descend v cur (components slash rest) :=
                ih last (by omega)
              simp only [List.drop_succ_cons,List.drop_zero,if_neg last,later]

theorem findChildSeg {v : Vfs} {dir : Nat} {name : CString} {l : List Nat} {a : Node} {fuel : Nat}
    (enough : l.length ≤ fuel) (seg : Seg v.links a (l.map .sibling) (.children dir)) :
    findChild v dir name fuel (v.links.next a) = some (l.find? (fun c => (v.inodes c).name = name)) := by
  induction l generalizing a fuel with
  | nil =>
      rw [seg.1,findChild,if_pos rfl]
      rfl
  | cons c rest ih =>
      obtain ⟨forth,_,tail⟩ := seg
      cases fuel with
      | zero => exact absurd enough (Nat.not_succ_le_zero _)
      | succ fuel =>
          rw [forth,findChild]
          by_cases same : (v.inodes c).name = name
          · rw [if_pos same,List.find?_cons_of_pos (by simpa using same)]
          · rw [if_neg same,List.find?_cons_of_neg (by simpa using same),
              ih (Nat.le_of_succ_le_succ enough) tail]

structure Inv (v : Vfs) (kids : Nat → List Nat) : Prop where
  root : v.root = some 1
  count : 2 ≤ v.nextIno ∧ v.nextIno ≤ maxInodes
  top : (v.inodes 1).parent = none ∧ (v.inodes 1).type = .dir
  unmade : ∀ n, n = 0 ∨ v.nextIno ≤ n → v.inodes n = blank
  rings : ∀ p, 1 ≤ p → p < v.nextIno → Ring v.links (.children p) ((kids p).map .sibling)
  parents : ∀ p c, c ∈ kids p ↔ (v.inodes c).parent = some p
  younger : ∀ p c, c ∈ kids p → p < c
  placed : ∀ c, 2 ≤ c → c < v.nextIno → ∃ p, c ∈ kids p
  dirs : ∀ p c, c ∈ kids p → (v.inodes p).type = .dir
  good : ∀ p c, c ∈ kids p → GoodName (v.inodes c).name
  distinct : ∀ p c d, c ∈ kids p → d ∈ kids p → (v.inodes c).name = (v.inodes d).name → c = d

section Tree
variable {v : Vfs} {kids : Nat → List Nat} (h : Inv v kids)
include h

theorem changedMade {n : Nat} (changed : v.inodes n ≠ blank) : 1 ≤ n ∧ n < v.nextIno := by
  have first : n ≠ 0 := fun zero => changed (h.unmade n (.inl zero))
  have last : ¬ v.nextIno ≤ n := fun out => changed (h.unmade n (.inr out))
  omega

theorem kidMade {p c : Nat} (kid : c ∈ kids p) : 1 ≤ c ∧ c < v.nextIno := by
  refine changedMade h (fun same => ?_)
  have parent := (h.parents p c).mp kid
  rw [same] at parent
  cases parent

theorem dirMade {p : Nat} (dir : (v.inodes p).type = .dir) : 1 ≤ p ∧ p < v.nextIno := by
  refine changedMade h (fun same => ?_)
  rw [same] at dir
  cases dir

theorem kidsNodup {p : Nat} (first : 1 ≤ p) (made : p < v.nextIno) : (kids p).Nodup :=
  (List.nodup_cons.mp (h.rings p first made).nodup).2.of_map _

theorem kidsFew {p : Nat} (first : 1 ≤ p) (made : p < v.nextIno) : (kids p).length ≤ maxInodes := by
  have inside : kids p ⊆ List.range v.nextIno := fun c kid => List.mem_range.mpr (kidMade h kid).2
  have count := (List.subperm_of_subset (kidsNodup h first made) inside).length_le
  rw [List.length_range] at count
  exact count.trans h.count.2

theorem dirLookupFinds {p : Nat} (first : 1 ≤ p) (made : p < v.nextIno) (name : CString) :
    dirLookup v (some p) name = some ((kids p).find? (fun c => (v.inodes c).name = name)) := by
  unfold dirLookup
  dsimp only
  split
  · next other =>
      -- what is no directory has no children
      have none : kids p = [] := List.eq_nil_iff_forall_not_mem.mpr (fun c kid => other (h.dirs p c kid))
      rw [none]
      rfl
  · exact findChildSeg (kidsFew h first made) (h.rings p first made).seg

theorem findKid {p c : Nat} {name : CString} :
    (kids p).find? (fun d => (v.inodes d).name = name) = some c ↔ c ∈ kids p ∧ (v.inodes c).name = name := by
  constructor
  · intro found
    exact ⟨List.mem_of_find?_eq_some found,by simpa using List.find?_some found⟩
  · rintro ⟨kid,rfl⟩
    cases found : (kids p).find? (fun d => (v.inodes d).name = (v.inodes c).name) with
    | none => exact absurd (List.find?_eq_none.mp found c kid) (by simp)
    | some d =>
        have same : (v.inodes d).name = (v.inodes c).name := by simpa using List.find?_some found
        rw [h.distinct p d c (List.mem_of_find?_eq_some found) kid same]

theorem chainMade {n : Nat} {names : List CString} (chain : Chain v n names) : 1 ≤ n ∧ n < v.nextIno := by
  cases chain with
  | root top =>
      have count := h.count
      have same : 1 = n := Option.some.inj (h.root.symm.trans top)
      omega
  | child above parent => exact kidMade h ((h.parents _ n).mpr parent)

theorem chainExists {n : Nat} (first : 1 ≤ n) (made : n < v.nextIno) : ∃ names, Chain v n names := by
  induction n using Nat.strong_induction_on with
  | h n ih =>
      by_cases top : n = 1
      · exact ⟨[],.root (top ▸ h.root)⟩
      · obtain ⟨p,kid⟩ := h.placed n (by omega) made
        have older := h.younger p n kid
        obtain ⟨dir,_⟩ := dirMade h (h.dirs p n kid)
        obtain ⟨names,above⟩ := ih p older dir (by omega)
        exact ⟨_,.child above ((h.parents p n).mp kid)⟩

theorem chainProper {n : Nat} {names : List CString} (chain : Chain v n names) :
    ∀ name ∈ names, Proper slash name := by
  induction chain with
  | root top => exact fun name mem => absurd mem List.not_mem_nil
  | @child p n names above parent ih =>
      intro name mem
      rcases List.mem_append.mp mem with old | new
      · exact ih name old
      · rw [List.mem_singleton.mp new]
        exact (h.good p n ((h.parents p n).mpr parent)).proper

theorem chainDown {n : Nat} {names : List CString} (chain : Chain v n names) :
    descend v v.root names = some (some n) := by
  induction chain with
  | root top => rw [top]; rfl
  | @child p n names above parent ih =>
      have kid := (h.parents p n).mpr parent
      have short := (h.good p n kid).short
      obtain ⟨first,made⟩ := chainMade h above
      rw [descendAppend,ih,Option.bind_some,descend,if_neg (by omega),dirLookupFinds h first made,(findKid h).mpr ⟨kid,rfl⟩]
      rfl

theorem downChain {p n : Nat} {above names : List CString} (chain : Chain v p above)
    (down : descend v (some p) names = some (some n)) : Chain v n (above ++ names) := by
  induction names generalizing p above with
  | nil =>
      obtain rfl : p = n := Option.some.inj (Option.some.inj down)
      rw [List.append_nil]
      exact chain
  | cons name rest ih =>
      obtain ⟨first,made⟩ := chainMade h chain
      rw [descend] at down
      split at down
      · cases down
      · rw [dirLookupFinds h first made,Option.bind_some] at down
        cases found : (kids p).find? (fun d => (v.inodes d).name = name) with
        | none =>
            rw [found,descendNone] at down
            cases down
        | some c =>
            rw [found] at down
            obtain ⟨kid,same⟩ := (findKid h).mp found
            have next := Chain.child chain ((h.parents p c).mp kid)
            rw [same] at next
            have whole := ih next down
            rw [List.append_assoc,List.singleton_append] at whole
            exact whole

theorem descendReturns {p : Nat} (first : 1 ≤ p) (made : p < v.nextIno) (names : List CString) :
    ∃ r, descend v (some p) names = some r := by
  induction names generalizing p with
  | nil => exact ⟨_,rfl⟩
  | cons name rest ih =>
      rw [descend]
      split
      · exact ⟨_,rfl⟩
      · rw [dirLookupFinds h first made,Option.bind_some]
        cases found : (kids p).find? (fun d => (v.inodes d).name = name) with
        | none => exact ⟨_,descendNone v rest⟩
        | some c =>
            obtain ⟨first,made⟩ := kidMade h ((findKid h).mp found).1
            exact ih first made

end Tree

theorem allocOther (L : Links Node) {n : Nat} {x : Node} (head : x ≠ .children n) (node : x ≠ .sibling n) :
    (init (init L (.children n)) (.sibling n)).next x = L.next x ∧
      (init (init L (.children n)) (.sibling n)).prev x = L.prev x := by
  have first := initOther L head
  have second := initOther (init L (.children n)) node
  exact ⟨second.1.trans first.1,second.2.trans first.2⟩

theorem allocRing (L : Links Node) (n : Nat) : Ring (init (init L (.children n)) (.sibling n)) (.children n) [] := by
  refine ringFrame (fun x mem => ?_) (initRing L (.children n))
  rw [List.mem_singleton.mp mem]
  exact initOther _ (by simp)

theorem startOther {n : Nat} (other : n ≠ 1) : start.inodes n = blank :=
  (Function.update_of_ne other _ _).trans (Function.update_of_ne other _ _)

theorem startInv : Inv start (fun _ => []) where
  root := rfl
  count := by decide
  top := ⟨rfl,rfl⟩
  unmade := fun n out => by
    have other : n ≠ 1 := by
      rintro rfl
      exact absurd out (by decide)
    exact startOther other
  rings := fun p first made => by
    have same : p = 1 := Nat.le_antisymm (Nat.le_of_lt_succ made) first
    rw [same]
    exact allocRing _ 1
  parents := fun p c => by
    have none : (start.inodes c).parent = none := by
      by_cases same : c = 1
      · rw [same]
        rfl
      · rw [startOther same]
        rfl
    rw [none]
    exact iff_of_false List.not_mem_nil (Option.some_ne_none p).symm
  younger := fun _ _ kid => absurd kid List.not_mem_nil
  placed := fun c two made => absurd made (Nat.not_lt.mpr two)
  dirs := fun _ _ kid => absurd kid List.not_mem_nil
  good := fun _ _ kid => absurd kid List.not_mem_nil
  distinct := fun _ _ _ kid => absurd kid List.not_mem_nil

def added (v : Vfs) (p : Nat) (name : CString) (type : InodeType) (ops : Ops) : Vfs :=
  {v with
    inodes := update v.inodes v.nextIno ⟨⟨ops,0,none,0,0⟩,type,some p,name⟩
    nextIno := v.nextIno + 1
    links := addTail (init (init v.links (.children v.nextIno)) (.sibling v.nextIno)) (.sibling v.nextIno)
      (.children p)}

theorem makeCases (v : Vfs) (p : Nat) {name : CString} (short : name.length ≤ 63) (type : InodeType) (ops : Ops) :
    (make v (some p) name type ops).1 = v ∨
      (v.nextIno < maxInodes ∧ (make v (some p) name type ops).1 = added v p name type ops) := by
  unfold make inodeAlloc
  by_cases full : maxInodes ≤ v.nextIno
  · rw [if_pos full]
    exact .inl rfl
  · rw [if_neg full]
    refine .inr ⟨Nat.lt_of_not_le full,?_⟩
    simp only [dirAdd,added,Function.update_self,Function.update_idem,List.take_of_length_le short]

theorem addedKids {v : Vfs} {kids : Nat → List Nat} {p q c : Nat} :
    c ∈ update kids p (kids p ++ [v.nextIno]) q ↔ c ∈ kids q ∨ (q = p ∧ c = v.nextIno) := by
  by_cases same : q = p
  · subst same
    rw [Function.update_self,List.mem_append,List.mem_singleton]
    simp
  · rw [Function.update_of_ne same]
    simp [same]

theorem addedOld (v : Vfs) (p : Nat) (name : CString) (type : InodeType) (ops : Ops) {c : Nat} (old : c ≠ v.nextIno) :
    (added v p name type ops).inodes c = v.inodes c := Function.update_of_ne old _ _

theorem addedNew (v : Vfs) (p : Nat) (name : CString) (type : InodeType) (ops : Ops) :
    (added v p name type ops).inodes v.nextIno = ⟨⟨ops,0,none,0,0⟩,type,some p,name⟩ := Function.update_self _ _ _

section Added
variable {v : Vfs} {kids : Nat → List Nat} (h : Inv v kids)
include h

theorem kidOld {q c : Nat} (kid : c ∈ kids q) : q ≠ v.nextIno ∧ c ≠ v.nextIno :=
  ⟨Nat.ne_of_lt (dirMade h (h.dirs q c kid)).2,Nat.ne_of_lt (kidMade h kid).2⟩

theorem nodesOld {q : Nat} (made : q < v.nextIno) {x : Node} (mem : x ∈ Node.children q :: (kids q).map .sibling) :
    x ≠ .children v.nextIno ∧ x ≠ .sibling v.nextIno := by
  rcases List.mem_cons.mp mem with rfl | inside
  · exact ⟨by simpa using Nat.ne_of_lt made,by simp⟩
  · obtain ⟨c,kid,rfl⟩ := List.mem_map.mp inside
    exact ⟨by simp,by simpa using (kidOld h kid).2⟩

theorem nodesApart {p q : Nat} (other : q ≠ p) {x : Node} (mem : x ∈ Node.children q :: (kids q).map .sibling) :
    x ∉ Node.children p :: (kids p).map .sibling := by
  intro both
  rcases List.mem_cons.mp mem with rfl | inside
  · simp [other] at both
  · obtain ⟨c,kid,rfl⟩ := List.mem_map.mp inside
    have again : c ∈ kids p := by simpa using both
    have parent := ((h.parents q c).mp kid).symm.trans ((h.parents p c).mp again)
    exact other (Option.some.inj parent)

variable {p : Nat} {name : CString} (valid : Addable v p name) (type : InodeType) (ops : Ops)
include valid

theorem addedRings {q : Nat} (first : 1 ≤ q) (made : q < v.nextIno + 1) :
    Ring (added v p name type ops).links (.children q) ((update kids p (kids p ++ [v.nextIno]) q).map .sibling) := by
  obtain ⟨dirFirst,dirLast⟩ := dirMade h valid.1
  have old {q : Nat} (first : 1 ≤ q) (made : q < v.nextIno) :
      Ring (init (init v.links (.children v.nextIno)) (.sibling v.nextIno)) (.children q)
        ((kids q).map .sibling) := by
    refine ringFrame (fun x mem => ?_) (h.rings q first made)
    obtain ⟨head,node⟩ := nodesOld h made mem
    exact allocOther v.links head node
  have parent := old dirFirst dirLast
  by_cases here : q = p
  · subst here
    rw [Function.update_self,List.map_append]
    exact addTailRing parent (fun mem => (nodesOld h dirLast mem).2 rfl)
  · rw [Function.update_of_ne here]
    by_cases new : q = v.nextIno
    · -- the new inode's own ring is empty, and the addition below `p` does not touch it
      have none : kids q = [] :=
        List.eq_nil_iff_forall_not_mem.mpr (fun c kid => (kidOld h kid).1 new)
      rw [none,new]
      refine ringFrame (fun x mem => ?_) (allocRing v.links v.nextIno)
      rw [List.mem_singleton.mp mem]
      exact addTailOther parent (by simp) (fun mem => (nodesOld h dirLast mem).1 rfl)
    · have made : q < v.nextIno := by omega
      refine ringFrame (fun x mem => ?_) (old first made)
      exact addTailOther parent (nodesOld h made mem).2 (nodesApart h here mem)

theorem addedInv (room : v.nextIno < maxInodes) :
    Inv (added v p name type ops) (update kids p (kids p ++ [v.nextIno])) where
  root := h.root
  count := ⟨Nat.le_succ_of_le h.count.1,room⟩
  top := by
    have count := h.count
    rw [addedOld v p name type ops (by omega)]
    exact h.top
  unmade := fun n out => by
    have count := h.count
    have later : n = 0 ∨ v.nextIno + 1 ≤ n := out
    rw [addedOld v p name type ops (by omega)]
    exact h.unmade n (by omega)
  rings := fun q first made => addedRings h valid type ops first made
  parents := fun q c => by
    rw [addedKids]
    by_cases new : c = v.nextIno
    · subst new
      rw [addedNew]
      constructor
      · rintro (kid | ⟨rfl,_⟩)
        · exact absurd rfl (kidOld h kid).2
        · rfl
      · intro same
        exact .inr ⟨(Option.some.inj same).symm,rfl⟩
    · rw [addedOld v p name type ops new,← h.parents]
      exact ⟨fun kid => kid.resolve_right (fun last => new last.2),.inl⟩
  younger := fun q c kid => by
    rcases addedKids.mp kid with old | ⟨rfl,rfl⟩
    · exact h.younger q c old
    · exact (dirMade h valid.1).2
  placed := fun c two made => by
    by_cases new : c = v.nextIno
    · exact ⟨p,addedKids.mpr (.inr ⟨rfl,new⟩)⟩
    · have old : c < v.nextIno := Nat.lt_of_le_of_ne (Nat.le_of_lt_succ made) new
      obtain ⟨q,kid⟩ := h.placed c two old
      exact ⟨q,addedKids.mpr (.inl kid)⟩
  dirs := fun q c kid => by
    rcases addedKids.mp kid with old | ⟨rfl,rfl⟩
    · rw [addedOld v p name type ops (kidOld h old).1]
      exact h.dirs q c old
    · rw [addedOld v q name type ops (Nat.ne_of_lt (dirMade h valid.1).2)]
      exact valid.1
  good := fun q c kid => by
    rcases addedKids.mp kid with old | ⟨rfl,rfl⟩
    · rw [addedOld v p name type ops (kidOld h old).2]
      exact h.good q c old
    · rw [addedNew]
      exact valid.2.1
  distinct := fun q c d kid kid' same => by
    have fresh {c : Nat} (kid : c ∈ kids p) : (v.inodes c).name ≠ name :=
      valid.2.2 c (kidMade h kid).2 ((h.parents p c).mp kid)
    rcases addedKids.mp kid with old | ⟨rfl,rfl⟩
    · rw [addedOld v p name type ops (kidOld h old).2] at same
      rcases addedKids.mp kid' with old' | ⟨rfl,rfl⟩
      · rw [addedOld v p name type ops (kidOld h old').2] at same
        exact h.distinct q c d old old' same
      · rw [addedNew] at same
        exact absurd same (fresh old)
    · rw [addedNew] at same
      rcases addedKids.mp kid' with old' | ⟨_,rfl⟩
      · rw [addedOld v q name type ops (kidOld h old').2] at same
        exact absurd same.symm (fresh old')
      · rfl

theorem makeInv : ∃ kids', Inv (make v (some p) name type ops).1 kids' := by
  rcases makeCases v p valid.2.1.short type ops with full | ⟨room,done⟩
  · rw [full]
    exact ⟨kids,h⟩
  · rw [done]
    exact ⟨_,addedInv h valid type ops room⟩

end Added

theorem deviceInv {v : Vfs} {kids : Nat → List Nat} (h : Inv v kids) {n : Nat}
    (file : (v.inodes n).type = .file) :
    Inv {v with inodes := update v.inodes n {v.inodes n with type := .char}} kids := by
  have place (c : Nat) : (update v.inodes n {v.inodes n with type := .char} c).parent = (v.inodes c).parent ∧
      (update v.inodes n {v.inodes n with type := .char} c).name = (v.inodes c).name := by
    by_cases same : c = n
    · subst same
      rw [Function.update_self]
      exact ⟨rfl,rfl⟩
    · rw [Function.update_of_ne same]
      exact ⟨rfl,rfl⟩
  have dir {p : Nat} (dir : (v.inodes p).type = .dir) :
      (update v.inodes n {v.inodes n with type := .char} p).type = .dir := by
    rw [Function.update_of_ne]
    · exact dir
    · rintro rfl
      rw [file] at dir
      cases dir
  refine ⟨h.root,h.count,⟨?_,dir h.top.2⟩,fun c out => ?_,h.rings,fun p c => ?_,h.younger,h.placed,?_,?_,?_⟩
  · exact (place 1).1.trans h.top.1
  · have blank := h.unmade c out
    dsimp only
    rw [Function.update_of_ne,blank]
    rintro rfl
    rw [blank] at file
    cases file
  · dsimp only
    rw [(place c).1]
    exact h.parents p c
  · exact fun p c kid => dir (h.dirs p c kid)
  · intro p c kid
    dsimp only
    rw [(place c).2]
    exact h.good p c kid
  · intro p c d kid kid' same
    dsimp only at same
    rw [(place c).2,(place d).2] at same
    exact h.distinct p c d kid kid' same

theorem stepInv {v v' : Vfs} {e : Event} (h : ∃ kids, Inv v kids) (valid : Valid v e) (next : step v e = some v') :
    ∃ kids, Inv v' kids := by
  obtain ⟨kids,h⟩ := h
  cases e with
  | mkdirNode parent name =>
      cases Option.some.inj next
      exact makeInv h valid .dir .absent
  | mkfile parent name ops =>
      cases Option.some.inj next
      exact makeInv h valid .file ops
  | device n =>
      cases Option.some.inj next
      exact ⟨kids,deviceInv h valid⟩

def Unwritten (x : Inode) : Prop := x.toInode = ⟨x.ops,0,none,0,0⟩

theorem updateUnwritten {inodes : Nat → Inode} {k : Nat} {x : Inode} (all : ∀ n, Unwritten (inodes n))
    (one : Unwritten x) (n : Nat) : Unwritten (update inodes k x n) := by
  rw [Function.update_apply]
  split
  · exact one
  · exact all n

theorem makeUnwritten {v : Vfs} (all : ∀ n, Unwritten (v.inodes n)) (p : Nat) (name : CString) (type : InodeType)
    (ops : Ops) : ∀ n, Unwritten ((make v (some p) name type ops).1.inodes n) := by
  unfold make inodeAlloc
  by_cases full : maxInodes ≤ v.nextIno
  · rw [if_pos full]
    exact all
  · rw [if_neg full]
    have made : ∀ n, Unwritten (update v.inodes v.nextIno ⟨⟨ops,0,none,0,0⟩,type,none,name.take 63⟩ n) :=
      updateUnwritten all rfl
    simp only [Function.update_self,Function.update_idem]
    exact updateUnwritten made (made v.nextIno)

/- The table that is built is the one the runs on its files start from. -/
theorem builtFiles {events : List Event} {v : Vfs} (ran : run step start events = some v) :
    (fun n => (v.inodes n).toInode) = (Ramfs.start fun n => (v.inodes n).ops).inodes := by
  refine funext (runInvariant (fun v => ∀ n, Unwritten (v.inodes n)) ?_ ?_ ran)
  · intro v e v' all next
    cases e with
    | mkdirNode parent name => cases next; exact makeUnwritten all parent name .dir .absent
    | mkfile parent name ops => cases next; exact makeUnwritten all parent name .file ops
    | device n => cases next; exact updateUnwritten all (all n)
  · exact updateUnwritten (updateUnwritten (fun _ => rfl) rfl) rfl

theorem lookupPath (v : Vfs) {path : CString} (more : path ≠ []) :
    vfsLookup v (slash :: path) = descend v v.root (components slash path) := by
  rw [vfsLookup,if_neg (fun other => other rfl),if_neg more]
  exact lookupDescends v more (Nat.le_refl _)

theorem lookupRoot (v : Vfs) : vfsLookup v [slash] = some v.root := rfl

theorem lookupChain {v : Vfs} {kids : Nat → List Nat} (h : Inv v kids) {n : Nat} {names : List CString}
    (chain : Chain v n names) :
    vfsLookup v (slash :: join slash names) = some (some n) ∧
      (names ≠ [] → vfsLookup v (slash :: join slash names ++ [slash]) = some (some n)) := by
  have down := chainDown h chain
  by_cases top : names = []
  · subst top
    refine ⟨?_,fun named => absurd rfl named⟩
    exact (lookupRoot v).trans down
  · have proper := chainProper h chain
    obtain ⟨bare,slashed⟩ := Paths.componentsJoin top proper
    have more := Paths.joinNonempty top proper
    refine ⟨?_,fun _ => ?_⟩
    · rw [lookupPath v more,bare,down]
    · rw [List.cons_append,lookupPath v (List.append_ne_nil_of_left_ne_nil more _),slashed,down]

theorem lookupSound {v : Vfs} {kids : Nat → List Nat} (h : Inv v kids) (path : CString) :
    ∃ r, vfsLookup v (slash :: path) = some r ∧
      ∀ n, r = some n → v.root ≠ some n → Chain v n (components slash path) := by
  by_cases top : path = []
  · subst top
    exact ⟨v.root,lookupRoot v,fun n same other => absurd same other⟩
  · have count := h.count
    obtain ⟨r,down⟩ := descendReturns h (Nat.le_refl 1) (by omega) (components slash path)
    refine ⟨r,?_,fun n same _ => ?_⟩
    · rw [lookupPath v top,h.root,down]
    · rw [same] at down
      exact downChain h (Chain.root h.root) down

theorem lookupInvertsPaths {events : List Event} {v : Vfs} (valid : Guarded step Valid start events)
    (ran : run step start events = some v) :
    (∀ n, 1 ≤ n → n < v.nextIno → ∃ names, Chain v n names) ∧
    (∀ n names, Chain v n names →
      vfsLookup v (slash :: join slash names) = some (some n) ∧
      (names ≠ [] → vfsLookup v (slash :: join slash names ++ [slash]) = some (some n))) ∧
    ∀ path, ∃ r, vfsLookup v (slash :: path) = some r ∧
      ∀ n, r = some n → v.root ≠ some n → Chain v n (components slash path) := by
  obtain ⟨kids,h⟩ : ∃ kids, Inv v kids :=
    guardedInvariant (fun v => ∃ kids, Inv v kids) (fun _ _ _ inv valid next => stepInv inv valid next)
      ⟨_,startInv⟩ valid ran
  exact ⟨fun n first made => chainExists h first made,fun n names chain => lookupChain h chain,lookupSound h⟩

def cstring (text : String) : CString :=
  text.toList.filterMap fun c => if nonzero : BitVec.ofNat 8 c.toNat ≠ 0 then some ⟨_,nonzero⟩ else none

def vfsInit : List Event :=
  [.mkdirNode 1 (cstring "dev"),.mkfile 2 (cstring "neri") (.device true false),.device 3,
    .mkfile 2 (cstring "null") (.device true true),.device 4,.mkfile 2 (cstring "zero") (.device true true),.device 5,
    .mkfile 2 (cstring "tty0") (.device false true),.device 6,.mkdirNode 1 (cstring "proc"),
    .mkdirNode 7 (cstring "neri"),.mkfile 8 (cstring "status") (.device true false),
    .mkdirNode 7 (cstring "cortexcrypto"),.mkfile 10 (cstring "machine_id") (.device true false)]

theorem goodNameIff (name : CString) : name ≠ [] ∧ slash ∉ name ∧ name.length ≤ 63 ↔ GoodName name :=
  ⟨fun ⟨named,plain,short⟩ => ⟨⟨named,plain⟩,short⟩,fun good => ⟨good.proper.named,good.proper.plain,good.short⟩⟩

instance (name : CString) : Decidable (GoodName name) := decidable_of_iff _ (goodNameIff name)

instance (v : Vfs) (parent : Nat) (name : CString) : Decidable (Addable v parent name) := by
  unfold Addable; infer_instance

instance (v : Vfs) : (e : Event) → Decidable (Valid v e)
  | .mkdirNode parent name => inferInstanceAs (Decidable (Addable v parent name))
  | .mkfile parent name _ => inferInstanceAs (Decidable (Addable v parent name))
  | .device n => inferInstanceAs (Decidable ((v.inodes n).type = .file))

example : (run step start vfsInit).map (fun v => (vfsLookup v (cstring "/proc/neri/status"),
    vfsLookup v (cstring "/dev/"),vfsLookup v (cstring "/dev//null"),vfsLookup v (cstring "/dev/null/x"))) =
      some (some (some 9),some (some 2),some none,some none) := by decide +kernel

theorem lookupInvertsStatus : ∃ v names, run step start vfsInit = some v ∧ Chain v 9 names ∧
    vfsLookup v (slash :: join slash names) = some (some 9) := by
  have facts : (run step start vfsInit).map (fun v => v.nextIno) = some 12 := by decide +kernel
  obtain ⟨v,ran,count⟩ := Option.map_eq_some_iff.mp facts
  obtain ⟨chains,lookups,_⟩ := lookupInvertsPaths (by decide +kernel) ran
  obtain ⟨names,chain⟩ := chains 9 (by decide) (by rw [count]; decide)
  exact ⟨v,names,ran,chain,(lookups 9 names chain).1⟩

end Nekros.VfsTree
