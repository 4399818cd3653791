import Mathlib.Logic.Function.Basic
import Mathlib.Data.List.Nodup

/-! Null-terminated doubly linked lists inside a word memory. The node at address
`p` keeps its `next` word at `p` and its `prev` word at `p + 8`; the list is known
only by its head word. Nodes are multiples of 16, so that the two words of one
node are never words of another. -/
namespace Nekros.LinkChain
open Function (update)

def push (m : Nat → Nat) (head p : Nat) : (Nat → Nat) × Nat :=
  let m := update (update m p head) (p+8) 0
  (if head ≠ 0 then update m (head+8) p else m,p)

def pop (m : Nat → Nat) (head : Nat) : (Nat → Nat) × Nat :=
  (if m head ≠ 0 then update m (m head + 8) 0 else m,m head)

def unlink (m : Nat → Nat) (head p : Nat) : (Nat → Nat) × Nat :=
  let linked := if m (p+8) ≠ 0 then (update m (m (p+8)) (m p),head) else (m,m p)
  (if linked.1 p ≠ 0 then update linked.1 (linked.1 p + 8) (linked.1 (p+8)) else linked.1,linked.2)

def Chain (m : Nat → Nat) : (before head : Nat) → List Nat → Prop
  | _,head,[] => head = 0
  | before,head,p::rest => head = p ∧ p ≠ 0 ∧ m (p+8) = before ∧ Chain m p (m p) rest

def Nodes (l : List Nat) : Prop := l.Nodup ∧ ∀ p ∈ l, p % 16 = 0

def node (m : Nat → Nat) (head : Nat) : Nat → Option Nat
  | 0 => if head = 0 then none else some head
  | n+1 => if head = 0 then none else node m (m head) n

def Length (m : Nat → Nat) : (head n : Nat) → Prop
  | head,0 => head = 0
  | head,n+1 => head ≠ 0 ∧ Length m (m head) n

theorem nodesTail {p : Nat} {l : List Nat} (h : Nodes (p::l)) : Nodes l :=
  ⟨(List.nodup_cons.mp h.1).2,fun q hq => h.2 q (List.mem_cons_of_mem _ hq)⟩

theorem chainNode {m : Nat → Nat} {before head : Nat} {l : List Nat}
    (h : Chain m before head l) (n : Nat) : node m head n = l[n]? := by
  induction l generalizing before head n with
  | nil => cases n <;> simp [node,show head = 0 from h]
  | cons p rest ih =>
      obtain ⟨rfl,nonzero,_,tail⟩ := h
      cases n with
      | zero => simp [node,nonzero]
      | succ n => simpa [node,nonzero] using ih tail n

theorem nodeLast {m : Nat → Nat} {head p n : Nat} (last : m head = 0) (found : node m head n = some p) :
    head ≠ 0 ∧ p = head := by
  cases n with
  | zero =>
      rw [node] at found
      split at found
      · cases found
      · rename_i nonzero
        exact ⟨nonzero,(Option.some.inj found).symm⟩
  | succ n =>
      rw [node,last] at found
      cases n <;> simp [node] at found

theorem chainLength {m : Nat → Nat} {before head : Nat} {l : List Nat} (h : Chain m before head l) :
    Length m head l.length := by
  induction l generalizing before head with
  | nil => exact h
  | cons p rest ih =>
      obtain ⟨rfl,nonzero,_,tail⟩ := h
      exact ⟨nonzero,ih tail⟩

theorem chainNonzero {m : Nat → Nat} {before head : Nat} {l : List Nat}
    (h : Chain m before head l) : ∀ p ∈ l, p ≠ 0 := by
  induction l generalizing before head with
  | nil => simp
  | cons p rest ih =>
      obtain ⟨_,nonzero,_,tail⟩ := h
      intro q hq
      rcases List.mem_cons.mp hq with rfl | inside
      · exact nonzero
      · exact ih tail q inside

theorem chainHead {m : Nat → Nat} {before head : Nat} {l : List Nat}
    (h : Chain m before head l) (nonzero : head ≠ 0) : ∃ rest, l = head::rest := by
  cases l with
  | nil => exact absurd h nonzero
  | cons p rest => exact ⟨rest,by rw [h.1]⟩

/- Frame rule: a chain depends on the words of its own nodes only. -/
theorem chainFrame {m m' : Nat → Nat} {before head : Nat} {l : List Nat}
    (same : ∀ p ∈ l, m' p = m p ∧ m' (p+8) = m (p+8)) (h : Chain m before head l) :
    Chain m' before head l := by
  induction l generalizing before head with
  | nil => exact h
  | cons p rest ih =>
      obtain ⟨hp,nonzero,prev,tail⟩ := h
      have own := same p List.mem_cons_self
      refine ⟨hp,nonzero,own.2.trans prev,?_⟩
      rw [own.1]
      exact ih (fun q hq => same q (List.mem_cons_of_mem _ hq)) tail

theorem chainRebase {m : Nat → Nat} {before head : Nat} {l : List Nat} (fresh : Nat)
    (nodes : Nodes l) (h : Chain m before head l) :
    Chain (if head ≠ 0 then update m (head+8) fresh else m) fresh head l := by
  cases l with
  | nil => exact h
  | cons p rest =>
      obtain ⟨rfl,nonzero,_,tail⟩ := h
      rw [if_pos nonzero]
      have aligned := nodes.2 head List.mem_cons_self
      have self : update m (head+8) fresh head = m head := Function.update_of_ne (by omega) _ _
      refine ⟨rfl,nonzero,Function.update_self _ _ _,?_⟩
      rw [self]
      refine chainFrame (fun q hq => ?_) tail
      have qa := nodes.2 q (List.mem_cons_of_mem _ hq)
      have different : q ≠ head := fun e => (List.nodup_cons.mp nodes.1).1 (e ▸ hq)
      exact ⟨Function.update_of_ne (by omega) _ _,Function.update_of_ne (by omega) _ _⟩

theorem pushChain {m : Nat → Nat} {head p : Nat} {l : List Nat} (nonzero : p ≠ 0)
    (nodes : Nodes (p::l)) (h : Chain m 0 head l) :
    Chain (push m head p).1 0 (push m head p).2 (p::l) := by
  have fresh : ∀ q ∈ l, q ≠ p := fun q hq e => (List.nodup_cons.mp nodes.1).1 (e ▸ hq)
  have pa := nodes.2 p List.mem_cons_self
  have framed : Chain (update (update m p head) (p+8) 0) 0 head l := by
    refine chainFrame (fun q hq => ?_) h
    have qa := nodes.2 q (List.mem_cons_of_mem _ hq)
    have different := fresh q hq
    constructor <;> rw [Function.update_of_ne (by omega),Function.update_of_ne (by omega)]
  have based := chainRebase p (nodesTail nodes) framed
  -- the old head is a node other than p, so rewriting its prev word leaves p's two words alone
  have keep : ∀ a, (a = p ∨ a = p+8) → (push m head p).1 a = update (update m p head) (p+8) 0 a := by
    intro a ha
    unfold push
    split
    · rename_i hn
      obtain ⟨rest,rfl⟩ := chainHead h hn
      have ha' := nodes.2 head (by simp)
      have different := fresh head List.mem_cons_self
      exact Function.update_of_ne (by omega) _ _
    · rfl
  refine ⟨rfl,nonzero,?_,?_⟩
  · rw [keep _ (.inr rfl)]
    exact Function.update_self _ _ _
  · have next : (push m head p).1 p = head := by
      rw [keep _ (.inl rfl),Function.update_of_ne (by omega),Function.update_self]
    rw [next]
    exact based

theorem popChain {m : Nat → Nat} {head : Nat} {l : List Nat} (nodes : Nodes (head::l))
    (h : Chain m 0 head (head::l)) : Chain (pop m head).1 0 (pop m head).2 l :=
  chainRebase 0 (nodesTail nodes) h.2.2.2

theorem prevMember {m : Nat → Nat} {before head p : Nat} {l : List Nat} (nodup : l.Nodup)
    (h : Chain m before head l) (mem : p ∈ l) :
    (p = head ∧ m (p+8) = before) ∨ (p ≠ head ∧ m (p+8) ∈ l ∧ m (p+8) ≠ p) := by
  induction l generalizing before head with
  | nil => simp at mem
  | cons q rest ih =>
      obtain ⟨rfl,_,prev,tail⟩ := h
      obtain ⟨fresh,nodup⟩ := List.nodup_cons.mp nodup
      rcases List.mem_cons.mp mem with rfl | inside
      · exact .inl ⟨rfl,prev⟩
      · have different : p ≠ head := fun e => fresh (e ▸ inside)
        rcases ih nodup tail inside with ⟨_,same⟩ | ⟨_,later,away⟩
        · exact .inr ⟨different,by rw [same]; exact List.mem_cons_self,by rw [same]; exact different.symm⟩
        · exact .inr ⟨different,List.mem_cons_of_mem _ later,away⟩

theorem nextMember {m : Nat → Nat} {before head p : Nat} {l : List Nat}
    (h : Chain m before head l) (mem : p ∈ l) (nonzero : m p ≠ 0) : m p ∈ l := by
  induction l generalizing before head with
  | nil => simp at mem
  | cons q rest ih =>
      obtain ⟨rfl,_,_,tail⟩ := h
      rcases List.mem_cons.mp mem with rfl | inside
      · obtain ⟨_,rfl⟩ := chainHead tail nonzero
        simp
      · exact List.mem_cons_of_mem _ (ih tail inside)

def bypass (m : Nat → Nat) (prev next : Nat) : Nat → Nat :=
  let m := if prev ≠ 0 then update m prev next else m
  if next ≠ 0 then update m (next+8) prev else m

theorem bypassNext {m : Nat → Nat} {prev next q : Nat} (aligned : q % 16 = 0)
    (na : next % 16 = 0) : bypass m prev next q = if q = prev ∧ prev ≠ 0 then next else m q := by
  unfold bypass
  have away : q ≠ next+8 := by omega
  by_cases hp : prev = 0 <;> by_cases hn : next = 0 <;>
    by_cases hq : q = prev <;> simp [hp,hn,hq,Function.update_apply] <;> omega

theorem bypassPrev {m : Nat → Nat} {prev next q : Nat} (aligned : q % 16 = 0)
    (pa : prev % 16 = 0) :
    bypass m prev next (q+8) = if q = next ∧ next ≠ 0 then prev else m (q+8) := by
  unfold bypass
  have away : q+8 ≠ prev := by omega
  by_cases hp : prev = 0 <;> by_cases hn : next = 0 <;>
    by_cases hq : q = next <;> simp [hp,hn,hq,Function.update_apply] <;> omega

theorem nextAligned {m : Nat → Nat} {before head p : Nat} {l : List Nat} (nodes : Nodes l)
    (h : Chain m before head l) (mem : p ∈ l) : m p % 16 = 0 := by
  by_cases zero : m p = 0
  · omega
  · exact nodes.2 _ (nextMember h mem zero)

theorem bypassChain {m : Nat → Nat} {before head p : Nat} {l : List Nat}
    (ba : before % 16 = 0) (outside : before ∉ l) (nodes : Nodes l)
    (h : Chain m before head l) (mem : p ∈ l) :
    Chain (bypass m (m (p+8)) (m p)) before (if p = head then m p else head) (l.erase p) := by
  induction l generalizing before head with
  | nil => simp at mem
  | cons q rest ih =>
      obtain ⟨rfl,nonzero,prev,tail⟩ := h
      have qa := nodes.2 head List.mem_cons_self
      have na := nextAligned nodes ⟨rfl,nonzero,prev,tail⟩ mem
      have apartHead := (List.nodup_cons.mp nodes.1).1
      rcases List.mem_cons.mp mem with rfl | inside
      · rw [if_pos rfl,List.erase_cons_head,prev]
        have framed : Chain (if before ≠ 0 then update m before (m p) else m) p (m p) rest := by
          refine chainFrame (fun x hx => ?_) tail
          have xa := nodes.2 x (List.mem_cons_of_mem _ hx)
          have different : x ≠ before := fun e => outside (e ▸ List.mem_cons_of_mem _ hx)
          split
          · exact ⟨Function.update_of_ne different _ _,Function.update_of_ne (by omega) _ _⟩
          · exact ⟨rfl,rfl⟩
        exact chainRebase before (nodesTail nodes) framed
      · have different : p ≠ head := fun e => apartHead (e ▸ inside)
        have next : m p ≠ head := fun e =>
          apartHead (e ▸ nextMember tail inside (by rw [e]; exact nonzero))
        rw [if_neg different,List.erase_cons_tail (by simpa using Ne.symm different)]
        have rest' := ih qa apartHead (nodesTail nodes) tail inside
        have pa : m (p+8) % 16 = 0 := by
          rcases prevMember (nodesTail nodes).1 tail inside with ⟨_,same⟩ | ⟨_,later,_⟩
          · omega
          · exact nodes.2 _ (List.mem_cons_of_mem _ later)
        have own : bypass m (m (p+8)) (m p) head = if p = m head then m p else m head := by
          rw [bypassNext qa na]
          rcases prevMember (nodesTail nodes).1 tail inside with ⟨first,same⟩ | ⟨deeper,later,_⟩
          · rw [same,if_pos ⟨rfl,nonzero⟩,if_pos first]
          · have away : head ≠ m (p+8) := fun e => apartHead (e ▸ later)
            rw [if_neg (fun e => away e.1),if_neg deeper]
        refine ⟨rfl,nonzero,?_,?_⟩
        · rw [bypassPrev qa pa,if_neg (fun e => next e.1.symm)]
          exact prev
        · rw [own]
          exact rest'

theorem unlinkBypass {m : Nat → Nat} {head p : Nat} {l : List Nat} (nodes : Nodes l)
    (h : Chain m 0 head l) (mem : p ∈ l) :
    unlink m head p = (bypass m (m (p+8)) (m p),if p = head then m p else head) := by
  have pa := nodes.2 p mem
  rcases prevMember nodes.1 h mem with ⟨first,zero⟩ | ⟨deeper,later,away⟩
  · simp only [unlink,bypass,zero,ne_eq,not_true_eq_false,if_false,if_pos first]
  · have nonzero := chainNonzero h _ later
    have la := nodes.2 _ later
    have keep : update m (m (p+8)) (m p) p = m p := Function.update_of_ne away.symm _ _
    have keep' : update m (m (p+8)) (m p) (p+8) = m (p+8) :=
      Function.update_of_ne (by omega) _ _
    simp only [unlink,bypass,if_pos nonzero,keep,keep',if_neg deeper]

theorem unlinkChain {m : Nat → Nat} {head p : Nat} {l : List Nat} (nodes : Nodes l)
    (h : Chain m 0 head l) (mem : p ∈ l) :
    Chain (unlink m head p).1 0 (unlink m head p).2 (l.erase p) := by
  rw [unlinkBypass nodes h mem]
  exact bypassChain (by decide) (fun z => chainNonzero h 0 z rfl) nodes h mem

def Changes (m m' : Nat → Nat) (l : List Nat) : Prop :=
  ∀ a, m' a ≠ m a → ∃ p ∈ l, a = p ∨ a = p+8

theorem changesApart {m m' : Nat → Nat} {l other : List Nat} {before head : Nat}
    (changes : Changes m m' l) (la : ∀ p ∈ l, p % 16 = 0) (oa : ∀ p ∈ other, p % 16 = 0)
    (apart : ∀ p ∈ l, p ∉ other) (h : Chain m before head other) : Chain m' before head other := by
  refine chainFrame (fun q hq => ?_) h
  have qa := oa q hq
  constructor <;> by_contra changed <;> obtain ⟨p,hp,same⟩ := changes _ changed <;>
    have pa := la p hp <;> have different : p ≠ q := (fun e => apart p hp (e ▸ hq)) <;> omega

theorem pushChanges {m : Nat → Nat} {head p : Nat} {l : List Nat} (h : Chain m 0 head l) :
    Changes m (push m head p).1 (p::l) := by
  intro a changed
  by_cases hp : a = p ∨ a = p+8
  · exact ⟨p,List.mem_cons_self,hp⟩
  · obtain ⟨away,away'⟩ := not_or.mp hp
    have plain : update (update m p head) (p+8) 0 a = m a := by
      rw [Function.update_of_ne away',Function.update_of_ne away]
    unfold push at changed
    split at changed
    · rename_i nonzero
      obtain ⟨rest,rfl⟩ := chainHead h nonzero
      refine ⟨head,by simp,.inr ?_⟩
      by_contra other
      exact changed ((Function.update_of_ne other _ _).trans plain)
    · exact absurd plain changed

theorem popChanges {m : Nat → Nat} {head : Nat} {l : List Nat} (h : Chain m 0 head (head::l)) :
    Changes m (pop m head).1 (head::l) := by
  intro a changed
  unfold pop at changed
  split at changed
  · rename_i nonzero
    refine ⟨m head,nextMember h List.mem_cons_self nonzero,.inr ?_⟩
    by_contra other
    exact changed (Function.update_of_ne other _ _)
  · exact absurd rfl changed

theorem unlinkChanges {m : Nat → Nat} {head p : Nat} {l : List Nat} (nodes : Nodes l)
    (h : Chain m 0 head l) (mem : p ∈ l) : Changes m (unlink m head p).1 l := by
  intro a changed
  rw [unlinkBypass nodes h mem] at changed
  simp only [bypass] at changed
  by_cases next : m p ≠ 0 ∧ a = m p + 8
  · exact ⟨m p,nextMember h mem next.1,.inr next.2⟩
  · by_cases prev : m (p+8) ≠ 0 ∧ a = m (p+8)
    · rcases prevMember nodes.1 h mem with ⟨_,zero⟩ | ⟨_,later,_⟩
      · exact absurd zero prev.1
      · exact ⟨_,later,.inl prev.2⟩
    · refine absurd ?_ changed
      split_ifs <;> simp_all [Function.update_apply]

end Nekros.LinkChain
