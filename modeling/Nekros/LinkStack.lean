import Mathlib.Logic.Function.Basic
import Mathlib.Data.List.Nodup

/-! Null-terminated singly linked lists inside a word memory. The node at address
`p` keeps the address of the next one in its word at `p`; the list is known only
by its head word. -/
namespace Nekros.LinkStack
open Function (update)

/- The nodes reached from `head`, in order. The relation ends at the null word, so
a chain that comes back to one of its own nodes is related to no list. -/
def Linked (m : Nat → Nat) : (head : Nat) → List Nat → Prop
  | head,[] => head = 0
  | head,p::rest => head = p ∧ p ≠ 0 ∧ Linked m (m p) rest

theorem linkedNext {m : Nat → Nat} {head : Nat} {l : List Nat} (h : Linked m head l) :
    ∀ p ∈ l, m p = 0 ∨ m p ∈ l := by
  induction l generalizing head with
  | nil => simp
  | cons p rest ih =>
      obtain ⟨_,_,tail⟩ := h
      intro q hq
      rcases List.mem_cons.mp hq with rfl | inside
      · cases rest with
        | nil => exact .inl tail
        | cons r more => exact .inr (by rw [tail.1]; simp)
      · exact (ih tail q inside).imp_right (List.mem_cons_of_mem _)

theorem linkedHead {m : Nat → Nat} {head : Nat} {l : List Nat} (h : Linked m head l)
    (nonzero : head ≠ 0) : ∃ rest, l = head::rest ∧ Linked m (m head) rest := by
  cases l with
  | nil => exact absurd h nonzero
  | cons p rest =>
      obtain ⟨rfl,_,tail⟩ := h
      exact ⟨rest,rfl,tail⟩

theorem linkedFrame {m m' : Nat → Nat} {head : Nat} {l : List Nat}
    (same : ∀ p ∈ l, m' p = m p) (h : Linked m head l) : Linked m' head l := by
  induction l generalizing head with
  | nil => exact h
  | cons p rest ih =>
      obtain ⟨at_p,nonzero,tail⟩ := h
      refine ⟨at_p,nonzero,?_⟩
      rw [same p (by simp)]
      exact ih (fun q hq => same q (List.mem_cons_of_mem _ hq)) tail

theorem linkedPush {m m' : Nat → Nat} {head p : Nat} {l : List Nat} (h : Linked m head l)
    (nonzero : p ≠ 0) (link : m' p = head) (same : ∀ q ∈ l, m' q = m q) :
    Linked m' p (p::l) := by
  refine ⟨rfl,nonzero,?_⟩
  rw [link]
  exact linkedFrame same h

end Nekros.LinkStack
