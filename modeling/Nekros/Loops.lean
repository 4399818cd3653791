import Mathlib.Data.Nat.Basic
import Mathlib.Logic.Function.Iterate

/-! Counted loops and conditional loops of a language with mutable state. A
conditional loop takes fuel: `none` is a loop that is still going when the fuel
is used up, so an answer is always the answer of the unbounded loop. -/
namespace Nekros.Loops

variable {State Other : Type}

def upTo : Nat → (Nat → State → State) → State → State
  | 0,_,s => s
  | n+1,body,s => body n (upTo n body s)

def whileLoop (going : State → Bool) (body : State → State) : Nat → State → Option State
  | 0,s => if going s then none else some s
  | fuel+1,s => if going s then whileLoop going body fuel (body s) else some s

theorem upToInvariant (body : Nat → State → State) (inv : Nat → State → Prop) {s : State}
    (start : inv 0 s) {n : Nat} (keeps : ∀ i s, i < n → inv i s → inv (i+1) (body i s)) :
    inv n (upTo n body s) := by
  induction n with
  | zero => exact start
  | succ n ih =>
      have before := ih (fun i s lt => keeps i s (Nat.lt_succ_of_lt lt))
      exact keeps n _ (Nat.lt_succ_self n) before

theorem upToRelated (body : Nat → State → State) (other : Nat → Other → Other)
    (related : State → Other → Prop) {s : State} {t : Other} (start : related s t) {n : Nat}
    (keeps : ∀ i s t, i < n → related s t → related (body i s) (other i t)) :
    related (upTo n body s) (upTo n other t) := by
  induction n with
  | zero => exact start
  | succ n ih =>
      have before := ih (fun i s t lt => keeps i s t (Nat.lt_succ_of_lt lt))
      exact keeps n _ _ (Nat.lt_succ_self n) before

theorem upToCongr {body other : Nat → State → State} {n : Nat} (s : State)
    (same : ∀ i s, i < n → body i s = other i s) : upTo n body s = upTo n other s :=
  upToRelated body other (fun a b => a = b) rfl (fun i a b lt eq => by rw [eq,same i b lt])

theorem whileEnds (going : State → Bool) (body : State → State) (inv : State → Prop)
    (measure : State → Nat)
    (keeps : ∀ s, inv s → going s = true → inv (body s) ∧ measure (body s) < measure s)
    {fuel : Nat} {s : State} (start : inv s) (enough : measure s ≤ fuel) :
    ∃ t, whileLoop going body fuel s = some t ∧ inv t ∧ going t = false := by
  induction fuel generalizing s with
  | zero =>
      cases stop : going s with
      | false => exact ⟨s,by simp only [whileLoop,stop]; rfl,start,stop⟩
      | true =>
          have less := (keeps s start stop).2
          omega
  | succ fuel ih =>
      cases stop : going s with
      | false => exact ⟨s,by simp only [whileLoop,stop]; rfl,start,stop⟩
      | true =>
          have next := keeps s start stop
          obtain ⟨t,ran,held,ended⟩ := ih next.1 (by omega)
          exact ⟨t,by simp only [whileLoop,stop]; exact ran,held,ended⟩

theorem whileNever (going : State → Bool) (body : State → State) (inv : State → Prop)
    (keeps : ∀ s, inv s → going s = true ∧ inv (body s)) (fuel : Nat) {s : State} (start : inv s) :
    whileLoop going body fuel s = none := by
  induction fuel generalizing s with
  | zero => rw [whileLoop,if_pos (keeps s start).1]
  | succ fuel ih => rw [whileLoop,if_pos (keeps s start).1,ih (keeps s start).2]

theorem iterateSettles (body : State → State) (inv : State → Prop) (measure : State → Nat)
    (keeps : ∀ s, inv s → inv (body s) ∧ (body s = s ∨ measure (body s) < measure s)) {s : State} (start : inv s) :
    ∃ n, inv (body^[n] s) ∧ ∀ k, n ≤ k → body^[k] s = body^[n] s := by
  have bounded (bound : Nat) : ∀ s, inv s → measure s < bound →
      ∃ n, inv (body^[n] s) ∧ body (body^[n] s) = body^[n] s := by
    induction bound with
    | zero => exact fun s _ less => absurd less (Nat.not_lt_zero _)
    | succ bound ih =>
        intro s held less
        obtain ⟨next,still | falls⟩ := keeps s held
        · exact ⟨0,held,still⟩
        · obtain ⟨n,settled⟩ := ih (body s) next (by omega)
          exact ⟨n+1,settled⟩
  obtain ⟨n,held,still⟩ := bounded (measure s + 1) s start (Nat.lt_succ_self _)
  refine ⟨n,held,fun k le => ?_⟩
  obtain ⟨more,rfl⟩ := Nat.exists_eq_add_of_le' le
  rw [Function.iterate_add_apply]
  exact Function.iterate_fixed still more

end Nekros.Loops
