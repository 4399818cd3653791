import Mathlib.Data.List.TakeDrop
import Mathlib.Logic.Function.Basic

/-! A string that several files read and write, each from an offset of its own. A read gives the
symbols from the offset on, as many as were asked for or are left; a write replaces the symbols at
the offset and lengthens the string where it reaches past the end; a write may also be refused. -/
namespace Nekros.ByteFile
open Function (update)

section Splice

variable {α β : Type}

def splice (l : List α) (k : Nat) (new : List α) : List α := l.take k ++ new ++ l.drop (k + new.length)

theorem spliceLength {l new : List α} {k : Nat} (inside : k ≤ l.length) :
    (splice l k new).length = max l.length (k + new.length) := by
  rw [splice,List.length_append,List.length_append,List.length_take,List.length_drop,Nat.min_eq_left inside]
  omega

theorem mapSplice (g : α → β) (l new : List α) (k : Nat) :
    (splice l k new).map g = splice (l.map g) k (new.map g) := by
  rw [splice,splice,List.map_append,List.map_append,List.map_take,List.map_drop,List.length_map]

theorem spliceNil (l : List α) (k : Nat) : splice l k [] = l := by
  rw [splice,List.append_nil,List.length_nil,Nat.add_zero,List.take_append_drop]

theorem takeSplice (l new : List α) {k m : Nat} (inside : k ≤ m) (short : m ≤ l.length) :
    (splice l k new).take (max m (k + new.length)) = splice (l.take m) k new := by
  have front : (l.take k ++ new).length = k + new.length := by
    rw [List.length_append,List.length_take,Nat.min_eq_left (Nat.le_trans inside short)]
  have parts : max m (k + new.length) = (l.take k ++ new).length + (m - (k + new.length)) := by
    rw [front]
    omega
  rw [splice,splice,parts,List.take_length_add_append,List.take_take,Nat.min_eq_left inside,List.drop_take]

end Splice

variable {φ α ρ : Type}

structure Content (φ α : Type) where
  text : List α
  offset : φ → Nat

def empty : Content φ α := ⟨[],fun _ => 0⟩

inductive Op (φ α : Type) where
  | read (file : φ) (len : Nat)
  | write (file : φ) (new : List α)
  deriving DecidableEq, Repr

inductive Outcome (α ρ : Type) where
  | read (got : List α)
  | wrote (len : Nat)
  | refused (why : ρ)
  deriving DecidableEq, Repr

def Content.slice (a : Content φ α) (file : φ) (len : Nat) : List α := (a.text.drop (a.offset file)).take len

theorem sliceLength (a : Content φ α) (file : φ) (len : Nat) :
    (a.slice file len).length = min len (a.text.length - a.offset file) := by
  rw [Content.slice,List.length_take,List.length_drop]

variable [DecidableEq φ]

def Content.advance (a : Content φ α) (file : φ) (len : Nat) : Content φ α :=
  {a with offset := update a.offset file (a.offset file + len)}

inductive Step (a : Content φ α) : Op φ α → Outcome α ρ → Content φ α → Prop
  | read (file : φ) (len : Nat) :
      Step a (.read file len) (.read (a.slice file len)) (a.advance file (a.slice file len).length)
  | write (file : φ) (new : List α) :
      Step a (.write file new) (.wrote new.length)
        {a.advance file new.length with text := splice a.text (a.offset file) new}
  | refused (file : φ) (new : List α) (why : ρ) : Step a (.write file new) (.refused why) a

inductive Runs (start : Content φ α) : List (Op φ α × Outcome α ρ) → Content φ α → Prop
  | nil : Runs start [] start
  | snoc {calls a op outcome b} : Runs start calls a → Step a op outcome b → Runs start (calls ++ [(op,outcome)]) b

def Inside (a : Content φ α) : Prop := ∀ file, a.offset file ≤ a.text.length

theorem stepInside {a b : Content φ α} {op : Op φ α} {outcome : Outcome α ρ} (h : Inside a)
    (next : Step a op outcome b) : Inside b := by
  intro other
  have before := h other
  cases next with
  | read file len =>
      show update a.offset file _ other ≤ a.text.length
      by_cases here : other = file
      · subst here
        rw [Function.update_self,sliceLength]
        omega
      · rw [Function.update_of_ne here]
        exact before
  | write file new =>
      show update a.offset file _ other ≤ (splice a.text (a.offset file) new).length
      rw [spliceLength (h file)]
      by_cases here : other = file
      · rw [here,Function.update_self]
        exact Nat.le_max_right _ _
      · rw [Function.update_of_ne here]
        exact Nat.le_trans before (Nat.le_max_left _ _)
  | refused => exact before

theorem runsInside {calls : List (Op φ α × Outcome α ρ)} {a : Content φ α} (ran : Runs empty calls a) : Inside a := by
  induction ran with
  | nil => exact fun _ => Nat.le_refl 0
  | snoc _ next ih => exact stepInside ih next

end Nekros.ByteFile
