import Mathlib.Data.List.Basic

/-! Paths: names joined by a separator, one of which may stand at the end. -/
namespace Nekros.Paths

variable {α : Type}

def join (sep : α) (names : List (List α)) : List α := [sep].intercalate names

structure Proper (sep : α) (name : List α) : Prop where
  named : name ≠ []
  plain : sep ∉ name

theorem joinCons (sep : α) (first second : List α) (rest : List (List α)) :
    join sep (first :: second :: rest) = (first ++ [sep]) ++ join sep (second :: rest) :=
  List.intercalate_cons_cons

theorem joinNonempty {sep : α} {names : List (List α)} (some : names ≠ [])
    (proper : ∀ name ∈ names, Proper sep name) : join sep names ≠ [] := by
  cases names with
  | nil => exact absurd rfl some
  | cons first rest =>
      cases rest with
      | nil =>
          rw [join,List.intercalate_singleton]
          exact (proper first List.mem_cons_self).named
      | cons second rest =>
          rw [joinCons]
          exact List.append_ne_nil_of_left_ne_nil (List.append_ne_nil_of_right_ne_nil _ (List.cons_ne_nil _ _)) _

variable [DecidableEq α] {sep : α}

def dropTrailing (sep : α) (path : List α) : List α :=
  if path.getLast? = some sep then path.dropLast else path

def components (sep : α) (path : List α) : List (List α) := (dropTrailing sep path).splitOn sep

theorem dropTrailingSnoc (sep : α) (path : List α) : dropTrailing sep (path ++ [sep]) = path := by
  rw [dropTrailing,if_pos List.getLast?_concat,List.dropLast_concat]

theorem dropTrailingAppend (sep : α) (first : List α) {rest : List α} (more : rest ≠ []) :
    dropTrailing sep (first ++ rest) = first ++ dropTrailing sep rest := by
  unfold dropTrailing
  rw [List.getLast?_append_of_ne_nil first more]
  split
  · rw [List.dropLast_append_of_ne_nil more]
  · rfl

theorem dropTrailingPlain {path : List α} (plain : sep ∉ path) : dropTrailing sep path = path :=
  if_neg (fun last => plain (List.mem_of_getLast? last))

theorem dropTrailingJoin {names : List (List α)} (some : names ≠ [])
    (proper : ∀ name ∈ names, Proper sep name) : dropTrailing sep (join sep names) = join sep names := by
  induction names with
  | nil => exact absurd rfl some
  | cons first rest ih =>
      cases rest with
      | nil =>
          rw [join,List.intercalate_singleton]
          exact dropTrailingPlain (proper first List.mem_cons_self).plain
      | cons second rest =>
          have later : ∀ name ∈ second :: rest, Proper sep name :=
            fun name mem => proper name (List.mem_cons_of_mem _ mem)
          have more := List.cons_ne_nil second rest
          rw [joinCons,dropTrailingAppend sep _ (joinNonempty more later),ih more later]

theorem componentsPlain {name : List α} (plain : sep ∉ name) : components sep name = [name] := by
  rw [components,dropTrailingPlain plain,List.splitOn_eq_singleton plain]

theorem componentsSnoc {name : List α} (plain : sep ∉ name) : components sep (name ++ [sep]) = [name] := by
  rw [components,dropTrailingSnoc,List.splitOn_eq_singleton plain]

theorem componentsCons {first rest : List α} (plain : sep ∉ first) (more : rest ≠ []) :
    components sep (first ++ sep :: rest) = first :: components sep rest := by
  rw [List.append_cons,components,dropTrailingAppend sep _ more,← List.append_cons,
    List.splitOn_append_cons_self_of_not_mem plain,components]

theorem componentsJoin {names : List (List α)} (some : names ≠ [])
    (proper : ∀ name ∈ names, Proper sep name) :
    components sep (join sep names) = names ∧ components sep (join sep names ++ [sep]) = names := by
  have apart : (join sep names).splitOn sep = names :=
    List.splitOn_intercalate sep (fun name mem => (proper name mem).plain) some
  constructor
  · rw [components,dropTrailingJoin some proper,apart]
  · rw [components,dropTrailingSnoc,apart]

end Nekros.Paths
