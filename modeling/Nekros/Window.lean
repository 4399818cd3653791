import Mathlib.Data.List.GetD

/-! A stretch of memory read as a list, and a list written to memory. -/
namespace Nekros.Window

variable {β : Type} {m m' : Nat → β} {start n i : Nat} {l : List β}

def window (m : Nat → β) (start n : Nat) : List β := (List.range n).map fun i => m (start + i)

def overwrite (m : Nat → β) (start : Nat) (l : List β) (i : Nat) : β :=
  if start ≤ i then l.getD (i - start) (m i) else m i

theorem windowLength (m : Nat → β) (start n : Nat) : (window m start n).length = n := by
  rw [window,List.length_map,List.length_range]

theorem windowGet (m : Nat → β) (start : Nat) (inside : i < n) : (window m start n)[i]? = some (m (start + i)) := by
  rw [window,List.getElem?_map,List.getElem?_range inside,Option.map_some]

theorem windowAppend (m : Nat → β) (start a b : Nat) :
    window m start (a + b) = window m start a ++ window m (start + a) b := by
  rw [window,window,window,List.range_add,List.map_append,List.map_map]
  refine congrArg (_ ++ ·) (List.map_congr_left fun i _ => ?_)
  show m (start + (a + i)) = m (start + a + i)
  rw [Nat.add_assoc]

theorem windowCongr (same : ∀ i, start ≤ i → i < start + n → m i = m' i) : window m start n = window m' start n := by
  refine List.map_congr_left fun i mem => ?_
  have below := List.mem_range.mp mem
  exact same (start + i) (Nat.le_add_right _ _) (Nat.add_lt_add_left below start)

theorem overwriteOutside (outside : i < start ∨ start + l.length ≤ i) : overwrite m start l i = m i := by
  unfold overwrite
  split
  · exact List.getD_eq_default _ _ (by omega)
  · rfl

theorem overwriteInside (there : start ≤ i) (inside : i < start + l.length) :
    overwrite m start l i = overwrite m' start l i := by
  rw [overwrite,if_pos there,List.getD_eq_getElem _ _ (by omega),overwrite,if_pos there,List.getD_eq_getElem _ _ (by omega)]

theorem windowOverwrite (m : Nat → β) (start : Nat) (l : List β) : window (overwrite m start l) start l.length = l := by
  refine List.ext_getElem? fun i => ?_
  rcases Nat.lt_or_ge i l.length with inside | outside
  · rw [windowGet _ _ inside,overwrite,if_pos (Nat.le_add_right _ _),Nat.add_sub_cancel_left,
      List.getD_eq_getElem _ _ inside,List.getElem?_eq_getElem inside]
  · rw [List.getElem?_eq_none (by rw [windowLength]; exact outside),List.getElem?_eq_none outside]

theorem overwriteAppend (m : Nat → β) (start : Nat) (l l' : List β) :
    overwrite (overwrite m start l) (start + l.length) l' = overwrite m start (l ++ l') := by
  funext i
  rcases Nat.lt_or_ge i (start + l.length) with first | behind
  · rw [overwriteOutside (.inl first)]
    unfold overwrite
    split
    · rw [List.getD_append _ _ _ _ (by omega)]
    · rfl
  · have there : start ≤ i := Nat.le_trans (Nat.le_add_right _ _) behind
    have before : overwrite m start l i = m i := overwriteOutside (.inr behind)
    rw [overwrite,if_pos behind,before,overwrite,if_pos there,List.getD_append_right _ _ _ _ (by omega),Nat.sub_add_eq]

theorem windowElsewhere (apart : start + n ≤ i ∨ i + l.length ≤ start) :
    window (overwrite m i l) start n = window m start n :=
  windowCongr fun _ low high => overwriteOutside (by omega)

theorem overwriteCovered (m : Nat → β) (start : Nat) {l l' : List β} {len : Nat} (covered : l.length ≤ len + l'.length) :
    overwrite (overwrite m start (l.take len ++ (window m start len).drop l.length)) (start + len) l' =
      overwrite (overwrite m start l) (start + len) l' := by
  have size : (l.take len ++ (window m start len).drop l.length).length = len := by
    rw [List.length_append,List.length_take,List.length_drop,windowLength]
    omega
  funext i
  rcases Nat.lt_or_ge i (start + len) with first | behind
  · rw [overwriteOutside (.inl first),overwriteOutside (.inl first)]
    rcases Nat.lt_or_ge i start with before | there
    · rw [overwriteOutside (.inl before),overwriteOutside (.inl before)]
    · rw [overwrite,if_pos there,overwrite,if_pos there,List.getD_eq_getElem?_getD,List.getD_eq_getElem?_getD]
      rcases Nat.lt_or_ge (i - start) l.length with inside | outside
      · rw [List.getElem?_append_left (by rw [List.length_take]; omega),List.getElem?_take_of_lt (by omega)]
      · rw [List.getElem?_append_right (by rw [List.length_take]; omega),List.getElem?_drop,List.length_take,
          Nat.min_eq_right (by omega),Nat.add_sub_cancel' outside,windowGet _ _ (by omega),
          List.getElem?_eq_none outside,Nat.add_sub_cancel' there]
        rfl
  · rcases Nat.lt_or_ge i (start + len + l'.length) with written | far
    · exact overwriteInside behind written
    · rw [overwriteOutside (.inr far),overwriteOutside (.inr far),overwriteOutside (.inr (by omega)),
        overwriteOutside (.inr (by omega))]

end Nekros.Window
