import Mathlib.Logic.Function.Basic
import Mathlib.Data.List.Nodup

/-! Circular doubly linked lists with intrusive nodes. A ring is known by its head,
which is a node like the others; an empty ring is a head linked to itself. A node
taken off a ring keeps the null pointer in both words. -/
namespace Nekros.LinkRing
open Function (update)

variable {α : Type}

structure Links (α : Type) where
  next : α → α
  prev : α → α

def Seg (L : Links α) : (a : α) → List α → (b : α) → Prop
  | a,[],b => L.next a = b ∧ L.prev b = a
  | a,x::rest,b => L.next a = x ∧ L.prev x = a ∧ Seg L x rest b

structure Ring (L : Links α) (h : α) (l : List α) : Prop where
  seg : Seg L h l h
  nodup : (h::l).Nodup

def Linked (null : α) (L : Links α) (n : α) : Prop :=
  L.next n ≠ null ∧ L.prev n ≠ null ∧ L.next (L.prev n) = n ∧ L.prev (L.next n) = n

theorem segAppend {L : Links α} {a x b : α} {l r : List α} :
    Seg L a (l ++ x::r) b ↔ Seg L a l x ∧ Seg L x r b := by
  induction l generalizing a with
  | nil => simp only [List.nil_append,Seg,and_assoc]
  | cons y rest ih => simp only [List.cons_append,Seg,ih,and_assoc]

theorem segFrame {L L' : Links α} {a b : α} {l : List α} (nexts : ∀ x ∈ a::l, L'.next x = L.next x)
    (prevs : ∀ x ∈ b::l, L'.prev x = L.prev x) (h : Seg L a l b) : Seg L' a l b := by
  induction l generalizing a with
  | nil =>
      obtain ⟨forth,back⟩ := h
      exact ⟨(nexts a (by simp)).trans forth,(prevs b (by simp)).trans back⟩
  | cons x rest ih =>
      obtain ⟨forth,back,tail⟩ := h
      refine ⟨(nexts a (by simp)).trans forth,(prevs x (by simp)).trans back,ih ?_ ?_ tail⟩
      · exact fun y hy => nexts y (List.mem_cons_of_mem _ hy)
      · intro y hy
        rcases List.mem_cons.mp hy with rfl | inside
        · exact prevs y (by simp)
        · exact prevs y (by simp [inside])

theorem segLast {L : Links α} {a b : α} {l : List α} (h : Seg L a l b) : L.prev b ∈ a::l := by
  induction l generalizing a with
  | nil => simp [h.2]
  | cons x rest ih => exact List.mem_cons_of_mem _ (ih h.2.2)

theorem segFirst {L : Links α} {a b : α} {l : List α} (h : Seg L a l b) : L.next a ∈ b::l := by
  cases l with
  | nil => simp [h.1]
  | cons x rest => simp [h.1]

theorem segBack {L : Links α} {a b : α} {l : List α} (h : Seg L a l b) : L.next (L.prev b) = b := by
  induction l generalizing a with
  | nil => rw [h.2]; exact h.1
  | cons x rest ih => exact ih h.2.2

theorem segForth {L : Links α} {a b : α} {l : List α} (h : Seg L a l b) : L.prev (L.next a) = a := by
  cases l with
  | nil => rw [h.1]; exact h.2
  | cons x rest => rw [h.1]; exact h.2.1

theorem segRetarget {L L' : Links α} {a b n : α} {l : List α} (nodup : (a::l).Nodup)
    (forth : L'.next (L.prev b) = n) (back : L'.prev n = L.prev b)
    (nexts : ∀ x ∈ a::l, x ≠ L.prev b → L'.next x = L.next x)
    (prevs : ∀ x ∈ l, L'.prev x = L.prev x) (h : Seg L a l b) : Seg L' a l n := by
  induction l generalizing a with
  | nil =>
      obtain ⟨_,last⟩ := h
      rw [last] at forth back
      exact ⟨forth,back⟩
  | cons x rest ih =>
      obtain ⟨first,second,tail⟩ := h
      obtain ⟨fresh,nodup⟩ := List.nodup_cons.mp nodup
      have away : a ≠ L.prev b := fun e => fresh (e ▸ segLast tail)
      refine ⟨(nexts a (by simp) away).trans first,(prevs x (by simp)).trans second,
        ih nodup ?_ ?_ tail⟩
      · exact fun y hy => nexts y (List.mem_cons_of_mem _ hy)
      · exact fun y hy => prevs y (List.mem_cons_of_mem _ hy)

theorem ringFrame {L L' : Links α} {h : α} {l : List α}
    (same : ∀ x ∈ h::l, L'.next x = L.next x ∧ L'.prev x = L.prev x) (ring : Ring L h l) :
    Ring L' h l :=
  ⟨segFrame (fun x hx => (same x hx).1) (fun x hx => (same x hx).2) ring.seg,ring.nodup⟩

theorem ringAround {L : Links α} {h n : α} {l : List α} (ring : Ring L h l) (mem : n ∈ l) :
    ∃ before after, l = before ++ n::after ∧ Seg L h before n ∧ Seg L n after h ∧
      L.prev n ∈ h::before ∧ L.next n ∈ h::after ∧ L.prev n ≠ n ∧ L.next n ≠ n := by
  obtain ⟨before,after,rfl⟩ := List.append_of_mem mem
  obtain ⟨front,back⟩ := segAppend.mp ring.seg
  have last := segLast front
  have first := segFirst back
  have nodup := ring.nodup
  rw [← List.cons_append] at nodup
  obtain ⟨_,right,cross⟩ := List.nodup_append.mp nodup
  refine ⟨before,after,rfl,front,back,last,first,?_,?_⟩
  · exact fun e => cross _ last n List.mem_cons_self e
  · intro e
    rcases List.mem_cons.mp first with head | inside
    · exact cross h List.mem_cons_self n List.mem_cons_self (head.symm.trans e)
    · exact (List.nodup_cons.mp right).1 (e ▸ inside)

theorem ringLinked {null : α} {L : Links α} {h n : α} {l : List α} (ring : Ring L h l) (mem : n ∈ l)
    (nonnull : null ∉ h::l) : Linked null L n := by
  obtain ⟨before,after,rfl,front,back,last,first,_,_⟩ := ringAround ring mem
  refine ⟨fun e => nonnull ?_,fun e => nonnull ?_,segBack front,segForth back⟩
  · rw [← e]
    rcases List.mem_cons.mp first with head | inside
    · simp [head]
    · simp [inside]
  · rw [← e]
    rcases List.mem_cons.mp last with head | inside
    · simp [head]
    · simp [inside]

theorem ringEmpty {L : Links α} {h : α} {l : List α} (ring : Ring L h l) : L.next h = h ↔ l = [] := by
  cases l with
  | nil => simp [ring.seg.1]
  | cons x rest =>
      have different : x ≠ h := fun e => (List.nodup_cons.mp ring.nodup).1 (by simp [e])
      simp [ring.seg.1,different]

variable [DecidableEq α]

def init (L : Links α) (h : α) : Links α := ⟨update L.next h h,update L.prev h h⟩

def link (L : Links α) (n before after : α) : Links α :=
  let L : Links α := {L with prev := update L.prev after n}
  let L : Links α := {L with next := update L.next n after}
  let L : Links α := {L with prev := update L.prev n before}
  {L with next := update L.next before n}

def addTail (L : Links α) (n h : α) : Links α := link L n (L.prev h) h

def del (null : α) (L : Links α) (n : α) : Links α :=
  let L : Links α := {L with next := update L.next (L.prev n) (L.next n)}
  let L : Links α := {L with prev := update L.prev (L.next n) (L.prev n)}
  ⟨update L.next n null,update L.prev n null⟩

instance (null : α) (L : Links α) (n : α) : Decidable (Linked null L n) := by
  unfold Linked; infer_instance

def walk (L : Links α) (h : α) : Nat → (pos : α) → Option (List α)
  | 0,pos => if pos = h then some [] else none
  | fuel+1,pos => if pos = h then some [] else (walk L h fuel (L.next pos)).map (pos::·)

def nodeFrom (L : Links α) (h : α) : (pos : α) → Nat → Option α
  | pos,0 => if pos = h then none else some pos
  | pos,n+1 => if pos = h then none else nodeFrom L h (L.next pos) n

def node (L : Links α) (h : α) (n : Nat) : Option α := nodeFrom L h (L.next h) n

theorem initOther (L : Links α) {h x : α} (away : x ≠ h) :
    (init L h).next x = L.next x ∧ (init L h).prev x = L.prev x :=
  ⟨Function.update_of_ne away _ _,Function.update_of_ne away _ _⟩

theorem initRing (L : Links α) (h : α) : Ring (init L h) h [] :=
  ⟨⟨Function.update_self _ _ _,Function.update_self _ _ _⟩,List.nodup_singleton h⟩

theorem addTailOther {L : Links α} {n h x : α} {l : List α} (ring : Ring L h l) (new : x ≠ n)
    (away : x ∉ h::l) : (addTail L n h).next x = L.next x ∧ (addTail L n h).prev x = L.prev x := by
  have last : x ≠ L.prev h := fun e => away (e ▸ segLast ring.seg)
  have head : x ≠ h := fun e => away (e ▸ List.mem_cons_self)
  constructor
  · exact (Function.update_of_ne last _ _).trans (Function.update_of_ne new _ _)
  · exact (Function.update_of_ne new _ _).trans (Function.update_of_ne head _ _)

theorem addTailRing {L : Links α} {n h : α} {l : List α} (ring : Ring L h l) (fresh : n ∉ h::l) :
    Ring (addTail L n h) h (l ++ [n]) := by
  have last := segLast ring.seg
  have newLast : n ≠ L.prev h := fun e => fresh (e ▸ last)
  have newHead : h ≠ n := fun e => fresh (e ▸ List.mem_cons_self)
  refine ⟨segAppend.mpr ⟨segRetarget ring.nodup ?_ ?_ ?_ ?_ ring.seg,?_,?_⟩,?_⟩
  · exact Function.update_self _ _ _
  · exact Function.update_self _ _ _
  · intro x hx different
    have new : x ≠ n := fun e => fresh (e ▸ hx)
    exact (Function.update_of_ne different _ _).trans (Function.update_of_ne new _ _)
  · intro x hx
    have new : x ≠ n := fun e => fresh (e ▸ List.mem_cons_of_mem _ hx)
    have head : x ≠ h := fun e => (List.nodup_cons.mp ring.nodup).1 (e ▸ hx)
    exact (Function.update_of_ne new _ _).trans (Function.update_of_ne head _ _)
  · exact (Function.update_of_ne newLast _ _).trans (Function.update_self _ _ _)
  · exact (Function.update_of_ne newHead _ _).trans (Function.update_self _ _ _)
  · rw [← List.cons_append]
    exact List.nodup_append.mpr ⟨ring.nodup,List.nodup_singleton n,fun x hx y hy e =>
      fresh (by rw [← List.mem_singleton.mp hy,← e]; exact hx)⟩

theorem delWords (null : α) {L : Links α} {h n : α} {l : List α} (ring : Ring L h l) (mem : n ∈ l) :
    del null L n = ⟨update (update L.next (L.prev n) (L.next n)) n null,
      update (update L.prev (L.next n) (L.prev n)) n null⟩ := by
  obtain ⟨_,_,_,_,_,_,_,before,_⟩ := ringAround ring mem
  have keep : update L.next (L.prev n) (L.next n) n = L.next n :=
    Function.update_of_ne (Ne.symm before) _ _
  simp only [del,keep]

theorem delOther {null : α} {L : Links α} {h n x : α} {l : List α} (ring : Ring L h l) (mem : n ∈ l)
    (away : x ∉ h::l) : (del null L n).next x = L.next x ∧ (del null L n).prev x = L.prev x := by
  obtain ⟨before,after,rfl,_,_,last,first,_,_⟩ := ringAround ring mem
  have self : x ≠ n := fun e => away (by simp [e])
  have left : x ≠ L.prev n := fun e => away (by
    rcases List.mem_cons.mp last with head | inside
    · simp [e,head]
    · simp [e,inside])
  have right : x ≠ L.next n := fun e => away (by
    rcases List.mem_cons.mp first with head | inside
    · simp [e,head]
    · simp [e,inside])
  rw [delWords null ring mem]
  constructor
  · exact (Function.update_of_ne self _ _).trans (Function.update_of_ne left _ _)
  · exact (Function.update_of_ne self _ _).trans (Function.update_of_ne right _ _)

theorem delNull (null : α) (L : Links α) (n : α) :
    (del null L n).next n = null ∧ (del null L n).prev n = null :=
  ⟨Function.update_self _ _ _,Function.update_self _ _ _⟩

theorem delRing {null : α} {L : Links α} {h n : α} {l : List α} (ring : Ring L h l) (mem : n ∈ l) :
    Ring (del null L n) h (l.erase n) := by
  have words := delWords null ring mem
  obtain ⟨before,after,rfl,front,back,last,first,notLast,notFirst⟩ := ringAround ring mem
  have nodup := ring.nodup
  rw [← List.cons_append] at nodup
  obtain ⟨left,right,cross⟩ := List.nodup_append.mp nodup
  obtain ⟨fresh,right⟩ := List.nodup_cons.mp right
  have outside : n ∉ before := fun inside => cross n (List.mem_cons_of_mem _ inside) n (by simp) rfl
  have erased : (before ++ n::after).erase n = before ++ after := by
    rw [List.erase_append_right _ outside,List.erase_cons_head]
  have head : h ∉ before := (List.nodup_cons.mp left).1
  -- the node before leads to the node after, whichever of the two is the head
  have joined : Seg (del null L n) h before (L.next n) := by
    rw [words]
    refine segRetarget left ?_ ?_ ?_ ?_ front
    · exact (Function.update_of_ne notLast _ _).trans (Function.update_self _ _ _)
    · exact (Function.update_of_ne notFirst _ _).trans (Function.update_self _ _ _)
    · intro x hx different
      have self : x ≠ n := fun e => cross x hx n (by simp) e
      exact (Function.update_of_ne self _ _).trans (Function.update_of_ne different _ _)
    · intro x hx
      have self : x ≠ n := fun e => outside (e ▸ hx)
      have different : x ≠ L.next n := by
        intro e
        rcases List.mem_cons.mp first with same | inside
        · exact head (same ▸ e ▸ hx)
        · exact cross x (List.mem_cons_of_mem _ hx) _ (List.mem_cons_of_mem _ inside) e
      exact (Function.update_of_ne self _ _).trans (Function.update_of_ne different _ _)
  rw [erased]
  refine ⟨?_,?_⟩
  · cases after with
    | nil =>
        rw [back.1] at joined
        rw [List.append_nil]
        exact joined
    | cons y rest =>
        obtain ⟨forth,_,tail⟩ := back
        rw [forth] at joined words
        refine segAppend.mpr ⟨joined,?_⟩
        rw [words]
        obtain ⟨notIn,_⟩ := List.nodup_cons.mp right
        refine segFrame (fun x hx => ?_) (fun x hx => ?_) tail
        · have self : x ≠ n := fun e => fresh (e ▸ hx)
          have different : x ≠ L.prev n := fun e =>
            cross _ last x (List.mem_cons_of_mem _ hx) e.symm
          exact (Function.update_of_ne self _ _).trans (Function.update_of_ne different _ _)
        · have self : x ≠ n := by
            rintro rfl
            rcases List.mem_cons.mp hx with same | inside
            · exact cross h List.mem_cons_self x List.mem_cons_self same.symm
            · exact fresh (List.mem_cons_of_mem _ inside)
          have different : x ≠ y := by
            rintro rfl
            rcases List.mem_cons.mp hx with same | inside
            · exact cross h List.mem_cons_self x (by simp) same.symm
            · exact notIn inside
          exact (Function.update_of_ne self _ _).trans (Function.update_of_ne different _ _)
  · rw [← List.cons_append]
    exact List.nodup_append.mpr ⟨left,right,fun x hx y hy => cross x hx y (List.mem_cons_of_mem _ hy)⟩

theorem delUnlinked {null : α} {L : Links α} {n x : α} (next : L.next n = null) (prev : L.prev n = null)
    (nonnull : x ≠ null) (away : x ≠ n) :
    (del null L n).next x = L.next x ∧ (del null L n).prev x = L.prev x := by
  have through : update L.next (L.prev n) (L.next n) n = null := by
    rw [prev,next]
    by_cases same : n = null
    · rw [same,Function.update_self]
    · rw [Function.update_of_ne same,next]
  simp only [del,through]
  rw [prev,next]
  constructor
  · exact (Function.update_of_ne away _ _).trans (Function.update_of_ne nonnull _ _)
  · exact (Function.update_of_ne away _ _).trans (Function.update_of_ne nonnull _ _)

theorem nodeSeg {L : Links α} {h a : α} {l : List α} (outside : h ∉ l) (seg : Seg L a l h) (n : Nat) :
    nodeFrom L h (L.next a) n = l[n]? := by
  induction l generalizing a n with
  | nil => cases n <;> simp [nodeFrom,seg.1]
  | cons x rest ih =>
      obtain ⟨forth,_,tail⟩ := seg
      have different : x ≠ h := fun e => outside (by simp [e])
      cases n with
      | zero => simp [nodeFrom,forth,different]
      | succ n => simpa [nodeFrom,forth,different] using ih (fun e => outside (by simp [e])) tail n

theorem ringNode {L : Links α} {h : α} {l : List α} (ring : Ring L h l) (n : Nat) :
    node L h n = l[n]? := nodeSeg (List.nodup_cons.mp ring.nodup).1 ring.seg n

theorem walkSeg {L : Links α} {h a : α} {l : List α} {fuel : Nat} (enough : l.length ≤ fuel)
    (outside : h ∉ l) (seg : Seg L a l h) : walk L h fuel (L.next a) = some l := by
  induction l generalizing a fuel with
  | nil => cases fuel <;> simp [walk,seg.1]
  | cons x rest ih =>
      obtain ⟨forth,_,tail⟩ := seg
      have different : x ≠ h := fun e => outside (by simp [e])
      cases fuel with
      | zero => simp at enough
      | succ fuel =>
          have later := ih (Nat.le_of_succ_le_succ enough) (fun e => outside (by simp [e])) tail
          simp [walk,forth,different,later]

theorem ringWalk {L : Links α} {h : α} {l : List α} {fuel : Nat} (enough : l.length ≤ fuel)
    (ring : Ring L h l) : walk L h fuel (L.next h) = some l :=
  walkSeg enough (List.nodup_cons.mp ring.nodup).1 ring.seg

end Nekros.LinkRing
