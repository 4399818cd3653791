import Nekros.CcProc
import Nekros.GuardedRun
import Nekros.Spans

/-! The window of `vmm_alloc` in mm/vmm.c: a bump pointer that never comes back, moved by
page counts of 64 bits. The sum in its range check is taken modulo 2^64. -/
namespace Nekros.Vmalloc
open Words (wrap pageSize)
open Spans
open GuardedRun (run Guarded guardedCongr guardedInvariant)

def windowStart : Nat := 0xFFFF000000000000

def windowEnd : Nat := 0xFFFF008000000000

structure Call where
  pages : BitVec 64
  backed : Bool
  deriving DecidableEq, Repr

def Call.bytes (c : Call) : Nat := c.pages.toNat * pageSize

/- The new `vmalloc_next` and what is returned; a product that wraps is a sum that wraps. -/
def vmmAlloc (next : Nat) (c : Call) : Nat × Option Nat :=
  if wrap (next + c.bytes) > windowEnd then (next,none)
  else (wrap (next + c.bytes),if c.backed then some next else none)

structure World where
  vmallocNext : Nat
  given : List Span
  deriving DecidableEq, Repr

def start : World := ⟨windowStart,[]⟩

def step (w : World) (c : Call) : Option World :=
  let r := vmmAlloc w.vmallocNext c
  some ⟨r.1,match r.2 with
    | none => w.given
    | some virt => ⟨virt,c.bytes⟩::w.given⟩

structure Orderly (w : World) (c : Call) : Prop where
  stays : windowStart ≤ (vmmAlloc w.vmallocNext c).1 ∧ (vmmAlloc w.vmallocNext c).1 ≤ windowEnd
  grows : w.vmallocNext ≤ (vmmAlloc w.vmallocNext c).1
  refuses : windowEnd < w.vmallocNext + c.bytes → vmmAlloc w.vmallocNext c = (w.vmallocNext,none)
  inside : ∀ virt, (vmmAlloc w.vmallocNext c).2 = some virt → windowStart ≤ virt ∧ virt + c.bytes ≤ windowEnd
  apart : ∀ virt, (vmmAlloc w.vmallocNext c).2 = some virt → ∀ g ∈ w.given, Apart ⟨virt,c.bytes⟩ g

/- The check sees that the request does not fit; or the bytes wrap to none at all, and so
many pages cannot be backed. -/
def Seen (w : World) (c : Call) : Prop :=
  windowEnd < w.vmallocNext + c.bytes →
    windowEnd < wrap (w.vmallocNext + c.bytes) ∨ (wrap c.bytes = 0 ∧ c.backed = false)

instance (w : World) (c : Call) : Decidable (Seen w c) := by unfold Seen; infer_instance

def KernelCanonical (v : Nat) : Prop := v / 2^47 = 2^17 - 1

instance (v : Nat) : Decidable (KernelCanonical v) := by unfold KernelCanonical; infer_instance

structure Inv (w : World) : Prop where
  low : windowStart ≤ w.vmallocNext
  high : w.vmallocNext ≤ windowEnd
  given : ∀ g ∈ w.given, windowStart ≤ g.start ∧ g.stop ≤ w.vmallocNext

theorem allocFits {next : Nat} {c : Call} (fits : next + c.bytes ≤ windowEnd) :
    vmmAlloc next c = (next + c.bytes,if c.backed then some next else none) := by
  have same : wrap (next + c.bytes) = next + c.bytes :=
    Words.wrapOfLt (Nat.lt_of_le_of_lt fits (by decide))
  rw [vmmAlloc,same,if_neg (Nat.not_lt.mpr fits)]

theorem allocHere {next virt : Nat} {c : Call} (found : (vmmAlloc next c).2 = some virt) : virt = next := by
  unfold vmmAlloc at found
  split at found
  · cases found
  · dsimp only at found
    split at found
    · exact (Option.some.inj found).symm
    · cases found

theorem allocRefused {next : Nat} {c : Call} (large : windowEnd < wrap (next + c.bytes)) :
    vmmAlloc next c = (next,none) := if_pos large

theorem allocWrapped {next : Nat} {c : Call} (small : wrap (next + c.bytes) ≤ windowEnd) :
    vmmAlloc next c = (wrap (next + c.bytes),if c.backed then some next else none) :=
  if_neg (Nat.not_lt.mpr small)

theorem wrapSelf {next bytes : Nat} (small : next < 2^64) : wrap (next + bytes) = next ↔ wrap bytes = 0 := by
  unfold wrap
  omega

theorem orderlySeen {w : World} {c : Call} (h : Inv w) : Orderly w c ↔ Seen w c := by
  have low := h.low
  have high := h.high
  have word : w.vmallocNext < 2^64 := Nat.lt_of_le_of_lt high (by decide)
  rcases Nat.lt_or_ge windowEnd (w.vmallocNext + c.bytes) with large | fits
  · rcases Nat.lt_or_ge windowEnd (wrap (w.vmallocNext + c.bytes)) with seen | unseen
    · refine iff_of_true ?_ (fun _ => .inl seen)
      have refused := allocRefused seen
      exact ⟨by rw [refused]; exact ⟨low,high⟩,by rw [refused],fun _ => refused,
        (fun virt found => by rw [refused] at found; cases found),
        (fun virt found => by rw [refused] at found; cases found)⟩
    · have granted := allocWrapped unseen
      constructor
      · intro ok _
        have refused := ok.refuses large
        rw [granted,Prod.mk.injEq,wrapSelf word] at refused
        refine .inr ⟨refused.1,?_⟩
        cases backed : c.backed with
        | false => rfl
        | true =>
            rw [backed] at refused
            cases refused.2
      · intro seen
        obtain ⟨none,unbacked⟩ := (seen large).resolve_left (Nat.not_lt.mpr unseen)
        have refused : vmmAlloc w.vmallocNext c = (w.vmallocNext,Option.none) := by
          rw [granted,(wrapSelf word).mpr none,unbacked]
          rfl
        exact ⟨by rw [refused]; exact ⟨low,high⟩,by rw [refused],fun _ => refused,
          (fun virt found => by rw [refused] at found; cases found),
          (fun virt found => by rw [refused] at found; cases found)⟩
  · refine iff_of_true ?_ (fun large => absurd fits (Nat.not_le.mpr large))
    have granted := allocFits fits
    refine ⟨?_,?_,fun large => absurd fits (Nat.not_le.mpr large),?_,?_⟩
    · rw [granted]
      exact ⟨Nat.le_trans low (Nat.le_add_right _ _),fits⟩
    · rw [granted]
      exact Nat.le_add_right _ _
    · intro virt there
      rw [allocHere there]
      exact ⟨low,fits⟩
    · intro virt there g mem
      rw [allocHere there]
      exact .inr (h.given g mem).2

theorem stepInv {w w' : World} {c : Call} (h : Inv w) (ok : Orderly w c) (next : step w c = some w') :
    Inv w' := by
  have grows := ok.grows
  cases Option.some.inj next
  refine ⟨ok.stays.1,ok.stays.2,?_⟩
  have kept : ∀ g ∈ w.given, windowStart ≤ g.start ∧ g.stop ≤ (vmmAlloc w.vmallocNext c).1 :=
    fun g mem => ⟨(h.given g mem).1,Nat.le_trans (h.given g mem).2 grows⟩
  dsimp only
  split
  · exact kept
  · next virt found =>
      intro g mem
      rcases List.mem_cons.mp mem with new | old
      · have here := allocHere found
        rw [here] at found new
        obtain ⟨low,fits⟩ := ok.inside _ found
        rw [new,allocFits fits]
        exact ⟨low,Nat.le_refl _⟩
      · exact kept g old

theorem startInv : Inv start := ⟨Nat.le_refl _,by decide,by simp [start]⟩

theorem windowNotCanonical {v : Nat} (low : windowStart ≤ v) (high : v ≤ windowEnd) : ¬ KernelCanonical v := by
  unfold KernelCanonical
  unfold windowStart at low
  unfold windowEnd at high
  omega

theorem windowExact (calls : List Call) :
    (Guarded step Orderly start calls ↔ Guarded step Seen start calls) ∧
    (∀ w, Guarded step Seen start calls → run step start calls = some w →
      ((∀ g ∈ w.given, KernelCanonical g.start) ↔ w.given = [])) := by
  have keeps : ∀ w c w', Inv w → Seen w c → step w c = some w' → Inv w' :=
    fun w c w' inv seen next => stepInv inv ((orderlySeen inv).mpr seen) next
  refine ⟨guardedCongr Inv (fun w c inv => orderlySeen inv) keeps startInv,fun w seen ran => ?_⟩
  have inv := guardedInvariant Inv keeps startInv seen ran
  constructor
  · intro canonical
    rw [List.eq_nil_iff_forall_not_mem]
    intro g mem
    obtain ⟨low,below⟩ := inv.given g mem
    have high := inv.high
    exact windowNotCanonical low (Nat.le_trans (Nat.le_trans (Nat.le_add_right _ _) below) high) (canonical g mem)
  · intro none
    rw [none]
    exact fun g mem => absurd mem List.not_mem_nil

def fitting : List Call := [⟨2,true⟩,⟨0x7FFFFFF,false⟩,⟨1,true⟩]

theorem windowFitting : Guarded step Orderly start fitting ∧
    run step start fitting = some ⟨0xFFFF000000003000,[⟨0xFFFF000000002000,0x1000⟩,⟨0xFFFF000000000000,0x2000⟩]⟩ :=
  ⟨(windowExact fitting).1.mpr (by decide),by decide⟩

theorem wrappedLeavesWindow :
    run step start [⟨0xFFFFFFFFFFFF0,false⟩] = some ⟨0xFFFEFFFFFFFF0000,[]⟩ ∧
    ¬ Guarded step Orderly start [⟨0xFFFFFFFFFFFF0,false⟩] ∧
    run step start [⟨1,true⟩] = some ⟨0xFFFF000000001000,[⟨0xFFFF000000000000,0x1000⟩]⟩ ∧
    ¬ KernelCanonical 0xFFFF000000000000 := by
  refine ⟨by decide,fun guarded => ?_,by decide,by decide⟩
  have stays := guarded.1.stays.1
  exact absurd stays (by decide)

theorem callersAgree {s : CcProc.State} {pages : Nat} (few : pages ≤ 4096) (backed : Bool)
    (bound : s.vmallocNext ≤ windowEnd) :
    vmmAlloc s.vmallocNext ⟨BitVec.ofNat 64 pages,backed⟩ =
      ((CcProc.vmmAlloc s pages backed).1.vmallocNext,(CcProc.vmmAlloc s pages backed).2) := by
  have bytes : (Call.mk (BitVec.ofNat 64 pages) backed).bytes = pages * 4096 := by
    rw [Call.bytes,BitVec.toNat_ofNat,Nat.mod_eq_of_lt (by omega),pageSize]
  have same : wrap (s.vmallocNext + pages * 4096) = s.vmallocNext + pages * 4096 :=
    Words.wrapOfLt (by unfold windowEnd at bound; omega)
  rw [vmmAlloc,CcProc.vmmAlloc,bytes,same,windowEnd]
  by_cases large : s.vmallocNext + pages * 4096 > 0xFFFF008000000000
  · rw [if_pos large,if_pos large]
  · rw [if_neg large,if_neg large]

end Nekros.Vmalloc
