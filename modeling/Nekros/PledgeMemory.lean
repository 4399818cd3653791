import Nekros.Pledge
import Nekros.SecureFree

/-! Pledges in the memory they are kept in: `sig_pending` and `sig_blocked` are words of the task's
structure, at the address `kzalloc` gave it. A handler that stores there changes the pledge.
nk_secure_free clears what vmm_unmap takes for page-table entries, as SecureFree has it; what the
handlers store through their pointers, into page tables and into free pages comes from outside. -/
namespace Nekros.PledgeMemory
open Sched Syscall Pledge
open PageTable (Mmu pageAt)
open SecureFree (clearedWord unmapPagesWords)
open GuardedRun (run Guarded guardedInvariant)
open Function (update)

def sigPendingAt (p : Nat) : Nat := p + 312

def sigBlockedAt (p : Nat) : Nat := p + 320

structure Machine where
  pledge : Pledge.World
  memory : SecureMemory.World

structure Step where
  event : Event
  stores : List (Nat × Nat)

def stored (w : SecureMemory.World) (stores : List (Nat × Nat)) : SecureMemory.World :=
  {w with mmu := {w.mmu with phys := stores.foldl (fun m x => update m x.1 x.2) w.mmu.phys}}

def reloadTask (before after : Nat → Nat) (p : Nat) (t : Task) : Task :=
  let word := fun a own => if after a = before a then own else after a
  {t with sigPending := word (sigPendingAt p) t.sigPending,sigBlocked := word (sigBlockedAt p) t.sigBlocked}

section Placed
variable (home : Tid → Nat) (accessible : Nat → Nat → Bool)

def sigWord (k : Kernel) (a : Nat) : Option Nat :=
  (List.range k.sched.made).findSome? fun t =>
    if a = sigPendingAt (home t) then some (k.sched.tasks t).sigPending
    else if a = sigBlockedAt (home t) then some (k.sched.tasks t).sigBlocked
    else none

def flushed (m : Machine) : SecureMemory.World :=
  let phys := fun a => (sigWord home m.pledge.kernel a).getD (m.memory.mmu.phys a)
  {m.memory with mmu := {m.memory.mmu with phys}}

def reloaded (made : Nat) (before after : Nat → Nat) (k : Kernel) : Kernel :=
  let tasks := fun t =>
    if t < made then reloadTask before after (home t) (k.sched.tasks t) else k.sched.tasks t
  {k with sched := {k.sched with tasks}}

def handled (k : Kernel) (w : SecureMemory.World) : Event → Option SecureMemory.World
  | .dispatch cpu nr a _ =>
      if verdict k cpu nr = .call .nkSecureFree then
        (SecureMemory.sysNkSecureFree accessible w (scrubbed a).a1 (scrubbed a).a2).map Prod.fst
      else some w
  | _ => some w

def step (m : Machine) (x : Step) : Option Machine :=
  (Syscall.step m.pledge.kernel x.event).bind fun k =>
  (handled accessible m.pledge.kernel (flushed home m) x.event).map fun w =>
    let after := stored w x.stores
    ⟨noted m.pledge x.event
      (reloaded home m.pledge.kernel.sched.made (flushed home m).mmu.phys after.mmu.phys k),after⟩

def Sig (k : Kernel) (a : Nat) : Prop :=
  ∃ t < k.sched.made, a = sigPendingAt (home t) ∨ a = sigBlockedAt (home t)
instance (k a) : Decidable (Sig home k a) := by unfold Sig; infer_instance

def FreeSpares (k : Kernel) (s : Mmu) : Event → Prop
  | .dispatch cpu nr a _ => verdict k cpu nr = .call .nkSecureFree →
      ∀ i < (scrubbed a).a2, ∀ pa ∈ clearedWord s (pageAt (scrubbed a).a1 i), ¬ Sig home k pa
  | _ => True
instance (k s) : (e : Event) → Decidable (FreeSpares home k s e)
  | .create .. | .schedule _ | .tick _ | .exit .. | .dispatch .. | .resume _ => by unfold FreeSpares; infer_instance

def Spares (m : Machine) (x : Step) : Prop :=
  Valid m.pledge.kernel x.event ∧ (∀ y ∈ x.stores, ¬ Sig home m.pledge.kernel y.1) ∧
    FreeSpares home m.pledge.kernel (flushed home m).mmu x.event
instance (m x) : Decidable (Spares home m x) := by unfold Spares; infer_instance

end Placed

section Kept
variable {home : Tid → Nat} {accessible : Nat → Nat → Bool}

theorem storedOther {stores : List (Nat × Nat)} {m : Nat → Nat} {a : Nat} (other : ∀ y ∈ stores, y.1 ≠ a) :
    stores.foldl (fun m x => update m x.1 x.2) m a = m a := by
  induction stores generalizing m with
  | nil => rfl
  | cons y rest ih =>
      obtain ⟨here,later⟩ := List.forall_mem_cons.mp other
      rw [List.foldl_cons,ih later,Function.update_of_ne here.symm]

theorem handledKeeps {k : Kernel} {w w' : SecureMemory.World} {e : Event}
    (done : handled accessible k w e = some w') (spares : FreeSpares home k w.mmu e) {a : Nat} (sig : Sig home k a) :
    w'.mmu.phys a = w.mmu.phys a := by
  cases e with
  | dispatch cpu nr args outside =>
      rw [handled] at done
      split at done
      · next frees =>
        obtain ⟨⟨w1,v⟩,called,rfl⟩ := Option.map_eq_some_iff.mp done
        obtain ⟨w2,freed,same⟩ := Option.map_eq_some_iff.mp called
        cases same
        have clears : ∀ mmu, PageTable.vmmUnmap PageTable.through w.mmu (scrubbed args).a1 (scrubbed args).a2 true =
            some mmu → mmu.phys a = w.mmu.phys a := by
          intro mmu unmapped
          rcases unmapPagesWords unmapped a with kept | ⟨i,_,high,clear⟩
          · exact kept
          · exact absurd sig (spares frees i (by omega) a clear)
        cases SecureMemory.freeCases freed with
        | null _ => rfl
        | missed _ _ unmapped => exact clears _ unmapped
        | found _ _ _ _ unmapped => exact clears _ unmapped
      · cases done
        rfl
  | _ =>
      cases done
      rfl

theorem reloadedSame {made : Nat} {before after : Nat → Nat} {k : Kernel}
    (same : ∀ t < made, after (sigPendingAt (home t)) = before (sigPendingAt (home t)) ∧
      after (sigBlockedAt (home t)) = before (sigBlockedAt (home t))) : reloaded home made before after k = k := by
  have tasks : (fun t => if t < made then reloadTask before after (home t) (k.sched.tasks t) else k.sched.tasks t) =
      k.sched.tasks := by
    funext t
    split
    · next old =>
      obtain ⟨pending,blocked⟩ := same t old
      rw [reloadTask]
      dsimp only
      rw [if_pos pending,if_pos blocked]
    · rfl
  rw [reloaded,tasks]

theorem stepInv {m m' : Machine} {x : Step} (h : Pledge.Inv m.pledge) (spares : Spares home m x)
    (stepped : step home accessible m x = some m') : Pledge.Inv m'.pledge := by
  obtain ⟨valid,away,free⟩ := spares
  obtain ⟨k,done,rest⟩ := Option.bind_eq_some_iff.mp stepped
  obtain ⟨w,found,same⟩ := Option.map_eq_some_iff.mp rest
  cases same
  have kept : ∀ {a}, Sig home m.pledge.kernel a →
      (stored w x.stores).mmu.phys a = (flushed home m).mmu.phys a := by
    intro a sig
    refine Eq.trans (storedOther fun y mem same => ?_) (handledKeeps found free sig)
    exact away y mem (same ▸ sig)
  dsimp only
  rw [reloadedSame fun t old => ⟨kept ⟨t,old,.inl rfl⟩,kept ⟨t,old,.inr rfl⟩⟩]
  exact notedInv h valid done

end Kept

def quiet (e : Event) : Step := ⟨e,[]⟩

def sampleHome (t : Tid) : Nat := 0x4c00c38 + 0x200 * t

/- An unmapped page is freed, and a message is written at 0x7000000. -/
def repledgeSteps : List Step :=
  [quiet (.create 0 (plain 0x1000000)),quiet (.create 0 (plain 0x1004000)),quiet (.schedule 0),
    quiet (call 0 53 (maskOf [2,17,20,42,45])),quiet (.dispatch 0 45 ⟨0x8000000000,1,0,0,0⟩ SecureMemory.quiet),
    ⟨.dispatch 0 42 ⟨0x7000000,124,0,0,0⟩ SecureMemory.quiet,[(0x7000000,5)]⟩,quiet (call 0 20 0)]

def unpledgeSteps : List Step :=
  [quiet (.create 0 (plain 0x1000000)),quiet (.schedule 0),quiet (call 0 53 (maskOf [2,45])),
    quiet (.dispatch 0 45 ⟨0x4dae000,1,0,0,0⟩ SecureMemory.quiet),quiet (call 0 20 0)]

end Nekros.PledgeMemory
