import Nekros.SharedIpcClose
import Nekros.SharedIpcRuns

/-! The rings of ipc/ipc.c where they are: in pages of the page allocator, which keeps its links in
the same memory. A call that runs the allocator finds in the pages of each active channel what the
channel's ring holds, and the ring holds afterwards what the pages do then. -/
namespace Nekros.SharedIpcMemory
open Words Pmm Spans PmmShape SharedIpc Errno
open PmmSafety (Block Inv SameNodes)
open SharedIpcRuns (World Call Settled start recvVerifies recvTakes)
open SharedIpcClose (zeroOutside zeroedInv linksShape linksApart closedShape)
open Bytes (Byte)
open Aes (Key)
open GuardedRun (run Guarded guardedInvariant)

def byteOf (x k : Nat) : Byte := BitVec.ofNat 8 (x / 256^k)

def number (f : Nat → Byte) : Nat → Nat → Nat
  | 0,_ => 0
  | n+1,o => (f o).toNat + 256 * number f n (o+1)

theorem byteLater (x k : Nat) : byteOf x (k+1) = byteOf (x / 256) k := by
  rw [byteOf,byteOf,Nat.pow_succ',Nat.div_div_eq_div_mul]

theorem numberBytes {f : Nat → Byte} {n o x : Nat} (bytes : ∀ k < n, f (o+k) = byteOf x k) :
    number f n o = x % 256^n := by
  induction n generalizing o x with
  | zero => exact (Nat.mod_one x).symm
  | succ n ih =>
      have first : (f o).toNat = x % 256 := by
        rw [← Nat.add_zero o,bytes 0 (Nat.succ_pos n),byteOf,Nat.pow_zero,Nat.div_one,BitVec.toNat_ofNat]
      have rest := ih (o := o+1) (x := x / 256) (fun k low => by
        rw [Nat.add_right_comm,Nat.add_assoc,bytes (k+1) (Nat.succ_lt_succ low),byteLater])
      rw [number,first,rest,Nat.pow_succ',Nat.mod_mul]

theorem byteNumber {f : Nat → Byte} {n k : Nat} (o : Nat) (low : k < n) : byteOf (number f n o) k = f (o+k) := by
  induction n generalizing o k with
  | zero => exact absurd low (Nat.not_lt_zero k)
  | succ n ih =>
      have byte := (f o).isLt
      cases k with
      | zero =>
          apply BitVec.eq_of_toNat_eq
          rw [byteOf,Nat.pow_zero,Nat.div_one,number,BitVec.toNat_ofNat]
          show _ = (f o).toNat
          omega
      | succ k =>
          have rest : number f (n+1) o / 256 = number f n (o+1) := by
            rw [number]
            omega
          rw [byteLater,rest,ih (o+1) (Nat.lt_of_succ_lt_succ low),Nat.add_right_comm,Nat.add_assoc]

def slotByte (slot : Slot) (j : Nat) : Byte :=
  if j < 8 then byteOf slot.seq j
  else if j < 12 then byteOf slot.senderPid.toNat (j-8)
  else if j < 16 then byteOf slot.len (j-12)
  else if j < 48 then slot.hmac.getD (j-16) 0
  else if j < 64 then 0
  else slot.payload (j-64)

def ringByte (r : Ring) (o : Nat) : Byte :=
  if o < 8 then byteOf r.writeSeq o
  else if o < 16 then byteOf r.readSeq (o-8)
  else if o < 20 then byteOf r.slotSize (o-16)
  else if o < 24 then byteOf r.nSlots (o-20)
  else if o < 56 then r.channelKey.getD (o-24) 0
  else if o < ringHdrSize then 0
  else slotByte (r.slots ((o-ringHdrSize) / r.slotSize)) ((o-ringHdrSize) % r.slotSize)

def slotOf (f : Nat → Byte) : Slot :=
  ⟨number f 8 0,BitVec.ofNat 32 (number f 4 8),number f 4 12,Vector.ofFn fun j => f (16+j),fun j => f (64+j)⟩

def ringOf (f : Nat → Byte) : Ring :=
  ⟨number f 8 0,number f 8 8,number f 4 16,number f 4 20,Vector.ofFn fun j => f (24+j),
    fun k => slotOf fun j => f (ringHdrSize + number f 4 16 * k + j)⟩

def poolBytes : Nat := ipcPagePool * pageSize

def holder (s : SharedIpc.State) (a : Nat) : Option Nat :=
  (List.range ipcMaxChannels).find? fun i => (s.channels i).active &&
    decide (sub64 a (physToVirt (s.channels i).sharedPa) < poolBytes)

def flushed (s : SharedIpc.State) : SharedIpc.State :=
  let mem := fun a => match holder s a with
    | some i => number (ringByte (s.channels i).ring) 8 (sub64 a (physToVirt (s.channels i).sharedPa))
    | none => s.pmm.mem a
  {s with pmm := {s.pmm with mem := mem}}

def pageByte (mem : Nat → Nat) (pa o : Nat) : Byte := byteOf (mem (physToVirt (pa + o / 8 * 8))) (o % 8)

/- A channel opened by the call has its header in the ring already. -/
def reloaded (before s : SharedIpc.State) : SharedIpc.State :=
  {s with channels := fun i =>
    if (before.channels i).active && (s.channels i).active then
      {s.channels i with ring := ringOf (pageByte s.pmm.mem (s.channels i).sharedPa)}
    else s.channels i}

section Keyed
variable (hmac : Key → List Byte → Key) (hkdf : List Byte → List Byte → Key)

def step (w : World) (c : Call) : Option World :=
  match c with
  | .create _ | .close _ =>
      (SharedIpcRuns.step hmac hkdf {w with ipc := flushed w.ipc} c).map fun w' =>
        {w' with ipc := reloaded w.ipc w'.ipc}
  | _ => SharedIpcRuns.step hmac hkdf w c

/- While the pages of a channel are merged, each buddy that the bitmap calls free is on its list. -/
def Listed (w : World) : Call → Prop
  | .close fd => ∀ i ∈ channelOf fd, (w.ipc.channels i).active = true →
      PmmSafety.Sound ⟨(flushed w.ipc).pmm,[],[]⟩ (.free ⟨(w.ipc.channels i).sharedPa,3⟩)
  | _ => True
instance (w) : (c : Call) → Decidable (Listed w c)
  | .create _ | .connect .. | .send .. | .recv .. | .close _ => by unfold Listed; infer_instance

def Met (w : World) (c : Call) : Prop := Settled hkdf w c ∧ Listed w c
instance (w c) : Decidable (Met hkdf w c) := by unfold Met; infer_instance

end Keyed

theorem numberRead (f : Nat → Byte) {n o x : Nat} (small : x < 256^n) (bytes : ∀ k < n, f (o+k) = byteOf x k) :
    number f n o = x := by rw [numberBytes bytes,Nat.mod_eq_of_lt small]

section Read
variable {f : Nat → Byte}

theorem carriesRead {hmac : Key → List Byte → Key} {key : Key} {i : Nat} {m : Message} {slot : Slot}
    (short : m.payload.length ≤ 446) (bytes : ∀ j < 510, f j = slotByte slot j)
    (h : Carries hmac key i m slot) : Carries hmac key i m (slotOf f) := by
  have seqSmall : slot.seq < 256^8 := by
    rw [h.seq]
    exact wrapLt i
  have lenSmall : slot.len < 256^4 := by
    rw [h.len]
    omega
  refine ⟨?_,?_,?_,?_,?_⟩
  · have seq := numberRead f (o := 0) seqSmall (fun k low => by
      rw [Nat.zero_add,bytes k (by omega),slotByte,if_pos low])
    exact seq.trans h.seq
  · have pid := numberRead f (o := 8) (show slot.senderPid.toNat < 256^4 from slot.senderPid.isLt) (fun k low => by
      rw [bytes _ (by omega),slotByte,if_neg (by omega),if_pos (by omega),Nat.add_sub_cancel_left])
    rw [slotOf,pid,BitVec.ofNat_toNat,BitVec.setWidth_eq]
    exact h.sender
  · have len := numberRead f (o := 12) lenSmall (fun k low => by
      rw [bytes _ (by omega),slotByte,if_neg (by omega),if_neg (by omega),if_pos (by omega),
        Nat.add_sub_cancel_left])
    exact len.trans h.len
  · refine Eq.trans (List.map_congr_left fun j listed => ?_) h.payload
    have low := List.mem_range.mp listed
    show f (64+j) = _
    rw [bytes _ (by omega),slotByte,if_neg (by omega),if_neg (by omega),if_neg (by omega),if_neg (by omega),
      if_neg (by omega),Nat.add_sub_cancel_left]
  · refine Eq.trans (Vector.ext fun j inside => ?_) h.mac
    rw [slotOf,Vector.getElem_ofFn,bytes _ (by omega),slotByte,if_neg (by omega),if_neg (by omega),
      if_neg (by omega),if_pos (by omega),Nat.add_sub_cancel_left,Bytes.getDOfLt _ inside]

theorem queuedRead {hmac : Key → List Byte → Key} {key : Key} {r : Ring} {sent : List Message} {read : Nat}
    (bytes : ∀ o < poolBytes, f o = ringByte r o) (h : Queued hmac key r sent read) :
    Queued hmac key (ringOf f) sent read := by
  have pool : poolBytes = 32768 := rfl
  have header : ringHdrSize = 80 := rfl
  have writeSmall : r.writeSeq < 256^8 := by
    rw [h.writeSeq]
    exact wrapLt _
  have readSmall : r.readSeq < 256^8 := by
    rw [h.readSeq]
    exact wrapLt _
  have size : number f 4 16 = 510 := by
    rw [← h.size]
    refine numberRead f (by rw [h.size]; decide) (fun k low => ?_)
    rw [bytes _ (by omega),ringByte,if_neg (by omega),if_neg (by omega),if_pos (by omega),
      Nat.add_sub_cancel_left]
  refine ⟨?_,?_,h.behind,?_,size,h.fits,fun i low high lap => ?_⟩
  · have write := numberRead f (o := 0) writeSmall (fun k low => by
      rw [Nat.zero_add,bytes k (by omega),ringByte,if_pos low])
    exact write.trans h.writeSeq
  · have read := numberRead f (o := 8) readSmall (fun k low => by
      rw [bytes _ (by omega),ringByte,if_neg (by omega),if_pos (by omega),Nat.add_sub_cancel_left])
    exact read.trans h.readSeq
  · have count := numberRead f (o := 20) (show r.nSlots < 256^4 by rw [h.count]; decide) (fun k low => by
      rw [bytes _ (by omega),ringByte,if_neg (by omega),if_neg (by omega),if_neg (by omega),if_pos (by omega),
        Nat.add_sub_cancel_left])
    exact count.trans h.count
  · obtain ⟨m,at',carries⟩ := h.held i low high lap
    have slot := Nat.mod_lt i (show 0 < 64 by decide)
    refine ⟨m,at',carriesRead (h.fits m (List.mem_of_getElem? at')) (fun j inside => ?_) carries⟩
    have offset : ringHdrSize + 510 * (i % 64) + j - ringHdrSize = 510 * (i % 64) + j := by omega
    have index : (510 * (i % 64) + j) / 510 = i % 64 := by omega
    have rest : (510 * (i % 64) + j) % 510 = j := by omega
    rw [size,bytes _ (by omega),ringByte,if_neg (by omega),if_neg (by omega),if_neg (by omega),if_neg (by omega),
      if_neg (by omega),if_neg (by omega),h.size,offset,index,rest]

end Read

structure Owns (s : SharedIpc.State) (live : List Block) : Prop where
  small : ∀ i, (s.channels i).active = true → i < ipcMaxChannels
  block : ∀ i, (s.channels i).active = true → (s.channels i).sharedPa ≠ 0 ∧ ⟨(s.channels i).sharedPa,3⟩ ∈ live
  once : ∀ i j, (s.channels i).active = true → (s.channels j).active = true →
    (s.channels i).sharedPa = (s.channels j).sharedPa → i = j

theorem poolBlock : poolBytes = blockSize 3 := by decide

theorem handApart {pmm : Pmm.State} {lists : Lists} {sp : Span} {hand : List Span}
    (h : Shape pmm lists (sp::hand)) : ∀ other ∈ hand, Apart sp other :=
  fun _ mem => packedHead (packedPerm List.perm_middle h.packed) _ (List.mem_append_right _ mem)

theorem liveApart {pmm : Pmm.State} {regions : List Span} {live : List Block} {b c : Block}
    (h : Inv ⟨pmm,regions,live⟩) (first : b ∈ live) (second : c ∈ live) (different : b ≠ c) :
    Apart b.span c.span := by
  obtain ⟨lists,shape⟩ := h.shape
  refine handApart (shapePerm ((List.perm_cons_erase first).map Block.span) shape) _ (List.mem_map_of_mem ?_)
  exact (List.mem_erase_of_ne different.symm).mpr second

theorem freshApart {pmm : Pmm.State} {regions : List Span} {live : List Block} {b : Block}
    (h : Inv ⟨pmm,regions,b::live⟩) : ∀ c ∈ live, Apart b.span c.span := by
  obtain ⟨lists,shape⟩ := h.shape
  exact fun c mem => handApart shape _ (List.mem_map_of_mem mem)

theorem liveSmall {pmm : Pmm.State} {regions : List Span} {live : List Block} {b : Block}
    (h : Inv ⟨pmm,regions,live⟩) (mem : b ∈ live) : b.span.stop < 2^64 := by
  obtain ⟨_,shape⟩ := h.shape
  exact shape.small _ (List.mem_map_of_mem mem)

theorem insidePool {x pa : Nat} (small : x < 2^64) (room : pa + poolBytes < 2^64) :
    sub64 (physToVirt x) (physToVirt pa) < poolBytes ↔ pa ≤ x ∧ x < pa + poolBytes := by
  have pool : poolBytes = 32768 := rfl
  rw [pool] at room ⊢
  unfold sub64 physToVirt wrap kernelBase
  omega

section Pool
variable {s : SharedIpc.State} {regions : List Span} {live : List Block}

theorem holderOwn (h : Inv ⟨s.pmm,regions,live⟩) (owns : Owns s live) {i x : Nat}
    (on : (s.channels i).active = true) (low : (s.channels i).sharedPa ≤ x)
    (high : x < (s.channels i).sharedPa + poolBytes) : holder s (physToVirt x) = some i := by
  have room : ∀ j, (s.channels j).active = true → (s.channels j).sharedPa + poolBytes < 2^64 := by
    intro j open'
    rw [poolBlock]
    exact liveSmall h (owns.block j open').2
  have small : x < 2^64 := Nat.lt_trans high (room i on)
  cases found : holder s (physToVirt x) with
  | none =>
      have missed := List.find?_eq_none.mp found i (List.mem_range.mpr (owns.small i on))
      simp [on,(insidePool small (room i on)).mpr ⟨low,high⟩] at missed
  | some j =>
      have both := List.find?_some found
      rw [Bool.and_eq_true,decide_eq_true_eq] at both
      obtain ⟨open',inside⟩ := both
      rw [insidePool small (room j open')] at inside
      refine congrArg some (owns.once j i open' on ?_)
      by_contra different
      have away := liveApart h (owns.block j open').2 (owns.block i on).2 (fun same => different (congrArg Block.pa same))
      rw [poolBlock] at inside high
      simp only [Apart,Span.stop,Block.span,spanOf] at away
      omega

theorem flushedOwn (h : Inv ⟨s.pmm,regions,live⟩) (owns : Owns s live) {i o : Nat}
    (on : (s.channels i).active = true) (inside : o < poolBytes) :
    (flushed s).pmm.mem (physToVirt ((s.channels i).sharedPa + o)) = number (ringByte (s.channels i).ring) 8 o := by
  have room : (s.channels i).sharedPa + poolBytes < 2^64 := by
    rw [poolBlock]
    exact liveSmall h (owns.block i on).2
  have offset : sub64 (physToVirt ((s.channels i).sharedPa + o)) (physToVirt (s.channels i).sharedPa) = o := by
    unfold sub64 physToVirt wrap kernelBase
    omega
  simp only [flushed,holderOwn h owns on (Nat.le_add_right _ o) (Nat.add_lt_add_left inside _),offset]

theorem flushedOther {a : Nat}
    (outside : ∀ i, (s.channels i).active = true → ¬ sub64 a (physToVirt (s.channels i).sharedPa) < poolBytes) :
    (flushed s).pmm.mem a = s.pmm.mem a := by
  have none' : holder s a = none := by
    refine List.find?_eq_none.mpr fun i _ both => ?_
    rw [Bool.and_eq_true,decide_eq_true_eq] at both
    exact outside i both.1 both.2
  simp only [flushed,none']

theorem memoryInv {m : Nat → Nat} (h : Inv ⟨s.pmm,regions,live⟩)
    (links : ∀ lists, Shape s.pmm lists (live.map Block.span) → ∀ k ∈ keys, ∀ x ∈ lists k,
      m (physToVirt x) = s.pmm.mem (physToVirt x) ∧ m (physToVirt x + 8) = s.pmm.mem (physToVirt x + 8)) :
    Inv ⟨{s.pmm with mem := m},regions,live⟩ := by
  obtain ⟨lists,shape⟩ := h.shape
  have nodes : SameNodes s.pmm {s.pmm with mem := m} := ⟨rfl,fun _ => ⟨rfl,rfl⟩⟩
  exact ⟨⟨lists,linksShape (links lists shape) shape⟩,PmmSafety.laidSame nodes h.laid.words h.laid,
    fun x hx => PmmSafety.heldSame nodes (h.held x hx)⟩

theorem flushedInv (h : Inv ⟨s.pmm,regions,live⟩) (owns : Owns s live) : Inv ⟨(flushed s).pmm,regions,live⟩ := by
  refine memoryInv h fun lists shape k hk x listed => ?_
  obtain ⟨xa,xs⟩ := listOwn shape hk x listed
  have away : ∀ i, (s.channels i).active = true →
      ¬ sub64 (physToVirt x) (physToVirt (s.channels i).sharedPa) < poolBytes ∧
        ¬ sub64 (physToVirt x + 8) (physToVirt (s.channels i).sharedPa) < poolBytes := by
    intro i on
    have block := (owns.block i on).2
    rw [poolBlock]
    exact linksApart xa xs (liveSmall h block) (pageLeBlock k.2)
      (listHandApart shape hk x listed _ (List.mem_map_of_mem block))
  exact ⟨flushedOther fun i on => (away i on).1,flushedOther fun i on => (away i on).2⟩

theorem pagesRead (h : Inv ⟨s.pmm,regions,live⟩) (owns : Owns s live) {i : Nat} {m : Nat → Nat}
    (on : (s.channels i).active = true)
    (kept : ∀ o < poolBytes, m (physToVirt ((s.channels i).sharedPa + o)) =
      (flushed s).pmm.mem (physToVirt ((s.channels i).sharedPa + o))) :
    ∀ o < poolBytes, pageByte m (s.channels i).sharedPa o = ringByte (s.channels i).ring o := by
  intro o inside
  have word : o / 8 * 8 < poolBytes := by omega
  rw [pageByte,kept _ word,flushedOwn h owns on word,byteNumber _ (Nat.mod_lt o (by decide))]
  exact congrArg _ (by omega)

end Pool

structure Moved (s t : SharedIpc.State) (regions : List Span) (live : List Block) : Prop where
  inv : Inv ⟨t.pmm,regions,live⟩
  owns : Owns t live
  same : ∀ i, (s.channels i).active = true → (t.channels i).active = true → t.channels i = s.channels i
  kept : ∀ i, (s.channels i).active = true → (t.channels i).active = true → ∀ o < poolBytes,
    t.pmm.mem (physToVirt ((s.channels i).sharedPa + o)) = s.pmm.mem (physToVirt ((s.channels i).sharedPa + o))

section Calls
variable {s : SharedIpc.State} {regions : List Span} {live : List Block}

theorem movedSame (h : Inv ⟨s.pmm,regions,live⟩) (owns : Owns s live) : Moved s s regions live :=
  ⟨h,owns,fun _ _ _ => rfl,fun _ _ _ _ _ => rfl⟩

theorem keptPool {t : Pmm.State} {live' : List Block} {e : PmmSafety.Event} {pa : Nat}
    (kept : PmmSafety.Kept ⟨s.pmm,regions,live⟩ ⟨t,regions,live'⟩ e) (quiet : ∀ x value, e ≠ .write x value)
    (before : ⟨pa,3⟩ ∈ live) (after : ⟨pa,3⟩ ∈ live') {o : Nat} (inside : o < poolBytes) :
    t.mem (physToVirt (pa + o)) = s.pmm.mem (physToVirt (pa + o)) := by
  refine kept _ before after (pa + o) (Nat.le_add_right _ _) ?_ (quiet _)
  rw [poolBlock] at inside
  exact Nat.add_lt_add_left inside _

theorem ownsRest {t : SharedIpc.State} {live' : List Block} (fd : Nat) (owns : Owns s live)
    (others : ∀ i, i ≠ fd → t.channels i = s.channels i) (gone : (t.channels fd).active = false)
    (still : ∀ i, i ≠ fd → (s.channels i).active = true → ⟨(s.channels i).sharedPa,3⟩ ∈ live') : Owns t live' := by
  have rest : ∀ {i}, (t.channels i).active = true → i ≠ fd ∧ (s.channels i).active = true := by
    intro i on
    have different : i ≠ fd := by
      rintro rfl
      rw [gone] at on
      cases on
    exact ⟨different,by rw [← others i different]; exact on⟩
  refine ⟨fun i on => owns.small i (rest on).2,fun i on => ?_,fun i j on on' same => ?_⟩
  · obtain ⟨different,before⟩ := rest on
    rw [others i different]
    exact ⟨(owns.block i before).1,still i different before⟩
  · obtain ⟨different,before⟩ := rest on
    obtain ⟨different',before'⟩ := rest on'
    rw [others i different,others j different'] at same
    exact owns.once i j before before' same

theorem ownsMore {t : SharedIpc.State} {pmm : Pmm.State} {fd pa : Nat} (h : Inv ⟨pmm,regions,⟨pa,3⟩::live⟩)
    (owns : Owns s live) (small : fd < ipcMaxChannels) (taken : pa ≠ 0) (own : (t.channels fd).sharedPa = pa)
    (others : ∀ i, i ≠ fd → t.channels i = s.channels i) : Owns t (⟨pa,3⟩::live) := by
  have fresh : ∀ {i}, i ≠ fd → (t.channels i).active = true → (t.channels i).sharedPa ≠ (t.channels fd).sharedPa := by
    intro i different on same
    rw [own] at same
    rw [others i different] at on same
    have apart := freshApart h _ (owns.block i on).2
    have pos := blockSizePos 3
    simp only [Apart,Span.stop,Block.span,spanOf] at apart
    omega
  refine ⟨fun i on => ?_,fun i on => ?_,fun i j on on' same => ?_⟩
  all_goals by_cases new : i = fd
  · exact new ▸ small
  · rw [others i new] at on
    exact owns.small i on
  · subst new
    rw [own]
    exact ⟨taken,List.mem_cons_self⟩
  · rw [others i new] at on ⊢
    exact ⟨(owns.block i on).1,List.mem_cons_of_mem _ (owns.block i on).2⟩
  · subst new
    by_contra different
    exact fresh (Ne.symm different) on' same.symm
  · by_cases last : j = fd
    · subst last
      exact absurd same (fresh new on)
    · rw [others i new] at on same
      rw [others j last] at on' same
      exact owns.once i j on on' same

theorem zeroElsewhere {m : Nat → Nat} {pa pa' len o : Nat} (small : pa + blockSize 3 < 2^64)
    (small' : pa' + blockSize 3 < 2^64) (apart : Apart (spanOf 3 pa') (spanOf 3 pa)) (short : len ≤ blockSize 3)
    (inside : o < poolBytes) : zeroFill m (physToVirt pa') len (physToVirt (pa + o)) = m (physToVirt (pa + o)) := by
  refine zeroOutside m ?_
  have pool := poolBlock
  simp only [Apart,Span.stop,spanOf] at apart
  have size : blockSize 3 = 32768 := rfl
  unfold sub64 physToVirt wrap kernelBase
  omega

theorem createMoved (creator : CcProc.Pid) (h : Inv ⟨s.pmm,regions,live⟩) (owns : Owns s live) :
    ∃ live', Moved s (ipcCreate s creator).1 regions live' := by
  have stepped : PmmSafety.step ⟨s.pmm,regions,live⟩ (.alloc 3) = some _ := rfl
  obtain ⟨taken,kept⟩ := PmmSafety.allocStep h stepped
  unfold ipcCreate
  cases found : freeChannel s with
  | none => exact ⟨live,movedSame h owns⟩
  | some fd =>
      obtain ⟨small,idle⟩ := freeChannelCases found
      have old : ∀ {i}, (s.channels i).active = true → i ≠ fd := by
        rintro i on rfl
        rw [idle] at on
        cases on
      dsimp only at taken kept ⊢
      by_cases none' : (pmmAllocPages s.pmm 3).2 = 0
      · rw [if_pos none'] at taken kept ⊢
        refine ⟨live,taken,ownsRest fd owns (fun i different => setChannelOther _ _ different) ?_
          (fun i _ on => (owns.block i on).2),fun i on _ => setChannelOther _ _ (old on),fun i on _ o inside => ?_⟩
        · rw [setChannelSelf]
        · exact keptPool kept (fun _ _ => nofun) (owns.block i on).2 (owns.block i on).2 inside
      · rw [if_neg none'] at taken kept ⊢
        have inv := zeroedInv (b := ⟨(pmmAllocPages s.pmm 3).2,3⟩) List.mem_cons_self rfl taken
        refine ⟨⟨(pmmAllocPages s.pmm 3).2,3⟩::live,inv,?_,fun i on _ => setChannelOther _ _ (old on),
          fun i on _ o inside => ?_⟩
        · exact ownsMore inv owns small none' (by rw [setChannelSelf]) (fun i different => setChannelOther _ _ different)
        · have block := (owns.block i on).2
          have here := keptPool kept (fun _ _ => nofun) block (List.mem_cons_of_mem _ block) inside
          refine Eq.trans (zeroElsewhere (liveSmall h block) (liveSmall taken List.mem_cons_self)
            (freshApart taken _ block) (Nat.le_of_eq poolBlock) inside) here

theorem closeMoved {fd : Int} (h : Inv ⟨s.pmm,regions,live⟩) (owns : Owns s live)
    (listed : ∀ i ∈ channelOf fd, (s.channels i).active = true →
      PmmSafety.Sound ⟨s.pmm,[],[]⟩ (.free ⟨(s.channels i).sharedPa,3⟩)) :
    ∃ live', Moved s (ipcClose s fd) regions live' := by
  rcases closeCases s fd with same | ⟨i,rfl,small,off,others⟩
  · rw [same]
    exact ⟨live,movedSame h owns⟩
  by_cases on : (s.channels i).active = true
  case neg =>
    have same : ipcClose s i = s := by
      rw [ipcClose,channelOfNat small]
      exact if_pos (by simpa using on)
    rw [same]
    exact ⟨live,movedSame h owns⟩
  obtain ⟨nonzero,held⟩ := owns.block i on
  have sound := listed i (channelOfNat small) on
  have stepped : PmmSafety.step ⟨s.pmm,regions,live⟩ (.free ⟨(s.channels i).sharedPa,3⟩) = some _ := rfl
  obtain ⟨freed,kept⟩ := PmmSafety.stepInv (e := .free ⟨(s.channels i).sharedPa,3⟩) h held sound stepped
  obtain ⟨_,_,left,_,_,_,shape,_⟩ := closedShape (c := ⟨s,regions,live,i,small,on,nonzero,h,held⟩) sound
  have closed : (ipcClose s i).pmm = {pmmFreePages s.pmm (s.channels i).sharedPa 3 with
      mem := zeroFill (pmmFreePages s.pmm (s.channels i).sharedPa 3).mem (physToVirt (s.channels i).sharedPa)
        ringHdrSize} := by
    rw [ipcClose,channelOfNat small]
    dsimp only
    rw [if_neg (by simp [on])]
    rfl
  have nodes : SameNodes (pmmFreePages s.pmm (s.channels i).sharedPa 3) (ipcClose s i).pmm := by
    rw [closed]
    exact ⟨rfl,fun _ => ⟨rfl,rfl⟩⟩
  have still : ∀ j, j ≠ i → (s.channels j).active = true →
      ⟨(s.channels j).sharedPa,3⟩ ∈ live.erase ⟨(s.channels i).sharedPa,3⟩ := by
    intro j different open'
    refine (List.mem_erase_of_ne fun same => ?_).mpr (owns.block j open').2
    exact different (owns.once j i open' on (congrArg Block.pa same))
  refine ⟨live.erase ⟨(s.channels i).sharedPa,3⟩,⟨⟨left,shape⟩,?_,fun x hx => PmmSafety.heldSame nodes (freed.held x hx)⟩,
    ownsRest i owns others off still,fun j _ open' => ?_,fun j open' after o inside => ?_⟩
  · refine PmmSafety.laidSame nodes ?_ freed.laid
    rw [closed]
    exact freed.laid.words
  · exact others j (fun same => by rw [same,off] at open'; cases open')
  · have different : j ≠ i := fun same => by rw [same,off] at after; cases after
    have block := still j different open'
    have here := keptPool kept (fun _ _ => nofun) (owns.block j open').2 block inside
    rw [closed]
    refine Eq.trans (zeroElsewhere (liveSmall h (owns.block j open').2) (liveSmall h held)
      (liveApart h held (owns.block j open').2 fun same => ?_) (by decide) inside) here
    exact different (owns.once j i open' on (congrArg Block.pa same).symm)

end Calls

structure Good (hmac : Key → List Byte → Key) (w : World) : Prop where
  sound : ∀ i, SharedIpcRuns.Sound hmac w i
  pool : ∃ regions live, Inv ⟨w.ipc.pmm,regions,live⟩ ∧ Owns w.ipc live

def Alike (s t : SharedIpc.State) : Prop := t.pmm = s.pmm ∧
  ∀ i, (t.channels i).active = (s.channels i).active ∧ (t.channels i).sharedPa = (s.channels i).sharedPa

theorem alikePool {s t : SharedIpc.State} (alike : Alike s t)
    (pool : ∃ regions live, Inv ⟨s.pmm,regions,live⟩ ∧ Owns s live) :
    ∃ regions live, Inv ⟨t.pmm,regions,live⟩ ∧ Owns t live := by
  obtain ⟨regions,live,h,owns⟩ := pool
  obtain ⟨pmm,same⟩ := alike
  rw [pmm]
  refine ⟨regions,live,h,fun i on => ?_,fun i on => ?_,fun i j on on' eq => ?_⟩
  · exact owns.small i ((same i).1 ▸ on)
  · rw [(same i).2]
    exact owns.block i ((same i).1 ▸ on)
  · rw [(same i).2,(same j).2] at eq
    exact owns.once i j ((same i).1 ▸ on) ((same j).1 ▸ on') eq

theorem setAlike (s : SharedIpc.State) (i : Nat) {ch : Channel} (active : ch.active = (s.channels i).active)
    (place : ch.sharedPa = (s.channels i).sharedPa) : Alike s (setChannel s i ch) := by
  refine ⟨rfl,fun j => ?_⟩
  by_cases same : j = i
  · subst same
    rw [setChannelSelf]
    exact ⟨active,place⟩
  · rw [setChannelOther _ _ same]
    exact ⟨rfl,rfl⟩

section Keyed
variable {hmac : Key → List Byte → Key} {hkdf : List Byte → List Byte → Key}

theorem reloadedGood {w w1 : World} {regions : List Span} {live live' : List Block}
    (h : Inv ⟨w.ipc.pmm,regions,live⟩) (owns : Owns w.ipc live) (moved : Moved (flushed w.ipc) w1.ipc regions live')
    (sound : ∀ i, SharedIpcRuns.Sound hmac w1 i) : Good hmac {w1 with ipc := reloaded w.ipc w1.ipc} := by
  refine ⟨fun i => ?_,alikePool (s := w1.ipc) ⟨rfl,fun i => ?_⟩ ⟨regions,live',moved.inv,moved.owns⟩⟩
  · have before := sound i
    unfold SharedIpcRuns.Sound reloaded at *
    dsimp only
    split
    · next both =>
      rw [Bool.and_eq_true] at both
      obtain ⟨on,on'⟩ := both
      intro _
      have same : w1.ipc.channels i = w.ipc.channels i := moved.same i on on'
      have bytes := pagesRead (m := w1.ipc.pmm.mem) h owns on (fun o inside => moved.kept i on on' o inside)
      have queued := before on'
      rw [same] at queued ⊢
      exact queuedRead bytes queued
    · exact before
  · unfold reloaded
    dsimp only
    split <;> exact ⟨rfl,rfl⟩

theorem stepGood {w w' : World} {c : Call} (h : Good hmac w) (met : Met hkdf w c)
    (stepped : step hmac hkdf w c = some w') : Good hmac w' := by
  obtain ⟨regions,live,inv,owns⟩ := h.pool
  have owns' : Owns (flushed w.ipc) live := ⟨owns.small,owns.block,owns.once⟩
  cases c with
  | create creator =>
      cases Option.some.inj stepped
      obtain ⟨live',moved⟩ := createMoved creator (flushedInv inv owns) owns'
      exact reloadedGood inv owns moved fun i => SharedIpcRuns.createSound (w := ⟨flushed w.ipc,_,_⟩) (h.sound i)
  | close fd =>
      cases Option.some.inj stepped
      obtain ⟨live',moved⟩ := closeMoved (flushedInv inv owns) owns' met.2
      exact reloadedGood inv owns moved fun i => SharedIpcRuns.closeSound (w := ⟨flushed w.ipc,_,_⟩) (h.sound i)
  | connect fd peer =>
      refine ⟨fun i => SharedIpcRuns.stepSound (h.sound i) met.1 stepped,alikePool ?_ h.pool⟩
      cases Option.some.inj stepped
      rcases connectCases hkdf w.ipc fd peer with ⟨same,_⟩ | ⟨i,_,_,_,answer⟩
      · rw [same]
        exact ⟨rfl,fun _ => ⟨rfl,rfl⟩⟩
      · rw [answer]
        exact setAlike _ _ rfl rfl
  | send fd sender data =>
      refine ⟨fun i => SharedIpcRuns.stepSound (h.sound i) met.1 stepped,alikePool ?_ h.pool⟩
      cases Option.some.inj stepped
      rcases SharedIpcRuns.sendStep hmac w fd sender data with same | ⟨i,m,_,_,next⟩
      · rw [same]
        exact ⟨rfl,fun _ => ⟨rfl,rfl⟩⟩
      · rw [next]
        exact setAlike _ _ rfl rfl
  | recv fd buf =>
      refine ⟨fun i => SharedIpcRuns.stepSound (h.sound i) met.1 stepped,alikePool ?_ h.pool⟩
      cases Option.some.inj stepped
      rcases SharedIpcRuns.recvStep hmac w fd buf with ⟨same,_⟩ | ⟨i,buflen,_,_,_,_,next⟩
      · rw [same]
        exact ⟨rfl,fun _ => ⟨rfl,rfl⟩⟩
      · rw [next]
        exact setAlike _ _ rfl rfl

end Keyed

theorem settledNeverAlarms (hmac : Key → List Byte → Key) (hkdf : List Byte → List Byte → Key)
    (fingerprint : Key) {pmm : Pmm.State} {regions : List Span} {live : List Block}
    (pool : Inv ⟨pmm,regions,live⟩) (calls : List Call)
    (met : Guarded (step hmac hkdf) (Met hkdf) (start fingerprint pmm) calls) (w : World)
    (ran : run (step hmac hkdf) (start fingerprint pmm) calls = some w) :
    (∀ fd buf, (ipcRecv hmac w.ipc fd buf).2.1 ≠ -(ebadmsg : Int)) ∧
    ∀ i n, i < ipcMaxChannels → (w.ipc.channels i).active = true →
      (w.ipc.channels i).ring.readSeq < (w.ipc.channels i).ring.writeSeq → 446 ≤ n →
      ∃ m, (ipcRecv hmac w.ipc i (some n)).2 = ((m.payload.length : Int),some m) := by
  have idle : Owns (start fingerprint pmm).ipc live := ⟨nofun,nofun,nofun⟩
  have good : Good hmac w := guardedInvariant (Good hmac) (fun _ _ _ h ok stepped => stepGood h ok stepped)
    ⟨SharedIpcRuns.startSound hmac fingerprint pmm,regions,live,pool,idle⟩ met ran
  exact ⟨recvVerifies good.sound,fun i n small on ready room => recvTakes (good.sound i) small on ready room⟩

def reconnected : List Call :=
  [.create 7,.create 1,.connect 1 2,.send 1 1 (some [5]),.close 0,.recv 1 (some 446),.connect 1 3,
    .send 1 1 (some [6])]

theorem settledNeverAlarmsReconnected :
    ∃ w, run (step SharedIpcRuns.tagOfKey SharedIpcRuns.keyOfPids)
        (start zeroKey (SharedIpcClose.oneRegion 0x10000)) reconnected = some w ∧
      (w.sent 1).length = 2 ∧ (w.received 1).length = 1 ∧
      ∀ fd buf, (ipcRecv SharedIpcRuns.tagOfKey w.ipc fd buf).2.1 ≠ -(ebadmsg : Int) := by
  have ran : (run (step SharedIpcRuns.tagOfKey SharedIpcRuns.keyOfPids)
      (start zeroKey (SharedIpcClose.oneRegion 0x10000)) reconnected).map
        (fun w => ((w.sent 1).length,(w.received 1).length)) = some (2,1) := by decide +kernel
  obtain ⟨w,here,counts⟩ := Option.map_eq_some_iff.mp ran
  obtain ⟨sent,received⟩ := Prod.mk.inj counts
  exact ⟨w,here,sent,received,
    (settledNeverAlarms SharedIpcRuns.tagOfKey SharedIpcRuns.keyOfPids zeroKey
      (SharedIpcClose.oneRegionInv SharedIpcClose.opensBeside) reconnected (by decide +kernel) w here).1⟩

theorem reconnectRaisesAlarm :
    (run (step SharedIpcRuns.tagOfKey SharedIpcRuns.keyOfPids) (start zeroKey SharedIpcRuns.oneBlock)
        [.create 1,.connect 0 2,.send 0 1 (some [5]),.connect 0 3]).map
      (fun w => (((ipcRecv SharedIpcRuns.tagOfKey w.ipc 0 (some 446)).2.1),
        (ipcRecv SharedIpcRuns.tagOfKey (ipcRecv SharedIpcRuns.tagOfKey w.ipc 0 (some 446)).1 0 (some 446)).2.1)) =
      some (-74,-74) := by
  decide +kernel

end Nekros.SharedIpcMemory
