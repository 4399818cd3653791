import Nekros.PmmSafety
import Nekros.SharedIpc

/-! What `ipc_close` leaves of the page allocator. It frees the shared pages first and
erases the header at their start afterwards, when the first two words there may be the
links of a free block. -/
namespace Nekros.SharedIpcClose
open Words Pmm Spans PmmShape PmmLoops Errno
open PmmSafety (Block Inv Sound Free WellFormed shapeWellFormed freeCovers nodeOfInside)
open SharedIpc (ipcClose ipcMaxChannels ipcPagePool ringHdrSize zeroFill channelOfNat)
open LinkChain (Chain)
open Function (update)

theorem zeroInside (m : Nat → Nat) {start len a : Nat} (inside : sub64 a start < len) :
    zeroFill m start len a = 0 := by
  unfold zeroFill
  rw [if_pos inside]

theorem zeroOutside (m : Nat → Nat) {start len a : Nat} (outside : ¬ sub64 a start < len) :
    zeroFill m start len a = m a := by
  unfold zeroFill
  rw [if_neg outside]

theorem linksOutside {x pa : Nat} (xa : x % pageSize = 0) (aligned : pa % pageSize = 0) (xs : x < 2^64)
    (small : pa < 2^64) (different : x ≠ pa) :
    ¬ sub64 (physToVirt x) (physToVirt pa) < ringHdrSize ∧
      ¬ sub64 (physToVirt x + 8) (physToVirt pa) < ringHdrSize := by
  unfold sub64 physToVirt wrap kernelBase ringHdrSize
  unfold pageSize at xa aligned
  omega

theorem linksInside (p : Nat) : sub64 p p < ringHdrSize ∧ sub64 (p + 8) p < ringHdrSize := by
  have next : p + 8 + 2^64 - p = 2^64 + 8 := by omega
  rw [sub64,sub64,next,Nat.add_sub_cancel_left]
  decide

theorem linksShape {s : State} {m : Nat → Nat} {lists hand}
    (same : ∀ k ∈ keys, ∀ x ∈ lists k,
      m (physToVirt x) = s.mem (physToVirt x) ∧ m (physToVirt x + 8) = s.mem (physToVirt x + 8))
    (h : Shape s lists hand) : Shape {s with mem := m} lists hand := by
  refine ⟨fun k hk => ?_,h.inNode,h.bounded,h.small,h.packed⟩
  refine LinkChain.chainFrame (fun p hp => ?_) (h.chain k hk)
  obtain ⟨x,listed,rfl⟩ := List.mem_map.mp hp
  exact same k hk x listed

theorem erasedShape {s : State} {m : Nat → Nat} {lists hand pa} (aligned : pa % pageSize = 0)
    (small : pa < 2^64) (unlisted : ∀ k ∈ keys, pa ∉ lists k)
    (memory : m = zeroFill s.mem (physToVirt pa) ringHdrSize) (h : Shape s lists hand) :
    Shape {s with mem := m} lists hand := by
  refine linksShape (fun k hk x listed => ?_) h
  obtain ⟨xa,xs⟩ := listOwn h hk x listed
  have away := linksOutside xa aligned xs small (fun e => unlisted k hk (e ▸ listed))
  rw [memory]
  exact ⟨zeroOutside s.mem away.1,zeroOutside s.mem away.2⟩

theorem pushErased {m : Nat → Nat} {head p : Nat}
    (away : head ≠ 0 → ¬ sub64 (head + 8) p < ringHdrSize) :
    zeroFill (LinkChain.push m head p).1 p ringHdrSize =
      if head ≠ 0 then update (zeroFill m p ringHdrSize) (head + 8) p else zeroFill m p ringHdrSize := by
  have plain : zeroFill (update (update m p head) (p + 8) 0) p ringHdrSize = zeroFill m p ringHdrSize := by
    funext a
    by_cases inside : sub64 a p < ringHdrSize
    · rw [zeroInside _ inside,zeroInside _ inside]
    · have next : a ≠ p := fun e => inside (by rw [e]; exact (linksInside p).1)
      have prev : a ≠ p + 8 := fun e => inside (by rw [e]; exact (linksInside p).2)
      rw [zeroOutside _ inside,zeroOutside _ inside,Function.update_of_ne prev,Function.update_of_ne next]
  unfold LinkChain.push
  dsimp only
  by_cases none : head = 0
  · rw [if_neg (not_not.mpr none),if_neg (not_not.mpr none)]
    exact plain
  · rw [if_pos none,if_pos none,← plain]
    funext a
    by_cases same : a = head + 8
    · subst same
      rw [zeroOutside _ (away none),Function.update_self,Function.update_self]
    · rw [Function.update_of_ne same]
      unfold zeroFill
      rw [Function.update_of_ne same]

theorem updateNone (lists : Lists) (k : Nat × Nat) :
    (freeSpans (update lists k [])).Sublist (freeSpans lists) := by
  refine List.Sublist.flatMap_right keys (fun j _ => ?_)
  by_cases same : j = k
  · subst same
    simp
  · rw [Function.update_of_ne same]

theorem updateCons {lists : Lists} {k : Nat × Nat} (hk : k ∈ keys) (pa : Nat) (l : List Nat) :
    (freeSpans (update lists k (pa::l))).Perm (spanOf k.2 pa::freeSpans (update lists k l)) := by
  have own : (update lists k (pa::l) k).Perm (pa::l) := by rw [Function.update_self]
  have taken := freeTake hk own
  rwa [Function.update_idem] at taken

theorem handUnlisted {s lists hand sp} (h : Shape s lists (sp::hand)) {pa : Nat}
    (low : sp.start ≤ pa) (high : pa < sp.stop) : ∀ k ∈ keys, pa ∉ lists k := by
  intro k hk mem
  have full : Packed (sp::(freeSpans lists ++ hand)) := packedPerm List.perm_middle h.packed
  have away := packedHead full _ (List.mem_append_left _ (freeMember hk mem))
  have size := blockSizePos k.2
  simp only [Apart,Span.stop,spanOf] at away high
  omega

theorem aloneShape {s : State} {m : Nat → Nat} {lists hand k pa} (hk : k ∈ keys) (count : k.1 < s.nnodes)
    (aligned : pa % pageSize = 0) (inside : InNode s k.1 (spanOf k.2 pa)) (nonzero : physToVirt pa ≠ 0)
    (memory : m = zeroFill (flPush s k.1 k.2 pa).mem (physToVirt pa) ringHdrSize)
    (h : Shape s lists (spanOf k.2 pa::hand)) :
    Shape {flPush s k.1 k.2 pa with mem := m} (update lists k [pa]) hand := by
  have limit := h.bounded k.1 count
  have stop : pa + blockSize k.2 ≤ (s.nodes k.1).limit := inside.2
  have pos := blockSizePos k.2
  have small : pa < 2^64 := by omega
  have unlisted := handUnlisted h (Nat.le_refl pa) (Nat.lt_add_of_pos_right pos)
  obtain ⟨m',memory'⟩ : ∃ m', m' = zeroFill s.mem (physToVirt pa) ringHdrSize := ⟨_,rfl⟩
  have away : (s.nodes k.1).free k.2 ≠ 0 →
      ¬ sub64 ((s.nodes k.1).free k.2 + 8) (physToVirt pa) < ringHdrSize := by
    intro found
    obtain ⟨rest,split⟩ := LinkChain.chainHead (h.chain k hk) found
    obtain ⟨x,_,listed,head,_⟩ := List.map_eq_cons_iff.mp split
    have member : x ∈ lists k := by rw [listed]; exact List.mem_cons_self
    obtain ⟨xa,xs⟩ := listOwn h hk x member
    rw [← head]
    exact (linksOutside xa aligned xs small (fun e => unlisted k hk (e ▸ member))).2
  have written := memory.trans (pushErased away)
  rw [← memory'] at written
  have changes : LinkChain.Changes m' m ((lists k).map physToVirt) := by
    intro a changed
    rw [written] at changed
    by_cases found : (s.nodes k.1).free k.2 = 0
    · rw [if_neg (not_not.mpr found)] at changed
      exact absurd rfl changed
    · rw [if_pos found] at changed
      obtain ⟨rest,split⟩ := LinkChain.chainHead (h.chain k hk) found
      refine ⟨_,by rw [split]; exact List.mem_cons_self,.inr ?_⟩
      by_contra other
      exact changed (Function.update_of_ne other _ _)
  have links : m (physToVirt pa) = 0 ∧ m (physToVirt pa + 8) = 0 := by
    rw [memory]
    exact ⟨zeroInside _ (linksInside (physToVirt pa)).1,zeroInside _ (linksInside (physToVirt pa)).2⟩
  have chain : Chain m 0 (physToVirt pa) ([pa].map physToVirt) := ⟨rfl,nonzero,links.2,links.1⟩
  have step : ListStep {s with mem := m'} {flPush s k.1 k.2 pa with mem := m} k (lists k) [pa] :=
    setHeadStep changes chain
  refine listStepShape hk (erasedShape aligned small unlisted memory' h) step (listOwn h hk)
    (fun j hj different x hx => listsApart h hk hj different hx) ?_ (shapeTail h).small ?_
  · intro x hx
    obtain rfl := List.mem_singleton.mp hx
    exact ⟨count,aligned,inside⟩
  · have less : (spanOf k.2 pa::(freeSpans (update lists k []) ++ hand)).Sublist
        (spanOf k.2 pa::(freeSpans lists ++ hand)) :=
      ((updateNone lists k).append_right hand).cons_cons _
    have packed := packedSublist less (packedPerm List.perm_middle h.packed)
    exact packedPerm ((updateCons hk pa []).symm.append_right hand) packed

def leftLists (lists : Lists) (k : Nat × Nat) (pa pushedPa : Nat) : Lists :=
  if physToVirt pushedPa ≠ 0 ∧ pushedPa = pa then update lists k [pa] else pushed lists k pushedPa

theorem leftShape {t : State} {m : Nat → Nat} {lists hand k pa big} (hk : k ∈ keys) (count : k.1 < t.nnodes)
    (aligned : pa % pageSize = 0) (bigAligned : big % pageSize = 0) (inside : InNode t k.1 (spanOf k.2 big))
    (low : big ≤ pa) (high : pa < (spanOf k.2 big).stop)
    (memory : m = zeroFill (flPush t k.1 k.2 big).mem (physToVirt pa) ringHdrSize)
    (h : Shape t lists (spanOf k.2 big::hand)) :
    Shape {flPush t k.1 k.2 big with mem := m} (leftLists lists k pa big) hand := by
  unfold leftLists
  by_cases own : physToVirt big ≠ 0 ∧ big = pa
  · rw [if_pos own]
    obtain ⟨nonzero,rfl⟩ := own
    exact aloneShape hk count aligned inside nonzero memory h
  · rw [if_neg own]
    have limit := h.bounded k.1 count
    have stop : (spanOf k.2 big).stop ≤ (t.nodes k.1).limit := inside.2
    have unlisted := handUnlisted h low high
    obtain ⟨shape,_⟩ := pushShape hk count bigAligned inside h
    refine erasedShape aligned (by omega) (fun j hj mem => ?_) memory shape
    unfold pushed at mem
    by_cases here : j = k
    · subst here
      rw [Function.update_self] at mem
      split at mem
      · cases mem
      · rename_i nonzero
        rcases List.mem_cons.mp mem with rfl | later
        · exact own ⟨nonzero,rfl⟩
        · exact unlisted j hj later
    · rw [Function.update_of_ne here] at mem
      exact unlisted j hj mem

theorem leftCovers {lists : Lists} {hand : List Span} {k : Nat × Nat} {pa big : Nat} (hk : k ∈ keys)
    (packed : Packed (freeSpans lists ++ spanOf k.2 big::hand)) :
    (∀ x, Covers (freeSpans (leftLists lists k pa big)) x ↔ Covers (spanOf k.2 big::freeSpans lists) x) ↔
      physToVirt big ≠ 0 ∧ (big ≠ pa ∨ lists k = []) := by
  have full : Packed (spanOf k.2 big::(freeSpans lists ++ hand)) := packedPerm List.perm_middle packed
  have pool : Packed (spanOf k.2 big::freeSpans lists) :=
    packedSublist ((List.sublist_append_left _ _).cons_cons _) full
  have pos := blockSizePos k.2
  unfold leftLists pushed
  by_cases null : physToVirt big = 0
  · rw [if_neg (fun own => own.1 null),if_pos null]
    refine iff_of_false (fun same => ?_) (fun spared => spared.1 null)
    have lost := coversOnce pool (Nat.le_refl big) (Nat.lt_add_of_pos_right pos)
    have kept := (same big).mpr (coversCons.mpr (.inl ⟨Nat.le_refl _,Nat.lt_add_of_pos_right pos⟩))
    exact lost (coversSublist (updateNone lists k) kept)
  · by_cases own : big = pa
    · subst own
      rw [if_pos ⟨null,rfl⟩]
      constructor
      · intro same
        refine ⟨null,.inr ?_⟩
        cases listed : lists k with
        | nil => rfl
        | cons y rest =>
            exfalso
            -- the block that was first on the list is in the merged block or on another place
            have first : (freeSpans lists).Perm (spanOf k.2 y::freeSpans (update lists k rest)) :=
              freeTake hk (by rw [listed])
            have moved : Packed (spanOf k.2 y::spanOf k.2 big::freeSpans (update lists k rest)) :=
              packedPerm ((first.cons _).trans (List.Perm.swap _ _ _)) pool
            have before : Covers (spanOf k.2 big::freeSpans lists) y := by
              refine coversCons.mpr (.inr ((coversPerm first y).mpr (coversCons.mpr (.inl ?_))))
              exact ⟨Nat.le_refl _,Nat.lt_add_of_pos_right pos⟩
            have after := (coversPerm (updateCons hk big []) y).mp ((same y).mpr before)
            have less : (freeSpans (update lists k [])).Sublist (freeSpans (update lists k rest)) := by
              have emptied := updateNone (update lists k rest) k
              rwa [Function.update_idem] at emptied
            refine coversOnce moved (Nat.le_refl y) (Nat.lt_add_of_pos_right pos) ?_
            exact coversSublist (less.cons_cons _) after
      · rintro ⟨_,different | empty⟩
        · exact absurd rfl different
        · intro x
          rw [coversPerm (updateCons hk big []) x]
          have same : update lists k [] = lists := by rw [← empty,Function.update_eq_self]
          rw [same]
    · rw [if_neg (fun e => own e.2),if_neg null]
      refine iff_of_true (fun x => ?_) ⟨null,.inl own⟩
      rw [coversPerm (updateCons hk big (lists k)) x,Function.update_eq_self]

def Erased (s : State) (i pa ord : Nat) (t : State) : Prop :=
  ∃ m, m = zeroFill (freeIn s i pa ord).mem (physToVirt pa) ringHdrSize ∧ t = {freeIn s i pa ord with mem := m}

theorem erasedFree {s : State} {lists hand i pa ord} (node : i < maxNodes) (count : i < s.nnodes)
    (top : ord ≤ maxOrder) (aligned : pa % pageSize = 0) (inside : InNode s i (spanOf ord pa))
    (merges : Merges (Linked s i) (s.nodes i).base (s.nodes i).limit (bitmapClearBlock s.bitmap pa ord)
      (maxOrder-ord) pa ord)
    (h : Shape s lists (spanOf ord pa::hand)) {t : State} (after : Erased s i pa ord t)
    {result : State × Nat × Nat} (merged : coalesce (maxOrder-ord) (unmark s pa ord) i pa ord = result) :
    t.nnodes = s.nnodes ∧ ∃ left, Shape t left hand ∧
      ((∀ x, Covers (freeSpans left) x ↔ Covers (spanOf ord pa::freeSpans lists) x) ↔
        physToVirt result.2.1 ≠ 0 ∧ (result.2.1 ≠ pa ∨ (s.nodes i).free result.2.2 = 0)) := by
  obtain ⟨m,memory,state⟩ := after
  obtain ⟨lists',⟨whole,above,covers,_,within⟩⟩ := freeCoalesced node count top aligned inside h merges
  have pushes : freeIn s i pa ord = takeBack (flPush result.1 i result.2.2 result.2.1) i result.2.2 := by
    rw [← merged]
    rfl
  rw [merged] at whole above covers within
  have pos := blockSizePos ord
  have hk : (i,result.2.2) ∈ keys := memKeys.mpr ⟨node,whole.top⟩
  have left := leftShape (k := (i,result.2.2)) hk (frameCount whole.frame ▸ count) aligned whole.aligned
    ((frameInNode whole.frame).mpr whole.inside) within.1
    (Nat.lt_of_lt_of_le (Nat.lt_add_of_pos_right pos) within.2) (memory.trans (by rw [pushes]; rfl)) whole.shape
  refine ⟨?_,leftLists lists' (i,result.2.2) pa result.2.1,?_,?_⟩
  · have unchanged : result.1.nnodes = (unmark s pa ord).nnodes := frameCount whole.frame
    rw [state,pushes]
    exact unchanged
  · rw [state,pushes]
    exact shapeCongr (s := addFreePages {flPush result.1 i result.2.2 result.2.1 with mem := m} i
      (1 <<< result.2.2)) rfl rfl (fun _ => rfl) (fun _ => ⟨rfl,rfl⟩) (setNodeShape rfl rfl rfl left)
  · have empty := listEmpty hk h
    rw [← above result.2.2 (Nat.le_refl _)] at empty
    rw [empty,← leftCovers hk whole.shape.packed]
    exact forall_congr' (fun x => by rw [covers x])

structure Closing where
  ipc : SharedIpc.State
  regions : List Span
  live : List Block
  fd : Nat
  small : fd < ipcMaxChannels
  active : (ipc.channels fd).active = true
  allocated : (ipc.channels fd).sharedPa ≠ 0
  inv : Inv ⟨ipc.pmm,regions,live⟩
  held : ⟨(ipc.channels fd).sharedPa,3⟩ ∈ live

def Closing.pa (c : Closing) : Nat := (c.ipc.channels c.fd).sharedPa

def Closing.after (c : Closing) : State := (ipcClose c.ipc c.fd).pmm

structure Intact (c : Closing) : Prop where
  lists : WellFormed c.after
  pages : ∀ x, Free c.after x ↔ Free c.ipc.pmm x ∨ (c.pa ≤ x ∧ x < c.pa + ipcPagePool * pageSize)

def Closing.merged (c : Closing) (i : Nat) : State × Nat × Nat :=
  coalesce (maxOrder-3) (unmark c.ipc.pmm c.pa 3) i c.pa 3

/- While the pages are merged, each buddy that the bitmap calls free is on the list of its order. -/
def Listed (c : Closing) : Prop := Sound ⟨c.ipc.pmm,c.regions,c.live⟩ (.free ⟨c.pa,3⟩)

def Spared (c : Closing) : Prop :=
  ∀ i ∈ pmmNodeOf c.ipc.pmm c.pa, physToVirt (c.merged i).2.1 ≠ 0 ∧
    ((c.merged i).2.1 ≠ c.pa ∨ (c.ipc.pmm.nodes i).free (c.merged i).2.2 = 0)

theorem afterState (c : Closing) {i : Nat} (node : pmmNodeOf c.ipc.pmm c.pa = some i) :
    Erased c.ipc.pmm i c.pa 3 c.after := by
  refine ⟨_,rfl,?_⟩
  have freed : pmmFreePages c.ipc.pmm c.pa 3 = freeIn c.ipc.pmm i c.pa 3 := by
    unfold pmmFreePages
    rw [if_neg (by unfold maxOrder; exact not_or.mpr ⟨c.allocated,by decide⟩),node]
    rfl
  unfold Closing.after ipcClose
  rw [channelOfNat c.small]
  dsimp only
  rw [if_neg (by simp [c.active])]
  rw [← freed]
  rfl

theorem closedShape {c : Closing} (listed : Listed c) :
    ∃ i lists left, pmmNodeOf c.ipc.pmm c.pa = some i ∧ Shape c.ipc.pmm lists (c.live.map Block.span) ∧
      c.after.nnodes = c.ipc.pmm.nnodes ∧ Shape c.after left ((c.live.erase ⟨c.pa,3⟩).map Block.span) ∧
      ((∀ x, Covers (freeSpans left) x ↔ Covers (spanOf 3 c.pa::freeSpans lists) x) ↔
        physToVirt (c.merged i).2.1 ≠ 0 ∧
          ((c.merged i).2.1 ≠ c.pa ∨ (c.ipc.pmm.nodes i).free (c.merged i).2.2 = 0)) := by
  have free : ∃ lists, Shape c.ipc.pmm lists (c.live.map Block.span) := c.inv.shape
  have block : PmmSafety.Held c.ipc.pmm ⟨c.pa,3⟩ := c.inv.held _ c.held
  have nodes : c.ipc.pmm.nnodes ≤ maxNodes := c.inv.laid.count
  obtain ⟨lists,shape⟩ := free
  obtain ⟨_,(aligned : c.pa % pageSize = 0),i,count,(inside : InNode c.ipc.pmm i (spanOf 3 c.pa))⟩ := block
  have stop : c.pa + blockSize 3 ≤ (c.ipc.pmm.nodes i).limit := inside.2
  have pos := blockSizePos 3
  have node : pmmNodeOf c.ipc.pmm c.pa = some i := nodeOfInside c.inv.laid count inside.1 (by omega)
  have taken : Shape c.ipc.pmm lists (spanOf 3 c.pa::(c.live.erase ⟨c.pa,3⟩).map Block.span) :=
    shapePerm ((List.perm_cons_erase c.held).map Block.span) shape
  obtain ⟨same,left,after,covers⟩ := erasedFree (Nat.lt_of_lt_of_le count nodes) count (by decide) aligned
    inside (listed i node) taken (afterState c node) rfl
  exact ⟨i,lists,left,node,shape,same,after,covers⟩

theorem listedIntact {c : Closing} (listed : Listed c) : WellFormed c.after ∧ (Intact c ↔ Spared c) := by
  have nodes : c.ipc.pmm.nnodes ≤ maxNodes := c.inv.laid.count
  obtain ⟨i,lists,left,node,shape,same,after,covers⟩ := closedShape listed
  have nodes' : c.after.nnodes ≤ maxNodes := Nat.le_trans (Nat.le_of_eq same) nodes
  have formed := shapeWellFormed nodes' after
  have pages : (∀ x, Free c.after x ↔ Free c.ipc.pmm x ∨ (c.pa ≤ x ∧ x < c.pa + ipcPagePool * pageSize)) ↔
      ∀ x, Covers (freeSpans left) x ↔ Covers (spanOf 3 c.pa::freeSpans lists) x := by
    have size : ipcPagePool * pageSize = blockSize 3 := by decide
    refine forall_congr' (fun x => ?_)
    rw [freeCovers nodes' after,freeCovers nodes shape,coversCons,or_comm,size]
    rfl
  have spared : Spared c ↔ physToVirt (c.merged i).2.1 ≠ 0 ∧
      ((c.merged i).2.1 ≠ c.pa ∨ (c.ipc.pmm.nodes i).free (c.merged i).2.2 = 0) := by
    unfold Spared
    rw [node]
    exact ⟨fun h => h i rfl,fun h j found => Option.some.inj found ▸ h⟩
  refine ⟨formed,?_⟩
  rw [spared]
  exact ⟨fun intact => covers.mp (pages.mp intact.pages),fun h => ⟨formed,pages.mpr (covers.mpr h)⟩⟩

theorem closeIntact (c : Closing) :
    (Listed c ∧ Spared c → Intact c) ∧ (Listed c → WellFormed c.after ∧ (Intact c → Spared c)) := by
  refine ⟨fun ⟨listed,spared⟩ => (listedIntact listed).2.mpr spared,fun listed => ?_⟩
  exact ⟨(listedIntact listed).1,(listedIntact listed).2.mp⟩

theorem linksApart {x pa size len : Nat} (xa : x % pageSize = 0) (xs : x < 2^64) (small : pa + len < 2^64)
    (page : pageSize ≤ size) (away : Apart ⟨x,size⟩ ⟨pa,len⟩) :
    ¬ sub64 (physToVirt x) (physToVirt pa) < len ∧ ¬ sub64 (physToVirt x + 8) (physToVirt pa) < len := by
  simp only [Apart,Span.stop] at away
  unfold sub64 physToVirt wrap kernelBase
  unfold pageSize at xa page
  omega

theorem zeroedInv {s : State} {m : Nat → Nat} {regions : List Span} {live : List Block} {b : Block}
    (mem : b ∈ live) (memory : m = zeroFill s.mem (physToVirt b.pa) (blockSize b.ord))
    (h : Inv ⟨s,regions,live⟩) : Inv ⟨{s with mem := m},regions,live⟩ := by
  obtain ⟨lists,shape⟩ := h.shape
  have small : b.pa + blockSize b.ord < 2^64 := shape.small _ (List.mem_map_of_mem mem)
  have nodes : PmmSafety.SameNodes s {s with mem := m} := ⟨rfl,fun _ => ⟨rfl,rfl⟩⟩
  refine ⟨⟨lists,linksShape (fun k hk x listed => ?_) shape⟩,PmmSafety.laidSame nodes h.laid.words h.laid,
    fun x hx => PmmSafety.heldSame nodes (h.held x hx)⟩
  obtain ⟨xa,xs⟩ := listOwn shape hk x listed
  have away := linksApart xa xs small (pageLeBlock k.2)
    (listHandApart shape hk x listed _ (List.mem_map_of_mem mem))
  rw [memory]
  exact ⟨zeroOutside s.mem away.1,zeroOutside s.mem away.2⟩

theorem createInv {s : SharedIpc.State} {regions : List Span} {live : List Block} {creator : CcProc.Pid} {fd : Nat}
    (created : (SharedIpc.ipcCreate s creator).2 = fd) (h : Inv ⟨s.pmm,regions,live⟩) :
    ((SharedIpc.ipcCreate s creator).1.channels fd).sharedPa ≠ 0 ∧
      Inv ⟨(SharedIpc.ipcCreate s creator).1.pmm,regions,
        ⟨((SharedIpc.ipcCreate s creator).1.channels fd).sharedPa,3⟩::live⟩ := by
  have stepped : PmmSafety.step ⟨s.pmm,regions,live⟩ (.alloc 3) = some _ := rfl
  have taken := (PmmSafety.allocStep h stepped).1
  unfold SharedIpc.ipcCreate at created ⊢
  cases found : SharedIpc.freeChannel s with
  | none =>
      rw [found] at created
      have negative : -(enfile : Int) = fd := created
      unfold enfile at negative
      omega
  | some i =>
      rw [found] at created
      dsimp only at created taken ⊢
      by_cases none : (pmmAllocPages s.pmm 3).2 = 0
      · rw [if_pos none] at created
        have negative : -(enomem : Int) = fd := created
        unfold enomem at negative
        omega
      · rw [if_neg none] at created ⊢
        rw [if_neg none] at taken
        obtain rfl : i = fd := Int.ofNat_inj.mp created
        rw [SharedIpc.setChannelSelf]
        exact ⟨none,zeroedInv (b := ⟨(pmmAllocPages s.pmm 3).2,3⟩) List.mem_cons_self rfl taken⟩

def oneRegion (length : Nat) : State :=
  (pmmAddRegion PmmSafety.booted.pmm 0x1000000 length).getD PmmSafety.booted.pmm

def oneChannel (length : Nat) : SharedIpc.State :=
  (SharedIpc.ipcCreate (SharedIpc.ipcInit SharedIpc.zeroKey (oneRegion length)) 1).1

structure Opens (length : Nat) : Prop where
  added : (pmmAddRegion PmmSafety.booted.pmm 0x1000000 length).isSome = true
  valid : PmmSafety.Valid PmmSafety.booted (.addRegion 0x1000000 length)
  region : Sound PmmSafety.booted (.addRegion 0x1000000 length)
  created : (SharedIpc.ipcCreate (SharedIpc.ipcInit SharedIpc.zeroKey (oneRegion length)) 1).2 = (0 : Nat)
  active : ((oneChannel length).channels 0).active = true

theorem oneRegionInv {length : Nat} (h : Opens length) :
    Inv ⟨oneRegion length,[⟨0x1000000,length⟩],[]⟩ := by
  obtain ⟨s,added⟩ := Option.isSome_iff_exists.mp h.added
  have stepped : PmmSafety.step PmmSafety.booted (.addRegion 0x1000000 length) =
      some ⟨s,[⟨0x1000000,length⟩],[]⟩ := by
    rw [PmmSafety.step,added]
    rfl
  have inv := (PmmSafety.stepInv (PmmSafety.startInv _ _ _ _) h.valid h.region stepped).1
  rw [oneRegion,added]
  exact inv

def firstChannel (length : Nat) (h : Opens length) : Closing where
  ipc := oneChannel length
  regions := [⟨0x1000000,length⟩]
  live := [⟨((oneChannel length).channels 0).sharedPa,3⟩]
  fd := 0
  small := by decide +kernel
  active := h.active
  allocated := (createInv h.created (oneRegionInv h)).1
  inv := (createInv h.created (oneRegionInv h)).2
  held := List.mem_cons_self

theorem opensAlone : Opens 0x8000 :=
  ⟨by decide +kernel,by decide +kernel,by decide +kernel,by decide +kernel,by decide +kernel⟩

theorem closeIntactAlone : Intact (firstChannel 0x8000 opensAlone) := by
  have listed : Sound ⟨(oneChannel 0x8000).pmm,[],[]⟩
      (.free ⟨((oneChannel 0x8000).channels 0).sharedPa,3⟩) := by decide +kernel
  refine (closeIntact _).1 ⟨listed,fun i found => ?_⟩
  have node : pmmNodeOf (oneChannel 0x8000).pmm ((oneChannel 0x8000).channels 0).sharedPa = some 0 := by
    decide +kernel
  cases Option.some.inj (node.symm.trans found)
  decide +kernel

theorem opensBeside : Opens 0x10000 :=
  ⟨by decide +kernel,by decide +kernel,by decide +kernel,by decide +kernel,by decide +kernel⟩

theorem nodeNull (m : Nat → Nat) (n : Nat) : LinkChain.node m 0 n = none := by
  cases n <;> rfl

theorem closeLosesBlock :
    Free (firstChannel 0x10000 opensBeside).ipc.pmm 0x1008000 ∧
      ¬ Free (firstChannel 0x10000 opensBeside).after 0x1008000 := by
  constructor
  · have head : (oneChannel 0x10000).pmm.nnodes = 1 ∧
        ((oneChannel 0x10000).pmm.nodes 0).free 3 = physToVirt 0x1008000 := by decide +kernel
    refine ⟨0,3,0,spanOf 3 0x1008000,⟨?_,by decide,physToVirt 0x1008000,?_,?_⟩,by decide,by decide⟩
    · show 0 < (oneChannel 0x10000).pmm.nnodes
      omega
    · show LinkChain.node (oneChannel 0x10000).pmm.mem (((oneChannel 0x10000).pmm.nodes 0).free 3) 0 = _
      rw [head.2]
      decide +kernel
    · rw [virtToPhysToVirt (by decide)]
  · have lists : (firstChannel 0x10000 opensBeside).after.nnodes = 1 ∧
        (∀ ord ≤ maxOrder, ord ≠ 3 → ((firstChannel 0x10000 opensBeside).after.nodes 0).free ord = 0) ∧
        ((firstChannel 0x10000 opensBeside).after.nodes 0).free 3 = physToVirt 0x1000000 ∧
        (firstChannel 0x10000 opensBeside).after.mem (physToVirt 0x1000000) = 0 := by decide +kernel
    generalize (firstChannel 0x10000 opensBeside).after = s at lists
    obtain ⟨count,others,head,next⟩ := lists
    rintro ⟨i,ord,n,sp,⟨inside,top,p,here,rfl⟩,low,high⟩
    obtain rfl : i = 0 := by omega
    by_cases three : ord = 3
    · subst three
      rw [head] at here
      cases n with
      | zero =>
          have first : LinkChain.node s.mem (physToVirt 0x1000000) 0 = some (physToVirt 0x1000000) :=
            if_neg (by decide +kernel)
          cases Option.some.inj (first.symm.trans here)
          rw [virtToPhysToVirt (by decide)] at high
          exact absurd high (by decide)
      | succ n =>
          have last : LinkChain.node s.mem (physToVirt 0x1000000) (n+1) = LinkChain.node s.mem 0 n := by
            rw [LinkChain.node,if_neg (by decide +kernel),next]
          rw [last,nodeNull] at here
          cases here
    · rw [others ord top three,nodeNull] at here
      cases here

end Nekros.SharedIpcClose
