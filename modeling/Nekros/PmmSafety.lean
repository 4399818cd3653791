import Nekros.GuardedRun
import Nekros.PmmLoops

/-! Runs of the physical allocator under its callers: regions are added, blocks
are allocated, freed, and written by whoever holds them. `Safe` is what the
allocator is for: no page has two holders, and none is held and free at once. -/
namespace Nekros.PmmSafety
open Words Pmm Spans PmmShape PmmLoops
open Function (update)
open GuardedRun (run Guarded)

structure Block where
  pa : Nat
  ord : Nat
  deriving DecidableEq, Repr

def Block.span (b : Block) : Span := spanOf b.ord b.pa

structure World where
  pmm : State
  regions : List Span
  live : List Block

inductive Event where
  | addRegion (base length : Nat)
  | alloc (ord : Int)
  | free (b : Block)
  | write (pa value : Nat)

def step (w : World) : Event → Option World
  | .addRegion base length =>
      (pmmAddRegion w.pmm base length).map
        (fun s => {w with pmm := s,regions := ⟨base,length⟩::w.regions})
  | .alloc ord =>
      let result := pmmAllocPages w.pmm ord
      some {w with pmm := result.1,
                   live := if result.2 = 0 then w.live else ⟨result.2,ord.toNat⟩::w.live}
  | .free b => some {w with pmm := pmmFreePages w.pmm b.pa b.ord,live := w.live.erase b}
  | .write pa value => some {w with pmm := {w.pmm with mem := update w.pmm.mem (physToVirt pa) value}}

def start (mem : Nat → Nat) (bits : Nat → Bool) (bitmapPa bitmapSize : Nat) : World :=
  ⟨pmmInit (boot mem bits) bitmapPa bitmapSize,[],[]⟩

def Disjoint (a b : Span) : Prop := a.len = 0 ∨ b.len = 0 ∨ Apart a b
instance (a b) : Decidable (Disjoint a b) := by unfold Disjoint; infer_instance

def Valid (w : World) : Event → Prop
  | .addRegion base length =>
      base < 2^64 ∧ length < 2^64 ∧ ∀ r ∈ w.regions, Disjoint ⟨base,length⟩ r
  | .alloc _ => True
  | .free b => b ∈ w.live
  | .write pa _ => ∃ b ∈ w.live, b.pa ≤ pa ∧ pa < b.span.stop
instance (w e) : Decidable (Valid w e) := by cases e <;> unfold Valid <;> infer_instance

/- What the code takes for granted: a region's sums stay below 2^64, and a buddy the
bitmap calls free is on the list it is about to be taken from. -/
def Sound (w : World) : Event → Prop
  | .addRegion base length =>
      regionEmpty base length = true ∨
        (base + pageSize - 1 < 2^64 ∧ NoWrap (regionStart base) (regionStop base length))
  | .free b => ∀ i ∈ pmmNodeOf w.pmm b.pa,
      Merges (Linked w.pmm i) (w.pmm.nodes i).base (w.pmm.nodes i).limit
        (bitmapClearBlock w.pmm.bitmap b.pa b.ord) (maxOrder-b.ord) b.pa b.ord
  | .alloc _ => True
  | .write _ _ => True
instance (w e) : Decidable (Sound w e) := by cases e <;> unfold Sound <;> infer_instance

def FreeAt (s : State) (i ord n : Nat) (sp : Span) : Prop :=
  i < s.nnodes ∧ ord ≤ maxOrder ∧
    ∃ p, LinkChain.node s.mem ((s.nodes i).free ord) n = some p ∧ sp = spanOf ord (virtToPhys p)

structure Safe (w : World) : Prop where
  liveApart : (w.live.map Block.span).Pairwise Apart
  liveInside : ∀ b ∈ w.live, ∃ r ∈ w.regions, Within b.span r
  liveFree : ∀ b ∈ w.live, ∀ i ord n sp, FreeAt w.pmm i ord n sp → Apart b.span sp
  freeApart : ∀ i ord n sp i' ord' n' sp', FreeAt w.pmm i ord n sp → FreeAt w.pmm i' ord' n' sp' →
    (i,ord,n) ≠ (i',ord',n') → Apart sp sp'

structure Laid (s : State) (regions : List Span) : Prop where
  count : s.nnodes ≤ maxNodes
  nonempty : ∀ i < s.nnodes, (s.nodes i).base < (s.nodes i).limit
  inside : ∀ i < s.nnodes, ∃ r ∈ regions, r.start ≤ (s.nodes i).base ∧ (s.nodes i).limit ≤ r.stop
  apart : ∀ i < s.nnodes, ∀ j < s.nnodes, i ≠ j →
    (s.nodes i).limit ≤ (s.nodes j).base ∨ (s.nodes j).limit ≤ (s.nodes i).base
  words : ∀ i, (s.nodes i).freePages < 2^64

def Held (s : State) (b : Block) : Prop :=
  b.ord ≤ maxOrder ∧ b.pa % pageSize = 0 ∧ ∃ i < s.nnodes, InNode s i b.span

structure Inv (w : World) : Prop where
  shape : ∃ lists, Shape w.pmm lists (w.live.map Block.span)
  laid : Laid w.pmm w.regions
  held : ∀ b ∈ w.live, Held w.pmm b

theorem freeAtListed {s lists hand i ord n sp} (count : s.nnodes ≤ maxNodes) (h : Shape s lists hand)
    (found : FreeAt s i ord n sp) :
    (i,ord) ∈ keys ∧ ∃ pa, (lists (i,ord))[n]? = some pa ∧ sp = spanOf ord pa := by
  obtain ⟨node,top,p,here,rfl⟩ := found
  have hk : (i,ord) ∈ keys := memKeys.mpr ⟨by omega,top⟩
  rw [LinkChain.chainNode (h.chain _ hk) n,List.getElem?_map,Option.map_eq_some_iff] at here
  obtain ⟨pa,listed,rfl⟩ := here
  rw [virtToPhysToVirt (addressSmall h hk (List.mem_of_getElem? listed))]
  exact ⟨hk,pa,listed,rfl⟩

theorem invSafe {w : World} (h : Inv w) : Safe w := by
  obtain ⟨lists,shape⟩ := h.shape
  have apart := List.pairwise_append.mp shape.packed.apart
  refine ⟨apart.2.1,?_,?_,?_⟩
  · intro b mem
    obtain ⟨_,_,i,count,inside⟩ := h.held b mem
    obtain ⟨r,listed,low,high⟩ := h.laid.inside i count
    exact ⟨r,listed,Nat.le_trans low inside.1,Nat.le_trans inside.2 high⟩
  · intro b mem i ord n sp found
    obtain ⟨hk,pa,listed,rfl⟩ := freeAtListed h.laid.count shape found
    exact apartSymm (listHandApart shape hk pa (List.mem_of_getElem? listed) _
      (List.mem_map_of_mem mem))
  · intro i ord n sp i' ord' n' sp' found found' different
    obtain ⟨hk,pa,listed,rfl⟩ := freeAtListed h.laid.count shape found
    obtain ⟨hk',pa',listed',rfl⟩ := freeAtListed h.laid.count shape found'
    by_cases same : (i,ord) = (i',ord')
    · -- two positions of one list
      cases same
      have position : n ≠ n' := fun e => different (by rw [e])
      have own := (List.pairwise_flatMap.mp apart.1).1 _ hk
      obtain ⟨lt,rfl⟩ := List.getElem?_eq_some_iff.mp listed
      obtain ⟨lt',rfl⟩ := List.getElem?_eq_some_iff.mp listed'
      rw [List.pairwise_map,List.pairwise_iff_getElem] at own
      rcases Nat.lt_or_gt_of_ne position with before | after
      · exact own n n' lt lt' before
      · exact apartSymm (own n' n lt' lt after)
    · exact crossApart shape.packed hk hk' same (List.mem_of_getElem? listed)
        (List.mem_of_getElem? listed')

def Free (s : State) (x : Nat) : Prop := ∃ i ord n sp, FreeAt s i ord n sp ∧ sp.start ≤ x ∧ x < sp.stop

def WellFormed (s : State) : Prop :=
  ∀ i < s.nnodes, ∀ ord ≤ maxOrder, ∃ l, LinkChain.Chain s.mem 0 ((s.nodes i).free ord) l

theorem shapeWellFormed {s lists hand} (count : s.nnodes ≤ maxNodes) (h : Shape s lists hand) :
    WellFormed s :=
  fun i hi ord top => ⟨_,h.chain (i,ord) (memKeys.mpr ⟨Nat.lt_of_lt_of_le hi count,top⟩)⟩

theorem freeCovers {s lists hand} (count : s.nnodes ≤ maxNodes) (h : Shape s lists hand) (x : Nat) :
    Free s x ↔ Covers (freeSpans lists) x := by
  constructor
  · rintro ⟨i,ord,n,sp,found,inside⟩
    obtain ⟨hk,pa,listed,rfl⟩ := freeAtListed count h found
    exact ⟨_,freeMember hk (List.mem_of_getElem? listed),inside⟩
  · rintro ⟨sp,mem,inside⟩
    obtain ⟨k,hk,mem⟩ := List.mem_flatMap.mp mem
    obtain ⟨pa,listed,rfl⟩ := List.mem_map.mp mem
    obtain ⟨n,position⟩ := List.getElem?_of_mem listed
    refine ⟨k.1,k.2,n,_,⟨(h.inNode k hk pa listed).1,(memKeys.mp hk).2,physToVirt pa,?_,?_⟩,inside⟩
    · rw [LinkChain.chainNode (h.chain k hk),List.getElem?_map,position]
      rfl
    · rw [virtToPhysToVirt (addressSmall h hk listed)]

def SameNodes (s t : State) : Prop :=
  t.nnodes = s.nnodes ∧ ∀ i, (t.nodes i).base = (s.nodes i).base ∧ (t.nodes i).limit = (s.nodes i).limit

theorem frameNodes {s t hand} (h : Frame s t hand) : SameNodes s t :=
  ⟨frameCount h,fun i => by rw [h.node]; exact ⟨rfl,rfl⟩⟩

theorem laidSame {s t regions} (same : SameNodes s t) (words : ∀ i, (t.nodes i).freePages < 2^64)
    (h : Laid s regions) : Laid t regions := by
  refine ⟨by rw [same.1]; exact h.count,?_,?_,?_,words⟩
  · intro i hi
    rw [(same.2 i).1,(same.2 i).2]
    exact h.nonempty i (same.1 ▸ hi)
  · intro i hi
    rw [(same.2 i).1,(same.2 i).2]
    exact h.inside i (same.1 ▸ hi)
  · intro i hi j hj different
    rw [(same.2 i).1,(same.2 i).2,(same.2 j).1,(same.2 j).2]
    exact h.apart i (same.1 ▸ hi) j (same.1 ▸ hj) different

theorem heldSame {s t b} (same : SameNodes s t) (h : Held s b) : Held t b := by
  obtain ⟨top,aligned,i,count,inside⟩ := h
  refine ⟨top,aligned,i,same.1.symm ▸ count,?_⟩
  rw [InNode,(same.2 i).1,(same.2 i).2]
  exact inside

theorem handOutNodes (t : State) (i pa ord : Nat) : SameNodes t (handOut t i pa ord) := by
  refine ⟨rfl,fun j => ?_⟩
  by_cases same : j = i
  · subst same
    simp [handOut,subFreePages,setNode]
  · simp [handOut,subFreePages,setNode,Function.update_of_ne same]

theorem takeBackNodes (t : State) (i ord : Nat) : SameNodes t (takeBack t i ord) := by
  refine ⟨rfl,fun j => ?_⟩
  by_cases same : j = i
  · subst same
    simp [takeBack,addFreePages,setNode]
  · simp [takeBack,addFreePages,setNode,Function.update_of_ne same]

theorem nodesTrans {s t u} (h : SameNodes s t) (g : SameNodes t u) : SameNodes s u :=
  ⟨g.1.trans h.1,fun i => ⟨(g.2 i).1.trans (h.2 i).1,(g.2 i).2.trans (h.2 i).2⟩⟩

def Kept (w w' : World) (e : Event) : Prop :=
  ∀ b ∈ w.live, b ∈ w'.live → ∀ pa, b.pa ≤ pa → pa < b.span.stop → (∀ value, e ≠ .write pa value) →
    w'.pmm.mem (physToVirt pa) = w.pmm.mem (physToVirt pa)

theorem allocatedShape {s lists hand ord result i avail rest t}
    (got : Allocated s lists hand ord result i avail rest t) :
    Shape result.1 (splitLists (update lists (i,avail) rest) i result.2 ord avail)
      (spanOf ord result.2::hand) := by
  rw [got.state]
  exact shapeCongr (s := subFreePages t i (1 <<< ord)) rfl rfl (fun _ => rfl)
    (fun _ => ⟨rfl,rfl⟩) (setNodeShape rfl rfl rfl got.shape)

theorem allocStep {w w' : World} {ord : Int} (h : Inv w) (stepped : step w (.alloc ord) = some w') :
    Inv w' ∧ Kept w w' (.alloc ord) := by
  obtain ⟨lists,shape⟩ := h.shape
  cases Option.some.inj stepped
  rcases allocCases h.laid.count shape ord with none | ⟨_,top,i,avail,rest,t,got⟩
  · simp only [none]
    exact ⟨⟨⟨lists,shape⟩,h.laid,h.held⟩,fun _ _ _ _ _ _ _ => rfl⟩
  · generalize pmmAllocPages w.pmm ord = result at got ⊢
    have same : SameNodes w.pmm result.1 := by
      rw [got.state]
      exact nodesTrans (frameNodes got.frame) (handOutNodes _ _ _ _)
    have words : ∀ j, (result.1.nodes j).freePages < 2^64 := by
      intro j
      rw [got.state]
      by_cases here : j = i
      · subst here
        simp only [handOut,subFreePages,setNode,Function.update_self]
        exact wrapLt _
      · simp only [handOut,subFreePages,setNode,Function.update_of_ne here]
        rw [got.frame.node]
        exact h.laid.words j
    have shape' := allocatedShape got
    have mem : ∀ b ∈ w.live, ∀ pa, b.pa ≤ pa → pa < b.span.stop →
        result.1.mem (physToVirt pa) = w.pmm.mem (physToVirt pa) := by
      intro b hb pa low high
      rw [got.state]
      exact got.frame.kept _ (List.mem_map_of_mem hb) pa low high
    have fresh : Held result.1 ⟨result.2,ord.toNat⟩ :=
      heldSame same ⟨Int.toNat_le.mpr top,got.aligned,i,got.node,got.inside⟩
    have held : ∀ b ∈ w.live, Held result.1 b := fun b hb => heldSame same (h.held b hb)
    refine ⟨⟨?_,laidSame same words h.laid,?_⟩,fun b hb _ pa low high _ => mem b hb pa low high⟩
    · split
      · exact ⟨_,shapeTail shape'⟩
      · exact ⟨_,shape'⟩
    · dsimp only
      split
      · exact held
      · exact List.forall_mem_cons.mpr ⟨fresh,held⟩

theorem nodeOfFound {s pa i} (h : pmmNodeOf s pa = some i) :
    i < s.nnodes ∧ (s.nodes i).base ≤ pa ∧ pa < (s.nodes i).limit := by
  have mem := List.mem_of_find?_eq_some h
  have found := List.find?_some h
  exact ⟨List.mem_range.mp mem,by simpa using found⟩

theorem nodeOfInside {s regions pa i} (h : Laid s regions) (count : i < s.nnodes)
    (low : (s.nodes i).base ≤ pa) (high : pa < (s.nodes i).limit) : pmmNodeOf s pa = some i := by
  cases found : pmmNodeOf s pa with
  | none =>
      have missed := List.find?_eq_none.mp found i (List.mem_range.mpr count)
      simp [low,high] at missed
  | some j =>
      obtain ⟨countj,lowj,highj⟩ := nodeOfFound found
      by_contra different
      have away := h.apart i count j countj (fun e => different (by rw [e]))
      omega

structure Returned (w : World) (lists : Lists) (b : Block) (i : Nat) : Prop where
  count : i < w.pmm.nnodes
  node : pmmNodeOf w.pmm b.pa = some i
  top : b.ord ≤ maxOrder
  aligned : b.pa % pageSize = 0
  inside : InNode w.pmm i b.span
  taken : Shape w.pmm lists (spanOf b.ord b.pa::(w.live.erase b).map Block.span)

theorem freeReturned {w : World} {lists : Lists} {b : Block} (h : Inv w)
    (shape : Shape w.pmm lists (w.live.map Block.span)) (valid : b ∈ w.live) : ∃ i, Returned w lists b i := by
  obtain ⟨top,aligned,i,count,inside⟩ := h.held b valid
  have pos := blockSizePos b.ord
  have stop : b.pa + blockSize b.ord ≤ (w.pmm.nodes i).limit := inside.2
  exact ⟨i,count,nodeOfInside h.laid count inside.1 (by omega),top,aligned,inside,
    shapePerm ((List.perm_cons_erase valid).map Block.span) shape⟩

def freedWorld (w : World) (b : Block) : World :=
  {w with pmm := pmmFreePages w.pmm b.pa b.ord,live := w.live.erase b}

theorem freeListed {w : World} {lists : Lists} {b : Block} {i : Nat} (h : Inv w) (given : Returned w lists b i)
    (merges : Merges (fun o x => x ∈ lists (i,o)) (w.pmm.nodes i).base (w.pmm.nodes i).limit
      (bitmapClearBlock w.pmm.bitmap b.pa b.ord) (maxOrder-b.ord) b.pa b.ord) :
    Inv (freedWorld w b) ∧ Kept w (freedWorld w b) (.free b) ∧ SameNodes w.pmm (freedWorld w b).pmm ∧
      (b.pa ≠ 0 → (freedWorld w b).pmm.bitmap = bitmapClearBlock w.pmm.bitmap b.pa b.ord ∧
        Shape (freedWorld w b).pmm (pushed (freedLists w.pmm lists i b.pa b.ord)
          (i,(freedEnd w.pmm i b.pa b.ord).2) (freedEnd w.pmm i b.pa b.ord).1)
          ((w.live.erase b).map Block.span)) := by
  obtain ⟨count,node,top,aligned,inside,taken⟩ := given
  obtain ⟨t,shape',frame,result⟩ := freeShape (Nat.lt_of_lt_of_le count h.laid.count) count top aligned inside
    taken merges
  have live : ∀ x ∈ w.live.erase b, x ∈ w.live := fun x hx => List.mem_of_mem_erase hx
  unfold freedWorld pmmFreePages
  -- the early returns: a null block is no block, and every order held is in range
  split
  · refine ⟨⟨⟨lists,shapeTail taken⟩,h.laid,fun x hx => h.held x (live x hx)⟩,fun _ _ _ _ _ _ _ => rfl,
      ⟨rfl,fun _ => ⟨rfl,rfl⟩⟩,fun nonzero => ?_⟩
    omega
  · rw [node]
    dsimp only
    rw [Int.toNat_natCast,result]
    generalize (freedEnd w.pmm i b.pa b.ord).2 = reached at *
    have merged := frameNodes frame
    have nodes : SameNodes w.pmm (takeBack t i reached) :=
      nodesTrans (s := w.pmm) ⟨merged.1,merged.2⟩ (takeBackNodes t i reached)
    have words : ∀ j, ((takeBack t i reached).nodes j).freePages < 2^64 := by
      intro j
      by_cases here : j = i
      · subst here
        simp only [takeBack,addFreePages,setNode,Function.update_self]
        exact wrapLt _
      · simp only [takeBack,addFreePages,setNode,Function.update_of_ne here]
        rw [frame.node]
        exact h.laid.words j
    have counted : Shape (takeBack t i reached) _ ((w.live.erase b).map Block.span) :=
      shapeCongr (s := addFreePages t i (1 <<< reached)) rfl rfl (fun _ => rfl) (fun _ => ⟨rfl,rfl⟩)
        (setNodeShape rfl rfl rfl shape')
    refine ⟨⟨⟨_,counted⟩,laidSame nodes words h.laid,fun x hx => heldSame nodes (h.held x (live x hx))⟩,?_,nodes,
      fun _ => ⟨?_,counted⟩⟩
    · intro x _ kept pa low high _
      exact frame.kept _ (List.mem_map_of_mem kept) pa low high
    · show t.bitmap = _
      rw [frame.rest]
      rfl

theorem freeStep {w w' : World} {b : Block} (h : Inv w) (valid : Valid w (.free b))
    (sound : Sound w (.free b)) (stepped : step w (.free b) = some w') :
    Inv w' ∧ Kept w w' (.free b) := by
  obtain ⟨lists,shape⟩ := h.shape
  obtain ⟨i,given⟩ := freeReturned h shape valid
  cases Option.some.inj stepped
  have merges := mergesListed (Nat.lt_of_lt_of_le given.count h.laid.count) given.top (sound i given.node) shape
  obtain ⟨inv,kept,_⟩ := freeListed h given merges
  exact ⟨inv,kept⟩

theorem writeShape {s : State} {lists : Lists} {hand : List Span} {sp : Span} {pa : Nat} (value : Nat)
    (mem : sp ∈ hand) (low : sp.start ≤ pa) (high : pa < sp.stop) (shape : Shape s lists hand) :
    Shape {s with mem := update s.mem (physToVirt pa) value} lists hand := by
  have bound := shape.small _ mem
  refine ⟨?_,shape.inNode,shape.bounded,shape.small,shape.packed⟩
  -- no word of a listed block is in the block written to
  intro k hk
  refine LinkChain.chainFrame (fun p hp => ?_) (shape.chain k hk)
  obtain ⟨x,listed,rfl⟩ := List.mem_map.mp hp
  obtain ⟨aligned,small⟩ := listOwn shape hk x listed
  have away := listHandApart shape hk x listed _ mem
  have page := pageLeBlock k.2
  rw [wordInPage aligned]
  simp only [Apart,Span.stop,spanOf] at away high bound
  unfold pageSize at page aligned
  refine ⟨Function.update_of_ne (fun same => ?_) _ _,Function.update_of_ne (fun same => ?_) _ _⟩
  · have := physToVirtInjective small (by omega) same
    omega
  · have := physToVirtInjective (by omega) (by omega) same
    omega

theorem writeStep {w w' : World} {pa value : Nat} (h : Inv w) (valid : Valid w (.write pa value))
    (stepped : step w (.write pa value) = some w') : Inv w' ∧ Kept w w' (.write pa value) := by
  obtain ⟨lists,shape⟩ := h.shape
  obtain ⟨b,mem,low,high⟩ := valid
  cases Option.some.inj stepped
  have nodes : SameNodes w.pmm {w.pmm with mem := update w.pmm.mem (physToVirt pa) value} :=
    ⟨rfl,fun _ => ⟨rfl,rfl⟩⟩
  refine ⟨⟨⟨lists,writeShape value (List.mem_map_of_mem mem) low high shape⟩,
    laidSame nodes h.laid.words h.laid,fun x hx => heldSame nodes (h.held x hx)⟩,?_⟩
  intro x hx _ other low' high' different
  have bound := shape.small _ (List.mem_map_of_mem mem)
  have bound' := shape.small _ (List.mem_map_of_mem hx)
  refine Function.update_of_ne (fun same => ?_) _ _
  have eq := physToVirtInjective (Nat.lt_trans high' bound') (Nat.lt_trans high bound) same
  exact different value (by rw [eq])

theorem laidMore {s regions r} (h : Laid s regions) : Laid s (r::regions) :=
  ⟨h.count,h.nonempty,fun i hi => let ⟨x,mem,ends⟩ := h.inside i hi
    ⟨x,List.mem_cons_of_mem _ mem,ends⟩,h.apart,h.words⟩

theorem heldInRegion {w : World} {lists : Lists} (h : Inv w)
    (shape : Shape w.pmm lists (w.live.map Block.span)) :
    ∀ x ∈ freeSpans lists ++ w.live.map Block.span, ∃ r ∈ w.regions, Within x r := by
  have node : ∀ i < w.pmm.nnodes, ∀ x, InNode w.pmm i x → ∃ r ∈ w.regions, Within x r := by
    intro i count x inside
    obtain ⟨r,mem,low,high⟩ := h.laid.inside i count
    exact ⟨r,mem,Nat.le_trans low inside.1,Nat.le_trans inside.2 high⟩
  intro x hx
  rcases List.mem_append.mp hx with free | live
  · obtain ⟨k,hk,mem⟩ := List.mem_flatMap.mp free
    obtain ⟨pa,listed,rfl⟩ := List.mem_map.mp mem
    obtain ⟨count,_,inside⟩ := shape.inNode k hk pa listed
    exact node k.1 count _ inside
  · obtain ⟨b,mem,rfl⟩ := List.mem_map.mp live
    obtain ⟨_,_,i,count,inside⟩ := h.held b mem
    exact node i count _ inside

structure Filled (w : World) (lists : Lists) (base length start stop : Nat) (t : State) : Prop where
  low : base ≤ start
  less : start < stop
  high : stop ≤ base + length
  above : 0x1000000 ≤ start
  room : w.pmm.nnodes < maxNodes
  fresh : ∀ i < w.pmm.nnodes, stop ≤ (w.pmm.nodes i).base ∨ (w.pmm.nodes i).limit ≤ start
  shape : Shape t (carveLists ((stop-start)/pageSize) lists w.pmm.nnodes start stop)
    (w.live.map Block.span)
  frame : Frame (addFreePages (opened w.pmm start stop) w.pmm.nnodes ((stop-start)/pageSize)) t
    (w.live.map Block.span)

theorem regionClear {regions : List Span} {base length start stop : Nat} (low : base ≤ start)
    (less : start < stop) (high : stop ≤ base + length)
    (clear : ∀ r ∈ regions, Disjoint ⟨base,length⟩ r) {x : Span} (pos : 0 < x.len)
    (inside : ∃ r ∈ regions, Within x r) : Apart ⟨start,stop-start⟩ x := by
  obtain ⟨r,mem,inside⟩ := inside
  have apart := clear r mem
  simp only [Disjoint,Within,Apart,Span.stop] at *
  omega

theorem addRegionEnds {w : World} {lists : Lists} {base length : Nat} (h : Inv w)
    (shape : Shape w.pmm lists (w.live.map Block.span)) (valid : Valid w (.addRegion base length))
    (sound : Sound w (.addRegion base length)) :
    ∃ s, pmmAddRegion w.pmm base length = some s ∧
      (((regionEmpty base length = true ∨ maxNodes ≤ w.pmm.nnodes) ∧ s = w.pmm) ∨
        (regionEmpty base length = false ∧
          ∃ t, Filled w lists base length (regionStart base) (regionStop base length) t ∧
            s = {t with gFreeRamPages := (t.nodes w.pmm.nnodes).freePages})) := by
  obtain ⟨_,word,clear⟩ := valid
  unfold pmmAddRegion
  cases kept : regionEmpty base length with
  | true =>
      rw [if_pos rfl]
      exact ⟨_,rfl,.inl ⟨.inl rfl,rfl⟩⟩
  | false =>
      obtain ⟨fits,flat⟩ := sound.resolve_left (by rw [kept]; decide)
      obtain ⟨low,less,high,startAligned,stopAligned,above⟩ := regionBounds kept fits word
      have small : regionStop base length < 2^64 := Nat.lt_of_le_of_lt (alignDownLe _) (wrapLt _)
      rw [if_neg (by decide)]
      dsimp only
      generalize regionStart base = start at *
      generalize regionStop base length = stop at *
      have apart : ∀ x ∈ freeSpans lists ++ w.live.map Block.span, Apart ⟨start,stop-start⟩ x :=
        fun x hx => regionClear low less high clear (shape.packed.positive x hx)
          (heldInRegion h shape x hx)
      have fresh : ∀ i < w.pmm.nnodes, stop ≤ (w.pmm.nodes i).base ∨ (w.pmm.nodes i).limit ≤ start := by
        intro i hi
        have nonempty := h.laid.nonempty i hi
        obtain ⟨r,mem,lowr,highr⟩ := h.laid.inside i hi
        have within : Within ⟨(w.pmm.nodes i).base,(w.pmm.nodes i).limit - (w.pmm.nodes i).base⟩ r := by
          refine ⟨lowr,?_⟩
          rw [Span.stop,Nat.add_sub_of_le (Nat.le_of_lt nonempty)]
          exact highr
        have away := regionClear low less high clear (by simp only; omega) ⟨r,mem,within⟩
        simp only [Apart,Span.stop] at away
        omega
      have unknown : pmmNodeOf w.pmm start = none := by
        cases found : pmmNodeOf w.pmm start with
        | none => rfl
        | some i =>
            obtain ⟨count,lowi,highi⟩ := nodeOfFound found
            have := fresh i count
            omega
      rw [unknown]
      dsimp only
      by_cases full : maxNodes ≤ w.pmm.nnodes
      · rw [if_pos full]
        exact ⟨_,rfl,.inl ⟨.inr full,rfl⟩⟩
      · rw [if_neg full]
        obtain ⟨t,shape',frame,result⟩ := fillShape less small startAligned stopAligned flat
          (by omega) (h.laid.words _) apart shape
        exact ⟨_,result,.inr ⟨rfl,t,⟨low,less,high,above,by omega,fresh,shape',frame⟩,rfl⟩⟩

theorem addRegionCases {w : World} {lists : Lists} {base length : Nat} {s : State} (h : Inv w)
    (shape : Shape w.pmm lists (w.live.map Block.span)) (valid : Valid w (.addRegion base length))
    (sound : Sound w (.addRegion base length)) (added : pmmAddRegion w.pmm base length = some s) :
    s = w.pmm ∨ (regionEmpty base length = false ∧
      ∃ t, Filled w lists base length (regionStart base) (regionStop base length) t ∧
        s = {t with gFreeRamPages := (t.nodes w.pmm.nnodes).freePages}) := by
  obtain ⟨s',added',cases⟩ := addRegionEnds h shape valid sound
  cases Option.some.inj (added.symm.trans added')
  exact cases.imp_left And.right

section FilledNodes

variable {w : World} {lists : Lists} {base length start stop : Nat} {t : State}

theorem filledCount (f : Filled w lists base length start stop t) : t.nnodes = w.pmm.nnodes + 1 :=
  frameCount f.frame

theorem filledOther (f : Filled w lists base length start stop t) {j : Nat} (hj : j ≠ w.pmm.nnodes) :
    t.nodes j = {w.pmm.nodes j with free := (t.nodes j).free} := by
  rw [f.frame.node j]
  simp only [addFreePages,setNode,Function.update_of_ne hj,openedOther _ _ _ hj]

theorem filledNew (f : Filled w lists base length start stop t) :
    (t.nodes w.pmm.nnodes).base = start ∧ (t.nodes w.pmm.nnodes).limit = stop ∧
      (t.nodes w.pmm.nnodes).freePages =
        wrap ((w.pmm.nodes w.pmm.nnodes).freePages + (stop-start)/pageSize) := by
  rw [f.frame.node]
  simp only [addFreePages,setNode,Function.update_self,openedNode]
  exact ⟨trivial,trivial,trivial⟩

theorem filledEnds (f : Filled w lists base length start stop t) {i : Nat} (hi : i < t.nnodes) :
    (i = w.pmm.nnodes ∧ (t.nodes i).base = start ∧ (t.nodes i).limit = stop) ∨
      (i < w.pmm.nnodes ∧ (t.nodes i).base = (w.pmm.nodes i).base ∧
        (t.nodes i).limit = (w.pmm.nodes i).limit) := by
  have count := filledCount f
  by_cases new : i = w.pmm.nnodes
  · subst new
    exact .inl ⟨rfl,(filledNew f).1,(filledNew f).2.1⟩
  · refine .inr ⟨by omega,?_⟩
    rw [filledOther f new]
    exact ⟨rfl,rfl⟩

theorem filledLaid (f : Filled w lists base length start stop t) (h : Laid w.pmm w.regions) :
    Laid t (⟨base,length⟩::w.regions) := by
  have count := filledCount f
  have room := f.room
  refine ⟨by omega,?_,?_,?_,?_⟩
  · intro i hi
    rcases filledEnds f hi with ⟨_,low,high⟩ | ⟨old,low,high⟩
    · rw [low,high]
      exact f.less
    · rw [low,high]
      exact h.nonempty i old
  · intro i hi
    rcases filledEnds f hi with ⟨_,low,high⟩ | ⟨old,low,high⟩
    · rw [low,high]
      exact ⟨⟨base,length⟩,List.mem_cons_self,f.low,f.high⟩
    · rw [low,high]
      obtain ⟨r,mem,inside⟩ := h.inside i old
      exact ⟨r,List.mem_cons_of_mem _ mem,inside⟩
  · intro i hi j hj different
    rcases filledEnds f hi with ⟨rfl,lowi,highi⟩ | ⟨oldi,lowi,highi⟩ <;>
      rcases filledEnds f hj with ⟨rfl,lowj,highj⟩ | ⟨oldj,lowj,highj⟩
    · exact absurd rfl different
    · rw [lowi,highi,lowj,highj]
      exact f.fresh j oldj
    · rw [lowi,highi,lowj,highj]
      exact (f.fresh i oldi).symm
    · rw [lowi,highi,lowj,highj]
      exact h.apart i oldi j oldj different
  · intro i
    by_cases new : i = w.pmm.nnodes
    · subst new
      rw [(filledNew f).2.2]
      exact wrapLt _
    · rw [filledOther f new]
      exact h.words i

theorem filledHeld (f : Filled w lists base length start stop t) {b : Block} (h : Held w.pmm b) :
    Held t b := by
  obtain ⟨top,aligned,i,hi,inside⟩ := h
  have count := filledCount f
  refine ⟨top,aligned,i,by omega,?_⟩
  rw [InNode,filledOther f (Nat.ne_of_lt hi)]
  exact inside

end FilledNodes

theorem addRegionStep {w w' : World} {base length : Nat} (h : Inv w)
    (valid : Valid w (.addRegion base length)) (sound : Sound w (.addRegion base length))
    (stepped : step w (.addRegion base length) = some w') :
    Inv w' ∧ Kept w w' (.addRegion base length) := by
  obtain ⟨lists,shape⟩ := h.shape
  obtain ⟨s,added,rfl⟩ := Option.map_eq_some_iff.mp stepped
  rcases addRegionCases h shape valid sound added with rfl | ⟨_,t,f,rfl⟩
  · exact ⟨⟨⟨lists,shape⟩,laidMore h.laid,h.held⟩,fun _ _ _ _ _ _ _ => rfl⟩
  · have nodes : SameNodes t {t with gFreeRamPages := (t.nodes w.pmm.nnodes).freePages} :=
      ⟨rfl,fun _ => ⟨rfl,rfl⟩⟩
    have laid := filledLaid f h.laid
    refine ⟨⟨⟨_,shapeCongr (s := t) rfl rfl (fun _ => rfl) (fun _ => ⟨rfl,rfl⟩) f.shape⟩,
      laidSame nodes laid.words laid,fun b mem => heldSame nodes (filledHeld f (h.held b mem))⟩,?_⟩
    intro b mem _ pa low high _
    exact f.frame.kept _ (List.mem_map_of_mem mem) pa low high

theorem stepInv {w w' : World} {e : Event} (h : Inv w) (valid : Valid w e) (sound : Sound w e)
    (stepped : step w e = some w') : Inv w' ∧ Kept w w' e := by
  cases e with
  | addRegion base length => exact addRegionStep h valid sound stepped
  | alloc ord => exact allocStep h stepped
  | free b => exact freeStep h valid sound stepped
  | write pa value => exact writeStep h valid stepped

theorem startInv (mem : Nat → Nat) (bits : Nat → Bool) (bitmapPa bitmapSize : Nat) :
    Inv (start mem bits bitmapPa bitmapSize) := by
  refine ⟨⟨fun _ => [],?_,?_,?_,?_,?_⟩,⟨Nat.zero_le _,?_,?_,?_,?_⟩,?_⟩
  · intro k _
    rfl
  · simp
  · intro i hi
    exact absurd hi (Nat.not_lt_zero i)
  · simp [start]
  · have none : freeSpans (fun _ => []) = [] := by simp [freeSpans]
    rw [none]
    exact packedNil
  · intro i hi
    exact absurd hi (Nat.not_lt_zero i)
  · intro i hi
    exact absurd hi (Nat.not_lt_zero i)
  · intro i hi
    exact absurd hi (Nat.not_lt_zero i)
  · intro i
    exact Nat.two_pow_pos 64
  · simp [start]

theorem runSafe {mem : Nat → Nat} {bits : Nat → Bool} {bitmapPa bitmapSize : Nat}
    {events : List Event} {w : World}
    (guarded : Guarded step (fun w e => Valid w e ∧ Sound w e) (start mem bits bitmapPa bitmapSize) events)
    (ran : run step (start mem bits bitmapPa bitmapSize) events = some w) : Safe w :=
  invSafe (GuardedRun.guardedInvariant Inv (fun _ _ _ h guard stepped => (stepInv h guard.1 guard.2 stepped).1)
    (startInv mem bits bitmapPa bitmapSize) guarded ran)

def booted : World := start (fun _ => 0) (fun _ => false) 0x200000 0x100000

def mergeRun : List Event :=
  [.addRegion 0x1000000 0x4000,.alloc 0,.alloc 0,.write 0x1000008 7,.free ⟨0x1000000,0⟩,
    .free ⟨0x1001000,0⟩,.alloc 1]

theorem runSafeMerge : ∃ w, run step booted mergeRun = some w ∧ w.live = [⟨0x1000000,1⟩] ∧ Safe w := by
  have live : (run step booted mergeRun).map World.live = some [⟨0x1000000,1⟩] := by decide +kernel
  obtain ⟨w,ran,held⟩ := Option.map_eq_some_iff.mp live
  exact ⟨w,ran,held,runSafe (by decide +kernel) ran⟩

/- A region whose base is one page past an even frame. The block carved at offset
0x1000 is freed whole, and later the page at offset 0. Its buddy is computed from the
base, the bitmap calls it free, and it is unlinked from a list that never held it.
The page at offset 0x1000 is then handed out twice. -/
def twiceRun : List Event :=
  [.addRegion 0x1001000 0x4000,.alloc 1,.free ⟨0x1002000,1⟩,.alloc 0,.alloc 0,.free ⟨0x1001000,0⟩,
    .alloc 1,.alloc 1]

theorem twiceRunUnsafe : Guarded step Valid booted twiceRun ∧ ∃ w, run step booted twiceRun = some w ∧
    ⟨0x1001000,1⟩ ∈ w.live ∧ ⟨0x1002000,1⟩ ∈ w.live ∧ ¬ Safe w := by
  have live : (run step booted twiceRun).map World.live =
      some [⟨0x1002000,1⟩,⟨0x1001000,1⟩,⟨0x1004000,0⟩] := by decide +kernel
  obtain ⟨w,ran,held⟩ := Option.map_eq_some_iff.mp live
  refine ⟨by decide +kernel,w,ran,by rw [held]; decide,by rw [held]; decide,fun safe => ?_⟩
  have apart := safe.liveApart
  rw [held] at apart
  exact absurd apart (by decide)

end Nekros.PmmSafety
