import Nekros.Sha256

/-! The chain of custody of crypto/coc.c. `coc_record` seals a link with the digest of
the link before it, the link's own fields and the caller's data; `coc_verify_chain` has
no data to hash, and looks for the link before in the slot before. -/
namespace Nekros.Coc
open Bytes (Byte littleEndian)
open Sha256 (Digest Ctx sha256 sha256Init sha256Update sha256Final)

abbrev Word := BitVec 64

structure Link where
  hash : Digest
  seq : Word
  timestampNs : Word
  sourceId : BitVec 32
  deriving DecidableEq

def maxEntries : Nat := 256

/- `slot` is `coc_chain`; only the slots below `count` hold links. -/
structure Chain where
  slot : Nat → Link
  count : Nat
  bootTsc : Word

/- The arguments of one call, `none` for a null `data`, and the time it reads. -/
structure Record where
  sourceId : BitVec 32
  data : Option (List Byte)
  tsc : Word

def sourceBoot : BitVec 32 := 0

def genesis : Link := ⟨sha256 (List.replicate 64 0),0,0,sourceBoot⟩

def cocInit (tsc : Word) : Chain :=
  let blank : Link := ⟨Vector.replicate 32 0,0,0,0⟩
  ⟨fun i => if i = 0 then genesis else blank,1,tsc⟩

def hashFields (prev : Digest) (seq timestampNs : Word) (sourceId : BitVec 32) : Ctx :=
  let ctx := sha256Init
  let ctx := sha256Update ctx prev.toList
  let ctx := sha256Update ctx (littleEndian 8 seq)
  let ctx := sha256Update ctx (littleEndian 8 timestampNs)
  sha256Update ctx (littleEndian 4 sourceId)

def hashData (ctx : Ctx) : Option (List Byte) → Ctx
  | none => ctx
  | some data => if data.length ≠ 0 then sha256Update ctx data else ctx

def recordLink (bootTsc : Word) (prev : Link) (r : Record) : Link :=
  let seq := prev.seq + 1
  let timestampNs := r.tsc - bootTsc
  let ctx := hashFields prev.hash seq timestampNs r.sourceId
  ⟨sha256Final (hashData ctx r.data),seq,timestampNs,r.sourceId⟩

/- `memmove(&coc_chain[1], &coc_chain[2], (COC_MAX_ENTRIES - 2) * sizeof(coc_link_t))`. -/
def dropOldest (slot : Nat → Link) : Nat → Link :=
  fun i => if 1 ≤ i ∧ i < 1 + (maxEntries - 2) then slot (i + 1) else slot i

def cocRecord (s : Chain) (r : Record) : Chain × Link :=
  let s := if s.count ≥ maxEntries then {s with slot := dropOldest s.slot, count := maxEntries - 1} else s
  let cur := recordLink s.bootTsc (s.slot (s.count - 1)) r
  ({s with slot := Function.update s.slot s.count cur, count := s.count + 1},cur)

def intact (s : Chain) (i : Nat) : Bool :=
  let prev := s.slot (i - 1)
  let cur := s.slot i
  sha256Final (hashFields prev.hash cur.seq cur.timestampNs cur.sourceId) == cur.hash

def cocVerifyChain (s : Chain) : List (Nat × BitVec 32) :=
  ((List.range' 1 (s.count - 1)).filter (fun i => !intact s i)).map (fun i => (i,(s.slot i).sourceId))

def after (bootTsc : Word) (rs : List Record) : Chain :=
  rs.foldl (fun s r => (cocRecord s r).1) (cocInit bootTsc)

def bytes (r : Record) : List Byte := r.data.getD []

def message (prev : Digest) (link : Link) (data : List Byte) : List Byte :=
  prev.toList ++ littleEndian 8 link.seq ++ littleEndian 8 link.timestampNs ++
    littleEndian 4 link.sourceId ++ data

theorem hashFieldsMessage (prev : Digest) (link : Link) :
    hashFields prev link.seq link.timestampNs link.sourceId = sha256Update sha256Init (message prev link []) := by
  simp only [hashFields,message,Sha256.updateAppend,List.append_nil]

theorem intactDigest (s : Chain) (i : Nat) :
    intact s i = true ↔ sha256 (message (s.slot (i - 1)).hash (s.slot i) []) = (s.slot i).hash := by
  simp only [intact,beq_iff_eq,hashFieldsMessage,sha256]

theorem hashDataUpdate (ctx : Ctx) (data : Option (List Byte)) :
    hashData ctx data = sha256Update ctx (data.getD []) := by
  cases data with
  | none => exact (Sha256.updateNil ctx).symm
  | some data =>
      cases data with
      | nil => exact (Sha256.updateNil ctx).symm
      | cons b rest => rfl

theorem messageData (prev : Digest) (link : Link) (data : List Byte) :
    message prev link [] ++ data = message prev link data := by
  simp only [message,List.append_nil]

theorem recordLinkHash (bootTsc : Word) (prev : Link) (r : Record) :
    (recordLink bootTsc prev r).hash = sha256 (message prev.hash (recordLink bootTsc prev r) (bytes r)) := by
  have hash : (recordLink bootTsc prev r).hash = sha256Final (hashData (hashFields prev.hash
      (recordLink bootTsc prev r).seq (recordLink bootTsc prev r).timestampNs
      (recordLink bootTsc prev r).sourceId) r.data) := rfl
  rw [hash,hashDataUpdate,hashFieldsMessage,Sha256.updateAppend,messageData,sha256,bytes]

theorem messageInjective {prev prev' : Digest} {link : Link} {data data' : List Byte} :
    message prev link data = message prev' link data' ↔ prev = prev' ∧ data = data' := by
  constructor
  · intro same
    simp only [message,List.append_assoc] at same
    obtain ⟨heads,tails⟩ := List.append_inj same (by rw [Vector.length_toList,Vector.length_toList])
    exact ⟨Vector.toList_inj.mp heads,by simpa using tails⟩
  · rintro ⟨rfl,rfl⟩
    rfl

def history (bootTsc : Word) (rs : List Record) : List Link :=
  rs.foldl (fun links r => links ++ [recordLink bootTsc (links.getLastD genesis) r]) [genesis]

theorem historySnoc (bootTsc : Word) (rs : List Record) (r : Record) :
    history bootTsc (rs ++ [r]) =
      history bootTsc rs ++ [recordLink bootTsc ((history bootTsc rs).getLastD genesis) r] := by
  simp only [history,List.foldl_append,List.foldl_cons,List.foldl_nil]

theorem historyLength (bootTsc : Word) (rs : List Record) : (history bootTsc rs).length = rs.length + 1 := by
  induction rs using List.reverseRecOn with
  | nil => rfl
  | append_singleton rs r ih => rw [historySnoc,List.length_append,List.length_append,ih]; rfl

def linkAt (bootTsc : Word) (rs : List Record) (k : Nat) : Link := (history bootTsc rs).getD k genesis

theorem linkAtOld {bootTsc : Word} {rs : List Record} (r : Record) {k : Nat} (old : k ≤ rs.length) :
    linkAt bootTsc (rs ++ [r]) k = linkAt bootTsc rs k := by
  rw [linkAt,historySnoc,List.getD_append _ _ _ _ (by rw [historyLength]; omega),linkAt]

theorem linkAtFirst (bootTsc : Word) (rs : List Record) : linkAt bootTsc rs 0 = genesis := by
  induction rs using List.reverseRecOn with
  | nil => rfl
  | append_singleton rs r ih => rw [linkAtOld r (Nat.zero_le _),ih]

theorem linkAtNew (bootTsc : Word) (rs : List Record) (r : Record) :
    linkAt bootTsc (rs ++ [r]) (rs.length + 1) = recordLink bootTsc (linkAt bootTsc rs rs.length) r := by
  have size := historyLength bootTsc rs
  have last : (history bootTsc rs).getLastD genesis = linkAt bootTsc rs rs.length := by
    rw [linkAt,List.getLastD_eq_getLast?,List.getLast?_eq_getElem?,List.getD_eq_getElem?_getD,size]
    rfl
  rw [linkAt,historySnoc,List.getD_append_right _ _ _ _ (by omega),size,Nat.sub_self,last]
  rfl

theorem linkAtSealed (bootTsc : Word) (rs : List Record) {k : Nat} (old : k < rs.length) :
    (linkAt bootTsc rs (k + 1)).hash =
      sha256 (message (linkAt bootTsc rs k).hash (linkAt bootTsc rs (k + 1)) (bytes rs[k])) := by
  induction rs using List.reverseRecOn with
  | nil => cases old
  | append_singleton rs r ih =>
      rcases Nat.lt_or_ge k rs.length with earlier | latest
      · rw [linkAtOld r earlier,linkAtOld r (Nat.le_of_lt earlier),List.getElem_append_left earlier]
        exact ih earlier
      · have last : k = rs.length := by
          rw [List.length_append,List.length_singleton] at old
          omega
        subst last
        rw [linkAtNew,linkAtOld r (Nat.le_refl _),List.getElem_concat_length rfl]
        exact recordLinkHash _ _ _

structure Kept (bootTsc : Word) (rs : List Record) (s : Chain) : Prop where
  boot : s.bootTsc = bootTsc
  some : 0 < s.count
  all : s.count ≤ rs.length + 1
  first : s.slot 0 = genesis
  last : s.slot (s.count - 1) = linkAt bootTsc rs rs.length
  newest : ∀ i, 0 < i → i < s.count → s.slot i = linkAt bootTsc rs (rs.length + 1 - s.count + i)

def makeRoom (s : Chain) : Chain :=
  if s.count ≥ maxEntries then ⟨dropOldest s.slot,maxEntries - 1,s.bootTsc⟩ else s

def append (s : Chain) (cur : Link) : Chain := ⟨Function.update s.slot s.count cur,s.count + 1,s.bootTsc⟩

theorem recordAppends (s : Chain) (r : Record) :
    (cocRecord s r).1 = append (makeRoom s)
      (recordLink (makeRoom s).bootTsc ((makeRoom s).slot ((makeRoom s).count - 1)) r) := rfl

theorem dropKept {bootTsc : Word} {rs : List Record} {s : Chain} (h : Kept bootTsc rs s)
    (full : s.count = maxEntries) : Kept bootTsc rs ⟨dropOldest s.slot,maxEntries - 1,s.bootTsc⟩ where
  boot := h.boot
  some := show 0 < 255 by decide
  all := by
    have all := h.all
    rw [full] at all
    exact Nat.le_of_lt all
  first := h.first
  last := by
    have last := h.last
    rw [full] at last
    exact last
  newest := by
    intro i pos lt
    have inside : i + 1 < s.count := by
      rw [full]
      exact Nat.add_lt_of_lt_sub lt
    have all := h.all
    rw [full,maxEntries] at all
    have moved : dropOldest s.slot i = s.slot (i + 1) := if_pos ⟨pos,lt⟩
    have same : rs.length + 1 - 256 + (i + 1) = rs.length + 1 - 255 + i := by omega
    have next := h.newest (i + 1) (Nat.succ_pos i) inside
    rw [full,maxEntries,same] at next
    exact moved.trans next

theorem recordLinkNew {bootTsc : Word} {rs : List Record} {s : Chain} (h : Kept bootTsc rs s) (r : Record) :
    recordLink s.bootTsc (s.slot (s.count - 1)) r = linkAt bootTsc (rs ++ [r]) (rs.length + 1) := by
  rw [h.boot,h.last,linkAtNew]

theorem appendKept {bootTsc : Word} {rs : List Record} {s : Chain} (h : Kept bootTsc rs s) (r : Record) :
    Kept bootTsc (rs ++ [r]) (append s (recordLink s.bootTsc (s.slot (s.count - 1)) r)) := by
  have size : (rs ++ [r]).length = rs.length + 1 := List.length_append
  have all := h.all
  rw [recordLinkNew h r]
  refine ⟨h.boot,Nat.succ_pos _,by rw [size]; exact Nat.succ_le_succ all,?_,?_,?_⟩
  · exact (Function.update_of_ne (Nat.ne_of_lt h.some) _ _).trans h.first
  · rw [size]
    exact Function.update_self _ _ _
  · intro i pos lt
    rw [size]
    simp only [append] at lt ⊢
    by_cases top : i = s.count
    · rw [top,Function.update_self]
      congr 1
      omega
    · rw [Function.update_of_ne top,h.newest i pos (by omega),linkAtOld r (by omega)]
      congr 1
      omega

structure Holds (bootTsc : Word) (rs : List Record) (s : Chain) : Prop where
  kept : Kept bootTsc rs s
  count : s.count = min (rs.length + 1) maxEntries

theorem initHolds (bootTsc : Word) : Holds bootTsc [] (cocInit bootTsc) :=
  ⟨⟨rfl,Nat.one_pos,Nat.le_refl _,rfl,rfl,fun i pos lt => absurd (show i < 1 from lt) (by omega)⟩,rfl⟩

theorem roomKept {bootTsc : Word} {rs : List Record} {s : Chain} (h : Holds bootTsc rs s) :
    Kept bootTsc rs (makeRoom s) := by
  have count := h.count
  unfold makeRoom
  split
  · exact dropKept h.kept (by omega)
  · exact h.kept

theorem recordHolds {bootTsc : Word} {rs : List Record} {s : Chain} (h : Holds bootTsc rs s) (r : Record) :
    Holds bootTsc (rs ++ [r]) (cocRecord s r).1 := by
  have count := h.count
  have size : (rs ++ [r]).length = rs.length + 1 := List.length_append
  rw [recordAppends]
  refine ⟨appendKept (roomKept h) r,?_⟩
  show (makeRoom s).count + 1 = _
  rw [size]
  unfold makeRoom
  split
  · have all := h.kept.all
    rw [Nat.min_eq_right (by omega)]
    rfl
  · omega

theorem afterHolds (bootTsc : Word) (rs : List Record) : Holds bootTsc rs (after bootTsc rs) := by
  induction rs using List.reverseRecOn with
  | nil => exact initHolds bootTsc
  | append_singleton rs r ih =>
      have step := recordHolds ih r
      simpa only [after,List.foldl_append,List.foldl_cons,List.foldl_nil] using step

def returned : Chain → List Record → List Link
  | _,[] => []
  | s,r::rs => (cocRecord s r).2::returned (cocRecord s r).1 rs

theorem returnedSnoc (s : Chain) (rs : List Record) (r : Record) :
    returned s (rs ++ [r]) =
      returned s rs ++ [(cocRecord (rs.foldl (fun s r => (cocRecord s r).1) s) r).2] := by
  induction rs generalizing s with
  | nil => rfl
  | cons first rs ih =>
      rw [List.cons_append,returned,returned,ih]
      rfl

theorem returnedLinks (bootTsc : Word) (rs : List Record) :
    returned (cocInit bootTsc) rs = (List.range' 1 rs.length).map (linkAt bootTsc rs) := by
  induction rs using List.reverseRecOn with
  | nil => rfl
  | append_singleton rs r ih =>
      have new : (cocRecord (after bootTsc rs) r).2 = linkAt bootTsc (rs ++ [r]) (rs.length + 1) :=
        recordLinkNew (roomKept (afterHolds bootTsc rs)) r
      have old : (List.range' 1 rs.length).map (linkAt bootTsc rs) =
          (List.range' 1 rs.length).map (linkAt bootTsc (rs ++ [r])) := by
        refine List.map_congr_left fun k mem => ?_
        rw [List.mem_range'_1] at mem
        exact (linkAtOld r (by omega)).symm
      rw [returnedSnoc,ih,old,List.length_append,List.length_singleton,List.range'_concat,List.map_append,
        Nat.one_mul,Nat.add_comm 1]
      exact congrArg (fun link => (List.range' 1 rs.length).map (linkAt bootTsc (rs ++ [r])) ++ [link]) new

theorem linkAtSeq (bootTsc : Word) (rs : List Record) {k : Nat} (old : k ≤ rs.length) :
    (linkAt bootTsc rs k).seq = BitVec.ofNat 64 k := by
  induction rs using List.reverseRecOn generalizing k with
  | nil =>
      obtain rfl : k = 0 := Nat.le_zero.mp old
      rfl
  | append_singleton rs r ih =>
      rw [List.length_append,List.length_singleton] at old
      rcases Nat.lt_or_ge rs.length k with latest | earlier
      · obtain rfl : k = rs.length + 1 := by omega
        rw [linkAtNew,BitVec.ofNat_add]
        exact congrArg (fun seq : Word => seq + 1) (ih (Nat.le_refl _))
      · rw [linkAtOld r earlier,ih earlier]

theorem newestLinksKept (bootTsc : Word) (rs : List Record) :
    (after bootTsc rs).count = min (rs.length + 1) 256 ∧
    (after bootTsc rs).slot 0 = genesis ∧
    (List.range' 1 ((after bootTsc rs).count - 1)).map (after bootTsc rs).slot =
      (returned (cocInit bootTsc) rs).drop (rs.length - 255) ∧
    (∀ i, 0 < i → i < (after bootTsc rs).count →
      ((after bootTsc rs).slot i).seq = BitVec.ofNat 64 (rs.length + 1 - (after bootTsc rs).count + i)) ∧
    (∀ r, (cocRecord (after bootTsc rs) r).2 =
      (after bootTsc (rs ++ [r])).slot ((after bootTsc (rs ++ [r])).count - 1)) := by
  obtain ⟨kept,count⟩ := afterHolds bootTsc rs
  rw [maxEntries] at count
  refine ⟨count,kept.first,?_,fun i pos lt => ?_,fun r => ?_⟩
  · rw [returnedLinks,← List.map_drop]
    apply List.ext_getElem
    · simp only [List.length_map,List.length_drop,List.length_range']
      omega
    · intro k left right
      simp only [List.length_map,List.length_range'] at left
      simp only [List.getElem_map,List.getElem_drop,List.getElem_range']
      rw [kept.newest _ (by omega) (by omega)]
      congr 1
      omega
  · have all := kept.all
    rw [kept.newest i pos lt,linkAtSeq bootTsc rs (by omega)]
  · rw [(afterHolds bootTsc (rs ++ [r])).kept.last,List.length_append,List.length_singleton]
    exact recordLinkNew (roomKept (afterHolds bootTsc rs)) r

theorem verifyIntact (s : Chain) : cocVerifyChain s = [] ↔ ∀ i, 0 < i → i < s.count → intact s i = true := by
  rw [cocVerifyChain,List.map_eq_nil_iff,List.filter_eq_nil_iff]
  simp only [List.mem_range'_1,Bool.not_eq_true,Bool.not_eq_false']
  constructor
  · intro all i pos lt
    exact all i ⟨pos,by omega⟩
  · rintro all i ⟨pos,lt⟩
    exact all i pos (by omega)

def recordOf (rs : List Record) (s : Chain) (i : Nat) : Nat := rs.length + 1 - s.count + i - 1

def recorded (bootTsc : Word) (rs : List Record) (i : Nat) : List Byte :=
  let s := after bootTsc rs
  let k := recordOf rs s i
  message (linkAt bootTsc rs k).hash (s.slot i) ((rs.map bytes).getD k [])

def checked (bootTsc : Word) (rs : List Record) (i : Nat) : List Byte :=
  let s := after bootTsc rs
  message (s.slot (i - 1)).hash (s.slot i) []

def Collision (x y : List Byte) : Prop := x ≠ y ∧ sha256 x = sha256 y

/- The link carries no data, and the link before it is still in the slot before: only the
first slot can have lost it, to the genesis link. -/
def Faithful (bootTsc : Word) (rs : List Record) (i : Nat) : Prop :=
  let k := recordOf rs (after bootTsc rs) i
  (rs.map bytes).getD k [] = [] ∧ (i = 1 → (linkAt bootTsc rs k).hash = genesis.hash)

section Verified

variable (bootTsc : Word) (rs : List Record) {i : Nat}

theorem recordOfInside (pos : 0 < i) (lt : i < (after bootTsc rs).count) :
    recordOf rs (after bootTsc rs) i < rs.length := by
  have all := (afterHolds bootTsc rs).kept.all
  rw [recordOf]
  omega

theorem slotHash (pos : 0 < i) (lt : i < (after bootTsc rs).count) :
    ((after bootTsc rs).slot i).hash = sha256 (recorded bootTsc rs i) := by
  have inside := recordOfInside bootTsc rs pos lt
  have place : rs.length + 1 - (after bootTsc rs).count + i = recordOf rs (after bootTsc rs) i + 1 := by
    rw [recordOf]
    omega
  have slot := (afterHolds bootTsc rs).kept.newest i pos lt
  have data : (rs.map bytes).getD (recordOf rs (after bootTsc rs) i) [] =
      bytes (rs[recordOf rs (after bootTsc rs) i]) := by
    rw [List.getD_eq_getElem _ _ (by rw [List.length_map]; exact inside),List.getElem_map]
  rw [place] at slot
  simp only [recorded]
  rw [slot,data]
  exact linkAtSealed bootTsc rs inside

theorem intactExact (pos : 0 < i) (lt : i < (after bootTsc rs).count) :
    intact (after bootTsc rs) i = true ↔ sha256 (checked bootTsc rs i) = sha256 (recorded bootTsc rs i) := by
  rw [intactDigest,slotHash bootTsc rs pos lt]
  rfl

theorem checkedExact (pos : 0 < i) (lt : i < (after bootTsc rs).count) :
    checked bootTsc rs i = recorded bootTsc rs i ↔ Faithful bootTsc rs i := by
  have kept := (afterHolds bootTsc rs).kept
  have before : ((after bootTsc rs).slot (i - 1)).hash =
      (linkAt bootTsc rs (recordOf rs (after bootTsc rs) i)).hash ↔
      (i = 1 → (linkAt bootTsc rs (recordOf rs (after bootTsc rs) i)).hash = genesis.hash) := by
    by_cases one : i = 1
    · subst one
      rw [kept.first]
      exact ⟨fun same _ => same.symm,fun same => (same rfl).symm⟩
    · have all := kept.all
      rw [kept.newest (i - 1) (by omega) (by omega),recordOf,
        show rs.length + 1 - (after bootTsc rs).count + (i - 1) =
          rs.length + 1 - (after bootTsc rs).count + i - 1 by omega]
      exact iff_of_true rfl (fun is => absurd is one)
  simp only [checked,recorded,Faithful]
  rw [messageInjective,before,and_comm,eq_comm (a := [])]

end Verified

theorem custodyExact (bootTsc : Word) (rs : List Record) :
    (cocVerifyChain (after bootTsc rs) = [] ↔ ∀ i, 0 < i → i < (after bootTsc rs).count →
      Faithful bootTsc rs i ∨ Collision (checked bootTsc rs i) (recorded bootTsc rs i)) ∧
    (rs.length < maxEntries → (∀ r ∈ rs, bytes r = []) → cocVerifyChain (after bootTsc rs) = []) := by
  have exact : cocVerifyChain (after bootTsc rs) = [] ↔ ∀ i, 0 < i → i < (after bootTsc rs).count →
      Faithful bootTsc rs i ∨ Collision (checked bootTsc rs i) (recorded bootTsc rs i) := by
    rw [verifyIntact]
    refine forall_congr' fun i => forall_congr' fun pos => forall_congr' fun lt => ?_
    rw [intactExact bootTsc rs pos lt,← checkedExact bootTsc rs pos lt]
    by_cases same : checked bootTsc rs i = recorded bootTsc rs i
    · exact iff_of_true (congrArg sha256 same) (Or.inl same)
    · exact ⟨fun digest => Or.inr ⟨same,digest⟩,fun either => (either.resolve_left same).2⟩
  refine ⟨exact,fun few none => exact.mpr fun i pos lt => Or.inl ⟨?_,?_⟩⟩
  · have inside := recordOfInside bootTsc rs pos lt
    rw [List.getD_eq_getElem _ _ (by rw [List.length_map]; exact inside),List.getElem_map]
    exact none _ (List.getElem_mem inside)
  · rintro rfl
    have count := (afterHolds bootTsc rs).count
    rw [maxEntries] at count few
    rw [recordOf,show rs.length + 1 - (after bootTsc rs).count + 1 - 1 = 0 by omega]
    exact congrArg Link.hash (linkAtFirst bootTsc rs)

theorem custodyVerifies : cocVerifyChain (after 0 [⟨6,none,5⟩,⟨7,some [],9⟩]) = [] :=
  (custodyExact 0 [⟨6,none,5⟩,⟨7,some [],9⟩]).2 (by decide) (by decide)

theorem dataBreaksLink : cocVerifyChain (after 0 [⟨6,some [1],5⟩]) = [(1,6)] := by
  decide +kernel

end Nekros.Coc
