import Nekros.Multiboot2
import Nekros.PmmTiling

/-! Where `parse_multiboot2` reads, and whether it ends. Both walks advance by sizes they take from
the structure itself: `Tags` and `Entries` are the pointers they come to, all of which a reader that
ends has read. An address is inside the structure if its distance from the start, taken modulo 2^64,
is below `total_size`. `Laid` says of the bytes alone what sizes the walks stay inside with. -/
namespace Nekros.Multiboot2Bounds
open Words Pmm Multiboot2
open PmmLoops (NoWrap)
open PmmSafety (SameNodes nodesTrans)
open PmmWindow (accepts)
open Bytes (Byte)

def nextTag (mem : Nat → Byte) (p : Nat) : Nat := wrap (p + advance (u32At mem (p+4)))

def mmapEnd (mem : Nat → Byte) (p : Nat) : Nat := wrap (p + u32At mem (p+4))

def entrySize (mem : Nat → Byte) (p : Nat) : Nat := u32At mem (p+8)

def firstEntry (p : Nat) : Nat := wrap (p+16)

inductive Tags (mem : Nat → Byte) (stop : Nat) : Nat → Nat → Prop where
  | here {p : Nat} (more : p < stop) : Tags mem stop p p
  | next {p p' : Nat} (more : p < stop) (open' : u32At mem p ≠ 0) (rest : Tags mem stop (nextTag mem p) p') :
      Tags mem stop p p'

inductive Entries (stop size : Nat) : Nat → Nat → Prop where
  | here {q : Nat} (more : q < stop) : Entries stop size q q
  | next {q q' : Nat} (more : q < stop) (rest : Entries stop size (wrap (q + size)) q') : Entries stop size q q'

def entriesFrom (mem : Nat → Byte) (size : Nat) : Nat → Nat → List MmapEntry
  | 0,_ => []
  | n+1,q => entryAt mem q :: entriesFrom mem size n (wrap (q + size))

section Structure
variable (mem : Nat → Byte) (mb2Phys : Nat)

def info : Nat := physToVirt mb2Phys

def totalSize : Nat := u32At mem (info mb2Phys)

def endPtr : Nat := wrap (info mb2Phys + totalSize mem mb2Phys)

def firstTag : Nat := wrap (info mb2Phys + 8)

def initial (s : State) : Parsed := ⟨s,0,0x200000⟩

def Inside (p len : Nat) : Prop := sub64 p (info mb2Phys) + len ≤ totalSize mem mb2Phys

structure Bounded (s : State) : Prop where
  ends : ∃ fuel out, parseMultiboot2 fuel mem mb2Phys s = some out
  tags : ∀ p, Tags mem (endPtr mem mb2Phys) (firstTag mb2Phys) p → Inside mem mb2Phys p 8
  entries : ∀ p q, Tags mem (endPtr mem mb2Phys) (firstTag mb2Phys) p → u32At mem p = tagMmap →
    Entries (mmapEnd mem p) (entrySize mem p) (firstEntry p) q →
      Inside mem mb2Phys q 24 ∧ Inside mem mb2Phys (wrap (p+8)) 4

def place (o : Nat) : Nat := wrap (info mb2Phys + o)

def Whole (o : Nat) : Prop := place mb2Phys o < endPtr mem mb2Phys ∧ o + 8 ≤ totalSize mem mb2Phys

/- The entries of the map at an offset by its own two sizes, none if `entry_size` is 0. -/
def entryCount (o : Nat) : Nat :=
  let p := place mb2Phys o
  (mmapEnd mem p - firstEntry p + (entrySize mem p - 1)) / entrySize mem p

/- The last entry is inside, and the pointer behind it is at the end of the map or past it. -/
def MapFits (o : Nat) : Prop :=
  let p := place mb2Phys o
  let n := entryCount mem mb2Phys o
  (n = 0 ∨ o + 16 + (n-1) * entrySize mem p + 24 ≤ totalSize mem mb2Phys) ∧
    mmapEnd mem p ≤ wrap (firstEntry p + n * entrySize mem p)

inductive Laid : Nat → List MmapEntry → Prop where
  | past {o : Nat} (behind : endPtr mem mb2Phys ≤ place mb2Phys o) : Laid o []
  | last {o : Nat} (whole : Whole mem mb2Phys o) (closed : u32At mem (place mb2Phys o) = 0) : Laid o []
  | other {o : Nat} {es : List MmapEntry} (whole : Whole mem mb2Phys o) (open' : u32At mem (place mb2Phys o) ≠ 0)
      (different : u32At mem (place mb2Phys o) ≠ tagMmap)
      (rest : Laid (o + advance (u32At mem (place mb2Phys o + 4))) es) : Laid o es
  | map {o : Nat} {es : List MmapEntry} (whole : Whole mem mb2Phys o) (map : u32At mem (place mb2Phys o) = tagMmap)
      (fits : MapFits mem mb2Phys o) (rest : Laid (o + advance (u32At mem (place mb2Phys o + 4))) es) :
      Laid o (entriesFrom mem (entrySize mem (place mb2Phys o)) (entryCount mem mb2Phys o)
        (firstEntry (place mb2Phys o)) ++ es)

end Structure

def addBase (e : MmapEntry) : Nat := wrap (align e.baseAddr + bmBytes e.length)

def addLength (e : MmapEntry) : Nat := e.length - bmBytes e.length

def Added (s : State) (e : MmapEntry) : Prop :=
  e.type = mmapAvailable ∧ 0x400000 ≤ e.baseAddr ∧ bmBytes e.length < e.length ∧
    accepts s (addBase e) (addLength e) = true
instance (s e) : Decidable (Added s e) := by unfold Added; infer_instance

def withNode (s : State) (start stop : Nat) : State :=
  match pmmNodeOf s start with
  | some i => growNode s i stop
  | none => openNode s start stop

/- No region that gets a node holds the start of a block that would end at 2^64. Which regions get
one is a matter of the table of nodes alone. -/
def Settles : State → List MmapEntry → Prop
  | _,[] => True
  | s,e::es =>
      let start := regionStart (addBase e)
      let stop := regionStop (addBase e) (addLength e)
      if Added s e then NoWrap start stop ∧ Settles (withNode s start stop) es else Settles s es

theorem wordLt (mem : Nat → Byte) (n p : Nat) : wordAt mem n p < 256^n := by
  induction n generalizing p with
  | zero => exact Nat.one_pos
  | succ n ih =>
      have rest := ih (p+1)
      have byte := (mem (wrap p)).isLt
      rw [wordAt,Nat.pow_succ]
      omega

theorem mmapEndLt (mem : Nat → Byte) (p : Nat) : mmapEnd mem p < 2^64 := wrapLt _

theorem u32Lt (mem : Nat → Byte) (p : Nat) : u32At mem p < 2^32 := wordLt mem 4 p

theorem advanceBounds (size : Nat) : 8 ≤ advance size ∧ advance size ≤ 2^32 := by
  unfold advance
  dsimp only
  split <;> omega

theorem distanceStep {base p d len total : Nat} (word : base < 2^64) (small : total < 2^32)
    (inside : sub64 p base + len ≤ total) (place : p < 2^64) (short : d ≤ 2^32) :
    sub64 (wrap (p + d)) base = sub64 p base + d := by
  unfold sub64 wrap at *
  omega

theorem placeDistance {mb2Phys o : Nat} (small : o < 2^64) : sub64 (place mb2Phys o) (info mb2Phys) = o := by
  have word : info mb2Phys < 2^64 := wrapLt _
  unfold place sub64 wrap
  omega

theorem placeStep (mb2Phys o d : Nat) : wrap (place mb2Phys o + d) = place mb2Phys (o + d) := by
  unfold place wrap
  omega

theorem nextPlace (mem : Nat → Byte) (mb2Phys o : Nat) :
    nextTag mem (place mb2Phys o) = place mb2Phys (o + advance (u32At mem (place mb2Phys o + 4))) :=
  placeStep _ _ _

section Inner
variable {mem : Nat → Byte} {stop size : Nat}

def Walk (stop size : Nat) : Nat → Nat → Prop
  | 0,q => stop ≤ q
  | n+1,q => q < stop ∧ Walk stop size n (wrap (q + size))

theorem entriesDone {fuel q : Nat} {r : Parsed} (ended : ¬ q < stop) :
    takeEntries mem stop size fuel q r = some r := by
  cases fuel <;> exact if_neg ended

theorem entriesMore {fuel q : Nat} {r out : Parsed} (more : q < stop)
    (ran : takeEntries mem stop size fuel q r = some out) :
    ∃ left r1, fuel = left + 1 ∧ takeEntry r (entryAt mem q) = some r1 ∧
      takeEntries mem stop size left (wrap (q + size)) r1 = some out := by
  cases fuel with
  | zero =>
      rw [takeEntries,if_pos more] at ran
      cases ran
  | succ fuel =>
      rw [takeEntries,if_pos more] at ran
      obtain ⟨r1,taken,rest⟩ := Option.bind_eq_some_iff.mp ran
      exact ⟨fuel,r1,rfl,taken,rest⟩

theorem runWalk {fuel q : Nat} {r out : Parsed} (ran : takeEntries mem stop size fuel q r = some out) :
    ∃ n, Walk stop size n q ∧ (entriesFrom mem size n q).foldlM takeEntry r = some out := by
  induction fuel generalizing q r with
  | zero =>
      rw [takeEntries] at ran
      split at ran
      · cases ran
      · next ended => exact ⟨0,Nat.le_of_not_lt ended,ran⟩
  | succ fuel ih =>
      by_cases more : q < stop
      · obtain ⟨left,r1,fewer,taken,rest⟩ := entriesMore more ran
        cases fewer
        obtain ⟨n,walk,folded⟩ := ih rest
        refine ⟨n+1,⟨more,walk⟩,?_⟩
        rw [entriesFrom,List.foldlM_cons,taken]
        exact folded
      · rw [entriesDone more] at ran
        exact ⟨0,Nat.le_of_not_lt more,ran⟩

theorem walkRun {n fuel q : Nat} {r out : Parsed} (walk : Walk stop size n q) (enough : n ≤ fuel)
    (folded : (entriesFrom mem size n q).foldlM takeEntry r = some out) :
    takeEntries mem stop size fuel q r = some out := by
  induction n generalizing fuel q r with
  | zero => rwa [entriesDone (Nat.not_lt_of_le walk)]
  | succ n ih =>
      obtain ⟨more,rest⟩ := walk
      cases fuel with
      | zero => exact absurd enough (Nat.not_succ_le_zero n)
      | succ fuel =>
          rw [entriesFrom,List.foldlM_cons] at folded
          obtain ⟨r1,taken,folded⟩ := Option.bind_eq_some_iff.mp folded
          rw [takeEntries,if_pos more,taken]
          exact ih rest (Nat.le_of_succ_le_succ enough) folded

theorem walkStuck {q : Nat} (word : stop < 2^64) (more : q < stop) (n : Nat) : ¬ Walk stop 0 n q := by
  induction n with
  | zero => exact Nat.not_le_of_lt more
  | succ n ih =>
      have still : wrap (q + 0) = q := wrapOfLt (Nat.lt_trans more word)
      rw [Walk,still]
      exact fun walk => ih walk.2

theorem walkOf {n q : Nat} (word : stop < 2^64) (placed : q < 2^64) (stays : n = 0 ∨ q + (n-1) * size < stop)
    (done : stop ≤ wrap (q + n * size)) : Walk stop size n q := by
  induction n generalizing q with
  | zero => rwa [Nat.zero_mul,Nat.add_zero,wrapOfLt placed] at done
  | succ n ih =>
      rw [Nat.add_sub_cancel] at stays
      have last : q + n * size < stop := stays.resolve_left (Nat.succ_ne_zero n)
      refine ⟨by omega,ih (wrapLt _) ?_ ?_⟩
      · rcases Nat.eq_zero_or_pos n with none' | some'
        · exact .inl none'
        · obtain ⟨m,rfl⟩ := Nat.exists_eq_succ_of_ne_zero (Nat.ne_of_gt some')
          rw [Nat.succ_mul] at last
          rw [wrapOfLt (by omega)]
          exact .inr (by rw [Nat.succ_sub_one]; omega)
      · rw [Nat.succ_mul] at done
        unfold wrap at *
        omega

theorem walkReaches {n q q' base total d : Nat} (word : base < 2^64) (small : total < 2^32) (placed : q < 2^64)
    (short : size ≤ 2^32) (walk : Walk stop size n q) (away : sub64 q base = d)
    (inside : n = 0 ∨ d + (n-1) * size + 24 ≤ total) (reached : Entries stop size q q') :
    sub64 q' base + 24 ≤ total := by
  induction n generalizing q d with
  | zero =>
      cases reached with
      | here more => exact absurd more (Nat.not_lt_of_le walk)
      | next more _ => exact absurd more (Nat.not_lt_of_le walk)
  | succ n ih =>
      obtain ⟨_,walk⟩ := walk
      rw [Nat.add_sub_cancel] at inside
      have room : d + n * size + 24 ≤ total := inside.resolve_left (Nat.succ_ne_zero n)
      cases reached with
      | here _ => omega
      | next _ reached =>
          have far := distanceStep word small (show sub64 q base + 24 ≤ total by omega) placed short
          refine ih (wrapLt _) walk far ?_ reached
          rcases Nat.eq_zero_or_pos n with none' | some'
          · exact .inl none'
          · obtain ⟨m,rfl⟩ := Nat.exists_eq_succ_of_ne_zero (Nat.ne_of_gt some')
            rw [Nat.succ_mul] at room
            exact .inr (by rw [Nat.succ_sub_one]; omega)

theorem walkExact {n q base total : Nat} (word : base < 2^64) (small : total < 2^32) (placed : q < 2^64)
    (short : size ≤ 2^32) (walk : Walk stop size n q)
    (inside : ∀ q', Entries stop size q q' → sub64 q' base + 24 ≤ total)
    (flat : sub64 q base + 24 ≤ total → q + total < 2^64 + sub64 q base) :
    (n = 0 ∨ (sub64 q base + (n-1) * size + 24 ≤ total ∧ q + (n-1) * size < stop)) ∧ stop ≤ wrap (q + n * size) := by
  induction n generalizing q with
  | zero =>
      refine ⟨.inl rfl,?_⟩
      rwa [Nat.zero_mul,Nat.add_zero,wrapOfLt placed]
  | succ n ih =>
      obtain ⟨more,walk⟩ := walk
      have here := inside q (.here more)
      have room := flat here
      have far := distanceStep word small here placed short
      obtain ⟨stays,done⟩ := ih (wrapLt _) walk (fun q' rest => inside q' (.next more rest)) (by
        rw [far]
        intro next
        rw [wrapOfLt (by omega)]
        omega)
      refine ⟨.inr ?_,?_⟩
      · rw [Nat.add_sub_cancel]
        rcases Nat.eq_zero_or_pos n with rfl | some'
        · omega
        · obtain ⟨m,rfl⟩ := Nat.exists_eq_succ_of_ne_zero (Nat.ne_of_gt some')
          obtain ⟨last,below⟩ := stays.resolve_left (Nat.succ_ne_zero m)
          rw [Nat.succ_sub_one,far] at last
          rw [Nat.succ_sub_one,wrapOfLt (by omega)] at below
          rw [Nat.succ_mul]
          omega
      · rw [Nat.succ_mul]
        unfold wrap at *
        omega

theorem countExact {n first : Nat} (stays : n = 0 ∨ first + (n-1) * size < stop) (done : stop ≤ first + n * size) :
    (stop - first + (size - 1)) / size = n := by
  rcases Nat.eq_zero_or_pos n with rfl | some'
  · rw [show stop - first = 0 by omega]
    rcases Nat.eq_zero_or_pos size with rfl | pos
    · rfl
    · exact Nat.div_eq_of_lt (by omega)
  · obtain ⟨m,rfl⟩ := Nat.exists_eq_succ_of_ne_zero (Nat.ne_of_gt some')
    have below := stays.resolve_left (Nat.succ_ne_zero m)
    rw [Nat.succ_sub_one] at below
    rw [Nat.succ_mul] at done
    refine Nat.div_eq_of_lt_le ?_ ?_
    · rw [Nat.succ_mul]
      omega
    · rw [Nat.succ_mul,Nat.succ_mul]
      omega

theorem countStays (first : Nat) : (stop - first + (size - 1)) / size = 0 ∨
    first + ((stop - first + (size - 1)) / size - 1) * size < stop := by
  rcases Nat.eq_zero_or_pos ((stop - first + (size - 1)) / size) with none' | some'
  · exact .inl none'
  · refine .inr ?_
    have pos : 0 < size := Nat.pos_of_ne_zero (fun zero => by rw [zero,Nat.div_zero] at some'; omega)
    have least := Nat.div_mul_le_self (stop - first + (size - 1)) size
    obtain ⟨m,count⟩ := Nat.exists_eq_succ_of_ne_zero (Nat.ne_of_gt some')
    rw [count,Nat.succ_mul] at least
    rw [count,Nat.succ_sub_one]
    omega

end Inner

section Reader
variable {mem : Nat → Byte} {mb2Phys : Nat}

theorem placeFlat {o : Nat} (whole : Whole mem mb2Phys o) :
    place mb2Phys o + totalSize mem mb2Phys < 2^64 + o := by
  obtain ⟨more,inside⟩ := whole
  have small : totalSize mem mb2Phys < 2^32 := u32Lt mem _
  have word : info mb2Phys < 2^64 := wrapLt _
  unfold endPtr place wrap at *
  omega

theorem mapWalk {o : Nat} (fits : MapFits mem mb2Phys o) :
    Walk (mmapEnd mem (place mb2Phys o)) (entrySize mem (place mb2Phys o)) (entryCount mem mb2Phys o)
      (firstEntry (place mb2Phys o)) :=
  walkOf (mmapEndLt _ _) (wrapLt _) (countStays _) fits.2

theorem firstAway {o : Nat} (whole : Whole mem mb2Phys o) :
    sub64 (firstEntry (place mb2Phys o)) (info mb2Phys) = o + 16 := by
  have small : totalSize mem mb2Phys < 2^32 := u32Lt mem _
  have inside := whole.2
  rw [firstEntry,placeStep]
  exact placeDistance (by omega)

theorem mapInside {o q : Nat} (whole : Whole mem mb2Phys o) (fits : MapFits mem mb2Phys o)
    (reached : Entries (mmapEnd mem (place mb2Phys o)) (entrySize mem (place mb2Phys o)) (firstEntry (place mb2Phys o)) q) :
    Inside mem mb2Phys q 24 := by
  exact walkReaches (wrapLt _) (u32Lt mem _) (wrapLt _) (Nat.le_of_lt (u32Lt mem _)) (mapWalk fits)
    (firstAway whole) fits.1 reached

theorem mapFew {o : Nat} (fits : MapFits mem mb2Phys o) : entryCount mem mb2Phys o ≤ totalSize mem mb2Phys := by
  rcases fits.1 with none' | room
  · rw [none']
    exact Nat.zero_le _
  · have pos : 0 < entrySize mem (place mb2Phys o) ∨ entryCount mem mb2Phys o = 0 := by
      rcases Nat.eq_zero_or_pos (entrySize mem (place mb2Phys o)) with zero | pos
      · refine .inr ?_
        rw [entryCount,zero]
        exact Nat.div_zero _
      · exact .inl pos
    rcases pos with pos | none'
    · have least := Nat.mul_le_mul_left (entryCount mem mb2Phys o - 1) (show 1 ≤ entrySize mem (place mb2Phys o) from pos)
      omega
    · omega

theorem mapFits {turns o : Nat} {r out : Parsed} (whole : Whole mem mb2Phys o)
    (inside : ∀ q, Entries (mmapEnd mem (place mb2Phys o)) (entrySize mem (place mb2Phys o))
      (firstEntry (place mb2Phys o)) q → Inside mem mb2Phys q 24)
    (ran : takeEntries mem (mmapEnd mem (place mb2Phys o)) (entrySize mem (place mb2Phys o)) turns
      (firstEntry (place mb2Phys o)) r = some out) :
    MapFits mem mb2Phys o ∧ (entriesFrom mem (entrySize mem (place mb2Phys o)) (entryCount mem mb2Phys o)
      (firstEntry (place mb2Phys o))).foldlM takeEntry r = some out := by
  have small : totalSize mem mb2Phys < 2^32 := u32Lt mem _
  have short := whole.2
  have level := placeFlat whole
  have away := firstAway whole
  have word : info mb2Phys < 2^64 := wrapLt _
  have placed : firstEntry (place mb2Phys o) < 2^64 := wrapLt _
  have each : entrySize mem (place mb2Phys o) ≤ 2^32 := Nat.le_of_lt (u32Lt mem _)
  obtain ⟨n,walk,folded⟩ := runWalk ran
  obtain ⟨stays,done⟩ := walkExact word small placed each walk inside (by
    rw [away,firstEntry]
    intro room
    rw [wrapOfLt (by omega)]
    omega)
  have count : entryCount mem mb2Phys o = n :=
    countExact (stays.imp_right And.right) (Nat.le_trans done (Nat.mod_le _ _))
  rw [MapFits,count]
  refine ⟨⟨stays.imp_right fun last => ?_,done⟩,folded⟩
  rw [away] at last
  exact last.1

theorem runLaid {turns fuel o : Nat} {r out : Parsed} (short : o < 2^33)
    (tags : ∀ p, Tags mem (endPtr mem mb2Phys) (place mb2Phys o) p → Inside mem mb2Phys p 8)
    (entries : ∀ p q, Tags mem (endPtr mem mb2Phys) (place mb2Phys o) p → u32At mem p = tagMmap →
      Entries (mmapEnd mem p) (entrySize mem p) (firstEntry p) q → Inside mem mb2Phys q 24)
    (ran : takeTags mem (endPtr mem mb2Phys) turns fuel (place mb2Phys o) r = some out) :
    ∃ es, Laid mem mb2Phys o es ∧ es.foldlM takeEntry r = some out := by
  induction fuel generalizing o r with
  | zero =>
      rw [takeTags] at ran
      split at ran
      · cases ran
      · next ended => exact ⟨[],.past (Nat.le_of_not_lt ended),ran⟩
  | succ fuel ih =>
      by_cases more : place mb2Phys o < endPtr mem mb2Phys
      case neg =>
        rw [takeTags,if_neg more] at ran
        exact ⟨[],.past (Nat.le_of_not_lt more),ran⟩
      have here := tags _ (.here more)
      rw [Inside,placeDistance (by omega)] at here
      have whole : Whole mem mb2Phys o := ⟨more,here⟩
      rw [takeTags,if_pos more] at ran
      by_cases closed : u32At mem (place mb2Phys o) = 0
      · rw [if_pos closed] at ran
        exact ⟨[],.last whole closed,ran⟩
      rw [if_neg closed] at ran
      obtain ⟨r1,walked,rest⟩ := Option.bind_eq_some_iff.mp ran
      obtain ⟨least,most⟩ := advanceBounds (u32At mem (place mb2Phys o + 4))
      have small : totalSize mem mb2Phys < 2^32 := u32Lt mem _
      have later : ∀ {p}, Tags mem (endPtr mem mb2Phys) (place mb2Phys (o + advance (u32At mem (place mb2Phys o + 4)))) p →
          Tags mem (endPtr mem mb2Phys) (place mb2Phys o) p :=
        fun reached => .next more closed (nextPlace mem mb2Phys o ▸ reached)
      rw [placeStep] at rest
      obtain ⟨es,laid,folded⟩ := ih (by omega) (fun p reached => tags p (later reached))
        (fun p q reached => entries p q (later reached)) rest
      by_cases map : u32At mem (place mb2Phys o) = tagMmap
      · rw [if_pos map] at walked
        obtain ⟨fits,taken⟩ := mapFits whole (fun q => entries _ q (.here more) map) walked
        refine ⟨_,.map whole map fits laid,?_⟩
        rw [List.foldlM_append,taken]
        exact folded
      · rw [if_neg map] at walked
        cases walked
        exact ⟨es,.other whole closed map laid,folded⟩

theorem laidRun {o : Nat} {es : List MmapEntry} (laid : Laid mem mb2Phys o es) {fuel : Nat} {r out : Parsed}
    (folded : es.foldlM takeEntry r = some out) (enough : totalSize mem mb2Phys ≤ o + fuel) :
    takeTags mem (endPtr mem mb2Phys) (totalSize mem mb2Phys) fuel (place mb2Phys o) r = some out := by
  induction laid generalizing fuel r with
  | past behind =>
      have ended := Nat.not_lt_of_le behind
      cases fuel <;> rwa [takeTags,if_neg ended]
  | last whole closed =>
      obtain ⟨more,inside⟩ := whole
      obtain ⟨left,rfl⟩ : ∃ left, fuel = left + 1 := ⟨fuel - 1,by omega⟩
      rwa [takeTags,if_pos more,if_pos closed]
  | @other o _ whole open' different _ ih =>
      obtain ⟨more,inside⟩ := whole
      obtain ⟨left,rfl⟩ : ∃ left, fuel = left + 1 := ⟨fuel - 1,by omega⟩
      have least := (advanceBounds (u32At mem (place mb2Phys o + 4))).1
      rw [takeTags,if_pos more,if_neg open']
      dsimp only
      rw [if_neg different,placeStep]
      exact ih folded (by omega)
  | @map o es whole map fits _ ih =>
      obtain ⟨more,inside⟩ := whole
      obtain ⟨left,rfl⟩ : ∃ left, fuel = left + 1 := ⟨fuel - 1,by omega⟩
      have least := (advanceBounds (u32At mem (place mb2Phys o + 4))).1
      have open' : u32At mem (place mb2Phys o) ≠ 0 := by
        rw [map]
        decide
      rw [List.foldlM_append] at folded
      obtain ⟨r1,taken,folded⟩ := Option.bind_eq_some_iff.mp folded
      have walked := walkRun (mapWalk fits) (mapFew fits) taken
      rw [takeTags,if_pos more,if_neg open']
      dsimp only
      rw [if_pos map,placeStep _ _ (advance _)]
      exact Option.bind_eq_some_iff.mpr ⟨r1,walked,ih folded (by omega)⟩

theorem laidTags {o p : Nat} {es : List MmapEntry} (laid : Laid mem mb2Phys o es)
    (reached : Tags mem (endPtr mem mb2Phys) (place mb2Phys o) p) :
    ∃ o', p = place mb2Phys o' ∧ Whole mem mb2Phys o' ∧ (u32At mem p = tagMmap → MapFits mem mb2Phys o') := by
  induction laid with
  | past behind =>
      have ended := Nat.not_lt_of_le behind
      cases reached with
      | here more => exact absurd more ended
      | next more _ _ => exact absurd more ended
  | last whole closed =>
      cases reached with
      | here _ => exact ⟨_,rfl,whole,fun map => absurd (closed.symm.trans map) (by decide)⟩
      | next _ open' _ => exact absurd closed open'
  | other whole _ different _ ih =>
      cases reached with
      | here _ => exact ⟨_,rfl,whole,fun map => absurd map different⟩
      | next _ _ later => exact ih (nextPlace mem mb2Phys _ ▸ later)
  | map whole _ fits _ ih =>
      cases reached with
      | here _ => exact ⟨_,rfl,whole,fun _ => fits⟩
      | next _ _ later => exact ih (nextPlace mem mb2Phys _ ▸ later)

end Reader

theorem setNodeSame (s : State) (i : Nat) {nd : PmmNode} (base : nd.base = (s.nodes i).base)
    (limit : nd.limit = (s.nodes i).limit) : SameNodes s (setNode s i nd) := by
  refine ⟨rfl,fun j => ?_⟩
  by_cases same : j = i
  · subst same
    simp [setNode,base,limit]
  · simp [setNode,Function.update_of_ne same]

theorem carveNodes {fuel i pa stop : Nat} {s t : State} (ran : carve fuel s i pa stop = some t) : SameNodes s t := by
  induction fuel generalizing s pa with
  | zero =>
      rw [carve] at ran
      split at ran
      · cases ran
      · cases ran
        exact ⟨rfl,fun _ => ⟨rfl,rfl⟩⟩
  | succ fuel ih =>
      rw [carve] at ran
      split at ran
      · have pushed : SameNodes s (flPush s i (carveOrder pa stop maxOrder) pa) := setNodeSame _ _ rfl rfl
        have counted : SameNodes _ (addFreePages (flPush s i (carveOrder pa stop maxOrder) pa) i
            (1 <<< carveOrder pa stop maxOrder)) := setNodeSame _ i rfl rfl
        exact nodesTrans pushed (nodesTrans counted (ih ran))
      · cases ran
        exact ⟨rfl,fun _ => ⟨rfl,rfl⟩⟩

section Region
variable {base length : Nat}

theorem startAligned : regionStart base % pageSize = 0 := by
  unfold regionStart
  split
  · decide
  · exact alignAligned _

theorem fillReturns (s : State) (i : Nat) (flat : NoWrap (regionStart base) (regionStop base length)) :
    ∃ t, fillNode s i (regionStart base) (regionStop base length) = some t ∧ SameNodes s t := by
  have small : regionStop base length < 2^64 := Nat.lt_of_le_of_lt (alignDownLe _) (wrapLt _)
  have whole : regionStop base length % pageSize = 0 := alignDownAligned _
  have aligned : regionStart base % pageSize = 0 := startAligned
  have enough : regionStop base length - regionStart base ≤
      (regionStop base length - regionStart base) / pageSize * pageSize := by
    unfold pageSize at *
    omega
  obtain ⟨t,ran⟩ := PmmTiling.carveReturns small whole (i := i)
    (countPages s i ((regionStop base length - regionStart base) / pageSize)) aligned flat enough
  refine ⟨_,by rw [fillNode,ran]; rfl,?_⟩
  have counted : SameNodes s (setNode s i {s.nodes i with
      totalPages := wrap ((s.nodes i).totalPages + (regionStop base length - regionStart base) / pageSize)}) :=
    setNodeSame _ _ rfl rfl
  have carved := carveNodes ran
  exact nodesTrans counted carved

theorem fillEndless (s : State) (i : Nat) (around : ¬ NoWrap (regionStart base) (regionStop base length)) :
    fillNode s i (regionStart base) (regionStop base length) = none := by
  unfold NoWrap at around
  push Not at around
  obtain ⟨k,top,below,near⟩ := around
  rw [fillNode,PmmTiling.carveEndless _ top near startAligned below]
  rfl

theorem regionRefused {s : State} (refused : accepts s base length = false) : pmmAddRegion s base length = some s := by
  unfold accepts at refused
  rw [pmmAddRegion]
  cases empty : regionEmpty base length with
  | true => rfl
  | false =>
      rw [empty] at refused
      cases found : pmmNodeOf s (regionStart base) with
      | some i => simp [found] at refused
      | none =>
          have full : maxNodes ≤ s.nnodes := by simpa [found] using refused
          rw [if_neg Bool.false_ne_true]
          dsimp only
          rw [found]
          exact if_pos full

theorem regionFills {s : State} (accepted : accepts s base length = true) :
    ∃ i, pmmAddRegion s base length =
      fillNode (withNode s (regionStart base) (regionStop base length)) i (regionStart base) (regionStop base length) := by
  unfold accepts at accepted
  have kept : regionEmpty base length = false := by
    cases empty : regionEmpty base length with
    | true => simp [empty] at accepted
    | false => rfl
  rw [kept] at accepted
  rw [pmmAddRegion,kept,if_neg Bool.false_ne_true,withNode]
  dsimp only
  cases found : pmmNodeOf s (regionStart base) with
  | some i => exact ⟨i,rfl⟩
  | none =>
      have room : s.nnodes < maxNodes := by simpa [found] using accepted
      exact ⟨s.nnodes,if_neg (Nat.not_le_of_lt room)⟩

end Region

theorem nodeOfSame {s t : State} (same : SameNodes s t) (pa : Nat) : pmmNodeOf t pa = pmmNodeOf s pa := by
  unfold pmmNodeOf
  rw [same.1]
  congr 1
  funext i
  rw [(same.2 i).1,(same.2 i).2]

theorem admitSame {s t : State} (same : SameNodes s t) (start stop : Nat) :
    SameNodes (withNode s start stop) (withNode t start stop) := by
  unfold withNode
  rw [nodeOfSame same]
  cases pmmNodeOf s start with
  | some i =>
      refine ⟨same.1,fun j => ?_⟩
      by_cases here : j = i
      · subst here
        simp [growNode,setNode,(same.2 j).1,(same.2 j).2]
      · simp [growNode,setNode,Function.update_of_ne here,same.2 j]
  | none =>
      refine ⟨congrArg (· + 1) same.1,fun j => ?_⟩
      simp only [openNode,setNode,same.1]
      by_cases here : j = s.nnodes
      · subst here
        simp
      · simp [Function.update_of_ne here,same.2 j]

theorem addedSame {s t : State} (same : SameNodes s t) (e : MmapEntry) : Added t e ↔ Added s e := by
  unfold Added accepts
  rw [nodeOfSame same,same.1]

theorem settlesSame {s t : State} (same : SameNodes s t) (es : List MmapEntry) : Settles t es ↔ Settles s es := by
  induction es generalizing s t with
  | nil => exact Iff.rfl
  | cons e es ih =>
      simp only [Settles,addedSame same]
      split
      · exact and_congr_right fun _ => ih (admitSame same _ _)
      · exact ih same

theorem entryAdded {r : Parsed} {e : MmapEntry} (added : Added r.pmm e) :
    takeEntry r e = (pmmAddRegion r.pmm (addBase e) (addLength e)).map fun s =>
      ⟨s,wrap (r.totalRam + e.length),if r.bitmapPa = 0 then align e.baseAddr else r.bitmapPa⟩ := by
  obtain ⟨available,high,room,_⟩ := added
  rw [takeEntry,if_pos available]
  dsimp only
  rw [if_pos high,if_pos room]
  rfl

theorem entrySkipped {r : Parsed} {e : MmapEntry} (skipped : ¬ Added r.pmm e) :
    ∃ r1, takeEntry r e = some r1 ∧ r1.pmm = r.pmm := by
  rw [takeEntry]
  split
  case isFalse => exact ⟨r,rfl,rfl⟩
  next available =>
  dsimp only
  split
  case isFalse => exact ⟨_,rfl,rfl⟩
  next high =>
  by_cases room : bmBytes e.length < e.length
  · have refused : accepts r.pmm (addBase e) (addLength e) = false :=
      Bool.eq_false_iff.mpr fun accepted => skipped ⟨available,high,room,accepted⟩
    have kept : pmmAddRegion r.pmm (wrap (align e.baseAddr + bmBytes e.length)) (e.length - bmBytes e.length) =
        some r.pmm := regionRefused refused
    rw [if_pos room,kept]
    exact ⟨_,rfl,rfl⟩
  · rw [if_neg room]
    exact ⟨_,rfl,rfl⟩

theorem foldSettles (r : Parsed) (es : List MmapEntry) :
    (∃ out, es.foldlM takeEntry r = some out) ↔ Settles r.pmm es := by
  induction es generalizing r with
  | nil => exact ⟨fun _ => trivial,fun _ => ⟨r,rfl⟩⟩
  | cons e es ih =>
      rw [Settles,List.foldlM_cons]
      by_cases added : Added r.pmm e
      · obtain ⟨i,fills⟩ := regionFills added.2.2.2
        rw [if_pos added,entryAdded added,fills]
        by_cases flat : NoWrap (regionStart (addBase e)) (regionStop (addBase e) (addLength e))
        · obtain ⟨t,filled,same⟩ := fillReturns (withNode r.pmm _ _) i flat
          rw [filled]
          refine (ih _).trans ((settlesSame same es).trans ?_)
          exact (and_iff_right flat).symm
        · rw [fillEndless _ _ flat]
          refine ⟨fun ⟨_,ran⟩ => ?_,fun both => absurd both.1 flat⟩
          cases ran
      · obtain ⟨r1,taken,same⟩ := entrySkipped added
        rw [if_neg added,taken,← same]
        exact ih r1

theorem entriesAtFrom {mem : Nat → Byte} {size p : Nat} {es : List MmapEntry} (laid : EntriesAt mem size p es)
    (small : p + size * es.length < 2^64) : entriesFrom mem size es.length p = es := by
  induction es generalizing p with
  | nil => rfl
  | cons e es ih =>
      obtain ⟨here,rest⟩ := laid
      rw [List.length_cons,Nat.mul_succ] at small
      have later := ih rest (by omega)
      rw [List.length_cons,entriesFrom,here]
      refine congrArg (e :: ·) ?_
      by_cases last : es = []
      · subst last
        rfl
      · rw [wrapOfLt (by omega),later]

theorem denseFits {mem : Nat → Byte} {mb2Phys o each n : Nat} (low : info mb2Phys + totalSize mem mb2Phys < 2^64)
    (large : 24 ≤ each) (first : firstEntry (place mb2Phys o) = info mb2Phys + o + 16)
    (last : mmapEnd mem (place mb2Phys o) = info mb2Phys + o + 16 + n * each)
    (every : entrySize mem (place mb2Phys o) = each) (inside : o + 16 + n * each ≤ totalSize mem mb2Phys) :
    entryCount mem mb2Phys o = n ∧ MapFits mem mb2Phys o := by
  have before : n = 0 ∨ (n-1) * each + 24 ≤ n * each := by
    cases n with
    | zero => exact .inl rfl
    | succ n =>
        rw [Nat.add_sub_cancel,Nat.succ_mul]
        exact .inr (by omega)
  have count : entryCount mem mb2Phys o = n := by
    rw [entryCount,first,last,every]
    exact countExact (before.imp_right (by omega)) (Nat.le_refl _)
  rw [MapFits,count,every,first,last,wrapOfLt (by omega)]
  exact ⟨rfl,before.imp_right (by omega),Nat.le_refl _⟩

theorem tagsLaid {mem : Nat → Byte} {mb2Phys o : Nat} {ts : List Tag}
    (low : info mb2Phys + totalSize mem mb2Phys < 2^64) (short : totalSize mem mb2Phys < 2^31)
    (laid : TagsAt mem (info mb2Phys + totalSize mem mb2Phys) (info mb2Phys + o) ts) :
    Laid mem mb2Phys o (ts.flatMap Tag.entries) := by
  have stop : endPtr mem mb2Phys = info mb2Phys + totalSize mem mb2Phys := wrapOfLt low
  have inside := tagsInside laid
  have here : place mb2Phys o = info mb2Phys + o := wrapOfLt (by omega)
  have whole : Whole mem mb2Phys o := ⟨by omega,by omega⟩
  induction ts generalizing o with
  | nil => exact .last whole (by rw [here]; exact laid.2)
  | cons t ts ih =>
      obtain ⟨tag,room,rest⟩ := laid
      have within := paddedGe t.size
      obtain ⟨open',size,least⟩ := tagHeader tag
      have next : advance (u32At mem (place mb2Phys o + 4)) = padded t.size := by
        rw [here,size]
        exact advanceTag least (by omega)
      rw [Nat.add_assoc] at rest
      have behind := tagsInside rest
      have later : Laid mem mb2Phys (o + advance (u32At mem (place mb2Phys o + 4))) (ts.flatMap Tag.entries) := by
        rw [next]
        exact ih rest behind (wrapOfLt (by omega)) ⟨by rw [stop,place,wrapOfLt (by omega)]; omega,by omega⟩
      rw [← here] at open'
      rw [List.flatMap_cons]
      cases t with
      | other type bytes =>
          obtain ⟨_,different,_,type',_⟩ := tag
          exact .other whole open' (by rw [here,type']; exact different) later
      | mmap each es =>
          obtain ⟨whole',type',size',each',entries⟩ := tag
          simp only [Tag.size] at within room
          have first : firstEntry (place mb2Phys o) = info mb2Phys + o + 16 := by
            rw [here]
            exact wrapOfLt (by omega)
          have last : mmapEnd mem (place mb2Phys o) = info mb2Phys + o + 16 + es.length * each := by
            rw [here,mmapEnd,size',wrapOfLt (by omega),Nat.mul_comm each,← Nat.add_assoc]
          have every : entrySize mem (place mb2Phys o) = each := by
            rw [here]
            exact each'
          have product := Nat.mul_comm each es.length
          obtain ⟨count,fits⟩ := denseFits low whole' first last every (by omega)
          have found := Laid.map whole (by rw [here]; exact type') fits later
          rw [count,every,first,entriesAtFrom entries (by omega)] at found
          exact found

theorem infoLaid (i : Info) : Laid i.mem i.phys 8 i.entries := by
  have low := i.low
  have size : u32At i.mem (physToVirt i.phys) = totalSize i.mem i.phys := rfl
  have address : info i.phys = kernelBase + i.phys := by
    unfold info physToVirt kernelBase
    rw [wrapOfLt (by omega),Nat.add_comm]
  have top : kernelBase = 2^64 - 2^31 := by
    unfold kernelBase
    rfl
  rw [size] at low
  exact tagsLaid (by omega) (by omega) i.laid

theorem parseTags (mem : Nat → Byte) (mb2Phys fuel : Nat) (s : State) :
    parseMultiboot2 fuel mem mb2Phys s =
      (takeTags mem (endPtr mem mb2Phys) fuel fuel (place mb2Phys 8) (initial s)).map
        fun r => (r.pmm,r.totalRam / pageSize,r.bitmapPa) := rfl

theorem boundedLaid {mem : Nat → Byte} {mb2Phys : Nat} {s : State} (h : Bounded mem mb2Phys s) :
    ∃ es, Laid mem mb2Phys 8 es ∧ Settles s es := by
  obtain ⟨fuel,out,parsed⟩ := h.ends
  rw [parseTags] at parsed
  obtain ⟨last,ran,_⟩ := Option.map_eq_some_iff.mp parsed
  obtain ⟨es,laid,folded⟩ := runLaid (by decide) h.tags
    (fun p q reached map listed => (h.entries p q reached map listed).1) ran
  exact ⟨es,laid,(foldSettles (initial s) es).mp ⟨last,folded⟩⟩

theorem laidBounded {mem : Nat → Byte} {mb2Phys : Nat} {s : State} {es : List MmapEntry}
    (laid : Laid mem mb2Phys 8 es) (settles : Settles s es) : Bounded mem mb2Phys s := by
  have small : totalSize mem mb2Phys < 2^32 := u32Lt mem _
  obtain ⟨out,folded⟩ := (foldSettles (initial s) es).mpr settles
  have ran := laidRun laid folded (Nat.le_add_left _ _)
  refine ⟨⟨totalSize mem mb2Phys,_,by rw [parseTags,ran]; rfl⟩,fun p reached => ?_,fun p q reached map listed => ?_⟩
  · obtain ⟨o,rfl,whole,_⟩ := laidTags laid reached
    have inside := whole.2
    rw [Inside,placeDistance (by omega)]
    exact inside
  · obtain ⟨o,rfl,whole,fits⟩ := laidTags laid reached
    have inside := whole.2
    refine ⟨mapInside whole (fits map) listed,?_⟩
    -- the size of an entry stands before the first of them
    have more : firstEntry (place mb2Phys o) < mmapEnd mem (place mb2Phys o) := by
      cases listed with
      | here more => exact more
      | next more _ => exact more
    have first := mapInside whole (fits map) (.here more)
    rw [Inside,firstEntry,placeStep,placeDistance (by omega)] at first
    rw [Inside,placeStep,placeDistance (by omega)]
    omega

def image (phys : Nat) (words : List Nat) : Nat → Byte :=
  fun p => (words.flatMap (fun x => Bytes.littleEndian 4 (BitVec.ofNat 32 x))).getD (p - physToVirt phys) 0

def stillEntries : Nat → Byte := image 0x9000 [48,0,6,40,0,0,0,0,0,0,2,0]

def longMap : Nat → Byte := image 0x9000 [16,0,6,64,24,0]

theorem stillEntriesNever (fuel : Nat) (s : State) : parseMultiboot2 fuel stillEntries 0x9000 s = none := by
  have more : place 0x9000 8 < endPtr stillEntries 0x9000 := by decide +kernel
  have map : u32At stillEntries (place 0x9000 8) = tagMmap := by decide +kernel
  have open' : u32At stillEntries (place 0x9000 8) ≠ 0 := by rw [map]; decide
  have still : u32At stillEntries (place 0x9000 8 + 8) = 0 := by decide +kernel
  have entry : wrap (place 0x9000 8 + 16) < wrap (place 0x9000 8 + u32At stillEntries (place 0x9000 8 + 4)) := by
    decide +kernel
  rw [parseTags,Option.map_eq_none_iff]
  cases fuel with
  | zero => exact if_pos more
  | succ fuel =>
      rw [takeTags,if_pos more,if_neg open']
      dsimp only
      rw [if_pos map,still,Option.bind_eq_none_iff]
      intro r ran
      obtain ⟨n,walk,_⟩ := runWalk ran
      exact absurd walk (walkStuck (wrapLt _) entry n)

theorem longMapEnds (s : State) : parseMultiboot2 3 longMap 0x9000 s = some (s,0,0x200000) := by
  have more : place 0x9000 8 < endPtr longMap 0x9000 := by decide +kernel
  have map : u32At longMap (place 0x9000 8) = tagMmap := by decide +kernel
  have open' : u32At longMap (place 0x9000 8) ≠ 0 := by rw [map]; decide
  have walk : Walk (wrap (place 0x9000 8 + u32At longMap (place 0x9000 8 + 4))) (u32At longMap (place 0x9000 8 + 8)) 2
      (wrap (place 0x9000 8 + 16)) := ⟨by decide +kernel,by decide +kernel,by unfold Walk; decide +kernel⟩
  have empty : entriesFrom longMap (u32At longMap (place 0x9000 8 + 8)) 2 (wrap (place 0x9000 8 + 16)) =
      [⟨0,0,0⟩,⟨0,0,0⟩] := by decide +kernel
  have behind : ¬ wrap (place 0x9000 8 + advance (u32At longMap (place 0x9000 8 + 4))) < endPtr longMap 0x9000 := by
    decide +kernel
  have walked := walkRun walk (show 2 ≤ 3 by decide) (show List.foldlM takeEntry (initial s) _ = some (initial s) by
    rw [empty]
    rfl)
  rw [parseTags,takeTags,if_pos more,if_neg open']
  dsimp only
  rw [if_pos map,walked,Option.bind_some,takeTags,if_neg behind]
  simp [initial]

end Nekros.Multiboot2Bounds
