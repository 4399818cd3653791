import Nekros.Bytes
import Nekros.Pmm

/-! The boot loader's information structure and its reader, after `parse_multiboot2` of
init/nekros_main.c. `Info` is a structure in memory as the format lays it out, independent of
the reader; `parseReads` says that the reader meets exactly the entries of its memory maps, in
order. The structure is only read here: it is kept apart from the pages that hold list links. -/
namespace Nekros.Multiboot2
open Words Pmm
open Bytes (Byte)

def tagMmap : Nat := 6

def mmapAvailable : Nat := 1

def wordAt (mem : Nat → Byte) : Nat → Nat → Nat
  | 0,_ => 0
  | n+1,p => (mem (wrap p)).toNat + 256 * wordAt mem n (p+1)

def u32At (mem : Nat → Byte) (p : Nat) : Nat := wordAt mem 4 p

def u64At (mem : Nat → Byte) (p : Nat) : Nat := wordAt mem 8 p

structure MmapEntry where
  baseAddr : Nat
  length : Nat
  type : Nat
  deriving DecidableEq, Repr

def entryAt (mem : Nat → Byte) (p : Nat) : MmapEntry := ⟨u64At mem p,u64At mem (p+8),u32At mem (p+16)⟩

def bmBytes (length : Nat) : Nat := align (length / pageSize / 8 + 1)

structure Parsed where
  pmm : State
  totalRam : Nat
  bitmapPa : Nat

def takeEntry (r : Parsed) (e : MmapEntry) : Option Parsed :=
  if e.type = mmapAvailable then
    let r := {r with totalRam := wrap (r.totalRam + e.length)}
    if 0x400000 ≤ e.baseAddr then
      let bpa := align e.baseAddr
      let added :=
        if bmBytes e.length < e.length then
          pmmAddRegion r.pmm (wrap (bpa + bmBytes e.length)) (e.length - bmBytes e.length)
        else some r.pmm
      added.map fun s => {r with pmm := s,bitmapPa := if r.bitmapPa = 0 then bpa else r.bitmapPa}
    else some r
  else some r

/- `none` is a walk that is still going when the fuel is used up. -/
def takeEntries (mem : Nat → Byte) (mmapEnd entrySize : Nat) : Nat → Nat → Parsed → Option Parsed
  | 0,p,r => if p < mmapEnd then none else some r
  | fuel+1,p,r =>
      if p < mmapEnd then
        (takeEntry r (entryAt mem p)).bind (takeEntries mem mmapEnd entrySize fuel (wrap (p + entrySize)))
      else some r

/- `ALIGN(tag->size, 8)` is computed in 32 bits, so the largest sizes come out as 0. -/
def advance (size : Nat) : Nat :=
  let aligned := (size + 7) % 2^32 / 8 * 8
  if aligned < 8 then 8 else aligned

def takeTags (mem : Nat → Byte) (endPtr turns : Nat) : Nat → Nat → Parsed → Option Parsed
  | 0,p,r => if p < endPtr then none else some r
  | fuel+1,p,r =>
      if p < endPtr then
        if u32At mem p = 0 then some r
        else
          let size := u32At mem (p+4)
          let walked :=
            if u32At mem p = tagMmap then
              takeEntries mem (wrap (p + size)) (u32At mem (p+8)) turns (wrap (p+16)) r
            else some r
          walked.bind (takeTags mem endPtr turns fuel (wrap (p + advance size)))
      else some r

def parseMultiboot2 (fuel : Nat) (mem : Nat → Byte) (mb2Phys : Nat) (s : State) : Option (State × Nat × Nat) :=
  let info := physToVirt mb2Phys
  (takeTags mem (wrap (info + u32At mem info)) fuel fuel (wrap (info+8)) ⟨s,0,0x200000⟩).map
    fun r => (r.pmm,r.totalRam / pageSize,r.bitmapPa)

inductive Tag where
  | other (type size : Nat)
  | mmap (entrySize : Nat) (entries : List MmapEntry)
  deriving Repr

def Tag.size : Tag → Nat
  | .other _ size => size
  | .mmap entrySize entries => 16 + entrySize * entries.length

def Tag.entries : Tag → List MmapEntry
  | .other _ _ => []
  | .mmap _ entries => entries

def EntriesAt (mem : Nat → Byte) (entrySize : Nat) : Nat → List MmapEntry → Prop
  | _,[] => True
  | p,e::es => entryAt mem p = e ∧ EntriesAt mem entrySize (p + entrySize) es

def EntriesAt.decide (mem : Nat → Byte) (entrySize : Nat) :
    (p : Nat) → (es : List MmapEntry) → Decidable (EntriesAt mem entrySize p es)
  | _,[] => .isTrue trivial
  | p,e::es =>
      have := EntriesAt.decide mem entrySize (p + entrySize) es
      inferInstanceAs (Decidable (entryAt mem p = e ∧ EntriesAt mem entrySize (p + entrySize) es))
instance (mem entrySize p es) : Decidable (EntriesAt mem entrySize p es) := EntriesAt.decide mem entrySize p es

def TagAt (mem : Nat → Byte) (p : Nat) : Tag → Prop
  | .other type size =>
      type ≠ 0 ∧ type ≠ tagMmap ∧ 8 ≤ size ∧ u32At mem p = type ∧ u32At mem (p+4) = size
  | .mmap entrySize entries =>
      24 ≤ entrySize ∧ u32At mem p = tagMmap ∧ u32At mem (p+4) = 16 + entrySize * entries.length ∧
        u32At mem (p+8) = entrySize ∧ EntriesAt mem entrySize (p+16) entries
instance (mem p t) : Decidable (TagAt mem p t) := by cases t <;> unfold TagAt <;> infer_instance

def padded (size : Nat) : Nat := (size + 7) / 8 * 8

def TagsAt (mem : Nat → Byte) (stop : Nat) : Nat → List Tag → Prop
  | p,[] => p + 8 ≤ stop ∧ u32At mem p = 0
  | p,t::ts => TagAt mem p t ∧ p + padded t.size ≤ stop ∧ TagsAt mem stop (p + padded t.size) ts

def TagsAt.decide (mem : Nat → Byte) (stop : Nat) :
    (p : Nat) → (ts : List Tag) → Decidable (TagsAt mem stop p ts)
  | p,[] => inferInstanceAs (Decidable (p + 8 ≤ stop ∧ u32At mem p = 0))
  | p,t::ts =>
      have := TagsAt.decide mem stop (p + padded t.size) ts
      inferInstanceAs (Decidable (TagAt mem p t ∧ p + padded t.size ≤ stop ∧ TagsAt mem stop (p + padded t.size) ts))
instance (mem stop p ts) : Decidable (TagsAt mem stop p ts) := TagsAt.decide mem stop p ts

structure Info where
  mem : Nat → Byte
  phys : Nat
  tags : List Tag
  low : phys + u32At mem (physToVirt phys) < 2^31
  laid : TagsAt mem (physToVirt phys + u32At mem (physToVirt phys)) (physToVirt phys + 8) tags

def Info.totalSize (info : Info) : Nat := u32At info.mem (physToVirt info.phys)

def Info.entries (info : Info) : List MmapEntry := info.tags.flatMap Tag.entries

theorem takeEntriesReads {mem : Nat → Byte} {entrySize : Nat} (pos : 0 < entrySize) {es : List MmapEntry}
    {fuel p : Nat} {r : Parsed} (laid : EntriesAt mem entrySize p es) (enough : es.length ≤ fuel)
    (small : p + entrySize * es.length < 2^64) :
    takeEntries mem (p + entrySize * es.length) entrySize fuel p r = es.foldlM takeEntry r := by
  induction es generalizing fuel p r with
  | nil => cases fuel <;> simp [takeEntries,pure]
  | cons e es ih =>
      obtain ⟨here,rest⟩ := laid
      cases fuel with
      | zero => simp at enough
      | succ fuel =>
          have stop : p + entrySize * (e::es).length = p + entrySize + entrySize * es.length := by
            rw [List.length_cons,Nat.mul_succ]
            omega
          have next : ∀ r, takeEntries mem (p + entrySize + entrySize * es.length) entrySize fuel (p + entrySize) r =
              es.foldlM takeEntry r := fun r => ih rest (by simpa using enough) (stop ▸ small)
          rw [stop] at small ⊢
          rw [takeEntries,if_pos (by omega),here,wrapOfLt (by omega),List.foldlM_cons]
          exact congrArg _ (funext next)

theorem tagHeader {mem : Nat → Byte} {p : Nat} {t : Tag} (laid : TagAt mem p t) :
    u32At mem p ≠ 0 ∧ u32At mem (p+4) = t.size ∧ 8 ≤ t.size := by
  cases t with
  | other type size =>
      obtain ⟨nonzero,_,least,type',size'⟩ := laid
      rw [type']
      exact ⟨nonzero,size',least⟩
  | mmap entrySize entries =>
      obtain ⟨_,type',size',_⟩ := laid
      rw [type']
      exact ⟨by decide,size',by simp only [Tag.size]; omega⟩

theorem takeTagReads {mem : Nat → Byte} {turns p : Nat} {t : Tag} {r : Parsed} (laid : TagAt mem p t)
    (enough : t.size ≤ turns) (small : p + t.size < 2^64) :
    (if u32At mem p = tagMmap then takeEntries mem (wrap (p + t.size)) (u32At mem (p+8)) turns (wrap (p+16)) r
      else some r) = t.entries.foldlM takeEntry r := by
  cases t with
  | other type size =>
      obtain ⟨_,different,_,type',_⟩ := laid
      rw [type',if_neg different]
      rfl
  | mmap entrySize entries =>
      obtain ⟨least,type',_,each,rest⟩ := laid
      simp only [Tag.size] at small enough ⊢
      rw [type',if_pos rfl,each,wrapOfLt small,wrapOfLt (by omega),← Nat.add_assoc]
      refine takeEntriesReads (by omega) rest ?_ (by omega)
      have bytes := Nat.mul_le_mul_right entries.length (show 1 ≤ entrySize by omega)
      omega

theorem advanceTag {size : Nat} (least : 8 ≤ size) (small : padded size < 2^31) : advance size = padded size := by
  unfold advance padded at *
  dsimp only
  rw [Nat.mod_eq_of_lt (by omega),if_neg (by omega)]

theorem paddedGe (size : Nat) : size ≤ padded size := by
  unfold padded
  omega

theorem takeTagsReads {mem : Nat → Byte} {stop turns : Nat} (word : stop < 2^64) {ts : List Tag} {fuel p : Nat}
    {r : Parsed} (laid : TagsAt mem stop p ts) (short : stop < p + 2^31) (enough : stop ≤ p + fuel)
    (each : stop ≤ p + turns) :
    takeTags mem stop turns fuel p r = (ts.flatMap Tag.entries).foldlM takeEntry r := by
  induction ts generalizing fuel p r with
  | nil =>
      obtain ⟨inside,last⟩ := laid
      cases fuel with
      | zero => omega
      | succ fuel =>
          rw [takeTags,if_pos (by omega),if_pos last]
          rfl
  | cons t ts ih =>
      obtain ⟨here,inside,rest⟩ := laid
      have within := paddedGe t.size
      have room : t.size ≤ turns := by omega
      obtain ⟨nonzero,size,least⟩ := tagHeader here
      have entries := takeTagReads (r := r) here room (by omega)
      cases fuel with
      | zero => omega
      | succ fuel =>
          rw [takeTags,if_pos (by omega),if_neg nonzero]
          dsimp only
          rw [size,entries,advanceTag least (by omega),wrapOfLt (by omega),List.flatMap_cons,List.foldlM_append]
          have next : ∀ r, takeTags mem stop turns fuel (p + padded t.size) r =
              (ts.flatMap Tag.entries).foldlM takeEntry r :=
            fun r => ih rest (by omega) (by omega) (by omega)
          exact congrArg _ (funext next)

theorem tagsInside {mem : Nat → Byte} {stop p : Nat} {ts : List Tag} (laid : TagsAt mem stop p ts) : p + 8 ≤ stop := by
  induction ts generalizing p with
  | nil => exact laid.1
  | cons t ts ih =>
      have rest := ih laid.2.2
      omega

theorem parseReads {fuel : Nat} (info : Info) (s : State) (enough : info.totalSize ≤ fuel) :
    parseMultiboot2 fuel info.mem info.phys s =
      (info.entries.foldlM takeEntry ⟨s,0,0x200000⟩).map fun r => (r.pmm,r.totalRam / pageSize,r.bitmapPa) := by
  have low := info.low
  have size : u32At info.mem (physToVirt info.phys) = info.totalSize := rfl
  have address : physToVirt info.phys = kernelBase + info.phys := by
    unfold physToVirt kernelBase
    rw [wrapOfLt (by omega),Nat.add_comm]
  have window : kernelBase = 2^64 - 2^31 := by
    unfold kernelBase
    rfl
  have laid := info.laid
  rw [size] at laid low
  have inside := tagsInside laid
  unfold parseMultiboot2
  dsimp only
  rw [size,wrapOfLt (by omega),wrapOfLt (by omega),takeTagsReads (by omega) laid (by omega) (by omega) (by omega)]
  rfl

end Nekros.Multiboot2
