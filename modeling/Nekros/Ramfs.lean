import Nekros.ByteFile
import Nekros.Bytes
import Nekros.Errno
import Nekros.GuardedRun
import Nekros.Words

/-! fs/vfs.c: what `vfs_read` and `vfs_write` do to ramfs files. A call is one step. The files are
the places of the descriptor tables; several tables may have files on one inode, and no function
closes a file again. What a device's own functions do is given with the call. -/
namespace Nekros.Ramfs
open Errno
open Bytes (Byte)
open ByteFile (Op Outcome splice)
open GuardedRun (run)
open Words (wrap align)
open Function (update)

def fdTableSize : Nat := 32

/- A byte of a block; `none` until something is written there after `kmalloc` returned it. -/
abbrev Cell := Option Byte

/- The operations of an inode: none at all, `ramfs_ops`, or those of a device, which may lack one. -/
inductive Ops where
  | absent
  | ramfs
  | device (read write : Bool)
  deriving DecidableEq, Repr

structure Inode where
  ops : Ops
  size : Nat
  data : Option (List Cell)
  dataLen : Nat
  dataCap : Nat

structure File where
  inode : Option Nat
  offset : Nat
  opened : Bool

abbrev Fd := Nat × Nat

structure Answer where
  value : Int
  bytes : List Cell
  deriving DecidableEq, Repr

def fails (code : Int) : Answer := ⟨-code,[]⟩

structure Call where
  inode : Nat
  op : Op Fd Byte
  answer : Answer
  deriving DecidableEq, Repr

/- `tables` are the descriptor tables and `console` what went to the serial line; `calls` is a
record of the calls of `ramfs_read` and `ramfs_write`. -/
structure State where
  inodes : Nat → Inode
  tables : Nat → Nat → File
  console : List Byte
  calls : List Call

def start (ops : Nat → Ops) : State :=
  ⟨fun n => ⟨ops n,0,none,0,0⟩,fun _ _ => ⟨none,0,false⟩,[],[]⟩

def load (cells : List Cell) (offset len : Nat) : Option (List Cell) :=
  if offset + len ≤ cells.length then some ((cells.drop offset).take len) else none

def store (cells : List Cell) (offset : Nat) (bytes : List Cell) : Option (List Cell) :=
  if offset + bytes.length ≤ cells.length then some (splice cells offset bytes) else none

def ramfsRead (n : Inode) (f : File) (len : Nat) : Option (File × Answer) :=
  match n.data with
  | none => some (f,⟨0,[]⟩)
  | some data =>
      if n.dataLen ≤ f.offset then some (f,⟨0,[]⟩) else
        let nread := min len (n.dataLen - f.offset)
        (load data f.offset nread).map fun bytes => ({f with offset := wrap (f.offset + nread)},⟨nread,bytes⟩)

def put (data : Option (List Cell)) (offset : Nat) (buf : List Byte) : Option (Option (List Cell)) :=
  match data with
  | none => if buf.isEmpty then some none else none
  | some cells => (store cells offset (buf.map some)).map some

def fill (n : Inode) (f : File) (buf : List Byte) : Option (Inode × File × Answer) :=
  (put n.data f.offset buf).map fun data =>
    let offset := wrap (f.offset + buf.length)
    let dataLen := if n.dataLen < offset then offset else n.dataLen
    ({n with data := data,dataLen := dataLen,size := dataLen},{f with offset := offset},⟨buf.length,[]⟩)

def regrown (n : Inode) (newcap : Nat) : Option Inode :=
  let newbuf : List Cell := List.replicate newcap none
  match n.data with
  | none => some {n with data := some newbuf,dataCap := newcap}
  | some data => ((load data 0 n.dataLen).bind (store newbuf 0)).map fun newbuf =>
      {n with data := some newbuf,dataCap := newcap}

def ramfsWrite (n : Inode) (f : File) (buf : List Byte) (kmallocOk : Bool) : Option (Inode × File × Answer) :=
  if n.dataCap < wrap (f.offset + buf.length) then
    if 0x10000000 < buf.length ∨ 0x10000000 < f.offset ∨ wrap (f.offset + buf.length) < f.offset then
      some (n,f,fails efbig)
    else if kmallocOk then
      (regrown n (align (wrap (f.offset + buf.length)))).bind fun n => fill n f buf
    else some (n,f,fails enomem)
  else fill n f buf

def setFile (s : State) (t fd : Nat) (f : File) : State :=
  {s with tables := update s.tables t (update (s.tables t) fd f)}

def setInode (s : State) (ino : Nat) (n : Inode) : State := {s with inodes := update s.inodes ino n}

def record (s : State) (ino : Nat) (op : Op Fd Byte) (answer : Answer) : State :=
  {s with calls := s.calls ++ [⟨ino,op,answer⟩]}

/- The inode of an open file; the descriptor is compared as an unsigned number. -/
def inodeOf (s : State) (t : Nat) (fd : BitVec 32) : Option Nat :=
  if fdTableSize ≤ fd.toNat then none
  else if (s.tables t fd.toNat).opened then (s.tables t fd.toNat).inode else none

structure Device where
  answer : Answer
  offset : Nat

def useDevice (s : State) (t : Nat) (fd : BitVec 32) (device : Device) : State × Answer :=
  (setFile s t fd.toNat {s.tables t fd.toNat with offset := device.offset},device.answer)

/- `fdt` is the table of the running task; `null` says that the buffer is the null pointer. -/
def vfsRead (s : State) (fdt : Option Nat) (fd : BitVec 32) (null : Bool) (len : Nat) (device : Device) :
    Option (State × Answer) :=
  if null ∨ len = 0 then some (s,fails einval)
  else if 0x40000000 < len then some (s,fails einval)
  else
    match fdt with
    | none => some (s,fails ebadf)
    | some t =>
        match inodeOf s t fd with
        | none => some (s,fails ebadf)
        | some ino =>
            match (s.inodes ino).ops with
            | .ramfs => (ramfsRead (s.inodes ino) (s.tables t fd.toNat) len).map fun (f,answer) =>
                (record (setFile s t fd.toNat f) ino (.read (t,fd.toNat) len) answer,answer)
            | .device true _ => some (useDevice s t fd device)
            | _ => some (s,fails einval)

def vfsWrite (s : State) (fdt : Option Nat) (fd : BitVec 32) (null : Bool) (buf : List Byte) (kmallocOk : Bool)
    (device : Device) : Option (State × Answer) :=
  if null ∧ buf.length ≠ 0 then some (s,fails einval)
  else if 0x40000000 < buf.length then some (s,fails einval)
  else
    match fdt with
    | none => if fd.toNat ≠ 1 ∧ fd.toNat ≠ 2 then some (s,fails ebadf)
        else some ({s with console := s.console ++ buf},⟨buf.length,[]⟩)
    | some t =>
        match inodeOf s t fd with
        | none => some (s,fails ebadf)
        | some ino =>
            match (s.inodes ino).ops with
            | .ramfs => (ramfsWrite (s.inodes ino) (s.tables t fd.toNat) buf kmallocOk).map fun (n,f,answer) =>
                (record (setInode (setFile s t fd.toNat f) ino n) ino (.write (t,fd.toNat) buf) answer,answer)
            | .device _ true => some (useDevice s t fd device)
            | _ => some (s,fails einval)

def fdAlloc (s : State) (t ino : Nat) : State × Int :=
  match (List.range fdTableSize).find? (fun i => !(s.tables t i).opened) with
  | some i => (setFile s t i ⟨some ino,0,true⟩,i)
  | none => (s,-emfile)

inductive Event where
  | openFile (t ino : Nat)
  | read (fdt : Option Nat) (fd : BitVec 32) (null : Bool) (len : Nat) (device : Device)
  | write (fdt : Option Nat) (fd : BitVec 32) (null : Bool) (buf : List Byte) (kmallocOk : Bool) (device : Device)

def step (s : State) : Event → Option State
  | .openFile t ino => some (fdAlloc s t ino).1
  | .read fdt fd null len device => (vfsRead s fdt fd null len device).map Prod.fst
  | .write fdt fd null buf kmallocOk device => (vfsWrite s fdt fd null buf kmallocOk device).map Prod.fst

theorem loadInside {cells : List Cell} {offset len : Nat} (inside : offset + len ≤ cells.length) :
    load cells offset len = some ((cells.drop offset).take len) := if_pos inside

theorem storeInside {cells bytes : List Cell} {offset : Nat} (inside : offset + bytes.length ≤ cells.length) :
    store cells offset bytes = some (splice cells offset bytes) := if_pos inside

def capBound : Nat := 0x20001000

structure Represents (n : Inode) (text : List Byte) : Prop where
  len : n.dataLen = text.length
  size : n.size = text.length
  room : n.dataLen ≤ n.dataCap
  bound : n.dataCap ≤ capBound
  block : (n.data.getD []).length = n.dataCap
  cells : (n.data.getD []).take n.dataLen = text.map some

theorem startRepresents (ops : Ops) : Represents ⟨ops,0,none,0,0⟩ [] :=
  ⟨rfl,rfl,Nat.le_refl 0,Nat.zero_le _,rfl,rfl⟩

theorem offsetSmall {n : Inode} {text : List Byte} {offset len : Nat} (h : Represents n text)
    (inside : offset ≤ text.length) (short : len ≤ 0x40000000) : wrap (offset + len) = offset + len := by
  have len := h.len
  have room := h.room
  have bound := h.bound
  unfold capBound at bound
  exact Words.wrapOfLt (by omega)

theorem ramfsReadExact {n : Inode} {f : File} {text : List Byte} {len : Nat} (h : Represents n text)
    (inside : f.offset ≤ text.length) (short : len ≤ 0x40000000) :
    ramfsRead n f len = some ({f with offset := f.offset + ((text.drop f.offset).take len).length},
      ⟨((text.drop f.offset).take len).length,((text.drop f.offset).take len).map some⟩) := by
  have cells := h.cells
  have block := h.block
  have room := h.room
  have count : ((text.drop f.offset).take len).length = min len (n.dataLen - f.offset) := by
    rw [List.length_take,List.length_drop,h.len]
  -- nothing is left where the string ends
  have atEnd : n.dataLen ≤ f.offset → (text.drop f.offset).take len = [] := by
    intro past
    rw [← h.len] at inside
    refine List.eq_nil_of_length_eq_zero ?_
    rw [count]
    omega
  unfold ramfsRead
  split
  · rename_i null
    rw [null] at block
    rw [atEnd (Nat.le_trans room (by rw [← block]; exact Nat.zero_le _))]
    rfl
  · rename_i data found
    rw [found,Option.getD_some] at cells block
    split
    · rename_i past
      rw [atEnd past]
      rfl
    · rename_i before
      have bytes : (data.drop f.offset).take (min len (n.dataLen - f.offset)) =
          ((text.drop f.offset).take len).map some := by
        rw [List.map_take,List.map_drop,← cells,List.drop_take,List.take_take]
      have fits : f.offset + min len (n.dataLen - f.offset) ≤ data.length := by omega
      dsimp only
      rw [loadInside fits,Option.map_some,bytes,count,
        offsetSmall h inside (Nat.le_trans (Nat.min_le_left _ _) short)]

theorem putInside {data : Option (List Cell)} {offset : Nat} {buf : List Byte}
    (fits : offset + buf.length ≤ (data.getD []).length) :
    ∃ data', put data offset buf = some data' ∧ data'.getD [] = splice (data.getD []) offset (buf.map some) := by
  cases data with
  | none =>
      have nothing : buf = [] := List.eq_nil_of_length_eq_zero (by rw [Option.getD_none,List.length_nil] at fits; omega)
      subst nothing
      exact ⟨none,rfl,(ByteFile.spliceNil [] offset).symm⟩
  | some cells =>
      refine ⟨some (splice cells offset (buf.map some)),?_,rfl⟩
      rw [put,storeInside (by rw [List.length_map]; exact fits),Option.map_some]

theorem fillExact {n : Inode} {f : File} {text buf : List Byte} (h : Represents n text)
    (inside : f.offset ≤ text.length) (short : buf.length ≤ 0x40000000) (fits : f.offset + buf.length ≤ n.dataCap) :
    ∃ n', fill n f buf = some (n',{f with offset := f.offset + buf.length},⟨buf.length,[]⟩) ∧
      Represents n' (splice text f.offset buf) ∧ n'.ops = n.ops := by
  rw [← h.block] at fits
  obtain ⟨data,done,cells⟩ := putInside fits
  have longer : (if n.dataLen < f.offset + buf.length then f.offset + buf.length else n.dataLen) =
      max n.dataLen (f.offset + buf.length) := by
    split <;> omega
  have grown : max n.dataLen (f.offset + buf.length) = (splice text f.offset buf).length := by
    rw [ByteFile.spliceLength inside,h.len]
  unfold fill
  rw [done,Option.map_some]
  dsimp only
  rw [offsetSmall h inside short,longer]
  have below := h.block
  refine ⟨_,rfl,⟨grown,grown,?_,h.bound,?_,?_⟩,rfl⟩
  · exact Nat.max_le.mpr ⟨h.room,by rw [← h.block]; exact fits⟩
  · show (data.getD []).length = n.dataCap
    rw [cells,ByteFile.spliceLength (by omega),List.length_map,h.block]
    rw [h.block] at fits
    omega
  · show (data.getD []).take (max n.dataLen (f.offset + buf.length)) = _
    rw [← h.len] at inside
    rw [cells,ByteFile.mapSplice,← h.cells,
      ← ByteFile.takeSplice _ _ inside (by rw [h.block]; exact h.room),List.length_map]

theorem regrownExact {n : Inode} {text : List Byte} {newcap : Nat} (h : Represents n text)
    (larger : n.dataLen ≤ newcap) (bound : newcap ≤ capBound) :
    ∃ n', regrown n newcap = some n' ∧ Represents n' text ∧ n'.dataCap = newcap ∧ n'.ops = n.ops := by
  have cells := h.cells
  have block := h.block
  have room := h.room
  unfold regrown
  dsimp only
  split
  · rename_i null
    rw [null,Option.getD_none,List.length_nil] at block
    have nothing : n.dataLen = 0 := by omega
    rw [null,Option.getD_none,List.take_nil] at cells
    refine ⟨_,rfl,⟨h.len,h.size,larger,bound,List.length_replicate,?_⟩,rfl,rfl⟩
    rw [nothing,← cells]
    rfl
  · rename_i data found
    rw [found,Option.getD_some] at block cells
    have count : ((data.drop 0).take n.dataLen).length = n.dataLen := by
      rw [List.drop_zero,List.length_take]
      omega
    have fits : 0 + ((data.drop 0).take n.dataLen).length ≤ (List.replicate newcap (none : Cell)).length := by
      rw [count,List.length_replicate]
      omega
    have copied := ByteFile.takeSplice (List.replicate newcap (none : Cell)) ((data.drop 0).take n.dataLen)
      (Nat.le_refl 0) (Nat.zero_le _)
    rw [loadInside (by omega),Option.bind_some,storeInside fits,Option.map_some]
    refine ⟨_,rfl,⟨h.len,h.size,larger,bound,?_,?_⟩,rfl,rfl⟩
    · rw [Option.getD_some,ByteFile.spliceLength (Nat.zero_le _),List.length_replicate,count]
      show max newcap (0 + n.dataLen) = newcap
      omega
    · rw [count,Nat.zero_add,Nat.zero_max] at copied
      rw [Option.getD_some]
      refine copied.trans ?_
      rw [← cells,List.drop_zero,splice]
      simp

theorem ramfsWriteExact {n : Inode} {f : File} {text buf : List Byte} (kmallocOk : Bool) (h : Represents n text)
    (inside : f.offset ≤ text.length) (short : buf.length ≤ 0x40000000) :
    (∃ why, ramfsWrite n f buf kmallocOk = some (n,f,fails why) ∧
      (why = efbig ∧ (0x10000000 < buf.length ∨ 0x10000000 < f.offset) ∨ why = enomem ∧ kmallocOk = false)) ∨
    ∃ n', ramfsWrite n f buf kmallocOk = some (n',{f with offset := f.offset + buf.length},⟨buf.length,[]⟩) ∧
      Represents n' (splice text f.offset buf) ∧ n'.ops = n.ops := by
  have whole := offsetSmall h inside short
  unfold ramfsWrite
  rw [whole]
  split
  · rename_i full
    split
    · rename_i big
      refine .inl ⟨efbig,rfl,.inl ⟨rfl,?_⟩⟩
      rcases big with long | far | round
      · exact .inl long
      · exact .inr far
      · omega
    · rename_i small
      split
      · -- the new block ends at the next page boundary behind the bytes
        have below : f.offset + buf.length ≤ 0x20000000 := by omega
        have page : Words.pageSize = 4096 := rfl
        have ge := Words.alignGe (x := f.offset + buf.length) (by rw [page]; omega)
        have le : align (f.offset + buf.length) ≤ capBound := by
          unfold align
          refine Nat.le_trans (Words.alignDownLe _) ?_
          rw [Words.wrapOfLt (by rw [page]; omega),page,capBound]
          omega
        have room := h.room
        obtain ⟨n',grown,held,cap,same⟩ := regrownExact h (by omega) le
        rw [grown,Option.bind_some,← same]
        exact .inr (fillExact held inside short (by rw [cap]; exact ge))
      · rename_i refused
        exact .inl ⟨enomem,rfl,.inr ⟨rfl,by simpa using refused⟩⟩
  · rename_i fits
    exact .inr (fillExact h inside short (Nat.le_of_not_lt fits))

def FileOn (f : File) (ino : Nat) : Prop := f.opened = true ∧ f.inode = some ino

def callsOn (s : State) (ino : Nat) : List (Op Fd Byte × Answer) :=
  (s.calls.filter (fun c => c.inode == ino)).map (fun c => (c.op,c.answer))

inductive Refusal where
  | fileTooBig
  | noMemory
  deriving DecidableEq, Repr

def answerOf : Outcome Byte Refusal → Answer
  | .read got => ⟨got.length,got.map some⟩
  | .wrote len => ⟨len,[]⟩
  | .refused .fileTooBig => fails efbig
  | .refused .noMemory => fails enomem

structure Refines (s : State) (ino : Nat) (calls : List (Op Fd Byte × Outcome Byte Refusal))
    (a : ByteFile.Content Fd Byte) : Prop where
  runs : ByteFile.Runs ByteFile.empty calls a
  answers : callsOn s ino = calls.map (fun c => (c.1,answerOf c.2))
  text : Represents (s.inodes ino) a.text
  files : ∀ t fd, FileOn (s.tables t fd) ino → (s.tables t fd).offset = a.offset (t,fd)
  unused : ∀ t fd, ¬ FileOn (s.tables t fd) ino → a.offset (t,fd) = 0

def Inv (ops : Nat → Ops) (s : State) : Prop :=
  ∀ ino, (s.inodes ino).ops = ops ino ∧ (ops ino = .ramfs → ∃ calls a, Refines s ino calls a)

theorem startInv (ops : Nat → Ops) : Inv ops (start ops) := by
  refine fun ino => ⟨rfl,fun _ => ⟨[],ByteFile.empty,.nil,rfl,startRepresents _,?_,fun _ _ _ => rfl⟩⟩
  rintro t fd ⟨opened,_⟩
  cases opened

theorem refinesFrame {s s' : State} {ino : Nat} {calls : List (Op Fd Byte × Outcome Byte Refusal)}
    {a : ByteFile.Content Fd Byte} (h : Refines s ino calls a) (inode : s'.inodes ino = s.inodes ino)
    (same : callsOn s' ino = callsOn s ino)
    (files : ∀ t fd, s'.tables t fd = s.tables t fd ∨ ¬ FileOn (s.tables t fd) ino ∧
      (FileOn (s'.tables t fd) ino → (s'.tables t fd).offset = 0)) : Refines s' ino calls a := by
  refine ⟨h.runs,same.trans h.answers,by rw [inode]; exact h.text,fun t fd on => ?_,fun t fd off => ?_⟩
  · rcases files t fd with kept | ⟨off,zero⟩
    · rw [kept] at on ⊢
      exact h.files t fd on
    · rw [zero on,h.unused t fd off]
  · rcases files t fd with kept | ⟨off',_⟩
    · rw [kept] at off
      exact h.unused t fd off
    · exact h.unused t fd off'

theorem setFileSelf (s : State) (t fd : Nat) (f : File) : (setFile s t fd f).tables t fd = f := by
  show update s.tables t (update (s.tables t) fd f) t fd = f
  rw [Function.update_self,Function.update_self]

theorem setFileOther {s : State} {t fd t' fd' : Nat} {f : File} (other : (t',fd') ≠ (t,fd)) :
    (setFile s t fd f).tables t' fd' = s.tables t' fd' := by
  show update s.tables t (update (s.tables t) fd f) t' fd' = s.tables t' fd'
  by_cases table : t' = t
  · subst table
    have place : fd' ≠ fd := fun same => other (by rw [same])
    rw [Function.update_self,Function.update_of_ne place]
  · rw [Function.update_of_ne table]

theorem callsOnRecord (s : State) (ino : Nat) (op : Op Fd Byte) (answer : Answer) :
    callsOn (record s ino op answer) ino = callsOn s ino ++ [(op,answer)] := by
  simp [callsOn,record]

theorem callsOnOther {s : State} {ino ino' : Nat} {op : Op Fd Byte} {answer : Answer} (other : ino' ≠ ino) :
    callsOn (record s ino op answer) ino' = callsOn s ino' := by
  simp [callsOn,record,Ne.symm other]

theorem inodeOfFile {s : State} {t ino : Nat} {fd : BitVec 32} (found : inodeOf s t fd = some ino) :
    FileOn (s.tables t fd.toNat) ino := by
  unfold inodeOf at found
  split at found
  · cases found
  · split at found
    · rename_i opened
      exact ⟨opened,found⟩
    · cases found

def moved (s : State) (t fd len : Nat) : State :=
  setFile s t fd {s.tables t fd with offset := (s.tables t fd).offset + len}

theorem movedOn {s : State} {t fd len ino t' fd' : Nat} :
    FileOn ((moved s t fd len).tables t' fd') ino ↔ FileOn (s.tables t' fd') ino := by
  by_cases here : (t',fd') = (t,fd)
  · obtain ⟨rfl,rfl⟩ := Prod.mk.inj here
    rw [moved,setFileSelf]
    exact Iff.rfl
  · rw [moved,setFileOther here]

theorem fileElsewhere {s : State} {t fd ino ino' offset : Nat} (on : FileOn (s.tables t fd) ino) (other : ino' ≠ ino) :
    ∀ t' fd', (setFile s t fd {s.tables t fd with offset := offset}).tables t' fd' = s.tables t' fd' ∨
      ¬ FileOn (s.tables t' fd') ino' ∧
        (FileOn ((setFile s t fd {s.tables t fd with offset := offset}).tables t' fd') ino' →
          ((setFile s t fd {s.tables t fd with offset := offset}).tables t' fd').offset = 0) := by
  intro t' fd'
  by_cases here : (t',fd') = (t,fd)
  · obtain ⟨rfl,rfl⟩ := Prod.mk.inj here
    have elsewhere : (s.tables t' fd').inode ≠ some ino' := by
      rw [on.2]
      exact fun same => other (Option.some.inj same).symm
    refine .inr ⟨fun is => elsewhere is.2,fun is => absurd ?_ elsewhere⟩
    rw [setFileSelf] at is
    exact is.2
  · exact .inl (setFileOther here)

theorem refinesMove {s : State} {t fd ino len : Nat} {n : Inode} {op : Op Fd Byte}
    {outcome : Outcome Byte Refusal} {calls : List (Op Fd Byte × Outcome Byte Refusal)}
    {a b : ByteFile.Content Fd Byte} (h : Refines s ino calls a) (on : FileOn (s.tables t fd) ino)
    (next : ByteFile.Step a op outcome b) (offset : b.offset = update a.offset (t,fd) (a.offset (t,fd) + len))
    (holds : Represents n b.text) :
    Refines (record (setInode (moved s t fd len) ino n) ino op (answerOf outcome)) ino (calls ++ [(op,outcome)]) b := by
  refine ⟨.snoc h.runs next,?_,?_,fun t' fd' on' => ?_,fun t' fd' off => ?_⟩
  · rw [callsOnRecord,List.map_append]
    exact congrArg (· ++ _) h.answers
  · show Represents (update s.inodes ino n ino) b.text
    rw [Function.update_self]
    exact holds
  · show ((moved s t fd len).tables t' fd').offset = _
    rw [offset]
    by_cases here : (t',fd') = (t,fd)
    · obtain ⟨rfl,rfl⟩ := Prod.mk.inj here
      rw [moved,setFileSelf,Function.update_self,← h.files t' fd' on]
    · rw [moved,setFileOther here,Function.update_of_ne here]
      exact h.files t' fd' (movedOn.mp on')
  · have off' : ¬ FileOn (s.tables t' fd') ino := fun is => off (movedOn.mpr is)
    have elsewhere : (t',fd') ≠ (t,fd) := by
      intro here
      obtain ⟨rfl,rfl⟩ := Prod.mk.inj here
      exact off' on
    rw [offset,Function.update_of_ne elsewhere]
    exact h.unused t' fd' off'

theorem openFileInv {ops : Nat → Ops} {s : State} (h : Inv ops s) (t k : Nat) : Inv ops (fdAlloc s t k).1 := by
  unfold fdAlloc
  split
  · rename_i fd found
    refine fun ino => ⟨(h ino).1,fun ramfs => ?_⟩
    obtain ⟨calls,a,held⟩ := (h ino).2 ramfs
    have closed := List.find?_some found
    refine ⟨calls,a,refinesFrame held rfl rfl fun t' fd' => ?_⟩
    by_cases here : (t',fd') = (t,fd)
    · obtain ⟨rfl,rfl⟩ := Prod.mk.inj here
      refine .inr ⟨fun is => ?_,fun _ => by rw [setFileSelf]⟩
      rw [is.1] at closed
      cases closed
    · exact .inl (setFileOther here)
  · exact h

theorem deviceInv {ops : Nat → Ops} {s : State} {t k : Nat} {fd : BitVec 32} {device : Device} (h : Inv ops s)
    (found : inodeOf s t fd = some k) (other : (s.inodes k).ops ≠ .ramfs) : Inv ops (useDevice s t fd device).1 := by
  refine fun ino => ⟨(h ino).1,fun ramfs => ?_⟩
  obtain ⟨calls,a,held⟩ := (h ino).2 ramfs
  have elsewhere : ino ≠ k := by
    rintro rfl
    exact other ((h ino).1.trans ramfs)
  exact ⟨calls,a,refinesFrame held rfl rfl (fileElsewhere (inodeOfFile found) elsewhere)⟩

theorem ramfsInv {ops : Nat → Ops} {s : State} {t k len : Nat} {fd : BitVec 32} {n : Inode} {op : Op Fd Byte}
    {outcome : Outcome Byte Refusal} {calls : List (Op Fd Byte × Outcome Byte Refusal)}
    {a b : ByteFile.Content Fd Byte} (h : Inv ops s) (found : inodeOf s t fd = some k) (held : Refines s k calls a)
    (next : ByteFile.Step a op outcome b)
    (offset : b.offset = update a.offset (t,fd.toNat) (a.offset (t,fd.toNat) + len))
    (holds : Represents n b.text) (same : n.ops = (s.inodes k).ops) :
    Inv ops (record (setInode (moved s t fd.toNat len) k n) k op (answerOf outcome)) := by
  intro ino
  have on := inodeOfFile found
  by_cases here : ino = k
  · subst here
    refine ⟨?_,fun _ => ⟨_,_,refinesMove held on next offset holds⟩⟩
    show (update s.inodes ino n ino).ops = ops ino
    rw [Function.update_self,same]
    exact (h ino).1
  · have kept : update s.inodes k n ino = s.inodes ino := Function.update_of_ne here _ _
    refine ⟨?_,fun ramfs => ?_⟩
    · show (update s.inodes k n ino).ops = ops ino
      rw [kept]
      exact (h ino).1
    · obtain ⟨calls,a,held⟩ := (h ino).2 ramfs
      exact ⟨calls,a,refinesFrame held kept (callsOnOther here) (fileElsewhere on here)⟩

theorem setInodeSelf (s : State) (t fd len ino : Nat) :
    setInode (moved s t fd len) ino (s.inodes ino) = moved s t fd len := by
  show {moved s t fd len with inodes := update s.inodes ino (s.inodes ino)} = moved s t fd len
  rw [Function.update_eq_self]
  rfl

section Calls

variable {ops : Nat → Ops} {s : State} {t k : Nat} {fd : BitVec 32}

theorem heldFile (h : Inv ops s) (found : inodeOf s t fd = some k) (ramfs : ops k = .ramfs) :
    ∃ calls a, Refines s k calls a ∧ (s.tables t fd.toNat).offset = a.offset (t,fd.toNat) ∧
      (s.tables t fd.toNat).offset ≤ a.text.length := by
  obtain ⟨calls,a,held⟩ := (h k).2 ramfs
  have offset := held.files t fd.toNat (inodeOfFile found)
  refine ⟨calls,a,held,offset,?_⟩
  rw [offset]
  exact ByteFile.runsInside held.runs (t,fd.toNat)

theorem readInv {len : Nat} (h : Inv ops s) (found : inodeOf s t fd = some k) (ramfs : (s.inodes k).ops = .ramfs)
    (short : len ≤ 0x40000000) :
    ∃ f answer, ramfsRead (s.inodes k) (s.tables t fd.toNat) len = some (f,answer) ∧
      Inv ops (record (setFile s t fd.toNat f) k (.read (t,fd.toNat) len) answer) := by
  obtain ⟨calls,a,held,offset,inside⟩ := heldFile h found ((h k).1.symm.trans ramfs)
  have kept := ramfsInv h found held (.read (t,fd.toNat) len) rfl held.text rfl
  have got : (a.text.drop (s.tables t fd.toNat).offset).take len = a.slice (t,fd.toNat) len := by
    rw [offset,ByteFile.Content.slice]
  rw [setInodeSelf] at kept
  refine ⟨_,_,ramfsReadExact held.text inside short,?_⟩
  rw [got]
  exact kept

theorem writeInv {buf : List Byte} (kmallocOk : Bool) (h : Inv ops s) (found : inodeOf s t fd = some k)
    (ramfs : (s.inodes k).ops = .ramfs) (short : buf.length ≤ 0x40000000) :
    ∃ n f answer, ramfsWrite (s.inodes k) (s.tables t fd.toNat) buf kmallocOk = some (n,f,answer) ∧
      Inv ops (record (setInode (setFile s t fd.toNat f) k n) k (.write (t,fd.toNat) buf) answer) := by
  obtain ⟨calls,a,held,offset,inside⟩ := heldFile h found ((h k).1.symm.trans ramfs)
  rcases ramfsWriteExact kmallocOk held.text inside short with ⟨why,fails,which⟩ | ⟨n,wrote,holds,same⟩
  · refine ⟨_,_,_,fails,?_⟩
    have still : a.offset = update a.offset (t,fd.toNat) (a.offset (t,fd.toNat) + 0) :=
      (Function.update_eq_self _ _).symm
    have kept (reason : Refusal) : Inv ops (record (setInode (moved s t fd.toNat 0) k (s.inodes k)) k
        (.write (t,fd.toNat) buf) (answerOf (.refused reason))) :=
      ramfsInv h found held (.refused (t,fd.toNat) buf reason) still held.text rfl
    rcases which with ⟨rfl,_⟩ | ⟨rfl,_⟩
    · exact kept .fileTooBig
    · exact kept .noMemory
  · refine ⟨_,_,_,wrote,?_⟩
    rw [offset] at holds
    exact ramfsInv h found held (.write (t,fd.toNat) buf) rfl holds same

theorem vfsReadInv (h : Inv ops s) (fdt : Option Nat) (fd : BitVec 32) (null : Bool)
    (len : Nat) (device : Device) : ∃ s' answer, vfsRead s fdt fd null len device = some (s',answer) ∧ Inv ops s' := by
  unfold vfsRead
  split
  · exact ⟨s,_,rfl,h⟩
  split
  · exact ⟨s,_,rfl,h⟩
  rename_i short
  cases fdt with
  | none => exact ⟨s,_,rfl,h⟩
  | some t =>
      dsimp only
      split
      · exact ⟨s,_,rfl,h⟩
      · rename_i k found
        split
        · rename_i ramfs
          obtain ⟨f,answer,read,kept⟩ := readInv h found ramfs (Nat.le_of_not_lt short)
          exact ⟨_,_,by rw [read,Option.map_some],kept⟩
        · rename_i other
          exact ⟨_,_,rfl,deviceInv h found (by rw [other]; exact fun same => by cases same)⟩
        · exact ⟨s,_,rfl,h⟩

theorem vfsWriteInv (h : Inv ops s) (fdt : Option Nat) (fd : BitVec 32) (null : Bool) (buf : List Byte)
    (kmallocOk : Bool) (device : Device) :
    ∃ s' answer, vfsWrite s fdt fd null buf kmallocOk device = some (s',answer) ∧ Inv ops s' := by
  unfold vfsWrite
  split
  · exact ⟨s,_,rfl,h⟩
  split
  · exact ⟨s,_,rfl,h⟩
  rename_i short
  cases fdt with
  | none =>
      dsimp only
      split
      · exact ⟨s,_,rfl,h⟩
      · refine ⟨_,_,rfl,fun ino => ⟨(h ino).1,fun ramfs => ?_⟩⟩
        obtain ⟨calls,a,held⟩ := (h ino).2 ramfs
        exact ⟨calls,a,refinesFrame held rfl rfl fun _ _ => .inl rfl⟩
  | some t =>
      dsimp only
      split
      · exact ⟨s,_,rfl,h⟩
      · rename_i k found
        split
        · rename_i ramfs
          obtain ⟨n,f,answer,wrote,kept⟩ := writeInv kmallocOk h found ramfs (Nat.le_of_not_lt short)
          exact ⟨_,_,by rw [wrote,Option.map_some],kept⟩
        · rename_i other
          exact ⟨_,_,rfl,deviceInv h found (by rw [other]; exact fun same => by cases same)⟩
        · exact ⟨s,_,rfl,h⟩

theorem failedWrite {null kmallocOk : Bool} {buf : List Byte} {device : Device} {s' : State} {answer : Answer}
    (h : Inv ops s) (found : inodeOf s t fd = some k) (ramfs : ops k = .ramfs)
    (wrote : vfsWrite s (some t) fd null buf kmallocOk device = some (s',answer))
    (failed : answer = fails efbig ∨ answer = fails enomem) :
    s'.inodes = s.inodes ∧ s'.tables = s.tables ∧
      (kmallocOk = false ∨ 0x10000000 < buf.length ∨ 0x10000000 < (s.tables t fd.toNat).offset) := by
  have other : fails einval ≠ fails efbig ∧ fails einval ≠ fails enomem := by decide
  unfold vfsWrite at wrote
  split at wrote
  · cases wrote
    exact absurd failed (not_or.mpr other)
  split at wrote
  · cases wrote
    exact absurd failed (not_or.mpr other)
  rename_i short
  obtain ⟨calls,a,held,_,inside⟩ := heldFile h found ramfs
  dsimp only at wrote
  rw [found] at wrote
  dsimp only at wrote
  rw [(h k).1,ramfs] at wrote
  dsimp only at wrote
  rcases ramfsWriteExact kmallocOk held.text inside (Nat.le_of_not_lt short) with ⟨why,refused,which⟩ | ⟨n,done,_,_⟩
  · rw [refused] at wrote
    cases wrote
    refine ⟨Function.update_eq_self _ _,?_,?_⟩
    · show update s.tables t (update (s.tables t) fd.toNat (s.tables t fd.toNat)) = s.tables
      rw [Function.update_eq_self,Function.update_eq_self]
    · rcases which with ⟨_,big⟩ | ⟨_,none⟩
      · exact .inr big
      · exact .inl none
  · rw [done] at wrote
    cases wrote
    have positive : (0 : Int) ≤ buf.length := Int.natCast_nonneg _
    rcases failed with code | code
    all_goals
      have value := congrArg Answer.value code
      simp only [fails,efbig,enomem] at value
      omega

end Calls

theorem stepInv {ops : Nat → Ops} (s : State) (e : Event) (h : Inv ops s) : ∃ s', step s e = some s' ∧ Inv ops s' := by
  cases e with
  | openFile t ino => exact ⟨_,rfl,openFileInv h t ino⟩
  | read fdt fd null len device =>
      obtain ⟨s',answer,read,kept⟩ := vfsReadInv h fdt fd null len device
      exact ⟨s',by rw [step,read,Option.map_some],kept⟩
  | write fdt fd null buf kmallocOk device =>
      obtain ⟨s',answer,wrote,kept⟩ := vfsWriteInv h fdt fd null buf kmallocOk device
      exact ⟨s',by rw [step,wrote,Option.map_some],kept⟩

theorem ramfsRefines (ops : Nat → Ops) (events : List Event) :
    ∃ s, run step (start ops) events = some s ∧
      (∀ ino, ops ino = .ramfs → ∃ calls a, Refines s ino calls a ∧
        (s.inodes ino).dataLen ≤ (s.inodes ino).dataCap ∧
        ∀ t fd, FileOn (s.tables t fd) ino → (s.tables t fd).offset ≤ (s.inodes ino).dataLen) ∧
      ∀ t fd k null buf kmallocOk device s' answer, inodeOf s t fd = some k → ops k = .ramfs →
        vfsWrite s (some t) fd null buf kmallocOk device = some (s',answer) →
        answer = fails efbig ∨ answer = fails enomem →
        s'.inodes = s.inodes ∧ s'.tables = s.tables ∧
          (kmallocOk = false ∨ 0x10000000 < buf.length ∨ 0x10000000 < (s.tables t fd.toNat).offset) := by
  have always : GuardedRun.Guarded step (fun _ _ => True) (start ops) events :=
    GuardedRun.guardedAlways (fun _ _ => trivial) _ _
  obtain ⟨s,ran,h⟩ := GuardedRun.guardedReturns (Inv ops) (fun s e held _ => stepInv s e held) (startInv ops) always
  refine ⟨s,ran,fun ino ramfs => ?_,fun t fd k null buf kmallocOk device s' answer found => failedWrite h found⟩
  obtain ⟨calls,a,held⟩ := (h ino).2 ramfs
  refine ⟨calls,a,held,held.text.room,fun t fd on => ?_⟩
  rw [held.files t fd on,held.text.len]
  exact ByteFile.runsInside held.runs (t,fd)

def sharedFile : List Event :=
  let device : Device := ⟨⟨0,[]⟩,0⟩
  [.openFile 0 5,.openFile 1 5,.write (some 0) 0 false [1,2,3] false device,
    .write (some 0) 0 false [1,2,3] true device,.read (some 1) 0 false 2 device,
    .write (some 1) 0 false [8,9] true device,.read (some 0) 0 false 100 device]

theorem ramfsRefinesShared :
    ∃ s, run step (start fun _ => .ramfs) sharedFile = some s ∧
      callsOn s 5 = [(.write (0,0) [1,2,3],⟨-12,[]⟩),(.write (0,0) [1,2,3],⟨3,[]⟩),
        (.read (1,0) 2,⟨2,[some 1,some 2]⟩),(.write (1,0) [8,9],⟨2,[]⟩),(.read (0,0) 100,⟨1,[some 9]⟩)] ∧
      ∃ calls a, Refines s 5 calls a ∧ (s.inodes 5).dataLen ≤ (s.inodes 5).dataCap ∧
        ∀ t fd, FileOn (s.tables t fd) 5 → (s.tables t fd).offset ≤ (s.inodes 5).dataLen := by
  have data : (run step (start fun _ => .ramfs) sharedFile).map (fun s => callsOn s 5) =
      some [(.write (0,0) [1,2,3],⟨-12,[]⟩),(.write (0,0) [1,2,3],⟨3,[]⟩),
        (.read (1,0) 2,⟨2,[some 1,some 2]⟩),(.write (1,0) [8,9],⟨2,[]⟩),(.read (0,0) 100,⟨1,[some 9]⟩)] := by
    decide +kernel
  obtain ⟨s,ran,strings,_⟩ := ramfsRefines (fun _ => .ramfs) sharedFile
  rw [ran] at data
  exact ⟨s,ran,Option.some.inj data,strings 5 rfl⟩

end Nekros.Ramfs
