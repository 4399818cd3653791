import Nekros.CcProc
import Nekros.Ramfs

/-! fs/vfs.c: `/proc/neri/status` and `/proc/cortexcrypto/machine_id`. Every call makes the whole
text again; the offset of the file only says whether a call has already been answered. -/
namespace Nekros.ProcFiles
open Errno
open Bytes (Byte)
open CcProc (ascii)
open Ramfs (State File Answer Device Cell vfsRead fdAlloc inodeOf setFile useDevice fails fdTableSize)
open Function (update)

/- What the two files tell, and what is on the stack where `fp` lies: the kernel's
`cc_get_machine_fingerprint` returns 0 without writing to it. -/
structure Kernel where
  epoch : BitVec 64
  cpuTotalNs : BitVec 64
  cpuAllocNs : BitVec 64
  ramTotalPages : BitVec 64
  ramAllocPages : BitVec 64
  cpuBiasPct : BitVec 32
  anomalyLevel : BitVec 32
  anomalyScore : BitVec 8
  ccReady : Bool
  stack : Vector Byte 64

/- The loop that fills `num`, which has 24 places; 20 are enough for a `u64`. -/
def digits : Nat → Nat → List Byte
  | 0,_ => []
  | places+1,v => if v = 0 then [] else BitVec.ofNat 8 (48 + v % 10) :: digits places (v / 10)

def decimal (v : Nat) : List Byte := if v = 0 then ascii "0" else (digits 24 v).reverse

def percent (alloc total : BitVec 64) : BitVec 64 := if total = 0 then 0 else alloc * 100 / total

def levels : List String := ["NORMAL","MEDIUM","HIGH","CRITICAL"]

def levelName (level : BitVec 32) : String := levels.getD (if level < 4 then level.toNat else 3) ""

def field (label : String) (v : Nat) (tail : String) : List Byte := ascii label ++ decimal v ++ ascii tail

/- Each `strlcpy` of the source has room for the whole of what it is given. -/
def statusText (k : Kernel) : List Byte :=
  ascii "Neri Resource Pool v0.5.0\n" ++
  field "epoch:           " k.epoch.toNat "\n" ++
  field "cpu_alloc_pct:   " (percent k.cpuAllocNs k.cpuTotalNs).toNat "%\n" ++
  field "ram_alloc_pct:   " (percent k.ramAllocPages k.ramTotalPages).toNat "%\n" ++
  field "neki_cpu_bias:   " k.cpuBiasPct.toNat "%\n" ++
  ascii "nsm_anomaly:     " ++ ascii (levelName k.anomalyLevel) ++
  field " (" k.anomalyScore.toNat "/255)\n"

def fp (k : Kernel) : List Byte :=
  if k.ccReady then k.stack.toList ++ ascii "\n" ++ [0] else ascii "unavailable\n" ++ [0]

def strnlen (text : List Byte) : Nat := (text.takeWhile (· ≠ 0)).length

def machineIdText (k : Kernel) : List Byte := (fp k).take (strnlen (fp k))

def readOnce (text : List Byte) (offset len : Nat) : Device :=
  if 0 < offset then ⟨⟨0,[]⟩,offset⟩
  else
    let copy := min len text.length
    ⟨⟨copy,(text.take copy).map some⟩,offset + copy⟩

def procNeriStatusRead (k : Kernel) : Nat → Nat → Device := readOnce (statusText k)

def procCcMidRead (k : Kernel) : Nat → Nat → Device := readOnce (machineIdText k)

inductive ProcFile where
  | neriStatus
  | machineId

def text (k : Kernel) : ProcFile → List Byte
  | .neriStatus => statusText k
  | .machineId => machineIdText k

def procRead (k : Kernel) : ProcFile → Nat → Nat → Device
  | .neriStatus => procNeriStatusRead k
  | .machineId => procCcMidRead k

theorem procReadOnce (k : Kernel) (file : ProcFile) : procRead k file = readOnce (text k file) := by
  cases file with
  | neriStatus => rfl
  | machineId => rfl

def reads (k : Kernel) (file : ProcFile) (t : Nat) (fd : BitVec 32) :
    State → List Nat → Option (State × List Answer)
  | s,[] => some (s,[])
  | s,len :: rest =>
      (vfsRead s (some t) fd false len (procRead k file (s.tables t fd.toNat).offset len)).bind
        fun (s,answer) => (reads k file t fd s rest).map fun (s,answers) => (s,answer :: answers)

def delivered (answers : List Answer) : List Cell :=
  (answers.takeWhile (fun a => a.value ≠ 0)).flatMap Answer.bytes

def maxLen : Nat := 0x40000000

def firstLen (lens : List Nat) : Nat := (lens.find? (· ≤ maxLen)).getD 0

theorem digitsLength (places v : Nat) : (digits places v).length ≤ places := by
  induction places generalizing v with
  | zero => exact Nat.le_refl 0
  | succ places ih =>
      unfold digits
      split
      · exact Nat.zero_le _
      · exact Nat.succ_le_succ (ih _)

theorem decimalLength (v : Nat) : (decimal v).length ≤ 24 := by
  unfold decimal
  split
  · decide
  · rw [List.length_reverse]
    exact digitsLength 24 v

theorem levelNameLength (level : BitVec 32) : (ascii (levelName level)).length ≤ 8 := by
  have named : levelName level ∈ "" :: levels := by
    unfold levelName
    rw [List.getD_eq_getElem?_getD]
    cases found : levels[if level < 4 then level.toNat else 3]? with
    | none => exact List.mem_cons_self
    | some name => exact List.mem_cons_of_mem _ (List.mem_of_getElem? found)
  have short : ∀ name ∈ "" :: levels, (ascii name).length ≤ 8 := by decide
  exact short _ named

theorem fieldLength (label tail : String) (short : (ascii label).length + (ascii tail).length ≤ 20) (v : Nat) :
    (field label v tail).length ≤ 44 := by
  have number := decimalLength v
  rw [field,List.length_append,List.length_append]
  omega

theorem statusTextLength (k : Kernel) : (statusText k).length ≤ 512 := by
  have head : (ascii "Neri Resource Pool v0.5.0\n").length ≤ 26 := by decide
  have epoch := fieldLength "epoch:           " "\n" (by decide) k.epoch.toNat
  have cpu := fieldLength "cpu_alloc_pct:   " "%\n" (by decide)
    (percent k.cpuAllocNs k.cpuTotalNs).toNat
  have ram := fieldLength "ram_alloc_pct:   " "%\n" (by decide)
    (percent k.ramAllocPages k.ramTotalPages).toNat
  have bias := fieldLength "neki_cpu_bias:   " "%\n" (by decide) k.cpuBiasPct.toNat
  have anomaly : (ascii "nsm_anomaly:     ").length ≤ 17 := by decide
  have level := levelNameLength k.anomalyLevel
  have score := fieldLength " (" "/255)\n" (by decide) k.anomalyScore.toNat
  unfold statusText
  simp only [List.length_append]
  omega

theorem machineIdTextLength (k : Kernel) : (machineIdText k).length ≤ 512 := by
  have buffer : (fp k).length ≤ 66 := by
    unfold fp
    split
    · rw [List.length_append,List.length_append,Vector.length_toList]
      decide
    · decide
  rw [machineIdText,List.length_take]
  omega

theorem textLength (k : Kernel) (file : ProcFile) : (text k file).length ≤ 512 := by
  cases file with
  | neriStatus => exact statusTextLength k
  | machineId => exact machineIdTextLength k

structure Open (s : State) (t ino : Nat) (fd : BitVec 32) (offset : Nat) : Prop where
  low : fd.toNat < fdTableSize
  file : s.tables t fd.toNat = ⟨some ino,offset,true⟩
  ops : (s.inodes ino).ops = .device true false

theorem readOpen {s : State} {t ino offset len : Nat} {fd : BitVec 32} (h : Open s t ino fd offset)
    (pos : 0 < len) (device : Device) :
    vfsRead s (some t) fd false len device =
      if maxLen < len then some (s,fails einval) else some (useDevice s t fd device) := by
  have found : inodeOf s t fd = some ino := by
    rw [inodeOf,if_neg (Nat.not_le.mpr h.low),h.file]
    rfl
  unfold vfsRead maxLen
  rw [if_neg (by simp; omega)]
  simp only [found,h.ops]

theorem useOpen {s : State} {t ino offset : Nat} {fd : BitVec 32} (h : Open s t ino fd offset)
    (device : Device) : Open (useDevice s t fd device).1 t ino fd device.offset where
  low := h.low
  file := by
    unfold useDevice setFile
    dsimp only
    rw [Function.update_self,Function.update_self,h.file]
  ops := h.ops

theorem openFresh {s s' : State} {t ino : Nat} {fd : BitVec 32} (ops : (s.inodes ino).ops = .device true false)
    (opened : fdAlloc s t ino = (s',(fd.toNat : Int))) : Open s' t ino fd 0 := by
  unfold fdAlloc at opened
  split at opened
  · next i found =>
      obtain ⟨made,place⟩ := Prod.mk.inj opened
      have same : i = fd.toNat := Int.ofNat_inj.mp place
      subst same
      subst made
      refine ⟨List.mem_range.mp (List.mem_of_find?_eq_some found),?_,ops⟩
      unfold setFile
      dsimp only
      rw [Function.update_self,Function.update_self]
  · -- a negative answer is no descriptor
    have negative := (Prod.mk.inj opened).2
    unfold emfile at negative
    omega

theorem readOnceFresh (text : List Byte) (len : Nat) :
    readOnce text 0 len =
      ⟨⟨(min len text.length : Nat),(text.take len).map some⟩,min len text.length⟩ := by
  rw [readOnce,if_neg (Nat.lt_irrefl 0)]
  dsimp only
  rw [Nat.zero_add,← List.take_eq_take_min]

theorem readsCons {k : Kernel} {file : ProcFile} {s : State} {t ino offset len : Nat} {fd : BitVec 32}
    (h : Open s t ino fd offset) (pos : 0 < len) (rest : List Nat) :
    reads k file t fd s (len :: rest) =
      if maxLen < len then (reads k file t fd s rest).map fun (s,answers) => (s,fails einval :: answers)
      else (reads k file t fd (useDevice s t fd (readOnce (text k file) offset len)).1 rest).map
        fun (s,answers) => (s,(readOnce (text k file) offset len).answer :: answers) := by
  have place : (s.tables t fd.toNat).offset = offset := by rw [h.file]
  rw [reads,readOpen h pos,place,procReadOnce]
  split
  · rfl
  · rfl

theorem deliveredRefused (answers : List Answer) : delivered (fails einval :: answers) = delivered answers := by
  rw [delivered,List.takeWhile_cons_of_pos (by decide)]
  rfl

theorem deliveredEnd (bytes : List Cell) (answers : List Answer) : delivered (⟨0,bytes⟩ :: answers) = [] := by
  rw [delivered,List.takeWhile_cons_of_neg (by simp)]
  rfl

theorem deliveredMore {n : Nat} (more : 0 < n) (bytes : List Cell) (answers : List Answer) :
    delivered (⟨n,bytes⟩ :: answers) = bytes ++ delivered answers := by
  rw [delivered,List.takeWhile_cons_of_pos (by simp; omega)]
  rfl

theorem readsSpent {k : Kernel} {file : ProcFile} {lens : List Nat} {s : State} {t ino offset : Nat}
    {fd : BitVec 32} (h : Open s t ino fd offset) (spent : 0 < offset) (pos : ∀ len ∈ lens, 0 < len) :
    ∃ s' answers, reads k file t fd s lens = some (s',answers) ∧ delivered answers = [] := by
  induction lens generalizing s with
  | nil => exact ⟨s,[],rfl,rfl⟩
  | cons len rest ih =>
      have later : ∀ len ∈ rest, 0 < len := fun len mem => pos len (List.mem_cons_of_mem _ mem)
      have done : readOnce (text k file) offset len = ⟨⟨0,[]⟩,offset⟩ := if_pos spent
      rw [readsCons h (pos len List.mem_cons_self),done]
      split
      · obtain ⟨s',answers,ran,nothing⟩ := ih h later
        refine ⟨s',fails einval :: answers,by rw [ran]; rfl,?_⟩
        rw [deliveredRefused,nothing]
      · obtain ⟨s',answers,ran,_⟩ := ih (useOpen h ⟨⟨0,[]⟩,offset⟩) later
        exact ⟨s',⟨0,[]⟩ :: answers,by rw [ran]; rfl,deliveredEnd [] answers⟩

theorem readsFresh (k : Kernel) (file : ProcFile) {lens : List Nat} {s : State} {t ino : Nat}
    {fd : BitVec 32} (h : Open s t ino fd 0) (pos : ∀ len ∈ lens, 0 < len) :
    ∃ s' answers, reads k file t fd s lens = some (s',answers) ∧
      delivered answers = ((text k file).take (firstLen lens)).map some := by
  induction lens generalizing s with
  | nil => exact ⟨s,[],rfl,rfl⟩
  | cons len rest ih =>
      have later : ∀ len ∈ rest, 0 < len := fun len mem => pos len (List.mem_cons_of_mem _ mem)
      rw [readsCons h (pos len List.mem_cons_self)]
      split
      · next refused =>
          obtain ⟨s',answers,ran,bytes⟩ := ih h later
          refine ⟨s',fails einval :: answers,by rw [ran]; rfl,?_⟩
          rw [deliveredRefused,bytes,firstLen,firstLen,List.find?_cons_of_neg (by simp; omega)]
      · next taken =>
          have first : firstLen (len :: rest) = len := by
            rw [firstLen,List.find?_cons_of_pos (by simp; omega)]
            rfl
          have whole : (text k file).take len = (text k file).take (min len (text k file).length) :=
            List.take_eq_take_min
          rw [first,readOnceFresh]
          generalize min len (text k file).length = copy at whole ⊢
          -- the first length taken decides: either nothing came, or the offset has moved
          by_cases empty : copy = 0
          · subst empty
            obtain ⟨s',answers,ran,_⟩ := ih (useOpen h ⟨⟨(0 : Nat),((text k file).take len).map some⟩,0⟩) later
            refine ⟨s',_ :: answers,by rw [ran]; rfl,?_⟩
            exact (deliveredEnd _ answers).trans (by rw [whole]; rfl)
          · have more : 0 < copy := Nat.pos_of_ne_zero empty
            obtain ⟨s',answers,ran,nothing⟩ := readsSpent (k := k)
              (useOpen h ⟨⟨(copy : Nat),((text k file).take len).map some⟩,copy⟩) more later
            refine ⟨s',_ :: answers,by rw [ran]; rfl,?_⟩
            rw [deliveredMore more,nothing,List.append_nil]

theorem readWhole {k : Kernel} {file : ProcFile} {s : State} {t ino len : Nat} {fd : BitVec 32}
    (h : Open s t ino fd 0) (pos : 0 < len) (room : (text k file).length ≤ len) (taken : len ≤ maxLen) :
    ∃ s', vfsRead s (some t) fd false len (procRead k file 0 len) =
      some (s',⟨(text k file).length,(text k file).map some⟩) := by
  have once : procRead k file 0 len =
      ⟨⟨(text k file).length,(text k file).map some⟩,(text k file).length⟩ := by
    rw [procReadOnce,readOnceFresh,Nat.min_eq_right room,List.take_of_length_le room]
  rw [readOpen h pos,if_neg (Nat.not_lt.mpr taken),once]
  exact ⟨_,rfl⟩

theorem procReadsFirst (k : Kernel) (file : ProcFile) (s s' : State) (t ino : Nat) (fd : BitVec 32)
    (ops : (s.inodes ino).ops = .device true false) (opened : fdAlloc s t ino = (s',(fd.toNat : Int)))
    (lens : List Nat) (pos : ∀ len ∈ lens, 0 < len) :
    (text k file).length ≤ 512 ∧
    (∀ len, 0 < len → (text k file).length ≤ len → len ≤ maxLen →
      ∃ s'', vfsRead s' (some t) fd false len (procRead k file 0 len) =
        some (s'',⟨(text k file).length,(text k file).map some⟩)) ∧
    ∃ s'' answers, reads k file t fd s' lens = some (s'',answers) ∧
      delivered answers = ((text k file).take (firstLen lens)).map some ∧
      (delivered answers = (text k file).map some ↔ (text k file).length ≤ firstLen lens) := by
  have fresh := openFresh ops opened
  obtain ⟨s'',answers,ran,bytes⟩ := readsFresh k file fresh pos
  refine ⟨textLength k file,fun len pos room taken => readWhole fresh pos room taken,
    s'',answers,ran,bytes,?_⟩
  rw [bytes]
  constructor
  · intro same
    have lengths := congrArg List.length same
    rw [List.length_map,List.length_map,List.length_take] at lengths
    omega
  · intro fits
    rw [List.take_of_length_le fits]

def booted : Kernel := ⟨3,1000000,250000,512,64,50,1,70,false,Vector.replicate 64 0⟩

def unopened : State := Ramfs.start (fun _ => .device true false)

def openedFirst : State := (fdAlloc unopened 0 1).1

theorem procReadsFirstLarge :
    ∃ s answers, reads booted .neriStatus 0 0 openedFirst [4096,4096] = some (s,answers) ∧
      delivered answers = (statusText booted).map some := by
  obtain ⟨short,_,s,answers,ran,_,whole⟩ := procReadsFirst booted .neriStatus unopened openedFirst 0 1 0
    rfl rfl [4096,4096] (by decide)
  exact ⟨s,answers,ran,whole.mpr (Nat.le_trans short (by decide))⟩

theorem smallReadsCutOff :
    (reads booted .machineId 0 0 openedFirst [5,5,5]).map (fun r => delivered r.2) =
        some ((ascii "unava").map some) ∧
      machineIdText booted = ascii "unavailable\n" ∧
      (reads booted .neriStatus 0 0 openedFirst [4,4]).map (fun r => delivered r.2) =
        some ((ascii "Neri").map some) := by
  decide +kernel

end Nekros.ProcFiles
