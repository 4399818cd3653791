import Mathlib.Data.List.Pairwise
import Mathlib.Data.List.GetD
import Nekros.GuardedRun
import Nekros.SlotRing

/-! The per-process trace ring of kernel/trace.c, one producer beside one reader. Both
copy an entry word by word, and either may be stopped between two words. The producer
never waits, so a reader that has fallen a lap behind finds other entries than the ones
it came for. -/
namespace Nekros.Trace
open Function (update)
open GuardedRun (run runAppend Guarded guardedInvariant)
open SlotRing (Holds)

abbrev Word := BitVec 64

abbrev Entry := Vector Word 8

abbrev Body := Vector Word 6

def ringSlots : Nat := 1024

inductive Producer where
  | idle
  | copying (e : Entry) (pos done : Nat)
  deriving DecidableEq

/- `trace_read` between its steps: the entries already in the caller's buffer, and the one
being copied, of which `done` words are there. -/
inductive Reader where
  | idle
  | reading (rpos avail : Nat) (buf : List Entry) (cur : Entry) (done : Nat)
  deriving DecidableEq

structure Ring where
  slots : Nat → Entry
  writePos : Nat
  writeCommitted : Nat
  readPos : Nat
  producer : Producer
  reader : Reader

structure World where
  ring : Ring
  written : List Entry
  returned : List Entry

inductive Event where
  | claim (body : Body)
  | copyWord
  | publish
  | readBegin (maxEntries : BitVec 32)
  | readWord
  | readEnd

def put (t e : Entry) (j : Nat) : Entry := t.setIfInBounds j (e.getD j 0)

def blank : Entry := Vector.replicate 8 0

def start : World := ⟨⟨fun _ => blank,0,0,0,.idle,.idle⟩,[],[]⟩

variable (mac : Body → Vector Word 2)

def sealEntry (body : Body) : Entry := body ++ mac body

def claim (w : World) (body : Body) : Option World :=
  match w.ring.producer with
  | .idle =>
      let e := sealEntry mac body
      let pos := w.ring.writePos
      some ⟨{w.ring with writePos := pos + 1, producer := .copying e pos 0},w.written ++ [e],w.returned⟩
  | .copying .. => none

def copyWord (w : World) : Option World :=
  match w.ring.producer with
  | .idle => none
  | .copying e pos done =>
      let slot := pos % ringSlots
      if done < 8 then
        some {w with ring := {w.ring with
          slots := update w.ring.slots slot (put (w.ring.slots slot) e done)
          producer := .copying e pos (done + 1)}}
      else none

def publish (w : World) : Option World :=
  match w.ring.producer with
  | .idle => none
  | .copying _ _ done =>
      if done = 8 then
        some {w with ring := {w.ring with writeCommitted := w.ring.writeCommitted + 1, producer := .idle}}
      else none

def readBegin (w : World) (maxEntries : BitVec 32) : Option World :=
  match w.ring.reader with
  | .idle =>
      let rpos := w.ring.readPos
      let avail := min (w.ring.writeCommitted - rpos) maxEntries.toNat
      some {w with ring := {w.ring with reader := .reading rpos avail [] blank 0}}
  | .reading .. => none

def readWord (w : World) : Option World :=
  match w.ring.reader with
  | .idle => none
  | .reading rpos avail buf cur done =>
      if buf.length < avail then
        let slot := (rpos + buf.length) % ringSlots
        let cur := put cur (w.ring.slots slot) done
        let reader := if done + 1 = 8 then .reading rpos avail (buf ++ [cur]) blank 0
          else .reading rpos avail buf cur (done + 1)
        some {w with ring := {w.ring with reader := reader}}
      else none

def readEnd (w : World) : Option World :=
  match w.ring.reader with
  | .idle => none
  | .reading rpos avail buf _ _ =>
      if buf.length = avail then
        some ⟨{w.ring with readPos := rpos + avail, reader := .idle},w.written,w.returned ++ buf⟩
      else none

def step (w : World) : Event → Option World
  | .claim body => claim mac w body
  | .copyWord => copyWord w
  | .publish => publish w
  | .readBegin maxEntries => readBegin w maxEntries
  | .readWord => readWord w
  | .readEnd => readEnd w

def Near (w : World) : Event → Prop
  | .readWord => match w.ring.reader with
      | .idle => True
      | .reading rpos _ buf _ _ => w.ring.writePos ≤ rpos + buf.length + ringSlots
  | _ => True

instance (w : World) (e : Event) : Decidable (Near w e) := by
  cases e <;> unfold Near <;> try infer_instance
  cases w.ring.reader <;> infer_instance

def Ordered (w : World) : Prop := (w.returned).Sublist (w.written.take w.ring.writeCommitted)

def Same (n : Nat) (t e : Entry) : Prop := ∀ k, k < n → t.getD k 0 = e.getD k 0

theorem sameNone (t e : Entry) : Same 0 t e := fun _ lt => absurd lt (Nat.not_lt_zero _)

theorem sameAll {t e : Entry} (h : Same 8 t e) : t = e := by
  apply Vector.ext
  intro k lt
  simpa [Vector.getD,Array.getD,lt] using h k lt

theorem samePut {n : Nat} {t e : Entry} (inside : n < 8) (h : Same n t e) : Same (n + 1) (put t e n) e := by
  intro k lt
  have small : k < 8 := by omega
  have there : (put t e n).getD k 0 = if n = k then e.getD n 0 else t.getD k 0 := by
    simp [put,Vector.getD,Array.getD,small,Array.getElem_setIfInBounds]
  rw [there]
  split
  · next same => rw [same]
  · exact h k (by omega)

def Writing (written : List Entry) (r : Ring) : Prop :=
  match r.producer with
  | .idle => r.writeCommitted = r.writePos
  | .copying e pos done => r.writePos = pos + 1 ∧ r.writeCommitted = pos ∧ written[pos]? = some e ∧
      Same done (r.slots (pos % ringSlots)) e

def Reading (written returned : List Entry) (committed readPos : Nat) : Reader → Prop
  | .idle => returned = written.take readPos
  | .reading rpos avail buf cur done => rpos = readPos ∧ rpos + avail ≤ committed ∧ buf.length ≤ avail ∧
      returned ++ buf = written.take (rpos + buf.length) ∧ returned.length = rpos ∧ done < 8 ∧
      (buf.length < avail → ∀ e, written[rpos + buf.length]? = some e → Same done cur e)

structure Inv (w : World) : Prop where
  size : w.written.length = w.ring.writePos
  writing : Writing w.written w.ring
  kept : Holds ringSlots (fun i x => w.written[i]? = some x) w.ring.slots (w.ring.writePos - ringSlots)
    w.ring.writeCommitted
  committed : w.ring.writeCommitted ≤ w.ring.writePos
  behind : w.ring.readPos ≤ w.ring.writeCommitted
  reading : Reading w.written w.returned w.ring.writeCommitted w.ring.readPos w.ring.reader

theorem startInv : Inv start where
  size := rfl
  writing := rfl
  kept := SlotRing.holdsNone _ _ _ _
  committed := Nat.le_refl _
  behind := Nat.le_refl _
  reading := rfl

theorem readingGrows {written returned : List Entry} {committed committed' readPos : Nat} {r : Reader}
    (more : List Entry) (later : committed ≤ committed') (size : committed ≤ written.length)
    (behind : readPos ≤ committed) (h : Reading written returned committed readPos r) :
    Reading (written ++ more) returned committed' readPos r := by
  cases r with
  | idle =>
      have same : returned = written.take readPos := h
      show returned = (written ++ more).take readPos
      rw [same,List.take_append_of_le_length (by omega)]
  | reading rpos avail buf cur done =>
      obtain ⟨here,fits,room,upTo,len,small,copied⟩ := h
      refine ⟨here,by omega,room,?_,len,small,?_⟩
      · rw [upTo,List.take_append_of_le_length (by omega)]
      · intro inside e found
        rw [List.getElem?_append_left (by omega)] at found
        exact copied inside e found

theorem claimInv {w w' : World} {body : Body} (h : Inv w) (next : claim mac w body = some w') : Inv w' := by
  have writing := h.writing
  have size := h.size
  have committed := h.committed
  simp only [claim] at next
  split at next
  · next idle =>
      simp only [Writing,idle] at writing
      cases Option.some.inj next
      refine ⟨?_,⟨rfl,writing,?_,sameNone _ _⟩,?_,Nat.le_succ_of_le committed,h.behind,?_⟩
      · rw [List.length_append,size]
        rfl
      · rw [List.getElem?_append_right (by omega),size,Nat.sub_self]
        rfl
      · have later := SlotRing.holdsLater
          (show w.ring.writePos - ringSlots ≤ w.ring.writePos + 1 - ringSlots by omega) h.kept
        refine SlotRing.holdsImp (fun i x lt (found : w.written[i]? = some x) => ?_) later
        have old : i < w.written.length := Nat.lt_of_lt_of_le lt (size ▸ committed)
        exact (List.getElem?_append_left old).trans found
      · exact readingGrows _ (Nat.le_refl _) (size ▸ committed) h.behind h.reading
  · cases next

theorem copyWordInv {w w' : World} (h : Inv w) (next : copyWord w = some w') : Inv w' := by
  have writing := h.writing
  simp only [copyWord] at next
  split at next
  · cases next
  · next e pos done at' =>
      simp only [Writing,at'] at writing
      obtain ⟨claimed,committed,entry,same⟩ := writing
      split at next
      · next inside =>
          cases Option.some.inj next
          refine ⟨h.size,⟨claimed,committed,entry,?_⟩,?_,h.committed,h.behind,h.reading⟩
          · dsimp only
            rw [Function.update_self]
            exact samePut inside same
          · have touched := SlotRing.holdsTouch (x := put (w.ring.slots (pos % ringSlots)) e done)
              (show w.ring.writeCommitted < w.ring.writePos - ringSlots + ringSlots by omega) h.kept
            rw [committed] at touched
            dsimp only
            rw [committed]
            exact touched
      · cases next

theorem publishInv {w w' : World} (h : Inv w) (next : publish w = some w') : Inv w' := by
  have writing := h.writing
  have size := h.size
  simp only [publish] at next
  split at next
  · cases next
  · next e pos done at' =>
      simp only [Writing,at'] at writing
      obtain ⟨claimed,committed,entry,same⟩ := writing
      split at next
      · next whole =>
          cases Option.some.inj next
          subst whole
          have copied : w.ring.slots (pos % ringSlots) = e := sameAll same
          refine ⟨size,?_,?_,?_,Nat.le_succ_of_le h.behind,?_⟩
          · show w.ring.writeCommitted + 1 = w.ring.writePos
            omega
          · have pushed := SlotRing.holdsPush (x := e) (by rw [committed]; exact entry) h.kept
            rw [committed,← copied,Function.update_eq_self] at pushed
            dsimp only
            rw [committed]
            exact pushed
          · show w.ring.writeCommitted + 1 ≤ w.ring.writePos
            omega
          · have grown := readingGrows [] (Nat.le_succ w.ring.writeCommitted) (by omega) h.behind h.reading
            rw [List.append_nil] at grown
            exact grown
      · cases next

theorem readBeginInv {w w' : World} {maxEntries : BitVec 32} (h : Inv w)
    (next : readBegin w maxEntries = some w') : Inv w' := by
  have reading := h.reading
  have behind := h.behind
  have size := h.size
  have committed := h.committed
  simp only [readBegin] at next
  split at next
  · next idle =>
      rw [idle] at reading
      have upTo : w.returned = w.written.take w.ring.readPos := reading
      cases Option.some.inj next
      refine ⟨size,h.writing,h.kept,h.committed,behind,⟨rfl,?_,Nat.zero_le _,?_,?_,by decide,?_⟩⟩
      · dsimp only
        omega
      · rw [List.append_nil]
        exact upTo
      · rw [upTo,List.length_take]
        omega
      · exact fun _ e _ => sameNone _ e
  · cases next

theorem slotEntry {w : World} (h : Inv w) {i : Nat} (published : i < w.ring.writeCommitted)
    (near : w.ring.writePos ≤ i + ringSlots) : w.written[i]? = some (w.ring.slots (i % ringSlots)) := by
  have committed := h.committed
  exact h.kept i (by omega) published (by omega)

theorem readWordInv {w w' : World} (h : Inv w) (near : Near w .readWord) (next : readWord w = some w') :
    Inv w' := by
  have reading := h.reading
  simp only [readWord] at next
  split at next
  · cases next
  · next rpos avail buf cur done at' =>
      rw [at'] at reading
      simp only [Near,at'] at near
      obtain ⟨here,fits,room,upTo,len,small,copied⟩ := reading
      split at next
      · next inside =>
          have entry := slotEntry h (show rpos + buf.length < w.ring.writeCommitted by omega) near
          have word := samePut small (copied inside _ entry)
          cases Option.some.inj next
          refine ⟨h.size,h.writing,h.kept,h.committed,h.behind,?_⟩
          dsimp only
          split
          · next last =>
              rw [last] at word
              have whole := sameAll word
              refine ⟨here,fits,?_,?_,len,by decide,fun _ e _ => sameNone _ e⟩
              · rw [List.length_append]
                exact inside
              · rw [whole,← List.append_assoc,upTo,List.length_append,List.length_singleton,
                  ← Nat.add_assoc,List.take_add_one,entry]
                rfl
          · next unfinished =>
              refine ⟨here,fits,room,upTo,len,by omega,fun _ e found => ?_⟩
              rw [entry] at found
              cases Option.some.inj found
              exact word
      · cases next

theorem readEndInv {w w' : World} (h : Inv w) (next : readEnd w = some w') : Inv w' := by
  have reading := h.reading
  simp only [readEnd] at next
  split at next
  · cases next
  · next rpos avail buf cur done at' =>
      rw [at'] at reading
      obtain ⟨here,fits,room,upTo,len,small,copied⟩ := reading
      split at next
      · next all =>
          cases Option.some.inj next
          refine ⟨h.size,h.writing,h.kept,h.committed,fits,?_⟩
          show w.returned ++ buf = w.written.take (rpos + avail)
          rw [upTo,all]
      · cases next

theorem stepInv {w w' : World} {e : Event} (h : Inv w) (near : Near w e) (next : step mac w e = some w') :
    Inv w' := by
  cases e with
  | claim body => exact claimInv mac h next
  | copyWord => exact copyWordInv h next
  | publish => exact publishInv h next
  | readBegin maxEntries => exact readBeginInv h next
  | readWord => exact readWordInv h near next
  | readEnd => exact readEndInv h next

theorem invOrdered {w : World} (h : Inv w) : Ordered w := by
  have reading := h.reading
  have behind := h.behind
  unfold Ordered
  cases at' : w.ring.reader with
  | idle =>
      rw [at'] at reading
      have upTo : w.returned = w.written.take w.ring.readPos := reading
      rw [upTo]
      exact List.take_sublist_take_left behind
  | reading rpos avail buf cur done =>
      rw [at'] at reading
      obtain ⟨here,fits,room,upTo,len,small,copied⟩ := reading
      have first : w.returned = w.written.take rpos := by
        have cut := congrArg (List.take rpos) upTo
        rwa [List.take_left' len,List.take_take,Nat.min_eq_left (Nat.le_add_right _ _)] at cut
      rw [first]
      exact List.take_sublist_take_left (by omega)

theorem orderedUnlessLapped {events : List Event} {w : World} (near : Guarded (step mac) Near start events)
    (ran : run (step mac) start events = some w) : Ordered w :=
  invOrdered (guardedInvariant Inv (fun _ _ _ inv ok next => stepInv mac inv ok next) startInv near ran)

def writeCall (body : Body) : List Event := .claim body :: List.replicate 8 .copyWord ++ [.publish]

def readCall (n : Nat) : List Event :=
  .readBegin (BitVec.ofNat 32 n) :: List.replicate (8 * n) .readWord ++ [.readEnd]

theorem copyWordsRun {w : World} {e : Entry} {pos done : Nat} (k : Nat)
    (at' : w.ring.producer = .copying e pos done) (room : done + k ≤ 8) :
    ∃ slots, run (step mac) w (List.replicate k .copyWord) =
      some {w with ring := {w.ring with slots := slots, producer := .copying e pos (done + k)}} := by
  induction k generalizing w done with
  | zero => exact ⟨w.ring.slots,by rw [Nat.add_zero,← at']; rfl⟩
  | succ k ih =>
      let slot := pos % ringSlots
      let w' : World := {w with ring := {w.ring with
        slots := update w.ring.slots slot (put (w.ring.slots slot) e done), producer := .copying e pos (done + 1)}}
      have next : copyWord w = some w' := by
        simp only [copyWord,at']
        rw [if_pos (by omega)]
      obtain ⟨slots,ran⟩ := ih (w := w') rfl (by omega)
      refine ⟨slots,?_⟩
      have rest : run (step mac) w (List.replicate (k + 1) .copyWord) =
          run (step mac) w' (List.replicate k .copyWord) := by
        rw [List.replicate_succ,run,step,next]
        rfl
      rw [rest,ran,Nat.add_right_comm done 1 k,← Nat.add_assoc]

theorem writeCallRuns {w : World} (idle : w.ring.producer = .idle) (body : Body) :
    ∃ slots, run (step mac) w (writeCall body) =
      some ⟨⟨slots,w.ring.writePos + 1,w.ring.writeCommitted + 1,w.ring.readPos,.idle,w.ring.reader⟩,
        w.written ++ [sealEntry mac body],w.returned⟩ := by
  let claimed : Producer := .copying (sealEntry mac body) w.ring.writePos 0
  let w' : World := ⟨{w.ring with writePos := w.ring.writePos + 1, producer := claimed},
    w.written ++ [sealEntry mac body],w.returned⟩
  have next : claim mac w body = some w' := by simp only [claim,idle]; rfl
  obtain ⟨slots,copied⟩ := copyWordsRun mac (w := w') 8 rfl (by decide)
  refine ⟨slots,?_⟩
  rw [writeCall,List.cons_append,run,step,next,Option.bind_some,runAppend,copied]
  rfl

theorem writeCallsRun {w : World} (idle : w.ring.producer = .idle) (bodies : List Body) :
    ∃ slots, run (step mac) w (bodies.flatMap writeCall) =
      some ⟨⟨slots,w.ring.writePos + bodies.length,w.ring.writeCommitted + bodies.length,w.ring.readPos,.idle,
        w.ring.reader⟩,w.written ++ bodies.map (sealEntry mac),w.returned⟩ := by
  induction bodies generalizing w with
  | nil => exact ⟨w.ring.slots,by rw [← idle,List.map_nil,List.append_nil]; rfl⟩
  | cons body rest ih =>
      obtain ⟨slots,first⟩ := writeCallRuns mac idle body
      obtain ⟨slots',later⟩ := ih (w := ⟨⟨slots,w.ring.writePos + 1,w.ring.writeCommitted + 1,w.ring.readPos,.idle,
        w.ring.reader⟩,w.written ++ [sealEntry mac body],w.returned⟩) rfl
      refine ⟨slots',?_⟩
      rw [List.flatMap_cons,runAppend,first,Option.bind_some,later,List.length_cons,List.map_cons,
        List.append_assoc,List.singleton_append,Nat.add_assoc,Nat.add_assoc,Nat.add_comm 1]

theorem readWordsRun {w : World} {rpos avail : Nat} {buf : List Entry} {cur : Entry} {done : Nat} (k : Nat)
    (at' : w.ring.reader = .reading rpos avail buf cur done) (inside : buf.length < avail) (room : done + k < 8)
    (same : Same done cur (w.ring.slots ((rpos + buf.length) % ringSlots))) :
    ∃ cur', Same (done + k) cur' (w.ring.slots ((rpos + buf.length) % ringSlots)) ∧
      run (step mac) w (List.replicate k .readWord) =
        some {w with ring := {w.ring with reader := .reading rpos avail buf cur' (done + k)}} := by
  induction k generalizing w cur done with
  | zero => exact ⟨cur,same,by rw [Nat.add_zero,← at']; rfl⟩
  | succ k ih =>
      let e := w.ring.slots ((rpos + buf.length) % ringSlots)
      let w' : World := {w with ring := {w.ring with reader := .reading rpos avail buf (put cur e done) (done + 1)}}
      have next : readWord w = some w' := by
        simp only [readWord,at']
        rw [if_pos inside,if_neg (by omega)]
      obtain ⟨cur',same',ran⟩ := ih (w := w') rfl (by omega) (samePut (by omega) same)
      have rest : run (step mac) w (List.replicate (k + 1) .readWord) =
          run (step mac) w' (List.replicate k .readWord) := by
        rw [List.replicate_succ,run,step,next]
        rfl
      rw [Nat.add_right_comm done 1 k] at same' ran
      exact ⟨cur',same',rest.trans ran⟩

theorem readEntryRuns {w : World} {rpos avail : Nat} {buf : List Entry}
    (at' : w.ring.reader = .reading rpos avail buf blank 0) (inside : buf.length < avail) :
    run (step mac) w (List.replicate 8 .readWord) = some {w with ring := {w.ring with
      reader := .reading rpos avail (buf ++ [w.ring.slots ((rpos + buf.length) % ringSlots)]) blank 0}} := by
  obtain ⟨cur,same,ran⟩ := readWordsRun mac 7 at' inside (by decide) (sameNone _ _)
  have whole := sameAll (samePut (by decide) same)
  have split : List.replicate 8 Event.readWord = List.replicate 7 .readWord ++ [.readWord] := rfl
  rw [split,runAppend,ran,Option.bind_some,run,step,readWord]
  dsimp only
  rw [if_pos inside,if_pos rfl]
  simp only [Option.bind_some,run]
  rw [whole]

theorem readTwoRuns {w : World} (idle : w.ring.reader = .idle)
    (there : w.ring.readPos + 2 ≤ w.ring.writeCommitted) :
    ∃ ring, ring.writeCommitted = w.ring.writeCommitted ∧
      run (step mac) w (readCall 2) = some ⟨ring,w.written,w.returned ++
        [w.ring.slots (w.ring.readPos % ringSlots),w.ring.slots ((w.ring.readPos + 1) % ringSlots)]⟩ := by
  let begun : World := {w with ring := {w.ring with reader := .reading w.ring.readPos 2 [] blank 0}}
  have first : readBegin w (BitVec.ofNat 32 2) = some begun := by
    simp only [readBegin,idle]
    rw [Nat.min_eq_right (show (BitVec.ofNat 32 2).toNat ≤ _ from by simpa using (by omega))]
    rfl
  let x := w.ring.slots (w.ring.readPos % ringSlots)
  let y := w.ring.slots ((w.ring.readPos + 1) % ringSlots)
  let second : World := {w with ring := {w.ring with reader := .reading w.ring.readPos 2 [x] blank 0}}
  let third : World := {w with ring := {w.ring with reader := .reading w.ring.readPos 2 [x,y] blank 0}}
  have one : run (step mac) begun (List.replicate 8 .readWord) = some second :=
    readEntryRuns mac (w := begun) rfl (Nat.zero_lt_two)
  have two : run (step mac) second (List.replicate 8 .readWord) = some third :=
    readEntryRuns mac (w := second) rfl (Nat.one_lt_two)
  have last : run (step mac) third [.readEnd] =
      some ⟨{w.ring with readPos := w.ring.readPos + 2, reader := .idle},w.written,w.returned ++ [x,y]⟩ := rfl
  have split : List.replicate (8 * 2) Event.readWord = List.replicate 8 .readWord ++ List.replicate 8 .readWord := rfl
  refine ⟨{w.ring with readPos := w.ring.readPos + 2, reader := .idle},rfl,?_⟩
  rw [readCall,List.cons_append,run,step,first,Option.bind_some,split,runAppend,runAppend,one,Option.bind_some,
    two,Option.bind_some,last]

theorem nearUnread {events : List Event} (w : World) (unread : .readWord ∉ events) :
    Guarded (step mac) Near w events := by
  induction events generalizing w with
  | nil => trivial
  | cons e rest ih =>
      have others : .readWord ∉ rest := fun mem => unread (List.mem_cons_of_mem e mem)
      refine ⟨?_,fun w' _ => ih w' others⟩
      cases e with
      | readWord => exact absurd List.mem_cons_self unread
      | _ => trivial

theorem lappedReturns (bodies : List Body) (lap : bodies.length = ringSlots + 1) :
    ∃ w x y, run (step mac) start (bodies.flatMap writeCall ++ readCall 2) = some w ∧
      w.written = bodies.map (sealEntry mac) ∧ w.returned = [x,y] ∧
      w.written[ringSlots]? = some x ∧ w.written[1]? = some y := by
  obtain ⟨slots,wrote⟩ := writeCallsRun mac (w := start) rfl bodies
  have unread : .readWord ∉ bodies.flatMap writeCall := by
    simp [writeCall]
  have inv := guardedInvariant Inv (fun _ _ _ inv ok next => stepInv mac inv ok next) startInv
    (nearUnread mac start unread) wrote
  have two : 0 + 2 ≤ 0 + bodies.length := by rw [lap,ringSlots]; decide
  obtain ⟨ring,_,ran⟩ := readTwoRuns mac (w := ⟨⟨slots,0 + bodies.length,0 + bodies.length,0,.idle,.idle⟩,
    [] ++ bodies.map (sealEntry mac),[]⟩) rfl two
  have last := slotEntry inv (i := ringSlots) (show ringSlots < 0 + bodies.length by omega)
    (show 0 + bodies.length ≤ ringSlots + ringSlots by rw [lap,ringSlots]; decide)
  have second := slotEntry inv (i := 1) (show 1 < 0 + bodies.length by omega)
    (show 0 + bodies.length ≤ 1 + ringSlots by omega)
  rw [Nat.mod_self,← Nat.zero_mod ringSlots] at last
  have both : run (step mac) start (bodies.flatMap writeCall ++ readCall 2) =
      some ⟨ring,bodies.map (sealEntry mac),[slots (0 % ringSlots),slots (1 % ringSlots)]⟩ := by
    rw [runAppend,wrote,Option.bind_some]
    exact ran
  exact ⟨_,_,_,both,rfl,rfl,last,second⟩

def numbered (i : Nat) : Body := Vector.replicate 6 (BitVec.ofNat 64 i)

def noMac : Body → Vector Word 2 := fun _ => Vector.replicate 2 0

def lapped : List Event := ((List.range 1025).map numbered).flatMap writeCall ++ readCall 2

/- The first entry is read while half of the second one is copied. -/
def inTime : List Event :=
  writeCall (numbered 7) ++ .claim (numbered 8) :: List.replicate 4 .copyWord ++ readCall 1 ++
    List.replicate 4 .copyWord ++ [.publish] ++ readCall 1

theorem orderedInTime : ∃ w, run (step noMac) start inTime = some w ∧
    w.returned = [sealEntry noMac (numbered 7),sealEntry noMac (numbered 8)] ∧ Ordered w := by
  have answer : (run (step noMac) start inTime).map World.returned =
      some [sealEntry noMac (numbered 7),sealEntry noMac (numbered 8)] := by
    decide +kernel
  obtain ⟨w,ran,returned⟩ := Option.map_eq_some_iff.mp answer
  exact ⟨w,ran,returned,orderedUnlessLapped noMac (by decide +kernel) ran⟩

theorem lappedOutOfOrder : ∃ w, run (step noMac) start lapped = some w ∧ ¬ Ordered w := by
  obtain ⟨w,x,y,ran,written,returned,last,second⟩ := lappedReturns noMac ((List.range 1025).map numbered)
    (by rw [List.length_map,List.length_range,ringSlots])
  have number : ∀ (i : Nat) (e : Entry), w.written[i]? = some e → (e.getD 0 0).toNat = i := by
    intro i e found
    rw [written,List.map_map] at found
    obtain ⟨j,there,rfl⟩ := Option.map_eq_some_iff.mp (List.getElem?_map.symm.trans found)
    obtain ⟨small,rfl⟩ := List.getElem?_eq_some_iff.mp there
    rw [List.length_range] at small
    rw [List.getElem_range]
    show (BitVec.ofNat 64 i).toNat = i
    rw [BitVec.toNat_ofNat,Nat.mod_eq_of_lt (by omega)]
  have increasing : w.written.Pairwise (fun a b => (a.getD 0 0).toNat < (b.getD 0 0).toNat) := by
    rw [List.pairwise_iff_getElem]
    intro i j hi hj lt
    rw [number i _ (List.getElem?_eq_getElem hi),number j _ (List.getElem?_eq_getElem hj)]
    exact lt
  refine ⟨w,ran,fun ordered => ?_⟩
  have pair := (increasing.sublist (List.take_sublist _ _)).sublist ordered
  rw [returned,List.pairwise_pair,number _ _ last,number _ _ second] at pair
  exact absurd pair (by decide)

end Nekros.Trace
