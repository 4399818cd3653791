import Nekros.Pledge
import Nekros.UserMemory

/-! Where the accesses of a system call lie. A handler that checks its pointers stays
among user addresses whatever it is given; three handlers do not, and `Confining` says
what they would have to be given. -/
namespace Nekros.UserAccess
open Words Sched Syscall UserMemory
open Spans (Span)

def Inside (r : Span) : Prop := r.len = 0 ∨ (4096 ≤ r.start ∧ r.stop ≤ userAddrMax)
instance (r) : Decidable (Inside r) := by unfold Inside; infer_instance

def fieldsEnd (fields : List (Nat × Nat)) : Nat := fields.foldl (fun m f => max m (f.1 + f.2)) 0

def Confining (v : Env) (a : Args) : Handler → Prop
  | .ioctl => low32 a.a1 = 3 → a.a3 ≠ 0 → ∀ fields ∈ ioctlFields (low32 a.a2),
      4096 ≤ a.a3 ∧ a.a3 + fieldsEnd fields ≤ userAddrMax
  | .nkAttestPeer => v.ccReady = true → attestTokenLen ≤ a.a2 → a.a2 ≤ 4096 → uptrValid a.a1 a.a2 = true →
      a.a1 + 12 + attestPlainLen + v.aad ≤ userAddrMax
  | .nkIpcRecv => v.ccReady = true → v.tagMatches = true → uptrValid a.a2 a.a3 = true → a.a3 ≠ 0 →
      ∀ c ∈ v.channel (low32 a.a1), c.head ≠ c.tail → c.plen ≤ ipcRingBytes / 2 → c.plen ≤ low32 a.a3 →
        c.head + 12 + 4 + c.plen + 16 ≤ ipcRingBytes → a.a2 + c.nonce ≤ userAddrMax
  | _ => True

def Safe (accesses : List Access) : Prop := ∀ r ∈ accesses.filterMap deref, Inside r

theorem safeNil : Safe [] := by
  intro r mem
  cases mem

theorem safeArg {a len : Nat} {rest : List Access} :
    Safe (⟨.arg a,len⟩::rest) ↔ Inside ⟨a,len⟩ ∧ Safe rest := by
  simp [Safe,deref]

theorem safeKern {len : Nat} {rest : List Access} : Safe (⟨.kern,len⟩::rest) ↔ Safe rest := by
  simp [Safe,deref]

theorem safeOne {a len : Nat} (h : Inside ⟨a,len⟩) : Safe [⟨.arg a,len⟩] := safeArg.mpr ⟨h,safeNil⟩

theorem safeFields {p : Nat} {fields : List (Nat × Nat)} :
    Safe (fieldsAt p fields) ↔ ∀ f ∈ fields, Inside ⟨p + f.1,f.2⟩ := by
  unfold fieldsAt
  induction fields with
  | nil => simp [safeNil]
  | cons f fields ih =>
      rw [List.map_cons,safeArg,ih,List.forall_mem_cons]

theorem uptrRange {p len : Nat} (h : uptrValid p len = true) : 4096 ≤ p ∧ p + len ≤ userAddrMax := by
  unfold uptrValid at h
  split at h
  · cases h
  · split at h
    · cases h
    · rename_i below
      split at h
      · cases h
      · rename_i range
        split at h
        · cases h
        · rename_i high
          -- the sum of two numbers up to 2^47 does not wrap
          unfold wrap userAddrMax at *
          omega

theorem uptrInside {p len o n : Nat} (h : uptrValid p len = true) (part : o + n ≤ len) : Inside ⟨p + o,n⟩ := by
  obtain ⟨low,high⟩ := uptrRange h
  right
  simp only [Span.stop]
  omega

theorem uptrStart {p len n : Nat} (h : uptrValid p len = true) (part : n ≤ len) : Inside ⟨p,n⟩ :=
  uptrInside (o := 0) h (by omega)

theorem uptrFields {p len : Nat} {fields : List (Nat × Nat)} (h : uptrValid p len = true)
    (fits : ∀ f ∈ fields, f.1 + f.2 ≤ len) : Safe (fieldsAt p fields) :=
  safeFields.mpr (fun f mem => uptrInside h (fits f mem))

theorem safeRefused {p : Prop} [Decidable p] {e : Nat} {x : Reply} (h : ¬ p → Safe x.accesses) :
    Safe (if p then fails e else x).accesses := by
  by_cases refused : p
  · rw [if_pos refused]
    exact safeNil
  · rw [if_neg refused]
    exact h refused

theorem safeChecked {p len e : Nat} {x : Reply} (h : uptrValid p len = true → Safe x.accesses) :
    Safe (if !uptrValid p len then fails e else x).accesses :=
  safeRefused (fun accepted => h (by simpa using accepted))

theorem exactRefused {p Q : Prop} [Decidable p] {e : Nat} {x : Reply} (vacuous : p → Q)
    (h : ¬ p → (Safe x.accesses ↔ Q)) : Safe (if p then fails e else x).accesses ↔ Q := by
  by_cases refused : p
  · rw [if_pos refused]
    exact iff_of_true safeNil (vacuous refused)
  · rw [if_neg refused]
    exact h refused

theorem fileReadSafe {buf len : Nat} (h : uptrValid buf len = true) (f : File) :
    Safe (fileRead buf len f).accesses := by
  have clipped : ∀ n, Safe [⟨.arg buf,min len n⟩] := fun n => safeOne (uptrStart h (Nat.min_le_left ..))
  cases f with
  | ramfs data offset dataLen dataCap kmallocOk =>
      simp only [fileRead,ramfsRead]
      split
      · exact safeNil
      · split
        · exact safeNil
        · exact clipped _
  | neri textLen => exact clipped _
  | null => exact safeNil
  | zero => exact safeOne (uptrStart h (Nat.le_refl len))
  | tty => exact safeNil
  | proc offset textLen =>
      simp only [fileRead]
      split
      · exact safeNil
      · exact clipped _

theorem fileWriteSafe {buf len : Nat} (h : uptrValid buf len = true) (f : File) :
    Safe (fileWrite buf len f).accesses := by
  have whole : Safe [⟨.arg buf,len⟩] := safeOne (uptrStart h (Nat.le_refl len))
  cases f with
  | ramfs data offset dataLen dataCap kmallocOk =>
      simp only [fileWrite,ramfsWrite]
      split
      · exact safeRefused (fun _ => safeRefused (fun _ => whole))
      · exact whole
  | tty => exact whole
  | _ => exact safeNil

theorem openFileSafe {fds : Nat → Option File} {fd : Nat} {op : File → Reply}
    (h : ∀ f, Safe (op f).accesses) : Safe (openFile fds fd op).accesses := by
  refine safeRefused (fun _ => ?_)
  cases fds fd with
  | none => exact safeNil
  | some f => exact h f

theorem readSafe (v : Env) (a : Args) : Safe (sysRead v a).accesses := by
  refine safeChecked (fun valid => safeRefused (fun _ => safeRefused (fun _ => ?_)))
  cases v.fdt with
  | none => exact safeNil
  | some fds => exact openFileSafe (fileReadSafe valid)

theorem writeSafe (v : Env) (a : Args) : Safe (sysWrite v a).accesses := by
  refine safeChecked (fun valid => safeRefused (fun _ => safeRefused (fun _ => ?_)))
  cases v.fdt with
  | none => exact safeRefused (fun _ => safeOne (uptrStart valid (Nat.le_refl _)))
  | some fds => exact openFileSafe (fileWriteSafe valid)

theorem low32Le (x : Nat) : low32 x ≤ x := Nat.mod_le x _

theorem attestSelfSafe (v : Env) (a : Args) : Safe (sysNkAttestSelf v a).accesses := by
  refine safeRefused (fun accepted => safeRefused (fun _ => safeRefused (fun size => safeRefused (fun _ => ?_))))
  have valid : uptrValid a.a1 a.a2 = true := by simpa using (not_or.mp accepted).1
  have room : attestTokenLen ≤ a.a2 := Nat.le_trans (Nat.le_of_not_lt size) (low32Le _)
  unfold attestTokenLen attestPlainLen at room
  simp only [aes256GcmEncrypt,safeArg,safeKern]
  refine ⟨uptrStart valid (by omega),uptrStart valid (by omega),uptrInside valid (by omega),?_,safeNil⟩
  rw [Nat.add_assoc]
  exact uptrInside valid (by unfold attestPlainLen; omega)

theorem secureFreeSafe (v : Env) {a : Args} (low : a.a1 < userAddrMax) : Safe (sysNkSecureFree v a).accesses := by
  unfold sysNkSecureFree
  split
  · rename_i found
    exact absurd low (Nat.not_lt_of_le (v.kernelRegions a.a1 found.2))
  · exact safeNil

theorem ipcSendSafe (v : Env) (a : Args) : Safe (sysNkIpcSend v a).accesses := by
  refine safeChecked (fun valid => safeRefused (fun _ => safeRefused (fun _ => safeRefused (fun _ => ?_))))
  cases v.channel (low32 a.a1) with
  | none => exact safeNil
  | some c =>
      refine safeRefused (fun _ => ?_)
      simp only [aes256GcmEncrypt,safeArg,safeKern]
      exact ⟨uptrStart valid (Nat.le_refl _),safeNil⟩

theorem neriStatusSafe (v : Env) (a : Args) : Safe (sysNkNeriStatus v a).accesses := by
  refine safeChecked (fun valid => ?_)
  cases ready : v.neriReady with
  | false => exact safeNil
  | true => exact uptrFields valid (by decide)

theorem anomalyScoreSafe (a : Args) : Safe (sysNkAnomalyScore a).accesses :=
  safeChecked (fun valid => uptrFields valid (by decide))

theorem getCapsSafe (a : Args) : Safe (sysNkGetCaps a).accesses :=
  safeRefused (fun _ => safeChecked (fun valid => uptrFields valid (by decide)))

theorem checkpointSafe (v : Env) (task : Bool) (a : Args) : Safe (sysNkCheckpoint v task a).accesses := by
  refine safeRefused (fun _ => safeChecked (fun valid => safeRefused (fun _ => safeRefused (fun size => ?_))))
  have room : checkpointLen ≤ a.a2 := Nat.le_trans (Nat.le_of_not_lt size) (low32Le _)
  unfold checkpointLen at room
  simp only [aes256GcmEncrypt,safeArg,safeKern]
  refine ⟨uptrStart valid (by omega),uptrInside valid (by omega),?_,safeNil⟩
  rw [Nat.add_assoc]
  exact uptrInside valid (by omega)

theorem memSnapshotSafe (v : Env) (a : Args) : Safe (sysNkMemSnapshot v a).accesses := by
  refine safeRefused (fun _ => safeChecked (fun source => safeChecked (fun target =>
    safeRefused (fun _ => safeRefused (fun _ => ?_)))))
  simp only [aes256GcmEncrypt,safeArg,safeKern,pageSize]
  refine ⟨uptrStart target (by omega),uptrStart target (by omega),uptrInside target (by omega),
    uptrStart source (low32Le _),?_,safeNil⟩
  rw [Nat.add_assoc]
  exact uptrInside target (by omega)

theorem futexSafe (futexWord : Nat) (a : Args) : Safe (sysNkFutex futexWord a).accesses := by
  refine safeChecked (fun valid => ?_)
  have word : Safe [⟨.arg a.a1,4⟩] := safeOne (uptrStart valid (Nat.le_refl 4))
  split
  · split <;> exact word
  · split
    · exact word
    · exact safeNil

theorem setNameSafe (task : Bool) (a : Args) : Safe (sysNkSetName task a).accesses :=
  safeRefused (fun _ => safeChecked (fun valid => safeOne (uptrStart valid (Nat.le_refl 31))))

theorem debugLogSafe (a : Args) : Safe (sysNkDebugLog a).accesses :=
  safeRefused (fun _ => safeChecked (fun valid => safeOne (uptrStart valid (Nat.min_le_left ..))))

structure Filled (fields : List (Nat × Nat)) : Prop where
  starts : ∃ f ∈ fields, f.1 = 0
  ends : ∃ f ∈ fields, f.1 + f.2 = fieldsEnd fields
  inside : ∀ f ∈ fields, 0 < f.2 ∧ f.1 + f.2 ≤ fieldsEnd fields

theorem ioctlFilled {cmd : Nat} {fields : List (Nat × Nat)} (h : ioctlFields cmd = some fields) :
    Filled fields := by
  unfold ioctlFields at h
  split at h
  · cases h
    exact ⟨by decide,by decide,by decide⟩
  · split at h
    · cases h
      exact ⟨by decide,by decide,by decide⟩
    · split at h
      · cases h
        exact ⟨by decide,by decide,by decide⟩
      · cases h

theorem filledExact {p : Nat} {fields : List (Nat × Nat)} (h : Filled fields) :
    (∀ f ∈ fields, Inside ⟨p + f.1,f.2⟩) ↔ 4096 ≤ p ∧ p + fieldsEnd fields ≤ userAddrMax := by
  constructor
  · intro all
    obtain ⟨first,mem,zero⟩ := h.starts
    obtain ⟨last,mem',top⟩ := h.ends
    have low := (all first mem).resolve_left (Nat.ne_of_gt (h.inside first mem).1)
    have high := (all last mem').resolve_left (Nat.ne_of_gt (h.inside last mem').1)
    simp only [Span.stop] at low high
    omega
  · intro range f mem
    obtain ⟨_,top⟩ := h.inside f mem
    right
    simp only [Span.stop]
    omega

theorem ioctlExact (v : Env) (a : Args) : Safe (sysIoctl a).accesses ↔ Confining v a .ioctl := by
  simp only [sysIoctl,Confining]
  by_cases device : low32 a.a1 = 3
  · rw [if_pos device]
    unfold neriDevIoctl
    cases found : ioctlFields (low32 a.a2) with
    | none => exact iff_of_true safeNil (fun _ _ fields mem => by cases mem)
    | some fields =>
        refine exactRefused (fun null _ nonnull => absurd null nonnull) (fun nonnull => ?_)
        rw [safeFields,filledExact (ioctlFilled found)]
        constructor
        · intro range _ _ other mem
          cases mem
          exact range
        · exact fun confined => confined device nonnull fields rfl
  · rw [if_neg device]
    exact iff_of_true safeNil (fun same => absurd same device)

theorem attestPeerExact (v : Env) (a : Args) :
    Safe (sysNkAttestPeer v a).accesses ↔ Confining v a .nkAttestPeer := by
  refine exactRefused (fun range _ long short valid => ?_) (fun range => exactRefused (fun invalid _ _ _ valid => ?_)
    (fun accepted => exactRefused (fun refused ready long _ _ => ?_) (fun started =>
      exactRefused (fun size _ long short _ => ?_) (fun size => ?_))))
  · have start := (uptrRange valid).1
    unfold attestTokenLen at long
    omega
  · rw [valid] at invalid
    cases invalid
  · rcases refused with off | null
    · rw [ready] at off
      cases off
    · exact absurd (.inl null) range
  · have same : low32 a.a2 = a.a2 := Nat.mod_eq_of_lt (by omega)
    rw [same] at size
    exact absurd size (Nat.not_lt_of_le long)
  have valid : uptrValid a.a1 a.a2 = true := by simpa using accepted
  have ready : v.ccReady = true := by simpa using (not_or.mp started).1
  have room : attestTokenLen ≤ a.a2 := Nat.le_trans (Nat.le_of_not_lt size) (low32Le _)
  obtain ⟨low,high⟩ := uptrRange valid
  have token : Inside ⟨a.a1,12⟩ ∧ Inside ⟨a.a1 + 12,attestPlainLen⟩ := by
    unfold attestTokenLen at room
    exact ⟨uptrStart valid (by omega),uptrInside valid (by omega)⟩
  -- the tag read as ciphertext, for as many bytes as `aad` has address
  have tail : Inside ⟨a.a1 + 12 + attestPlainLen,v.aad⟩ ↔
      a.a1 + 12 + attestPlainLen + v.aad ≤ userAddrMax := by
    unfold attestTokenLen at room
    simp only [Inside,Span.stop]
    omega
  have whole : Safe (aes256GcmDecrypt (.arg a.a1) (.arg (a.a1 + 12)) attestPlainLen
      (.arg (a.a1 + 12 + attestPlainLen)) v.aad .kern .kern v.tagMatches) ↔
      Inside ⟨a.a1 + 12 + attestPlainLen,v.aad⟩ := by
    cases v.tagMatches <;> simp [aes256GcmDecrypt,safeArg,safeKern,token,safeNil]
  exact (whole.trans tail).trans
    ⟨fun inside _ _ _ _ => inside,fun confined => confined ready room (by omega) valid⟩

theorem ipcRecvExact (v : Env) (a : Args) : Safe (sysNkIpcRecv v a).accesses ↔ Confining v a .nkIpcRecv := by
  refine exactRefused (fun invalid _ _ valid => ?_) (fun accepted => ?_)
  · rw [valid] at invalid
    cases invalid
  have valid : uptrValid a.a2 a.a3 = true := by simpa using accepted
  obtain ⟨low,high⟩ := uptrRange valid
  refine exactRefused (fun refused ready _ _ nonempty => ?_) (fun started => ?_)
  · rcases refused with off | null | empty
    · rw [ready] at off
      cases off
    · omega
    · exact absurd empty nonempty
  obtain ⟨on,filled⟩ := not_or.mp started
  have ready : v.ccReady = true := by simpa using on
  simp only [Confining]
  cases found : v.channel (low32 a.a1) with
  | none => exact iff_of_true safeNil (fun _ _ _ _ c mem => by cases mem)
  | some c =>
      refine exactRefused ?_ (fun nonempty => exactRefused ?_ (fun large => exactRefused ?_ (fun short =>
        exactRefused ?_ (fun past => ?_))))
      · rintro empty _ _ _ _ c ⟨⟩ waiting
        exact absurd empty waiting
      · rintro large _ _ _ _ c ⟨⟩ _ fits
        exact absurd large (Nat.not_lt_of_le fits)
      · rintro short _ _ _ _ c ⟨⟩ _ _ fits
        exact absurd short (Nat.not_lt_of_le fits)
      · rintro past _ _ _ _ c ⟨⟩ _ _ _ fits
        exact absurd past (Nat.not_lt_of_le fits)
      have range : Inside ⟨a.a2,c.nonce⟩ ↔ a.a2 + c.nonce ≤ userAddrMax := by
        simp only [Inside,Span.stop]
        omega
      have whole : Safe (aes256GcmDecrypt .kern .kern c.plen .kern c.nonce .kern (.arg a.a2) v.tagMatches) ↔
          (v.tagMatches = true → Inside ⟨a.a2,c.nonce⟩) := by
        cases v.tagMatches <;> simp [aes256GcmDecrypt,safeArg,safeKern,safeNil]
      rw [range] at whole
      refine whole.trans ⟨?_,fun confined matched => ?_⟩
      · rintro inside _ matched _ _ c' ⟨⟩ _ _ _ _
        exact inside matched
      · exact confined ready matched valid (fun none => filled (.inr none)) c rfl nonempty
          (Nat.le_of_not_lt large) (Nat.le_of_not_lt short) (Nat.le_of_not_lt past)

theorem handlerExact (task : Bool) (futexWord : Nat) (v : Env) {a : Args} (low : a.a1 < userAddrMax)
    (h : Handler) : Safe (handlerAccesses task futexWord v a h) ↔ Confining v a h := by
  cases h with
  | read => exact iff_of_true (readSafe v a) trivial
  | write => exact iff_of_true (writeSafe v a) trivial
  | ioctl => exact ioctlExact v a
  | nkAttestSelf => exact iff_of_true (attestSelfSafe v a) trivial
  | nkAttestPeer => exact attestPeerExact v a
  | nkSecureFree => exact iff_of_true (secureFreeSafe v low) trivial
  | nkIpcSend => exact iff_of_true (ipcSendSafe v a) trivial
  | nkIpcRecv => exact ipcRecvExact v a
  | nkNeriStatus => exact iff_of_true (neriStatusSafe v a) trivial
  | nkAnomalyScore => exact iff_of_true (anomalyScoreSafe a) trivial
  | nkCheckpoint => exact iff_of_true (checkpointSafe v task a) trivial
  | nkMemSnapshot => exact iff_of_true (memSnapshotSafe v a) trivial
  | nkFutex => exact iff_of_true (futexSafe futexWord a) trivial
  | nkGetCaps => exact iff_of_true (getCapsSafe a) trivial
  | nkSetName => exact iff_of_true (setNameSafe task a) trivial
  | nkDebugLog => exact iff_of_true (debugLogSafe a) trivial
  | _ => exact iff_of_true safeNil trivial

theorem userAccessExact (k : Kernel) (cpu : Cpu) (nr futexWord : Nat) (v : Env) (a : Args) :
    (∀ r ∈ dispatchAccesses k cpu nr futexWord v a, Inside r) ↔
      ∀ h, verdict k cpu nr = .call h → Confining v (scrubbed a) h := by
  unfold dispatchAccesses
  have low : (scrubbed a).a1 < userAddrMax := scrubLow a.a1
  cases decided : verdict k cpu nr with
  | call h =>
      have exact' := handlerExact (k.sched.current cpu).isSome futexWord v low h
      constructor
      · intro safe h' same
        cases same
        exact exact'.mp safe
      · exact fun confined => exact'.mpr (confined h rfl)
  | _ => exact iff_of_true (by simp) (fun h same => by cases same)

def quietEnv : Env where
  neriReady := true
  ccReady := false
  fdt := none
  taskFound := true
  regions := []
  channel _ := none
  aad := 0xFFFFFFFF81000000
  tagMatches := false
  attested := false
  kernelRegions := by simp
  aadFits := by decide

theorem ioctlWritesNull : ∃ k, GuardedRun.run Syscall.step boot Pledge.firstTask = some k ∧
    verdict k 0 8 = .call .ioctl ∧
    ∃ r ∈ dispatchAccesses k 0 8 0 quietEnv ⟨3,neriIocStatus,8,0,0⟩, r = ⟨8,8⟩ ∧ ¬ Inside r := by
  have ended : (GuardedRun.run Syscall.step boot Pledge.firstTask).map
      (fun k => (verdict k 0 8,decide (⟨8,8⟩ ∈ dispatchAccesses k 0 8 0 quietEnv ⟨3,neriIocStatus,8,0,0⟩))) =
      some (.call .ioctl,true) := by decide +kernel
  obtain ⟨k,ran,same⟩ := Option.map_eq_some_iff.mp ended
  obtain ⟨decided,found⟩ := Prod.mk.inj same
  exact ⟨k,ran,decided,⟨8,8⟩,of_decide_eq_true found,rfl,by decide⟩

end Nekros.UserAccess
