import Nekros.CcProc

/-! What a token of `cc_kernel_attest_process` is worth to `cc_kernel_verify_attestation`.
The verifier's arguments reach `aes256_gcm_decrypt` in the wrong places: the address of
its local `aad` becomes the length of the ciphertext, and no memory is that long. -/
namespace Nekros.Attestation
open Errno
open Bytes (Byte)
open Aes (Key)
open CcProc

def kernelHalf : Nat := 2^64 - 2^47

def addressSpace : Nat := 2^48

def Bound (sha256 : List Byte → Key) (s : State) (pid : Pid) (task : TaskRecord) (score : Byte)
    (token : Option (List Byte)) (size : BitVec 32) (tsc : BitVec 64) (aadAddress : Nat)
    (plain : List Byte) : Prop :=
  ∀ t reply, ccKernelAttestProcess sha256 s pid (some task) score token (some size) tsc = .ok (t,reply) →
    reply.rc = 0 →
    ccKernelVerifyAttestation t reply.out (BitVec.ofNat 32 attestTokenLen) pid aadAddress plain = .ok 0 ∧
    ∀ q, q ≠ pid → q ≠ 0 →
      ccKernelVerifyAttestation t reply.out (BitVec.ofNat 32 attestTokenLen) q aadAddress plain = .ok (-(eacces : Int))

def NoToken (s : State) (token : Option (List Byte)) : Prop :=
  s.ready = false ∨ token = none ∨ s.attestCtr + 1 = 0

instance (s : State) (token : Option (List Byte)) : Decidable (NoToken s token) := by
  unfold NoToken
  infer_instance

theorem writeAtLength (memory : List Byte) (start : Nat) (bytes : List Byte) :
    (writeAt memory start bytes).length ≤ memory.length + bytes.length := by
  rw [writeAt,List.length_append,List.length_append,List.length_take,List.length_drop]
  omega

theorem readAtTooLong {memory : List Byte} {start len : Nat} (long : memory.length < len) :
    readAt memory start len = none := by
  rw [readAt,if_neg (by omega)]

theorem verifyFaults {s : State} {token plain : List Byte} {q : Pid} {aadAddress : Nat}
    (started : s.ready = true) (long : token.length < aadAddress) :
    ccKernelVerifyAttestation s (some token) (BitVec.ofNat 32 attestTokenLen) q aadAddress plain = .error .fault := by
  have fault : decrypt s.attestKey (readAt token 0 12) (readAt token 12 attestPlainLen)
      (readAt token (12 + attestPlainLen) aadAddress) (lowBlock s 4) plain = .error .fault := by
    rw [readAtTooLong long]
    cases readAt token 0 12 with
    | none => rfl
    | some iv =>
        cases readAt token 12 attestPlainLen with
        | none => rfl
        | some aad => rfl
  unfold ccKernelVerifyAttestation
  rw [started]
  dsimp only
  rw [if_neg (by decide),fault]

theorem attestIssues (sha256 : List Byte → Key) (s : State) (pid : Pid) (task : TaskRecord) (score : Byte)
    (token : List Byte) {size : BitVec 32} (tsc : BitVec 64) (started : s.ready = true)
    (room : attestTokenLen ≤ size.toNat) (fresh : s.attestCtr + 1 ≠ 0) :
    ∃ t reply issued, ccKernelAttestProcess sha256 s pid (some task) score (some token) (some size) tsc =
      .ok (t,reply) ∧ reply.rc = 0 ∧ reply.out = some issued ∧ t.ready = true ∧
      issued.length ≤ token.length + 32 := by
  have drew : genNonce s .attest tsc =
      .ok ({setCounter s .attest (s.attestCtr + 1) with drawn := s.drawn ++ [⟨.attest,s.attestCtr + 1⟩]},
        nonceOf (s.attestCtr + 1) tsc) := by
    rw [genNonce]
    exact if_neg fresh
  unfold ccKernelAttestProcess
  rw [started]
  dsimp only
  rw [if_neg (Nat.not_lt.mpr room),drew]
  refine ⟨_,_,_,rfl,rfl,rfl,started,?_⟩
  have nonceLength : (nonceOf (s.attestCtr + 1) tsc).toList.length = 12 := Vector.length_toList
  have ctLength : ∀ key iv aad, (AesGcm.aes256GcmEncrypt key iv aad (Bytes.littleEndian 4 pid)).ct.length = 4 := by
    intro key iv aad
    exact AesGcm.ctrCryptLength _ iv 2 _
  have tagLength : ∀ tag : Bytes.Block, tag.toList.length = 16 := fun tag => Vector.length_toList
  refine Nat.le_trans (writeAtLength _ _ _) ?_
  rw [tagLength]
  have second := writeAtLength (writeAt token 0 (nonceOf (s.attestCtr + 1) tsc).toList) 12
  refine Nat.le_trans (Nat.add_le_add_right (second _) 16) ?_
  have first := writeAtLength token 0 (nonceOf (s.attestCtr + 1) tsc).toList
  rw [encrypt,ctLength]
  omega

theorem attestRefuses (sha256 : List Byte → Key) {s t : State} {pid : Pid} {task : TaskRecord} {score : Byte}
    {token : Option (List Byte)} {size : BitVec 32} {tsc : BitVec 64} {reply : Reply} (none : NoToken s token)
    (ok : ccKernelAttestProcess sha256 s pid (some task) score token (some size) tsc = .ok (t,reply)) :
    reply.rc ≠ 0 := by
  have code (e : Nat) (pos : 0 < e) : (-(e : Int)) ≠ 0 := by omega
  unfold ccKernelAttestProcess at ok
  split at ok
  · rename_i started _
    split at ok
    · cases ok
      exact code _ (by decide)
    · dsimp only at ok
      split at ok
      · cases ok
      · rename_i drew
        rcases none with stopped | missing | wrapped
        · rw [started] at stopped
          cases stopped
        · cases missing
        · have panics : genNonce s .attest tsc = .error .panic := if_pos wrapped
          cases panics.symm.trans drew
  · cases ok
    exact code _ (by decide)

theorem attestationExact (sha256 : List Byte → Key) (s : State) (pid : Pid) (task : TaskRecord) (score : Byte)
    (token : Option (List Byte)) (size : BitVec 32) (tsc : BitVec 64) (aadAddress : Nat) (plain : List Byte)
    (room : attestTokenLen ≤ size.toNat)
    (memory : ∀ bytes, token = some bytes → bytes.length ≤ addressSpace)
    (stack : kernelHalf ≤ aadAddress) :
    Bound sha256 s pid task score token size tsc aadAddress plain ↔ NoToken s token := by
  constructor
  · intro bound
    by_contra some
    rw [NoToken,not_or,not_or,Bool.not_eq_false] at some
    obtain ⟨started,given,fresh⟩ := some
    cases token with
    | none => exact given rfl
    | some bytes =>
        obtain ⟨t,reply,issued,ok,zero,out,ready,length⟩ :=
          attestIssues sha256 s pid task score bytes tsc started room fresh
        have verified := (bound t reply ok zero).1
        have space := memory bytes rfl
        have long : issued.length < aadAddress := by
          unfold addressSpace at space
          unfold kernelHalf at stack
          omega
        rw [out,verifyFaults ready long] at verified
        cases verified
  · intro none t reply ok zero
    exact absurd zero (attestRefuses sha256 none ok)

def sampleTask : TaskRecord := ⟨1,[],0,5,0,0,0,0,0,0,0,0⟩

theorem attestationExactSample :
    ¬ Bound plainSha plainInit 1 sampleTask 0 (some (List.replicate 124 0)) 124 0 0xFFFFFFFF80100000 [] := by
  have space : (List.replicate 124 (0 : Byte)).length ≤ addressSpace := by
    rw [List.length_replicate]
    decide
  have token : ¬ NoToken plainInit (some (List.replicate 124 0)) := by
    rintro (stopped | missing | wrapped)
    · cases stopped
    · cases missing
    · exact absurd wrapped (by decide)
  rw [attestationExact plainSha plainInit 1 sampleTask 0 (some (List.replicate 124 0)) 124 0
    0xFFFFFFFF80100000 [] (by decide) (fun bytes same => by cases same; exact space) (by decide)]
  exact token

theorem issuedTokenFaults : ∃ t reply,
    ccKernelAttestProcess plainSha plainInit 1 (some sampleTask) 0 (some (List.replicate 124 0)) (some 124) 0 =
      .ok (t,reply) ∧ reply.rc = 0 ∧
    ccKernelVerifyAttestation t reply.out (BitVec.ofNat 32 attestTokenLen) 1 0xFFFFFFFF80100000
      (List.replicate 96 0) = .error .fault := by
  obtain ⟨t,reply,issued,ok,zero,out,ready,length⟩ :=
    attestIssues plainSha plainInit 1 sampleTask 0 (List.replicate 124 0) 0 rfl
      (show attestTokenLen ≤ (124 : BitVec 32).toNat by decide) (by decide)
  rw [List.length_replicate] at length
  exact ⟨t,reply,ok,zero,by rw [out]; exact verifyFaults ready (by omega)⟩

end Nekros.Attestation
