import Nekros.Spans
import Nekros.Syscall

/-! What the system calls read and write through the pointers they are given: the
handlers of kernel/syscall.c with what they call in fs/vfs.c and cortexcrypto's cc_proc.c.
A handler answers with the ranges it accesses and with its return value. The calls of
cc_proc.c pass their arguments to `aes256_gcm_encrypt` and `aes256_gcm_decrypt` in another
order than crypto.h declares; what happens is what the declared order makes of them. -/
namespace Nekros.UserMemory
open Words Sched Syscall Errno
open Spans (Span)

inductive Pointer where
  | arg (a : Nat)
  | kern
  deriving DecidableEq, Repr

structure Access where
  base : Pointer
  len : Nat
  deriving DecidableEq, Repr

def deref (x : Access) : Option Span :=
  match x.base with
  | .arg a => some ⟨a,x.len⟩
  | .kern => none

structure Reply where
  accesses : List Access
  value : Int
  deriving DecidableEq, Repr

def fails (e : Nat) : Reply := ⟨[],-e⟩

inductive File where
  | ramfs (data : Bool) (offset dataLen dataCap : Nat) (kmallocOk : Bool)
  | neri (textLen : Nat)
  | null
  | zero
  | tty
  | proc (offset textLen : Nat)
  deriving DecidableEq, Repr

structure Channel where
  sendTail : Nat
  head : Nat
  tail : Nat
  plen : Nat
  nonce : Nat
  nonceFits : nonce + 16 ≤ 2^64

/- The kernel state the handlers look at. `aad` is the address of a local array of four
bytes, below the frames of its callers. Encrypted regions come from `vmm_alloc`, so that
none of them is at a user address. -/
structure Env where
  neriReady : Bool
  ccReady : Bool
  fdt : Option (Nat → Option File)
  taskFound : Bool
  regions : List Nat
  channel : Nat → Option Channel
  aad : Nat
  tagMatches : Bool
  attested : Bool
  kernelRegions : ∀ v ∈ regions, userAddrMax ≤ v
  aadFits : aad + 16 ≤ 2^64

def ramfsRead (data : Bool) (offset dataLen buf len : Nat) : Reply :=
  if !data then ⟨[],0⟩
  else if dataLen ≤ offset then ⟨[],0⟩
  else ⟨[⟨.arg buf,min len (dataLen - offset)⟩],(min len (dataLen - offset) : Nat)⟩

def ramfsWrite (offset dataCap : Nat) (kmallocOk : Bool) (buf len : Nat) : Reply :=
  if dataCap < wrap (offset + len) then
    if 0x10000000 < len ∨ 0x10000000 < offset ∨ wrap (offset + len) < offset then fails efbig
    else if !kmallocOk then fails enomem
    else ⟨[⟨.arg buf,len⟩],len⟩
  else ⟨[⟨.arg buf,len⟩],len⟩

def fileRead (buf len : Nat) : File → Reply
  | .ramfs data offset dataLen _ _ => ramfsRead data offset dataLen buf len
  | .neri textLen => ⟨[⟨.arg buf,min len textLen⟩],(min len textLen : Nat)⟩
  | .null => ⟨[],0⟩
  | .zero => ⟨[⟨.arg buf,len⟩],len⟩
  | .tty => fails einval
  | .proc offset textLen =>
      if 0 < offset then ⟨[],0⟩ else ⟨[⟨.arg buf,min len textLen⟩],(min len textLen : Nat)⟩

def fileWrite (buf len : Nat) : File → Reply
  | .ramfs _ offset _ dataCap kmallocOk => ramfsWrite offset dataCap kmallocOk buf len
  | .neri _ => fails einval
  | .null => ⟨[],len⟩
  | .zero => ⟨[],len⟩
  | .tty => ⟨[⟨.arg buf,len⟩],len⟩
  | .proc _ _ => fails einval

def fdTableSize : Nat := 32

def openFile (fds : Nat → Option File) (fd : Nat) (op : File → Reply) : Reply :=
  if fdTableSize ≤ fd then fails ebadf else (fds fd).elim (fails ebadf) op

def vfsRead (v : Env) (fd buf len : Nat) : Reply :=
  if buf = 0 ∨ len = 0 then fails einval
  else if 0x40000000 < len then fails einval
  else
    match v.fdt with
    | none => fails ebadf
    | some fds => openFile fds fd (fileRead buf len)

def vfsWrite (v : Env) (fd buf len : Nat) : Reply :=
  if buf = 0 ∧ len ≠ 0 then fails einval
  else if 0x40000000 < len then fails einval
  else
    match v.fdt with
    | none => if fd ≠ 1 ∧ fd ≠ 2 then fails ebadf else ⟨[⟨.arg buf,len⟩],len⟩
    | some fds => openFile fds fd (fileWrite buf len)

def sysRead (v : Env) (a : Args) : Reply :=
  if !uptrValid a.a2 a.a3 then fails efault else vfsRead v (low32 a.a1) a.a2 a.a3

def sysWrite (v : Env) (a : Args) : Reply :=
  if !uptrValid a.a2 a.a3 then fails efault else vfsWrite v (low32 a.a1) a.a2 a.a3

def fieldsAt (p : Nat) (fields : List (Nat × Nat)) : List Access :=
  fields.map (fun f => ⟨.arg (p + f.1),f.2⟩)

def statusFields : List (Nat × Nat) := [(0,8),(8,8),(16,8),(24,8),(32,8),(40,8),(48,8)]

def sizeofStatus : Nat := 56

def anomalyFields : List (Nat × Nat) := [(0,1),(4,4),(8,1),(16,8)]

def sizeofAnomaly : Nat := 24

def capsFields : List (Nat × Nat) := [(0,4),(4,2),(6,2),(8,2)]

def sizeofCaps : Nat := 12

def neriIocStatus : Nat := 0x4E01

def neriIocAnomaly : Nat := 0x4E02

def neriIocCaps : Nat := 0x4E03

def ioctlFields (cmd : Nat) : Option (List (Nat × Nat)) :=
  if cmd = neriIocStatus then some statusFields
  else if cmd = neriIocAnomaly then some anomalyFields
  else if cmd = neriIocCaps then some capsFields
  else none

def neriDevIoctl (cmd arg : Nat) : Reply :=
  match ioctlFields cmd with
  | none => fails enotty
  | some fields => if arg = 0 then fails einval else ⟨fieldsAt arg fields,0⟩

def sysIoctl (a : Args) : Reply :=
  if low32 a.a1 = 3 then neriDevIoctl (low32 a.a2) a.a3 else fails enotty

/- aes_gcm.c, in the order of its parameters: what is read and written through them. The
block count `(clen + 15) / 16` does not wrap for the lengths here. -/
def aes256GcmEncrypt (iv aad : Pointer) (alen : Nat) (pt : Pointer) (plen : Nat) (ct tag : Pointer) :
    List Access :=
  [⟨iv,12⟩,⟨pt,plen⟩,⟨ct,plen⟩,⟨aad,alen⟩,⟨tag,16⟩]

def aes256GcmDecrypt (iv aad : Pointer) (alen : Nat) (ct : Pointer) (clen : Nat) (tag pt : Pointer)
    (tagMatches : Bool) : List Access :=
  [⟨iv,12⟩,⟨aad,alen⟩,⟨ct,clen⟩,⟨tag,16⟩] ++ if tagMatches then [⟨ct,clen⟩,⟨pt,clen⟩] else []

def attestPlainLen : Nat := 96

def attestTokenLen : Nat := attestPlainLen + 16 + 12

/- The plaintext is passed where the associated data go, and the four bytes of the pid
are what is encrypted. -/
def ccKernelAttestProcess (v : Env) (token size : Nat) : Reply :=
  if !v.ccReady ∨ token = 0 then fails einval
  else if size < attestTokenLen then fails einval
  else if !v.taskFound then fails esrch
  else ⟨⟨.arg token,12⟩::aes256GcmEncrypt (.arg token) .kern attestPlainLen .kern 4
    (.arg (token + 12)) (.arg (token + 12 + attestPlainLen)),0⟩

def sysNkAttestSelf (v : Env) (a : Args) : Reply :=
  if !uptrValid a.a1 a.a2 ∨ a.a2 < 96 then fails efault else ccKernelAttestProcess v a.a1 (low32 a.a2)

/- The tag is passed as the ciphertext, and the address of the local `aad` as its length. -/
def ccKernelVerifyAttestation (v : Env) (token size : Nat) : Reply :=
  if !v.ccReady ∨ token = 0 then fails einval
  else if size < attestTokenLen then fails einval
  else ⟨aes256GcmDecrypt (.arg token) (.arg (token + 12)) attestPlainLen (.arg (token + 12 + attestPlainLen))
    v.aad .kern .kern v.tagMatches,if v.tagMatches ∧ v.attested then 0 else -eacces⟩

def sysNkAttestPeer (v : Env) (a : Args) : Reply :=
  if a.a1 = 0 ∨ a.a2 = 0 ∨ 4096 < a.a2 then fails einval
  else if !uptrValid a.a1 a.a2 then fails efault
  else ccKernelVerifyAttestation v a.a1 (low32 a.a2)

def sysNkSecureFree (v : Env) (a : Args) : Reply :=
  if a.a1 ≠ 0 ∧ a.a1 ∈ v.regions then ⟨[⟨.arg a.a1,wrap (a.a2 * pageSize)⟩],0⟩ else ⟨[],0⟩

def ipcRingBytes : Nat := 4 * pageSize

def ccIpcSend (v : Env) (fd buf len : Nat) : Reply :=
  if !v.ccReady ∨ buf = 0 ∨ len = 0 then fails einval
  else if ipcRingBytes / 2 < len then fails emsgsize
  else
    match v.channel fd with
    | none => fails ebadf
    | some c =>
        if ipcRingBytes < c.sendTail + (12 + 4 + len + 16) then fails enobufs
        else ⟨aes256GcmEncrypt .kern (.arg buf) len .kern 12 .kern .kern,len⟩

def sysNkIpcSend (v : Env) (a : Args) : Reply :=
  if !uptrValid a.a2 a.a3 then fails efault
  else if a.a3 = 0 ∨ 65536 < a.a3 then fails einval
  else ccIpcSend v (low32 a.a1) a.a2 a.a3

/- As above: the address of the nonce is what `buf` is filled up to. -/
def ccIpcRecv (v : Env) (fd buf len : Nat) : Reply :=
  if !v.ccReady ∨ buf = 0 ∨ len = 0 then fails einval
  else
    match v.channel fd with
    | none => fails ebadf
    | some c =>
        if c.head = c.tail then fails eagain
        else if ipcRingBytes / 2 < c.plen then fails emsgsize
        else if low32 len < c.plen then fails emsgsize
        else if ipcRingBytes < c.head + 12 + 4 + c.plen + 16 then fails ebadmsg
        else ⟨aes256GcmDecrypt .kern .kern c.plen .kern c.nonce .kern (.arg buf) v.tagMatches,
          if v.tagMatches then c.plen else -eacces⟩

def sysNkIpcRecv (v : Env) (a : Args) : Reply :=
  if !uptrValid a.a2 a.a3 then fails efault else ccIpcRecv v (low32 a.a1) a.a2 a.a3

def sysNkNeriStatus (v : Env) (a : Args) : Reply :=
  if !uptrValid a.a1 sizeofStatus then fails efault
  else ⟨if v.neriReady then fieldsAt a.a1 statusFields else [],0⟩

def sysNkAnomalyScore (a : Args) : Reply :=
  if !uptrValid a.a1 sizeofAnomaly then fails efault else ⟨fieldsAt a.a1 anomalyFields,0⟩

def checkpointLen : Nat := 12 + 256 + 16

def ccKernelCheckpoint (v : Env) (out size : Nat) : Reply :=
  if !v.ccReady ∨ out = 0 then fails einval
  else if size < checkpointLen then fails einval
  else ⟨⟨.arg out,12⟩::aes256GcmEncrypt .kern .kern 256 .kern 4 (.arg (out + 12)) (.arg (out + 12 + 256)),0⟩

def sysNkCheckpoint (v : Env) (task : Bool) (a : Args) : Reply :=
  if !task ∨ a.a1 = 0 ∨ a.a2 = 0 then fails einval
  else if !uptrValid a.a1 a.a2 then fails efault
  else ccKernelCheckpoint v a.a1 (low32 a.a2)

def ccKernelSealMemory (v : Env) (va pages out size : Nat) : Reply :=
  if !v.ccReady ∨ out = 0 then fails einval
  else if size < low32 (12 + pages * pageSize + 16) then fails einval
  else ⟨⟨.arg out,12⟩::aes256GcmEncrypt (.arg out) (.arg va) (low32 (pages * pageSize)) .kern 8
    (.arg (out + 12)) (.arg (out + 12 + pages * pageSize)),0⟩

def sysNkMemSnapshot (v : Env) (a : Args) : Reply :=
  if a.a1 = 0 ∨ a.a2 = 0 ∨ a.a3 = 0 ∨ 4096 < a.a2 then fails einval
  else if !uptrValid a.a1 (a.a2 * 4096) then fails efault
  else if !uptrValid a.a3 (a.a2 * 4096 + 128) then fails efault
  else ccKernelSealMemory v a.a1 a.a2 a.a3 (low32 (a.a2 * 4096 + 128))

/- The word is read for a wait and written for a wake; a wait whose word matches goes on
to `schedule`. -/
def sysNkFutex (futexWord : Nat) (a : Args) : Reply :=
  if !uptrValid a.a1 4 then fails efault
  else if a.a2 = 0 then
    if futexWord ≠ low32 a.a3 then ⟨[⟨.arg a.a1,4⟩],-eagain⟩ else ⟨[⟨.arg a.a1,4⟩],0⟩
  else if a.a2 = 1 then ⟨[⟨.arg a.a1,4⟩],0⟩
  else ⟨[],0⟩

def sysNkGetCaps (a : Args) : Reply :=
  if a.a1 = 0 then fails einval
  else if !uptrValid a.a1 sizeofCaps then fails efault
  else ⟨fieldsAt a.a1 capsFields,0⟩

def copyFromUser (uptr len : Nat) : Reply :=
  if !uptrValid uptr len then fails efault else ⟨[⟨.arg uptr,len⟩],0⟩

def sysNkSetName (task : Bool) (a : Args) : Reply :=
  if !task ∨ !uptrValid a.a1 32 then fails efault else copyFromUser a.a1 31

def sysNkDebugLog (a : Args) : Reply :=
  if a.a1 = 0 ∨ a.a2 = 0 ∨ 256 < a.a2 then fails einval
  else if !uptrValid a.a1 a.a2 then fails efault
  else ⟨[⟨.arg a.a1,min a.a2 256⟩],0⟩

def handlerAccesses (task : Bool) (futexWord : Nat) (v : Env) (a : Args) : Handler → List Access
  | .read => (sysRead v a).accesses
  | .write => (sysWrite v a).accesses
  | .ioctl => (sysIoctl a).accesses
  | .nkAttestSelf => (sysNkAttestSelf v a).accesses
  | .nkAttestPeer => (sysNkAttestPeer v a).accesses
  | .nkSecureFree => (sysNkSecureFree v a).accesses
  | .nkIpcSend => (sysNkIpcSend v a).accesses
  | .nkIpcRecv => (sysNkIpcRecv v a).accesses
  | .nkNeriStatus => (sysNkNeriStatus v a).accesses
  | .nkAnomalyScore => (sysNkAnomalyScore a).accesses
  | .nkCheckpoint => (sysNkCheckpoint v task a).accesses
  | .nkMemSnapshot => (sysNkMemSnapshot v a).accesses
  | .nkFutex => (sysNkFutex futexWord a).accesses
  | .nkGetCaps => (sysNkGetCaps a).accesses
  | .nkSetName => (sysNkSetName task a).accesses
  | .nkDebugLog => (sysNkDebugLog a).accesses
  | _ => []

def dispatchAccesses (k : Kernel) (cpu : Cpu) (nr futexWord : Nat) (v : Env) (a : Args) : List Span :=
  match verdict k cpu nr with
  | .call h => (handlerAccesses (k.sched.current cpu).isSome futexWord v (scrubbed a) h).filterMap deref
  | _ => []

end Nekros.UserMemory
