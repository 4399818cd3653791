import Mathlib.Logic.Function.Basic
import Nekros.Errno
import Nekros.Words

/-! arch/x86/hal/hal.c: the runtime MSR accesses and the scale of the time stamp counter. Whether
the processor takes a value or answers with #GP is part of the state. -/
namespace Nekros.Hal
open Words Errno
open Function (update)

abbrev U32 := BitVec 32

abbrev U64 := BitVec 64

def msrPkgPowerLimit : U32 := 0x00000610

def msrFsBase : U32 := 0xC0000100

def msrGsBase : U32 := 0xC0000101

structure Msrs where
  msr : U32 → U64
  accepts : U32 → U64 → Bool

def msrWriteAllowed (msr : U32) : Bool :=
  msr = msrPkgPowerLimit || msr = msrFsBase || msr = msrGsBase

/- `-EFAULT` for an address that is not canonical and for a value the processor refuses. -/
def wrmsrSafe (h : Msrs) (msr : U32) (val : U64) : Int × Msrs :=
  if (msr = msrFsBase ∨ msr = msrGsBase) ∧ (val <<< 16).sshiftRight 16 ≠ val then (-efault,h)
  else if h.accepts msr val then (0,{h with msr := update h.msr msr val})
  else (-efault,h)

def neriHalReadMsr (h : Msrs) (msr : U32) : U64 := h.msr msr

def neriHalWriteMsr (h : Msrs) (msr : U32) (val : U64) : Msrs :=
  if msrWriteAllowed msr then (wrmsrSafe h msr val).2 else h

def nekrosTscToNs (tscKhz tscDelta : Nat) : Nat := wrap (tscDelta * 1000000) / tscKhz

end Nekros.Hal
