import Mathlib.Init

/-! The error numbers of include/nekros/types.h and crypto/crypto.h, as they are defined there: a
call that fails returns the negative. -/
namespace Nekros.Errno

def eperm : Nat := 1

def enoent : Nat := 2

def esrch : Nat := 3

def ebadf : Nat := 9

def enomem : Nat := 12

def eacces : Nat := 13

def efault : Nat := 14

def ebusy : Nat := 16

def enodev : Nat := 19

def einval : Nat := 22

def enfile : Nat := 23

def emfile : Nat := 24

def enotty : Nat := 25

def efbig : Nat := 27

def erange : Nat := 34

def eagain : Nat := 35

def enosys : Nat := 38

def ebadmsg : Nat := 74

def emsgsize : Nat := 90

def enobufs : Nat := 105

def enotconn : Nat := 107

end Nekros.Errno
