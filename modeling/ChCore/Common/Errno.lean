/-
  File: ChCore/Common/Errno.lean
  Subject: The error numbers (kernel/include/common/errno.h; user programs have the same ones).
-/
import Mathlib

namespace ChCore

def EPERM : Int := 1

def ENOENT : Int := 2

def EBADF : Int := 9

def EAGAIN : Int := 11

def ENOMEM : Int := 12

def EACCES : Int := 13

def EINVAL : Int := 22

def ENFILE : Int := 23

def ENOSPC : Int := 28

def ENOTSUP : Int := 95

def ECAPBILITY : Int := 200

def ENOMAPPING : Int := 203

end ChCore
