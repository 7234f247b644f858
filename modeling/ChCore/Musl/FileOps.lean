/-
  File: ChCore/Musl/FileOps.lean
  Subject: The lock of an ipc_struct over the file operations (musl, chcore-port/ipc.c, file.c).

  `ipc_create_msg` takes the lock of the `ipc_struct`, `ipc_destroy_msg` finds it again through the
  header of the message and gives it back. The model has every operation of file.c that sends a
  request, with the fields of the request it fills and the paths on which it leaves early.

  * **`ipc_lock_iff`** -- over a run of message operations the lock is held exactly by a message
    that was given, and free after every forward and file operation, exactly if no request is too
    long for its connection and `chcore_fallocate` is called on open descriptors only.
-/
import ChCore.Common.Errno
import ChCore.Musl.IpcMsg

namespace ChCore.Musl

open Lib Lib.Code Function BitVec

/-! ## 1. Calls -/

/-- `(int)x`. -/
def toInt32 (x : Int) : Int := x.bmod (2 ^ 32)

/-- The first reply that is not `-EAGAIN`, and those after it. -/
def awaitReply : List Reply → Option (Reply × List Reply)
  | [] => none
  | r :: rest => if r.ret = -EAGAIN then awaitReply rest else some (r, rest)

/-- What a server does to the message: it writes the data; `ipc_set_ret_msg_cap` writes slot 0
where there is one, `ipc_return` clears `cap_slot_number_ret`. -/
def Answer.apply (a : Answer) (m : Mem) (p : Addr) : Mem :=
  let m := m.write (ipcGetMsgData m p) a.data (getField m p .dataLen).toNat
  match a.retCap with
  | none => setField m p .capSlotNumberRet 0
  | some c =>
    if getField m p .capSlotNumber < 1#64 then m
    else (setField m p .capSlotNumberRet 1).store64 (ipcGetMsgCapPtr m p 0) c

/-- `usys_ipc_call`, again while the kernel says `-EAGAIN`. -/
def usysIpcCall (p : Addr) : Code Client Int := do
  let s ← read
  match awaitReply s.replies with
  | none => stop
  | some (r, rest) =>
    let mem := match r.answer with
      | none => s.mem
      | some a => a.apply s.mem p
    write { s with replies := rest, mem := mem }
    pure r.ret

def ipcCall (icb p : Addr) : Code Client Int := do
  let r ← connectOnDemand icb
  if r ≠ 0 then pure r else usysIpcCall p

def ipcDestroyMsg (p : Addr) : Code Client Unit := do
  let s ← read
  spinUnlock (.ipc (getField s.mem p .icb))

variable {α : Type} (fs : Addr) (fd : Int) (icb : Addr)

/-- `simple_ipc_forward`; a message that was not given is a NULL pointer to what follows. -/
def simpleIpcForward (data : Nat → BitVec 8) (len : BitVec 32) : Code Client Int := do
  let msg ← ipcCreateMsg icb (len.signExtend 64) 0
  let p ← orStop msg
  let _ ← ipcSetMsgData p data 0 (len.signExtend 64)
  let ret ← ipcCall icb p
  ipcDestroyMsg p
  pure (toInt32 ret)

/-! ## 2. Requests to the file system -/

/-- `sizeof(struct fs_request)`. -/
def FS_REQUEST_SIZE : Nat := 632

def IPC_SHM_AVAILABLE : Nat := 4048

def FS_BUF_SIZE : Nat := IPC_SHM_AVAILABLE - FS_REQUEST_SIZE

def FS_REQ_PATH_LEN : Nat := 255

def AT_FDCWD : Int := -100

/-- The requests of `enum FS_REQ` that file.c sends. -/
inductive FsReq where
  | close | mkdirat | symlinkat | unlinkat | renameat | readlinkat | readFd | write | openat | statx
  | lseek | chdir | fchdir | getcwd | getdents64 | ftruncate | fallocate | faccessat | fcntl

def FsReq.code : FsReq → Int
  | .close => 1
  | .mkdirat => 3
  | .symlinkat => 6
  | .unlinkat => 8
  | .renameat => 9
  | .readlinkat => 10
  | .readFd => 13
  | .write => 14
  | .openat => 16
  | .statx => 17
  | .lseek => 22
  | .chdir => 23
  | .fchdir => 24
  | .getcwd => 25
  | .getdents64 => 26
  | .ftruncate => 27
  | .fallocate => 28
  | .faccessat => 30
  | .fcntl => 31

/-- The fields of `struct fs_request` of type `int`. -/
inductive IntField where
  | req | flags | dirfd | dirfd2 | fd | whence | mask | mode | fcntlCmd | fcntlArg | fid | cap

def IntField.offset : IntField → Nat
  | .req => 0
  | .flags => 16
  | .dirfd => 20
  | .dirfd2 => 24
  | .fd => 28
  | .whence => 32
  | .mask => 36
  | .mode => 40
  | .fcntlCmd => 80
  | .fcntlArg => 84
  | .fid => 100
  | .cap => 104

/-- Those of 8 bytes. -/
inductive LongField where
  | buff | offset | count | bufsiz | len

def LongField.place : LongField → Nat
  | .buff => 8
  | .offset => 48
  | .count => 56
  | .bufsiz => 64
  | .len => 72

inductive PathField where
  | path | path2

def PathField.offset : PathField → Nat
  | .path => 116
  | .path2 => 372

/-- **A write to a request**, inside of it. -/
structure Put where
  offset : Nat
  size : Nat
  bytes : Nat → BitVec 8
  inside : offset + size ≤ FS_REQUEST_SIZE

def Put.int (f : IntField) (v : Int) : Put where
  offset := f.offset
  size := 4
  bytes := wordBytes (BitVec.ofInt 64 v)
  inside := by cases f <;> decide

def Put.req (r : FsReq) : Put := .int .req r.code

def Put.long (f : LongField) (v : Int) : Put where
  offset := f.place
  size := 8
  bytes := wordBytes (BitVec.ofInt 64 v)
  inside := by cases f <;> decide

/-- `strncpy(dst, src, n)`; `src` are the bytes before the zero. -/
def Put.strncpy (f : PathField) (src : List (BitVec 8)) (n : Fin (FS_REQ_PATH_LEN + 2)) : Put where
  offset := f.offset
  size := n
  bytes i := src.getD i 0
  inside := by
    have hn := n.isLt
    cases f <;> simp only [PathField.offset, FS_REQUEST_SIZE, FS_REQ_PATH_LEN] at hn ⊢ <;> omega

def Put.strncpySafe (f : PathField) (src : List (BitVec 8)) (n : Fin (FS_REQ_PATH_LEN + 2)) : Put :=
  { Put.strncpy f src n with bytes := fun i => if i = n - 1 then 0 else src.getD i 0 }

/-- `fr_ptr->path[FS_REQ_PATH_LEN] = '\0'`. -/
def Put.pathEnd : Put where
  offset := PathField.path.offset + FS_REQ_PATH_LEN
  size := 1
  bytes _ := 0
  inside := by decide

def put (fr : Addr) (w : Put) : Code Client Unit := do
  let s ← read
  write { s with mem := s.mem.write (fr + BitVec.ofNat 64 w.offset) w.bytes w.size }

def fillRequest (fr : Addr) : List Put → Code Client Unit
  | [] => pure ()
  | w :: ws => do
    put fr w
    fillRequest fr ws

/-- A message for a request, and where its data is; without one the next access faults. -/
def openMsg (dataLen caps : BitVec 64) : Code Client (Addr × Addr) := do
  let msg ← ipcCreateMsg icb dataLen caps
  let p ← orStop msg
  let s ← read
  pure (p, ipcGetMsgData s.mem p)

/-- **The shape of most operations**: a message, the fields, the call, what is done with the
result, the end of the message. -/
def request (caps : BitVec 64) (ws : List Put) (after : Addr → Int → Code Client Int) :
    Code Client Int := do
  let (p, fr) ← openMsg icb (BitVec.ofNat 64 FS_REQUEST_SIZE) caps
  fillRequest fr ws
  let ret ← ipcCall icb p
  let ret ← after p ret
  ipcDestroyMsg p
  pure ret

/-- The shape of the operations with a loop: a message of a page, the calls, the end of it. -/
def pageRequest (loop : Addr → Addr → Code Client α) (result : α → Int) : Code Client Int := do
  let (p, fr) ← openMsg icb (BitVec.ofNat 64 IPC_SHM_AVAILABLE) 0
  let a ← loop p fr
  ipcDestroyMsg p
  pure (result a)

/-- An operation that only reports what the server says. -/
def simpleRequest (ws : List Put) : Code Client Int :=
  request icb 0 ws fun _ ret => pure (toInt32 ret)

/-- `memcpy(buf, ipc_get_msg_data(ipc_msg), n)`. -/
def copyOut (buf p : Addr) (n : Int) : Code Client Unit := do
  bugOn (COPY_LIMIT ≤ (BitVec.ofInt 64 n).toNat)
  let s ← read
  let src := ipcGetMsgData s.mem p
  write { s with user := s.user.write buf (fun i => s.mem (src + BitVec.ofNat 64 i)) n.toNat }

/-- `strncpy_safe(buf, ipc_get_msg_data(ipc_msg), size)`: zeroes after the first one, and one at the
end, which for size 0 is the byte before `buf`. -/
def strncpyOut (buf p : Addr) (size : BitVec 64) : Code Client Unit := do
  bugOn (COPY_LIMIT ≤ size.toNat)
  let s ← read
  let src := fun i => s.mem (ipcGetMsgData s.mem p + BitVec.ofNat 64 i)
  let copy := fun i => if (List.range (i + 1)).any fun j => src j = 0 then 0 else src i
  let user := s.user.write buf copy size.toNat
  write { s with user := user.write (buf + size - 1) (fun _ => 0) 1 }

/-! ## 3. Descriptors -/

def MAX_FD : Nat := 40960

/-- `fd_dic[fd]`; past the table there is nothing to read. -/
def fdAt : Code Client (Option FdDesc) := do
  bugOn (fd < 0 ∨ (MAX_FD : Int) ≤ fd)
  let s ← read
  pure (s.fdDic fd.toNat)

/-- `fd_dic[fd]` where it is followed without a check. -/
def fdOrStop : Code Client FdDesc := do
  let d ← fdAt fd
  orStop d

def setFd (d : Option FdDesc) : Code Client Unit := do
  bugOn (fd < 0 ∨ (MAX_FD : Int) ≤ fd)
  let s ← read
  write { s with fdDic := update s.fdDic fd.toNat d }

/-- The check `fd_dic[fd] == 0` at the beginning of an operation. -/
def withFd (k : FdDesc → Code Client Int) : Code Client Int := do
  match ← fdAt fd with
  | none => pure (-EBADF)
  | some d => k d

/-- The first free place from `fd` on. -/
def firstFree (dic : Nat → Option FdDesc) : Nat → Nat → Option Nat
  | 0, _ => none
  | n + 1, fd => if (dic fd).isNone then some fd else firstFree dic n (fd + 1)

def allocFdSince (min : Int) : Code Client Int := do
  let s ← read
  match firstFree s.fdDic (MAX_FD - min.toNat) min.toNat with
  -- a number past the table is returned as it is
  | none => pure (if (MAX_FD : Int) < min then min else -ENFILE)
  | some fd =>
    write { s with fdDic := update s.fdDic fd (some ⟨0, 0, .file, none⟩) }
    pure fd

/-- `cap2struct`; a registration that fails ends the process. -/
def cap2struct (fsmCap : Int) : Code Client Addr := do
  let s ← read
  match s.capStructs.lookup fsmCap with
  | some icb => pure icb
  | none => do
    let r ← ipcRegisterClient
    let r ← orStop r
    ipcStructCopy r.addr r
    let s ← read
    write { s with capStructs := (fsmCap, r.addr) :: s.capStructs }
    pure r.addr

/-- An `int` of the request in a message. -/
def requestInt (m : Mem) (p : Addr) (f : IntField) : Int :=
  ((m.load64 (ipcGetMsgData m p + BitVec.ofNat 64 f.offset)).setWidth 32).toInt

/-! ## 4. The operations -/

section Operations

variable (fs : Addr)

def chcoreChdir (path : List (BitVec 8)) : Code Client Int :=
  simpleRequest fs [.req .chdir, .int .dirfd AT_FDCWD, .strncpySafe .path path 256]

variable (dirfd : Int) (fd : Int)

def chcoreFchdir : Code Client Int :=
  withFd fd fun d => simpleRequest fs [.req .fchdir, .int .fd d.fd]

variable (pathname : List (BitVec 8)) (buf : Addr)

/-- `chcore_getcwd`: on success the path is copied to `buf`. -/
def chcoreGetcwd (size : BitVec 64) : Code Client Int :=
  request fs 0 [.req .getcwd] fun p ret => do
    if ret = 0 then
      strncpyOut buf p size
      pure (toInt32 buf.toInt)
    else pure (toInt32 ret)

def chcoreFtruncate (fd length : Int) : Code Client Int :=
  withFd fd fun d => simpleRequest fs [.req .ftruncate, .int .fd d.fd, .long .len length]

def chcoreLseek (fd offset whence : Int) : Code Client Int :=
  withFd fd fun d =>
    simpleRequest fs [.req .lseek, .int .fd d.fd, .long .offset offset, .int .whence whence]

def chcoreMkdirat (mode : Int) : Code Client Int :=
  simpleRequest fs
    [.req .mkdirat, .int .dirfd dirfd, .strncpySafe .path pathname 255, .int .mode mode]

def chcoreUnlinkat (flags : Int) : Code Client Int :=
  simpleRequest fs
    [.req .unlinkat, .int .dirfd dirfd, .strncpySafe .path pathname 255, .int .flags flags]

def chcoreSymlinkat (target : List (BitVec 8)) (newdirfd : Int) (linkpath : List (BitVec 8)) :
    Code Client Int :=
  simpleRequest fs [.req .symlinkat, .strncpySafe .path target 255, .pathEnd,
    .int .dirfd newdirfd, .strncpySafe .path2 linkpath 255]

/-- The loop of `chcore_getdents64`: the result of a call that failed, or what remains. -/
def getdentsLoop (p fr : Addr) (fd : Int) (buf : Addr) (remain : Int) :
    Code Client (Except Int Int) :=
  if 0 < remain then do
    let d ← fdOrStop fd
    let cnt := min remain IPC_SHM_AVAILABLE
    fillRequest fr [.req .getdents64, .int .fd d.fd, .long .count cnt]
    let r ← ipcCall fs p
    let ret := toInt32 r
    if ret < 0 then pure (.error ret)
    else
      copyOut buf p ret
      if ret ≠ cnt then pure (.ok (remain - ret))
      else getdentsLoop p fr fd (buf + BitVec.ofInt 64 ret) (remain - cnt)
  else pure (.ok remain)
termination_by remain.toNat
decreasing_by
  simp only [IPC_SHM_AVAILABLE]
  omega

def chcoreGetdents64 (count : Int) : Code Client Int :=
  withFd fd fun _ => pageRequest fs (fun p fr => getdentsLoop fs p fr fd buf count) fun
    | .error ret => ret
    | .ok remain => toInt32 (count - remain)

/-- The case `F_DUPFD` of `chcore_fcntl`. -/
def fcntlDupfd (d : FdDesc) (arg : Int) : Code Client Int := do
  let newFd ← allocFdSince arg
  let n ← fdOrStop newFd
  setFd newFd (some { n with fd := d.fd, type := d.type })
  pure newFd

/-- The case `F_SETFD`; `FD_CLOEXEC` is 1. -/
def fcntlSetfd (d : FdDesc) (arg : Int) : Code Client Int := do
  setFd fd (some { d with flags := (BitVec.ofInt 32 arg &&& 1) ||| (d.flags &&& ~~~1) })
  pure 0

def chcoreFcntl (fd cmd arg : Int) : Code Client Int :=
  if fd = 0 ∨ fd = 1 ∨ fd = 2 then pure 0
  else withFd fd fun d =>
    match cmd with
    -- F_DUPFD
    | 0 => fcntlDupfd d arg
    -- F_DUPFD_CLOEXEC: the second call of `chcore_fcntl` is F_SETFD with FD_CLOEXEC
    | 1030 => do
      let ret ← fcntlDupfd d arg
      if ret < 0 then pure ret
      else if ret = 0 ∨ ret = 1 ∨ ret = 2 then pure 0
      else withFd ret fun n => fcntlSetfd ret n 1
    -- F_GETFD
    | 1 => pure d.flags.toInt
    -- F_SETFD
    | 2 => fcntlSetfd fd d arg
    -- F_GETFL, F_SETFL
    | 3 | 4 =>
      if d.type = .file then
        simpleRequest fs
          [.req .fcntl, .int .fcntlCmd cmd, .int .fd d.fd, .int .fcntlArg arg]
      else pure (-1)
    -- F_GETOWN, F_SETOWN, F_GETLK, F_SETLK, F_SETLKW
    | 9 | 8 | 5 | 6 | 7 => pure (-1)
    | _ => pure (-22)

/-- `chcore_readlinkat`: `ret > bufsiz` is a comparison of unsigned numbers. -/
def chcoreReadlinkat (bufsiz : BitVec 64) : Code Client Int :=
  request fs 0 [.req .readlinkat, .int .dirfd dirfd, .strncpySafe .path pathname 255,
      .long .bufsiz bufsiz.toInt] fun p r => do
    let ret := toInt32 r
    let ret := if BitVec.ofInt 64 ret > bufsiz then toInt32 bufsiz.toInt else ret
    copyOut buf p ret
    pure ret

def chcoreRenameat (olddirfd : Int) (oldpath : List (BitVec 8)) (newdirfd : Int)
    (newpath : List (BitVec 8)) : Code Client Int :=
  simpleRequest fs [.req .renameat, .int .dirfd olddirfd, .strncpy .path oldpath 255, .pathEnd,
    .int .dirfd2 newdirfd, .strncpy .path2 newpath 255, .pathEnd]

def chcoreFaccessat (mode flags : Int) : Code Client Int :=
  simpleRequest fs [.req .faccessat, .int .dirfd dirfd, .strncpySafe .path pathname 255,
    .int .mode mode, .int .flags flags]

/-- `chcore_fallocate`: the descriptor is checked when the message is there. -/
def chcoreFallocate (fd mode offset len : Int) : Code Client Int := do
  let (p, fr) ← openMsg fs (BitVec.ofNat 64 FS_REQUEST_SIZE) 0
  match ← fdAt fd with
  | none => pure (-EBADF)
  | some d => do
    fillRequest fr [.req .fallocate, .int .fd d.fd, .int .mode mode, .long .offset offset,
      .long .len len]
    let ret ← ipcCall fs p
    ipcDestroyMsg p
    pure (toInt32 ret)

def chcoreStatx (flags mask : Int) (buf : Addr) : Code Client Int :=
  simpleRequest fs [.req .statx, .int .dirfd dirfd, .strncpySafe .path pathname 255,
    .int .flags flags, .int .mask mask, .long .buff buf.toInt]

/-- `chcore_openat`: on success a descriptor, with the `ipc_struct` of its file system. -/
def chcoreOpenat (flags mode : Int) : Code Client Int :=
  request fs 1 [.req .openat, .int .dirfd dirfd, .strncpySafe .path pathname 255,
      .int .flags flags, .int .mode mode] fun p r => do
    let ret := toInt32 r
    if 0 ≤ ret then
      let fd ← allocFdSince 0
      let n ← fdOrStop fd
      let s ← read
      let icb ← cap2struct (requestInt s.mem p .cap)
      setFd fd (some { n with
        fd := ret, type := .file, privateData := some ⟨icb, requestInt s.mem p .fid⟩ })
      pure fd
    else pure ret

/-- The loop of `chcore_file_read`, with what remains. -/
def readLoop (icb p fr : Addr) (fid : Int) (buf : Addr) (remain : Int) : Code Client Int :=
  if 0 < remain then do
    let cnt := min remain IPC_SHM_AVAILABLE
    fillRequest fr [.req .readFd, .int .fd fid, .long .count cnt]
    let r ← ipcCall icb p
    let ret := toInt32 r
    copyOut buf p ret
    if ret ≠ cnt then pure (remain - ret)
    else readLoop icb p fr fid (buf + BitVec.ofInt 64 ret) (remain - cnt)
  else pure remain
termination_by remain.toNat
decreasing_by
  simp only [IPC_SHM_AVAILABLE]
  omega

def chcoreFileRead (count : BitVec 64) : Code Client Int :=
  withFd fd fun d => do
    let fp ← orStop d.privateData
    pageRequest fp.fsIpcStruct
      (fun p fr => readLoop fp.fsIpcStruct p fr fp.fid buf (toInt32 count.toInt))
      fun remain => toInt32 (count.toInt - remain)

/-- The loop of `chcore_file_write`. -/
def writeLoop (icb p fr : Addr) (fid : Int) (buf : Addr) (remain : Int) : Code Client Int :=
  if 0 < remain then do
    let cnt := min remain FS_BUF_SIZE
    fillRequest fr [.req .write, .int .fd fid, .long .count cnt]
    let s ← read
    let _ ← ipcSetMsgData p (fun i => s.user (buf + BitVec.ofNat 64 i))
      (BitVec.ofNat 64 FS_REQUEST_SIZE) (BitVec.ofInt 64 cnt)
    let r ← ipcCall icb p
    let ret := toInt32 r
    if ret ≠ cnt then pure (toInt32 (remain - ret))
    else writeLoop icb p fr fid (buf + BitVec.ofInt 64 ret) (remain - cnt)
  else pure remain
termination_by remain.toNat
decreasing_by
  simp only [FS_BUF_SIZE, IPC_SHM_AVAILABLE, FS_REQUEST_SIZE]
  omega

/-- `chcore_file_write`: the descriptor is followed without a check. -/
def chcoreFileWrite (count : BitVec 64) : Code Client Int := do
  let d ← fdOrStop fd
  let fp ← orStop d.privateData
  pageRequest fp.fsIpcStruct
    (fun p fr => writeLoop fp.fsIpcStruct p fr fp.fid buf (toInt32 count.toInt))
    fun remain => toInt32 (count.toInt - remain)

/-- `chcore_file_close`: the descriptor is followed when the message is there. -/
def chcoreFileClose : Code Client Int := do
  let (p, fr) ← openMsg fs (BitVec.ofNat 64 FS_REQUEST_SIZE) 0
  let d ← fdOrStop fd
  fillRequest fr [.req .close, .int .fd d.fd]
  let r ← ipcCall fs p
  ipcDestroyMsg p
  let ret := toInt32 r
  if ret = 0 then
    setFd fd none
    pure ret
  else pure ret

end Operations

/-! ## 5. Code that takes no lock -/

variable (f : Code Client α)

/-- **Code that leaves the shared memory alone and takes no lock.** -/
def Tame : Prop :=
  ∀ s, Ends f s fun _ t => t.mem = s.mem ∧ ∀ j, (s.icbs j).lock = false → (t.icbs j).lock = false

section Tame

variable {α β : Type}

theorem tame_pure (a : α) : Tame (pure a : Code Client α) :=
  fun _ => ends_pure ⟨rfl, fun _ h => h⟩

theorem tame_stop : Tame (stop : Code Client α) := fun _ => ends_stop

theorem Tame.bind {f : Code Client α} {g : α → Code Client β} (hf : Tame f) (hg : ∀ a, Tame (g a)) :
    Tame (f >>= g) := by
  intro s
  refine (hf s).bind fun a t ht => (hg a t).mono fun b u hu => ?_
  exact ⟨hu.1.trans ht.1, fun j hj => hu.2 j (ht.2 j hj)⟩

theorem tame_orStop (x : Option α) : Tame (orStop x) := by
  cases x with
  | none => exact tame_stop
  | some a => exact tame_pure a

theorem tame_bugOn (b : Prop) [Decidable b] : Tame (bugOn b : Code Client Unit) := by
  unfold bugOn
  split
  · exact tame_stop
  · exact tame_pure ()

theorem tame_modify {f : Client → Client} (h : ∀ s, (f s).mem = s.mem ∧ (f s).icbs = s.icbs) :
    Tame (do let s ← read; write (f s)) := by
  intro s _ t hret
  cases hret
  refine ⟨(h s).1, fun j hj => ?_⟩
  rw [(h s).2]
  exact hj

theorem tame_reading {g : Client → Code Client α} (h : ∀ s, Tame (g s)) :
    Tame (do let s ← read; g s) := fun s => ends_read (h s s)

theorem tame_connectOnDemand (icb : Addr) : Tame (connectOnDemand icb) := by
  intro s r t hret
  cases ha : s.attached icb with
  | none =>
    obtain ⟨_, hicbs, hmem, _⟩ := connectOnDemand_none ha hret
    refine ⟨hmem, fun j hj => ?_⟩
    rw [hicbs]
    exact hj
  | some i =>
  obtain ⟨t', ht', hicbs, hmem, _⟩ := connectOnDemand_some ha
  rw [ht'] at hret
  cases hret
  refine ⟨hmem, fun j hj => ?_⟩
  rw [hicbs]
  by_cases hji : j = icb
  · subst hji
    rw [update_self]
    exact attached_lock ha hj
  · rw [update_of_ne hji]
    exact hj

theorem tame_ipcRegisterClient : Tame ipcRegisterClient := by
  intro s r t hret
  cases hreg : s.registrations with
  | nil => simp [ipcRegisterClient, hreg] at hret
  | cons r' rest =>
    simp [ipcRegisterClient, hreg] at hret
    obtain ⟨_, rfl⟩ := hret
    exact ⟨rfl, fun _ hj => hj⟩

theorem tame_ipcStructCopy (icb : Addr) (r : Registration) : Tame (ipcStructCopy icb r) := by
  intro s _ t hret
  cases hret
  refine ⟨rfl, fun j hj => ?_⟩
  by_cases hji : j = icb
  · subst hji
    simp [Client.setIcb, IpcStruct.copy]
  · simp only [Client.setIcb, update_of_ne hji]
    exact hj

theorem tame_copyOut (buf p : Addr) (n : Int) : Tame (copyOut buf p n) :=
  (tame_bugOn _).bind fun _ => tame_modify fun _ => ⟨rfl, rfl⟩

theorem tame_strncpyOut (buf p : Addr) (size : BitVec 64) : Tame (strncpyOut buf p size) :=
  (tame_bugOn _).bind fun _ => tame_modify fun _ => ⟨rfl, rfl⟩

variable (fd : Int)

theorem tame_fdAt : Tame (fdAt fd) :=
  (tame_bugOn _).bind fun _ => tame_reading fun _ => tame_pure _

theorem tame_fdOrStop : Tame (fdOrStop fd) := (tame_fdAt fd).bind fun _ => tame_orStop _

theorem tame_setFd (d : Option FdDesc) : Tame (setFd fd d) :=
  (tame_bugOn _).bind fun _ => tame_modify fun _ => ⟨rfl, rfl⟩

theorem tame_allocFdSince (min : Int) : Tame (allocFdSince min) := by
  intro s r t hret
  cases hfree : firstFree s.fdDic (MAX_FD - min.toNat) min.toNat with
  | none =>
    simp only [allocFdSince, read_bind, hfree] at hret
    cases hret
    exact ⟨rfl, fun _ hj => hj⟩
  | some fd =>
    simp only [allocFdSince, read_bind, hfree, write_bind] at hret
    cases hret
    exact ⟨rfl, fun _ hj => hj⟩

theorem tame_cap2struct (fsmCap : Int) : Tame (cap2struct fsmCap) := by
  refine tame_reading fun s => ?_
  cases s.capStructs.lookup fsmCap with
  | some icb => exact tame_pure icb
  | none =>
  refine tame_ipcRegisterClient.bind fun r => (tame_orStop r).bind fun r => ?_
  refine (tame_ipcStructCopy r.addr r).bind fun _ => ?_
  exact (tame_modify (f := fun s =>
    { s with capStructs := (fsmCap, r.addr) :: s.capStructs }) fun _ => ⟨rfl, rfl⟩).bind
      fun _ => tame_pure _

theorem tame_fcntlDupfd (d : FdDesc) (arg : Int) : Tame (fcntlDupfd d arg) :=
  (tame_allocFdSince arg).bind fun _ => (tame_fdOrStop _).bind fun _ =>
    (tame_setFd _ _).bind fun _ => tame_pure _

theorem tame_fcntlSetfd (d : FdDesc) (arg : Int) : Tame (fcntlSetfd fd d arg) :=
  (tame_setFd _ _).bind fun _ => tame_pure _

end Tame

/-! ## 6. Outside a message and inside one -/

/-- Outside a message the locks of `A` are free. -/
def Outside (A : Set Addr) (s : Client) : Prop := ∀ j ∈ A, (s.icbs j).lock = false

/-- **While a message is used**: the locks of `A` but its own are free, and its header says whose
message it is. -/
structure Inside (A : Set Addr) (icb p : Addr) (dataLen caps : BitVec 64) (s : Client) : Prop where
  free : ∀ j ∈ A, j ≠ icb → (s.icbs j).lock = false
  created : Created s.mem p icb dataLen caps

/-- A request with its fields fits into the message. -/
structure Fits (dataLen caps : BitVec 64) : Prop where
  request : FS_REQUEST_SIZE ≤ dataLen.toNat
  message : IPC_MSG_SIZE + dataLen.toNat + 8 * caps.toNat ≤ 2 ^ 64

variable (s : Client)

/-- **Code that keeps the locks free**: those that are free before are so after it. -/
def KeepsFree : Prop :=
  ∀ A, Outside A s → Ends f s fun _ t => Outside A t

section Messages

variable {A : Set Addr} {icb p : Addr} {dataLen caps : BitVec 64} {s : Client} {α β : Type}

variable (fs : Addr) {f : Code Client α}

theorem Tame.inside (hf : Tame f) (h : Inside A icb p dataLen caps s) :
    Ends f s fun _ t => Inside A icb p dataLen caps t := by
  refine (hf s).mono fun _ t ht => ⟨fun j hj hne => ht.2 j (h.free j hj hne), ?_⟩
  rw [ht.1]
  exact h.created

theorem Tame.keepsFree (hf : Tame f) (s : Client) : KeepsFree f s :=
  fun _ h => (hf s).mono fun _ _ ht j hj => ht.2 j (h j hj)

theorem Inside.write {m : Mem} (h : Inside A icb p dataLen caps s)
    (hm : ∀ x ∈ headerArea p, m x = s.mem x) : Inside A icb p dataLen caps { s with mem := m } :=
  ⟨h.free, h.created.congr hm⟩

/-- **A message that was given** has its lock, and no other one was taken. -/
theorem inside_ipcCreateMsg {k : Addr → Code Client α} {Q : α → Client → Prop} (hs : Outside A s)
    (hk : ∀ p t, Inside A icb p dataLen caps t → t.fdDic = s.fdDic → (t.icbs icb).lock = true →
      Ends (k p) t Q) :
    Ends (ipcCreateMsg icb dataLen caps >>= fun msg => orStop msg >>= k) s Q := by
  refine Ends.bind (M := fun msg t => ipcCreateMsg icb dataLen caps s = .returned msg t)
    (fun _ _ h => h) fun msg t hcreate => ends_orStop_bind fun p hp => ?_
  subst hp
  obtain ⟨i, _, _, _, _, hicbs, hfd, hc⟩ := ipcCreateMsg_some hcreate
  refine hk p t ⟨fun j hj hne => ?_, hc⟩ hfd ?_
  · rw [hicbs, update_of_ne hne]
    exact hs j hj
  · rw [hicbs, update_self]

theorem inside_openMsg {k : Addr × Addr → Code Client α} {Q : α → Client → Prop} (hs : Outside A s)
    (hk : ∀ p t, Inside A icb p dataLen caps t → t.fdDic = s.fdDic → (t.icbs icb).lock = true →
      Ends (k (p, p + BitVec.ofNat 64 IPC_MSG_SIZE)) t Q) :
    Ends (openMsg icb dataLen caps >>= k) s Q := by
  refine Ends.bind (M := fun r t => Ends (k r) t Q) ?_ fun _ _ h => h
  refine inside_ipcCreateMsg hs fun p t hin hfd hlock => ends_read (ends_pure ?_)
  rw [hin.created.data]
  exact hk p t hin hfd hlock

theorem Fits.disjoint_put (hfit : Fits dataLen caps) (p : Addr) (w : Put) :
    Disjoint (headerArea p)
      (span (p + BitVec.ofNat 64 IPC_MSG_SIZE + BitVec.ofNat 64 w.offset) w.size) := by
  have hreq := hfit.request
  have hmsg := hfit.message
  have hw := w.inside
  rw [headerArea_eq, BitVec.add_assoc, ← ofNat_add]
  exact disjoint_span_add (by omega) (by omega) (by omega)

theorem inside_fillRequest (hfit : Fits dataLen caps) :
    ∀ (ws : List Put) {s : Client}, Inside A icb p dataLen caps s →
      Ends (fillRequest (p + BitVec.ofNat 64 IPC_MSG_SIZE) ws) s
        fun _ t => Inside A icb p dataLen caps t
  | [], _, h => ends_pure h
  | w :: ws, s, h => by
    refine Ends.bind (M := fun _ t => Inside A icb p dataLen caps t) ?_
      fun _ t ht => inside_fillRequest hfit ws ht
    intro _ t hret
    cases hret
    exact h.write fun x hx =>
      Mem.write_of_notMem w.bytes (Set.disjoint_left.mp (hfit.disjoint_put p w) hx)

/-- The server writes the data, `cap_slot_number_ret` and a slot that is there. -/
theorem created_answer {m : Mem} (a : Answer)
    (hfit : IPC_MSG_SIZE + dataLen.toNat + 8 * caps.toNat ≤ 2 ^ 64)
    (hc : Created m p icb dataLen caps) : Created (a.apply m p) p icb dataLen caps := by
  have hdata : Created (m.write (ipcGetMsgData m p) a.data (getField m p .dataLen).toNat) p icb
      dataLen caps := by
    refine hc.congr fun x hx => Mem.write_of_notMem a.data ?_
    rw [hc.dataLen_eq, hc.data]
    rw [headerArea_eq] at hx
    exact Set.disjoint_left.mp (disjoint_span_add (by omega) (by omega) (by omega)) hx
  unfold Answer.apply
  cases a.retCap with
  | none => exact hdata.setRet 0
  | some c =>
  simp only
  split
  · exact hdata
  rename_i hslots
  have hcaps : 1 ≤ caps.toNat := by
    rw [hdata.capSlotNumber_eq] at hslots
    simp only [lt_def, toNat_ofNat] at hslots
    omega
  refine (hdata.setRet 1).congr fun x hx => Mem.write_of_notMem _ ?_
  rw [hdata.slot]
  rw [headerArea_eq] at hx
  have hzero : (0 : BitVec 64).toNat = 0 := rfl
  exact Set.disjoint_left.mp
    (disjoint_span_add (by omega) (by rw [hzero]; omega) (by omega)) hx

theorem inside_ipcCall (j : Addr) (hfit : IPC_MSG_SIZE + dataLen.toNat + 8 * caps.toNat ≤ 2 ^ 64)
    (h : Inside A icb p dataLen caps s) :
    Ends (ipcCall j p) s fun _ t => Inside A icb p dataLen caps t := by
  refine ((tame_connectOnDemand j).inside h).bind fun r t ht => ends_ite (fun _ => ends_pure ht) ?_
  intro _ ret u hret
  cases hr : awaitReply t.replies with
  | none => simp [usysIpcCall, hr] at hret
  | some rr =>
  simp only [usysIpcCall, read_bind, hr, write_bind, pure_apply, Outcome.returned.injEq] at hret
  obtain ⟨_, rfl⟩ := hret
  refine ⟨ht.free, ?_⟩
  cases hans : rr.1.answer with
  | none => exact ht.created
  | some a => exact created_answer a hfit ht.created

/-- **The end of a message** gives its lock back. -/
theorem outside_ipcDestroyMsg (h : Inside A icb p dataLen caps s) :
    Ends (ipcDestroyMsg p) s fun _ t => Outside A t := by
  intro _ t hret
  cases hret
  intro j hj
  rw [h.created.icb_eq]
  by_cases hne : j = icb
  · subst hne
    simp [setLock, Client.setIcb]
  · simp only [setLock, Client.setIcb, update_of_ne hne]
    exact h.free j hj hne

/-! ## 7. The operations keep the locks free -/

theorem Tame.keepsFree_bind {g : α → Code Client β} (hf : Tame f)
    (hg : ∀ a t, KeepsFree (g a) t) : KeepsFree (f >>= g) s :=
  fun A hs => (hf.keepsFree s A hs).bind fun a t ht => hg a t A ht

/-- **The shape of most operations.** -/
theorem keepsFree_request (icb : Addr) (caps : BitVec 64) (ws : List Put)
    {after : Addr → Int → Code Client Int} (hafter : ∀ p ret, Tame (after p ret))
    (hfit : Fits (BitVec.ofNat 64 FS_REQUEST_SIZE) caps) :
    KeepsFree (request icb caps ws after) s := by
  intro A hs
  refine inside_openMsg hs fun p t hin _ _ => ?_
  refine (inside_fillRequest hfit ws hin).bind fun _ t ht => ?_
  refine (inside_ipcCall icb hfit.message ht).bind fun ret t ht => ?_
  refine ((hafter p ret).inside ht).bind fun ret t ht => ?_
  exact (outside_ipcDestroyMsg ht).bind fun _ t ht => ends_pure ht

theorem fits_request : Fits (BitVec.ofNat 64 FS_REQUEST_SIZE) 0 := ⟨by decide, by decide⟩

theorem fits_page : Fits (BitVec.ofNat 64 IPC_SHM_AVAILABLE) 0 := ⟨by decide, by decide⟩

theorem keepsFree_simpleRequest (icb : Addr) (ws : List Put) :
    KeepsFree (simpleRequest icb ws) s :=
  keepsFree_request icb 0 ws (fun _ _ => tame_pure _) fits_request

theorem keepsFree_withFd (fd : Int) {k : FdDesc → Code Client Int} (hk : ∀ d t, KeepsFree (k d) t) :
    KeepsFree (withFd fd k) s := by
  refine (tame_fdAt fd).keepsFree_bind fun d t => ?_
  cases d with
  | none => exact (tame_pure _).keepsFree t
  | some d => exact hk d t

theorem keepsFree_pageRequest (icb : Addr) {loop : Addr → Addr → Code Client α} (result : α → Int)
    (hloop : ∀ A p s, Inside A icb p (BitVec.ofNat 64 IPC_SHM_AVAILABLE) 0 s →
      Ends (loop p (p + BitVec.ofNat 64 IPC_MSG_SIZE)) s fun _ t =>
        Inside A icb p (BitVec.ofNat 64 IPC_SHM_AVAILABLE) 0 t) :
    KeepsFree (pageRequest icb loop result) s := by
  intro A hs
  refine inside_openMsg hs fun p t hin _ _ => ?_
  refine (hloop A p t hin).bind fun a t ht => ?_
  exact (outside_ipcDestroyMsg ht).bind fun _ t ht => ends_pure ht

/-- Every round of `chcore_getdents64` stays inside its message. -/
theorem inside_getdentsLoop (fs p : Addr) (fd : Int) (buf : Addr) (remain : Int) {s : Client}
    (h : Inside A fs p (BitVec.ofNat 64 IPC_SHM_AVAILABLE) 0 s) :
    Ends (getdentsLoop fs p (p + BitVec.ofNat 64 IPC_MSG_SIZE) fd buf remain) s fun _ t =>
      Inside A fs p (BitVec.ofNat 64 IPC_SHM_AVAILABLE) 0 t := by
  unfold getdentsLoop
  refine ends_ite (fun hpos => ?_) fun _ => ends_pure h
  refine ((tame_fdOrStop fd).inside h).bind fun d t ht => ?_
  refine (inside_fillRequest fits_page _ ht).bind fun _ t ht => ?_
  refine (inside_ipcCall fs fits_page.message ht).bind fun r t ht => ?_
  refine ends_ite (fun _ => ends_pure ht) fun _ => ?_
  refine ((tame_copyOut buf p _).inside ht).bind fun _ t ht => ?_
  refine ends_ite (fun _ => ends_pure ht) fun _ => ?_
  exact inside_getdentsLoop fs p fd _ _ ht
termination_by remain.toNat
decreasing_by
  simp only [IPC_SHM_AVAILABLE]
  omega

theorem inside_readLoop (icb p : Addr) (fid : Int) (buf : Addr) (remain : Int) {s : Client}
    (h : Inside A icb p (BitVec.ofNat 64 IPC_SHM_AVAILABLE) 0 s) :
    Ends (readLoop icb p (p + BitVec.ofNat 64 IPC_MSG_SIZE) fid buf remain) s fun _ t =>
      Inside A icb p (BitVec.ofNat 64 IPC_SHM_AVAILABLE) 0 t := by
  unfold readLoop
  refine ends_ite (fun hpos => ?_) fun _ => ends_pure h
  refine (inside_fillRequest fits_page _ h).bind fun _ t ht => ?_
  refine (inside_ipcCall icb fits_page.message ht).bind fun r t ht => ?_
  refine ((tame_copyOut buf p _).inside ht).bind fun _ t ht => ?_
  refine ends_ite (fun _ => ends_pure ht) fun _ => ?_
  exact inside_readLoop icb p fid _ _ ht
termination_by remain.toNat
decreasing_by
  simp only [IPC_SHM_AVAILABLE]
  omega

theorem inside_ipcSetMsgData (data : Nat → BitVec 8) (offset len : BitVec 64)
    (hfit : IPC_MSG_SIZE + dataLen.toNat + 8 * caps.toNat ≤ 2 ^ 64)
    (h : Inside A icb p dataLen caps s) :
    Ends (ipcSetMsgData p data offset len) s fun _ t => Inside A icb p dataLen caps t := by
  intro r t hret
  have hstep : setStep p s (.data data offset len) = some t := by
    rw [setStep, SetOp.code, hret]
  have hicbs : Ends (ipcSetMsgData p data offset len) s fun _ t => t.icbs = s.icbs := by
    refine ends_read (ends_ite (fun _ => ends_pure rfl) fun _ => ?_)
    exact (ends_memcpyShared _ _ _).bind fun _ t ht => ends_pure (by rw [ht])
  refine ⟨fun j hj hne => ?_, setStep_created h.created hfit hstep⟩
  rw [hicbs r t hret]
  exact h.free j hj hne

theorem inside_writeLoop (icb p : Addr) (fid : Int) (buf : Addr) (remain : Int) {s : Client}
    (h : Inside A icb p (BitVec.ofNat 64 IPC_SHM_AVAILABLE) 0 s) :
    Ends (writeLoop icb p (p + BitVec.ofNat 64 IPC_MSG_SIZE) fid buf remain) s fun _ t =>
      Inside A icb p (BitVec.ofNat 64 IPC_SHM_AVAILABLE) 0 t := by
  unfold writeLoop
  refine ends_ite (fun hpos => ?_) fun _ => ends_pure h
  refine (inside_fillRequest fits_page _ h).bind fun _ t ht => ends_read ?_
  refine (inside_ipcSetMsgData _ _ _ fits_page.message ht).bind fun _ t ht => ?_
  refine (inside_ipcCall icb fits_page.message ht).bind fun r t ht => ?_
  refine ends_ite (fun _ => ends_pure ht) fun _ => ?_
  exact inside_writeLoop icb p fid _ _ ht
termination_by remain.toNat
decreasing_by
  simp only [FS_BUF_SIZE, IPC_SHM_AVAILABLE, FS_REQUEST_SIZE]
  omega

/-- **`simple_ipc_forward`**: a negative length faults in `memcpy`, every other one fits. -/
theorem keepsFree_simpleIpcForward (icb : Addr) (data : Nat → BitVec 8) (len : BitVec 32) :
    KeepsFree (simpleIpcForward icb data len) s := by
  intro A hs
  refine inside_ipcCreateMsg hs fun p t hin _ _ => ?_
  generalize len.signExtend 64 = dataLen at hin
  by_cases hneg : COPY_LIMIT ≤ dataLen.toNat
  · have hstop : ipcSetMsgData p data 0 dataLen t = .stopped := by
      have hok : ¬ (0 + dataLen < 0 ∨ 0 + dataLen > getField t.mem p .dataLen) := by
        rw [hin.created.dataLen_eq, lt_def, gt_iff_lt, lt_def]
        simp
      simp only [ipcSetMsgData, read_bind, if_neg hok, memcpyShared, bugOn, if_pos hneg,
        bind_bind_apply, stop_bind]
    intro r u hret
    rw [bind_apply, hstop] at hret
    cases hret
  have hfit : IPC_MSG_SIZE + dataLen.toNat + 8 * (0 : BitVec 64).toNat ≤ 2 ^ 64 := by
    have hzero : (0 : BitVec 64).toNat = 0 := rfl
    simp only [COPY_LIMIT, IPC_MSG_SIZE] at hneg ⊢
    omega
  refine (inside_ipcSetMsgData _ _ _ hfit hin).bind fun _ t ht => ?_
  refine (inside_ipcCall icb hfit ht).bind fun ret t ht => ?_
  exact (outside_ipcDestroyMsg ht).bind fun _ t ht => ends_pure ht

/-- `chcore_fallocate` on an open descriptor; the lock of `fs` may also have been held before. -/
theorem keepsFree_chcoreFallocate {fd : Int} (mode offset len : Int)
    (hfd : (s.icbs fs).lock = false → s.fdDic fd.toNat ≠ none) :
    KeepsFree (chcoreFallocate fs fd mode offset len) s := by
  intro A hs
  refine inside_openMsg hs fun p t hin hdic _ => ?_
  refine Ends.bind (M := fun d t => (fs ∈ A → d ≠ none) ∧
    Inside A fs p (BitVec.ofNat 64 FS_REQUEST_SIZE) 0 t) ?_ fun d t ht => ?_
  · refine Ends.bind (ends_bugOn (Q := fun _ u => u = t) fun _ => rfl) fun _ u hu => ?_
    subst hu
    refine ends_read (ends_pure ⟨fun hA => ?_, hin⟩)
    rw [hdic]
    exact hfd (hs fs hA)
  cases d with
  | none => exact ends_pure fun j hj => ht.2.free j hj fun hjs => ht.1 (hjs ▸ hj) rfl
  | some d =>
    refine (inside_fillRequest fits_request _ ht.2).bind fun _ t ht => ?_
    refine (inside_ipcCall fs fits_request.message ht).bind fun ret t ht => ?_
    exact (outside_ipcDestroyMsg ht).bind fun _ t ht => ends_pure ht

/-- **`chcore_fallocate` on a closed descriptor comes back with the lock.** -/
theorem chcoreFallocate_closed {fd : Int} (mode offset len : Int) (hfd : s.fdDic fd.toNat = none) :
    Ends (chcoreFallocate fs fd mode offset len) s fun _ t => (t.icbs fs).lock = true := by
  have hnone : Outside ∅ s := fun _ hj => nomatch hj
  refine inside_openMsg hnone fun p t _ hdic hlock => ?_
  refine Ends.bind (M := fun d u => d = none ∧ u = t) ?_ fun d u hu => ?_
  · refine Ends.bind (ends_bugOn (Q := fun _ u => u = t) fun _ => rfl) fun _ u hu => ?_
    subst hu
    refine ends_read (ends_pure ⟨?_, rfl⟩)
    rw [hdic]
    exact hfd
  · obtain ⟨rfl, rfl⟩ := hu
    exact ends_pure hlock

theorem keepsFree_chcoreFileClose (fd : Int) : KeepsFree (chcoreFileClose fs fd) s := by
  intro A hs
  refine inside_openMsg hs fun p t hin _ _ => ?_
  refine ((tame_fdOrStop fd).inside hin).bind fun d t ht => ?_
  refine (inside_fillRequest fits_request _ ht).bind fun _ t ht => ?_
  refine (inside_ipcCall fs fits_request.message ht).bind fun ret t ht => ?_
  refine (outside_ipcDestroyMsg ht).bind fun _ t ht => ?_
  refine ends_ite (fun _ => ?_) fun _ => ends_pure ht
  exact ((tame_setFd fd none).keepsFree t A ht).bind fun _ t ht => ends_pure ht

theorem keepsFree_chcoreFcntl (fd cmd arg : Int) : KeepsFree (chcoreFcntl fs fd cmd arg) s := by
  unfold chcoreFcntl
  split
  · exact (tame_pure _).keepsFree s
  refine keepsFree_withFd fd fun d t => ?_
  split
  · exact (tame_fcntlDupfd d arg).keepsFree t
  · refine (tame_fcntlDupfd d arg).keepsFree_bind fun ret t => ?_
    split
    · exact (tame_pure _).keepsFree t
    · split
      · exact (tame_pure _).keepsFree t
      · exact keepsFree_withFd ret fun n t => (tame_fcntlSetfd ret n 1).keepsFree t
  · exact (tame_pure _).keepsFree t
  · exact (tame_fcntlSetfd fd d arg).keepsFree t
  · split
    · exact keepsFree_simpleRequest fs _
    · exact (tame_pure _).keepsFree t
  · split
    · exact keepsFree_simpleRequest fs _
    · exact (tame_pure _).keepsFree t
  all_goals exact (tame_pure _).keepsFree t

theorem keepsFree_chcoreOpenat (dirfd : Int) (pathname : List (BitVec 8))
    (flags mode : Int) : KeepsFree (chcoreOpenat fs dirfd pathname flags mode) s := by
  refine keepsFree_request fs 1 _ (fun p r => ?_) ⟨by decide, by decide⟩
  simp only
  split
  · refine (tame_allocFdSince 0).bind fun fd => (tame_fdOrStop fd).bind fun n => ?_
    refine tame_reading fun s => (tame_cap2struct _).bind fun icb => ?_
    exact (tame_setFd fd _).bind fun _ => tame_pure _
  · exact tame_pure _

end Messages

/-! ## 8. Runs of message operations -/

/-- The operations of file.c. -/
inductive FileOp where
  | chdir (path : List (BitVec 8))
  | fchdir (fd : Int)
  | getcwd (buf : Addr) (size : BitVec 64)
  | ftruncate (fd length : Int)
  | lseek (fd offset whence : Int)
  | mkdirat (dirfd : Int) (pathname : List (BitVec 8)) (mode : Int)
  | unlinkat (dirfd : Int) (pathname : List (BitVec 8)) (flags : Int)
  | symlinkat (target : List (BitVec 8)) (newdirfd : Int) (linkpath : List (BitVec 8))
  | getdents64 (fd : Int) (buf : Addr) (count : Int)
  | fcntl (fd cmd arg : Int)
  | readlinkat (dirfd : Int) (pathname : List (BitVec 8)) (buf : Addr) (bufsiz : BitVec 64)
  | renameat (olddirfd : Int) (oldpath : List (BitVec 8)) (newdirfd : Int) (newpath : List (BitVec 8))
  | faccessat (dirfd : Int) (pathname : List (BitVec 8)) (mode flags : Int)
  | fallocate (fd mode offset len : Int)
  | statx (dirfd : Int) (pathname : List (BitVec 8)) (flags mask : Int) (buf : Addr)
  | openat (dirfd : Int) (pathname : List (BitVec 8)) (flags mode : Int)
  | fileRead (fd : Int) (buf : Addr) (count : BitVec 64)
  | fileWrite (fd : Int) (buf : Addr) (count : BitVec 64)
  | fileClose (fd : Int)

def FileOp.code : FileOp → Code Client Int
  | .chdir path => chcoreChdir fs path
  | .fchdir fd => chcoreFchdir fs fd
  | .getcwd buf size => chcoreGetcwd fs buf size
  | .ftruncate fd length => chcoreFtruncate fs fd length
  | .lseek fd offset whence => chcoreLseek fs fd offset whence
  | .mkdirat dirfd pathname mode => chcoreMkdirat fs dirfd pathname mode
  | .unlinkat dirfd pathname flags => chcoreUnlinkat fs dirfd pathname flags
  | .symlinkat target newdirfd linkpath => chcoreSymlinkat fs target newdirfd linkpath
  | .getdents64 fd buf count => chcoreGetdents64 fs fd buf count
  | .fcntl fd cmd arg => chcoreFcntl fs fd cmd arg
  | .readlinkat dirfd pathname buf bufsiz => chcoreReadlinkat fs dirfd pathname buf bufsiz
  | .renameat olddirfd oldpath newdirfd newpath => chcoreRenameat fs olddirfd oldpath newdirfd newpath
  | .faccessat dirfd pathname mode flags => chcoreFaccessat fs dirfd pathname mode flags
  | .fallocate fd mode offset len => chcoreFallocate fs fd mode offset len
  | .statx dirfd pathname flags mask buf => chcoreStatx fs dirfd pathname flags mask buf
  | .openat dirfd pathname flags mode => chcoreOpenat fs dirfd pathname flags mode
  | .fileRead fd buf count => chcoreFileRead fd buf count
  | .fileWrite fd buf count => chcoreFileWrite fd buf count
  | .fileClose fd => chcoreFileClose fs fd

/-- What one thread does with messages. -/
inductive MsgOp where
  | createMsg (icb : Addr) (dataLen capSlotNumber : BitVec 64)
  | setMsgData (p : Addr) (data : Nat → BitVec 8) (offset len : BitVec 64)
  | setMsgCap (p : Addr) (capSlotIndex : BitVec 64) (cap : BitVec 32)
  | call (icb p : Addr)
  | destroyMsg (p : Addr)
  | forward (icb : Addr) (data : Nat → BitVec 8) (len : BitVec 32)
  | file (op : FileOp)

/-- The state a piece of code comes back with. -/
def after : Option Client :=
  match f s with
  | .returned _ t => some t
  | _ => none

/-- One operation; there is no step where it faults or waits for ever. -/
def msgStep : MsgOp → Option Client
  | .createMsg icb dataLen caps => after (ipcCreateMsg icb dataLen caps) s
  | .setMsgData p data offset len => after (ipcSetMsgData p data offset len) s
  | .setMsgCap p idx cap => after (ipcSetMsgCap p idx cap) s
  | .call icb p => after (ipcCall icb p) s
  | .destroyMsg p => after (ipcDestroyMsg p) s
  | .forward icb data len => after (simpleIpcForward icb data len) s
  | .file op => after (op.code fs) s

/-- The locks that are free stay free. -/
def StaysFree (s t : Client) : Prop := ∀ j, (s.icbs j).lock = false → (t.icbs j).lock = false

/-- **The lock is right after an operation**: `ipc_create_msg` has it exactly with a message, the
forward and the file operations leave it free. -/
def LockRight (t : Transition Client MsgOp) : Prop :=
  match t.act with
  | .createMsg icb dataLen caps => (t.pre.icbs icb).lock = false →
      ∀ r, ipcCreateMsg icb dataLen caps t.pre = .returned r t.post →
        ((t.post.icbs icb).lock = true ↔ r.isSome = true)
  | .forward _ _ _ => StaysFree t.pre t.post
  | .file _ => StaysFree t.pre t.post
  | _ => True

/-- **No request is too long for its connection, and `chcore_fallocate` is for open descriptors.** -/
def LockClean : MsgOp → Prop
  | .createMsg icb dataLen caps => (s.icbs icb).lock = false →
      ∀ i, s.attached icb = some i → ¬ TooLong i.sharedBufLen dataLen caps
  | .file (.fallocate fd _ _ _) => (s.icbs fs).lock = false → s.fdDic fd.toNat ≠ none
  | _ => True

section Runs

variable {fs : Addr} {s t : Client}

theorem after_some {α : Type} {f : Code Client α} (h : after f s = some t) :
    ∃ a, f s = .returned a t := by
  unfold after at h
  split at h
  · rename_i a u hf
    cases h
    exact ⟨a, hf⟩
  · cases h

theorem KeepsFree.staysFree {α : Type} {f : Code Client α} (hf : KeepsFree f s)
    (h : after f s = some t) : StaysFree s t := by
  obtain ⟨a, ha⟩ := after_some h
  exact fun j hj => hf { j | (s.icbs j).lock = false } (fun _ hj => hj) a t ha j hj

/-- Every file operation but `chcore_fallocate` on a closed descriptor. -/
theorem FileOp.keepsFree (op : FileOp)
    (hop : LockClean fs s (.file op)) : KeepsFree (op.code fs) s := by
  cases op with
  | chdir | mkdirat | unlinkat | symlinkat | renameat | faccessat | statx =>
    exact keepsFree_simpleRequest fs _
  | fchdir fd | ftruncate fd | lseek fd =>
    exact keepsFree_withFd fd fun _ _ => keepsFree_simpleRequest fs _
  | getcwd buf size =>
    unfold code chcoreGetcwd
    refine keepsFree_request fs 0 _ (fun p ret => ?_) fits_request
    split
    · exact (tame_strncpyOut buf p size).bind fun _ => tame_pure _
    · exact tame_pure _
  | getdents64 fd buf count =>
    exact keepsFree_withFd fd fun _ _ => keepsFree_pageRequest fs _ fun _ _ _ h =>
      inside_getdentsLoop fs _ fd buf count h
  | fcntl fd cmd arg => exact keepsFree_chcoreFcntl fs fd cmd arg
  | readlinkat dirfd pathname buf bufsiz =>
    unfold code chcoreReadlinkat
    refine keepsFree_request fs 0 _ (fun p ret => ?_) fits_request
    exact (tame_copyOut buf p _).bind fun _ => tame_pure _
  | fallocate fd mode offset len =>
    exact keepsFree_chcoreFallocate fs mode offset len hop
  | openat dirfd pathname flags mode => exact keepsFree_chcoreOpenat fs dirfd pathname flags mode
  | fileRead fd buf count =>
    refine keepsFree_withFd fd fun d _ => (tame_orStop _).keepsFree_bind fun fp _ => ?_
    exact keepsFree_pageRequest _ _ fun _ _ _ h => inside_readLoop _ _ fp.fid buf _ h
  | fileWrite fd buf count =>
    refine (tame_fdOrStop fd).keepsFree_bind fun d _ => (tame_orStop _).keepsFree_bind fun fp _ => ?_
    exact keepsFree_pageRequest _ _ fun _ _ _ h => inside_writeLoop _ _ fp.fid buf _ h
  | fileClose fd => exact keepsFree_chcoreFileClose fs fd

theorem createMsg_lock_iff {icb : Addr} {dataLen caps : BitVec 64} {r : Option Addr}
    (hlock : (s.icbs icb).lock = false) (h : ipcCreateMsg icb dataLen caps s = .returned r t) :
    ((t.icbs icb).lock = true ↔ r.isSome = true) ↔
      ∀ i, s.attached icb = some i → ¬ TooLong i.sharedBufLen dataLen caps := by
  obtain ⟨hnone, rfl, hicbs⟩ | ⟨i, ha, hfree⟩ := ipcCreateMsg_returned h
  · simp [hicbs, hlock, hnone]
  obtain ⟨t', hicbs, _, hres⟩ := ipcCreateMsg_attached dataLen caps ha hfree
  by_cases hlong : TooLong i.sharedBufLen dataLen caps
  · rw [if_pos hlong, h] at hres
    cases hres
    simp [hicbs, ha, hlong]
  · rw [if_neg hlong, h] at hres
    obtain ⟨hret, _⟩ := hres
    cases hret
    simp [hicbs, ha, hlong]

/-- **One operation.** -/
theorem lockRight_iff {op : MsgOp} (h : msgStep fs s op = some t) :
    LockRight ⟨s, op, t⟩ ↔ LockClean fs s op := by
  cases op with
  | createMsg icb dataLen caps =>
    obtain ⟨r, hr⟩ := after_some h
    refine forall_congr' fun hlock => ?_
    rw [← createMsg_lock_iff hlock hr]
    refine ⟨fun hall => hall r hr, fun hiff r' hr' => ?_⟩
    have heq : r' = r := by
      rw [hr] at hr'
      cases hr'
      rfl
    rw [heq]
    exact hiff
  | setMsgData | setMsgCap | call | destroyMsg => exact Iff.rfl
  | forward icb data len =>
    exact iff_of_true ((keepsFree_simpleIpcForward icb data len).staysFree h) trivial
  | file op =>
  refine ⟨fun hright => ?_, fun hclean => (op.keepsFree hclean).staysFree h⟩
  cases op with
  | fallocate fd mode offset len =>
    intro hlock hnone
    obtain ⟨a, ha⟩ := after_some h
    have hheld : (t.icbs fs).lock = true := chcoreFallocate_closed fs mode offset len hnone a t ha
    have hfree : (t.icbs fs).lock = false := hright fs hlock
    rw [hfree] at hheld
    cases hheld
  | _ => trivial

theorem exists_not_lockRight {op : MsgOp} (h : (msgStep fs s op).isSome = true)
    (hop : ¬ LockClean fs s op) : ∃ t ∈ trace (msgStep fs) s [op], ¬ LockRight t := by
  obtain ⟨t, ht⟩ := Option.isSome_iff_exists.mp h
  refine ⟨⟨s, op, t⟩, ?_, fun hright => hop ((lockRight_iff ht).mp hright)⟩
  rw [trace_cons_some [] ht]
  exact List.mem_cons_self

end Runs

/-- **The lock over a run of message operations**: it is held exactly by a message that was given
and free after every forward and file operation, exactly if every request that meets a free lock
fits its connection and `chcore_fallocate` is called on open descriptors. -/
theorem ipc_lock_iff (ops : List MsgOp) :
    (∀ t ∈ trace (msgStep fs) s ops, LockRight t) ↔
    ∀ t ∈ trace (msgStep fs) s ops, LockClean fs t.pre t.act :=
  trace_all_iff (I := fun _ => True) (fun _ _ _ _ h => lockRight_iff h) (fun _ _ _ _ _ _ => trivial)
    ops s trivial

/-- **A request that is too long keeps the lock**, and so does `fallocate` on a descriptor that is
not open: the next request on the connection waits for ever. -/
theorem ipc_lock_lost :
    (∃ t ∈ trace (msgStep 0) connectedClient [.createMsg 0 4049 0], ¬ LockRight t) ∧
    (∃ t ∈ trace (msgStep 0) connectedClient [.file (.fallocate 3 0 0 0)], ¬ LockRight t) ∧
    exec (msgStep 0) connectedClient [.file (.fallocate 3 0 0 0), .file (.chdir [])] = none := by
  refine ⟨exists_not_lockRight (by decide +kernel) fun h => ?_,
    exists_not_lockRight (by decide +kernel) fun h => h rfl rfl, ?_⟩
  · exact h rfl _ rfl (by decide)
  have hnone : (exec (msgStep 0) connectedClient
      [.file (.fallocate 3 0 0 0), .file (.chdir [])]).isNone = true := by
    decide +kernel
  exact Option.isNone_iff_eq_none.mp hnone

end ChCore.Musl
