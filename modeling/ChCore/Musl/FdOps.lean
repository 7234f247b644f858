/-
  File: ChCore/Musl/FdOps.lean
  Subject: Operations on descriptors (musl, chcore-port/fd.c, file.c): vectors of buffers and
    duplicates.

  * **`vector_right_iff`** -- a vector is transferred like one buffer exactly if no buffer fails
    after bytes were transferred, and a vector that is too long is refused exactly if its length
    does not wrap around to a small one;
  * **`dupfd_never_right`** -- `F_DUPFD` never gives a second descriptor of the same file: no read
    and no write through the new descriptor returns.
-/
import ChCore.Musl.FileOps

namespace ChCore.Musl

open Lib Lib.Code Function Option List

/-! ## 1. Vectors of buffers -/

def IOV_MAX : Nat := 1024

def POSIX_SSIZE_MAX : Nat := 32767

/-- A buffer of a vector, and what `read` or `write` of the descriptor says for it. -/
structure Segment where
  iovLen : BitVec 64
  ret : Int
  short : ret ≤ iovLen.toNat

variable (iov : List Segment)

/-- `iov_check`; the sum is one of 64 bits. -/
def iovCheck : Int :=
  if iov.length = 0 ∨ IOV_MAX < iov.length then -EINVAL
  else if POSIX_SSIZE_MAX < (iov.foldl (· + ·.iovLen) 0#64).toNat then -EINVAL
  else 0

/-- The loop over the buffers: the result, and how many operations were made. The sum is returned as
    an `int`. -/
def transferLoop : List Segment → Int → Int × Nat
  | [], done => (toInt32 done, 0)
  | s :: rest, done =>
    if s.ret < 0 then (s.ret, 1)
    else if s.ret ≠ s.iovLen.toNat then (toInt32 (done + s.ret), 1)
    else ((transferLoop rest (done + s.ret)).1, (transferLoop rest (done + s.ret)).2 + 1)

/-- The body of `chcore_readv` and `chcore_writev`. -/
def transferVector : Int × Nat :=
  if iovCheck iov ≠ 0 then (iovCheck iov, 0)
  else transferLoop iov 0

def chcoreReadv : Int × Nat := transferVector iov

def chcoreWritev : Int × Nat := transferVector iov

/-- The length of a vector. -/
def vectorLen : Nat := (iov.map (·.iovLen.toNat)).sum

/-- The buffers up to the first one that is not transferred as a whole, and with it. -/
def upToShort : List Segment → List Segment
  | [] => []
  | s :: rest => if s.ret = s.iovLen.toNat then s :: upToShort rest else [s]

/-- The bytes that were transferred. -/
def bytesOf (l : List Segment) : Nat := (l.map (·.ret.toNat)).sum

/-- The error of a buffer that failed. -/
def errorOf (l : List Segment) : Option Int :=
  l.findSome? fun s => if s.ret < 0 then some s.ret else none

/-- **A vector is transferred like one buffer**: up to the first buffer that is short or fails, with
    the bytes so far as the result, and an error only where there are none; one that is too long is
    refused at once. -/
def VectorRight (out : Int × Nat) : Prop :=
  if POSIX_SSIZE_MAX < vectorLen iov then out = (-EINVAL, 0)
  else out.2 = (upToShort iov).length ∧
    out.1 = if bytesOf (upToShort iov) = 0 then (errorOf (upToShort iov)).getD 0
      else (bytesOf (upToShort iov) : Int)

theorem foldl_iovLen (sum : BitVec 64) :
    (iov.foldl (· + ·.iovLen) sum).toNat = (sum.toNat + vectorLen iov) % 2 ^ 64 := by
  induction iov generalizing sum with
  | nil => exact (Nat.mod_eq_of_lt sum.isLt).symm
  | cons s rest ih =>
    rw [foldl_cons, ih, BitVec.toNat_add]
    simp only [vectorLen, map_cons, sum_cons]
    omega

theorem bytesOf_le : bytesOf (upToShort iov) ≤ vectorLen iov := by
  induction iov with
  | nil => exact le_rfl
  | cons s rest ih =>
    have hs := s.short
    simp only [bytesOf, vectorLen] at ih ⊢
    unfold upToShort
    split
    · simp only [map_cons, sum_cons]
      omega
    · simp only [map_cons, sum_cons, map_nil, sum_nil]
      omega

/-- **The loop** goes up to the first short buffer; an error replaces the sum. -/
theorem transferLoop_eq (done : Int) : transferLoop iov done =
    ((errorOf (upToShort iov)).getD (toInt32 (done + bytesOf (upToShort iov))),
      (upToShort iov).length) := by
  induction iov generalizing done with
  | nil => simp [transferLoop, upToShort, bytesOf, errorOf]
  | cons s rest ih =>
    unfold transferLoop upToShort
    by_cases hneg : s.ret < 0
    · have hret : s.ret ≠ s.iovLen.toNat := by omega
      simp [hneg, hret, errorOf]
    have hpos : (s.ret.toNat : Int) = s.ret := Int.toNat_of_nonneg (not_lt.mp hneg)
    by_cases hret : s.ret = s.iovLen.toNat
    · rw [if_neg (not_not.mpr hret), if_pos hret, ih]
      simp [errorOf, hneg, bytesOf, hpos, add_assoc]
    · rw [if_neg hneg, if_pos hret, if_neg hret]
      simp [errorOf, hneg, bytesOf, hpos]

/-- **A vector is transferred like one buffer** exactly if no buffer fails after bytes were
    transferred; a vector that is too long is refused exactly if its length modulo `2 ^ 64` is too
    long as well. -/
theorem vector_right_iff (h : 1 ≤ iov.length ∧ iov.length ≤ IOV_MAX) :
    VectorRight iov (chcoreReadv iov) ∧ VectorRight iov (chcoreWritev iov) ↔
      if POSIX_SSIZE_MAX < vectorLen iov then POSIX_SSIZE_MAX < vectorLen iov % 2 ^ 64
      else bytesOf (upToShort iov) = 0 ∨ errorOf (upToShort iov) = none := by
  show VectorRight iov (transferVector iov) ∧ VectorRight iov (transferVector iov) ↔ _
  rw [and_self_iff]
  have hcount : ¬(iov.length = 0 ∨ IOV_MAX < iov.length) := by omega
  have hcheck : iovCheck iov =
      if POSIX_SSIZE_MAX < vectorLen iov % 2 ^ 64 then -EINVAL else 0 := by
    rw [iovCheck, if_neg hcount, foldl_iovLen]
    simp
  have hle := bytesOf_le iov
  unfold VectorRight transferVector
  rw [hcheck, transferLoop_eq]
  by_cases hlong : POSIX_SSIZE_MAX < vectorLen iov
  · rw [if_pos hlong, if_pos hlong]
    by_cases hwrap : POSIX_SSIZE_MAX < vectorLen iov % 2 ^ 64
    · rw [if_pos hwrap]
      exact iff_of_true rfl hwrap
    rw [if_neg hwrap, if_neg (by simp)]
    refine iff_of_false (fun e => ?_) hwrap
    cases iov with
    | nil => exact absurd h.1 (by decide)
    | cons s rest =>
      have hops := congrArg Prod.snd e
      unfold upToShort at hops
      split at hops <;> cases hops
  have hsmall : toInt32 (0 + bytesOf (upToShort iov)) = bytesOf (upToShort iov) := by
    unfold POSIX_SSIZE_MAX at hlong
    simp only [toInt32, Int.bmod_def]
    omega
  rw [if_neg hlong, if_neg hlong, if_neg (by omega), hsmall]
  cases herr : errorOf (upToShort iov) with
  | none => simp +contextual
  | some r =>
  obtain ⟨s, _, hs⟩ := exists_of_findSome?_eq_some herr
  obtain ⟨hneg, hr⟩ := ite_none_right_eq_some.mp hs
  have hr : r < 0 := some.inj hr ▸ hneg
  simp only [getD_some, true_and, reduceCtorEq, or_false]
  split
  · exact iff_of_true rfl ‹_›
  · exact iff_of_false (by omega) ‹_›

/-- Two buffers of 4 bytes: the second one fails, and the error is returned. -/
def failingVector : List Segment := [⟨4, 4, by decide⟩, ⟨4, -5, by decide⟩]

theorem vector_error_late : ¬ VectorRight failingVector (chcoreReadv failingVector) := by
  unfold VectorRight
  decide

/-- Three buffers, the second one transferred in part. -/
def shortVector : List Segment := [⟨4, 4, by decide⟩, ⟨8, 2, by decide⟩, ⟨4, 4, by decide⟩]

theorem vector_right_short : VectorRight shortVector (chcoreReadv shortVector) ∧
    VectorRight shortVector (chcoreWritev shortVector) :=
  (vector_right_iff _ (by decide)).mpr (by decide)

/-! ## 2. Duplicates -/

/-- The file a read or a write through the descriptor goes to. -/
def Client.serverFile (s : Client) (fd : Int) : Option FastPath :=
  (s.fdDic fd.toNat).bind (·.privateData)

/-- **`F_DUPFD` is right**: an error changes no descriptor; otherwise the result is the lowest
    descriptor from `arg` on that is not in use, both descriptors lead to the file, and either of
    them still does when the other is closed. -/
def DupRight (fs : Addr) (s : Client) (fd arg : Int) : Outcome Client Int → Prop
  | .returned r s' => r < 0 ∧ s'.fdDic = s.fdDic ∨
      arg ≤ r ∧ 0 ≤ r ∧ r < MAX_FD ∧ s.fdDic r.toNat = none ∧
      (∀ k, 0 ≤ k → arg ≤ k → k < r → s.fdDic k.toNat ≠ none) ∧
      s'.serverFile fd = s.serverFile fd ∧ s'.serverFile r = s.serverFile fd ∧
      ∀ a b, a = fd ∧ b = r ∨ a = r ∧ b = fd → ∀ s'', chcoreFileClose fs a s' = .returned 0 s'' →
        s''.serverFile b = s.serverFile fd
  | _ => False

theorem firstFree_some {dic : Nat → Option FdDesc} {n fd k : Nat}
    (h : firstFree dic n fd = some k) : 0 < n ∧ k < fd + n ∧ dic k = none := by
  induction n generalizing fd with
  | zero => cases h
  | succ n ih =>
    unfold firstFree at h
    split at h
    · rename_i hfree
      cases h
      exact ⟨n.succ_pos, by omega, by simpa using hfree⟩
    · obtain ⟨_, hk, hnone⟩ := ih h
      exact ⟨n.succ_pos, by omega, hnone⟩

section

variable {s : Client} {fd : Int} {d : FdDesc}

theorem fdAt_eq (h : 0 ≤ fd ∧ fd < MAX_FD) : fdAt fd s = .returned (s.fdDic fd.toNat) s := by
  have hin : ¬(fd < 0 ∨ (MAX_FD : Int) ≤ fd) := by omega
  unfold fdAt bugOn
  rw [if_neg hin]
  rfl

theorem fdOrStop_eq (h : 0 ≤ fd ∧ fd < MAX_FD) (hd : s.fdDic fd.toNat = some d) :
    fdOrStop fd s = .returned d s := by
  unfold fdOrStop
  rw [bind_of_returned (fdAt_eq h), hd]
  rfl

/-- **The new descriptor** has no `private_data`; where none is free the table is left. -/
theorem fcntlDupfd_eq (arg : Int) :
    fcntlDupfd d arg s = .stopped ∨ ∃ (k : Nat) (s' : Client), k < MAX_FD ∧ s.fdDic k = none ∧
      fcntlDupfd d arg s = .returned (k : Int) s' ∧
      s'.fdDic = update s.fdDic k (some ⟨d.fd, 0, d.type, none⟩) := by
  cases hfree : firstFree s.fdDic (MAX_FD - arg.toNat) arg.toNat with
  | none =>
    have halloc : allocFdSince arg s =
        .returned (if (MAX_FD : Int) < arg then arg else -ENFILE) s := by
      rw [allocFdSince, read_bind, hfree]
      rfl
    have hout : ∀ r : Int, r < 0 ∨ (MAX_FD : Int) ≤ r → fdOrStop r s = .stopped := by
      intro r hr
      unfold fdOrStop fdAt bugOn
      rw [if_pos hr]
      rfl
    left
    rw [fcntlDupfd, bind_of_returned halloc, Code.bind_apply, hout]
    unfold ENFILE
    split <;> omega
  | some k =>
  obtain ⟨_, hk, hnone⟩ := firstFree_some hfree
  have hin : (0 : Int) ≤ k ∧ (k : Int) < MAX_FD := by omega
  let s1 : Client := { s with fdDic := update s.fdDic k (some ⟨0, 0, .file, none⟩) }
  have halloc : allocFdSince arg s = .returned (k : Int) s1 := by
    rw [allocFdSince, read_bind, hfree]
    rfl
  have hset : ∀ x, setFd (k : Int) x s1 =
      .returned () { s1 with fdDic := update s1.fdDic k x } := by
    intro x
    unfold setFd bugOn
    rw [if_neg (by omega)]
    rfl
  refine .inr ⟨k, { s1 with fdDic := update s1.fdDic k (some ⟨d.fd, 0, d.type, none⟩) },
    by omega, hnone, ?_, update_idem ..⟩
  · rw [fcntlDupfd, bind_of_returned halloc,
      bind_of_returned (fdOrStop_eq hin (update_self ..)), bind_of_returned (hset _)]
    rfl

/-- **`F_DUPFD` is never right**, and what it returns cannot be read from and not be written to. -/
theorem dupfd_never_right {fs : Addr} {arg : Int} {fp : FastPath} (h : 3 ≤ fd ∧ fd < MAX_FD)
    (hd : s.fdDic fd.toNat = some d) (hp : d.privateData = some fp) :
    ¬ DupRight fs s fd arg (chcoreFcntl fs fd 0 arg s) ∧
      ∀ r s', chcoreFcntl fs fd 0 arg s = .returned r s' → ∀ buf count,
        chcoreFileRead r buf count s' = .stopped ∧ chcoreFileWrite r buf count s' = .stopped := by
  have hrun : chcoreFcntl fs fd 0 arg s = fcntlDupfd d arg s := by
    unfold chcoreFcntl withFd
    rw [if_neg (by omega), bind_of_returned (fdAt_eq (by omega)), hd]
    rfl
  rw [hrun]
  rcases fcntlDupfd_eq (s := s) (d := d) arg with hstop | ⟨k, s', hk, hnone, hret, hdic⟩
  · rw [hstop]
    exact ⟨id, nofun⟩
  have hnew : s'.fdDic k = some ⟨d.fd, 0, d.type, none⟩ := by rw [hdic, update_self]
  have hin : (0 : Int) ≤ k ∧ (k : Int) < MAX_FD := by omega
  rw [hret]
  constructor
  · rintro (⟨hneg, _⟩ | ⟨_, _, _, _, _, _, hsame, _⟩)
    · omega
    · simp [Client.serverFile, hnew, hd, hp] at hsame
  intro r s'' e buf count
  cases e
  constructor
  · unfold chcoreFileRead withFd
    rw [bind_of_returned (fdAt_eq hin), Int.toNat_natCast, hnew]
    rfl
  · unfold chcoreFileWrite
    rw [bind_of_returned (fdOrStop_eq hin hnew)]
    rfl

/-- A client with a file at descriptor 3. -/
def dupClient : Client :=
  { connectedClient with fdDic := fun n => if n = 3 then some ⟨5, 0, .file, some ⟨0, 7⟩⟩ else none }

theorem dupfd_no_file : ¬ DupRight 0 dupClient 3 0 (chcoreFcntl 0 3 0 0 dupClient) ∧
    ∀ r s', chcoreFcntl 0 3 0 0 dupClient = .returned r s' → ∀ buf count,
      chcoreFileRead r buf count s' = .stopped ∧ chcoreFileWrite r buf count s' = .stopped :=
  dupfd_never_right (by decide) rfl rfl

/-- **The new descriptor leads to no file**: a read through it stops. -/
theorem dupfd_unreadable : ∃ s', chcoreFcntl 0 3 0 0 dupClient = .returned 0 s' ∧
    s'.serverFile 0 = none ∧ chcoreFileRead 0 0 8 s' = .stopped :=
  ⟨_, rfl, rfl, rfl⟩

end

end ChCore.Musl
