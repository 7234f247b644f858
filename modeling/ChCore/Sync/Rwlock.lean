/-
  File: ChCore/Sync/Rwlock.lean
  Subject: The readers-writer lock (`sync/rwlock.c` of both architectures) under every interleaving.

  A step is one pass of a loop: an exclusive load and store, or one locked instruction. `read_lock`
  and `write_lock` repeat `read_try_lock` and `write_try_lock` until they answer 0.

  * **`rwlock_run_iff`** -- readers or one writer: on aarch64 in every run, on x86_64, where a
    pass that fails still adds one, in those where no pass carries out of the low 31 bits;
  * **`read_enters`** -- on x86_64 a reader that spins long enough enters beside the writer.
-/
import ChCore.Lib.Run

namespace ChCore.Sync

open Lib List

inductive Arch where
  | aarch64
  | x86_64

/-- `struct rwlock`, and the threads that hold it. -/
structure Rwlock where
  lock : BitVec 32
  readers : List Nat
  writers : List Nat

def rwlockInit : Rwlock := ⟨0, [], []⟩

/-- `read_try_lock`, or one pass of `read_lock`: the answer and the word. `stored` is the outcome
    of `stxr`. -/
def readTryLock (stored : Bool) (lock : BitVec 32) : Arch → Int × BitVec 32
  | .aarch64 => if (lock + 1).msb || !stored then (-1, lock) else (0, lock + 1)
  | .x86_64 => (if lock.msb then -1 else 0, lock + 1)

/-- `write_try_lock`, or one pass of `write_lock`. -/
def writeTryLock (stored : Bool) (lock : BitVec 32) : Arch → Int × BitVec 32
  | .aarch64 => if lock ≠ 0 ∨ stored = false then (-1, lock) else (0, 0x80000000)
  | .x86_64 => if lock ≠ 0 then (-1, lock) else (0, 0x80000000)

inductive RwAct where
  | readTry (t : Nat) (stored : Bool)
  | readUnlock (t : Nat)
  | writeTry (t : Nat) (stored : Bool)
  | writeUnlock (t : Nat)

/-- One step of thread `t`; only who holds the lock gives it back. -/
def rwStep (A : Arch) (s : Rwlock) : RwAct → Option Rwlock
  | .readTry t stored =>
    let r := readTryLock stored s.lock A
    some ⟨r.2, if r.1 = 0 then t :: s.readers else s.readers, s.writers⟩
  | .readUnlock t =>
    if t ∈ s.readers then some ⟨s.lock - 1, s.readers.erase t, s.writers⟩ else none
  | .writeTry t stored =>
    let r := writeTryLock stored s.lock A
    some ⟨r.2, s.readers, if r.1 = 0 then t :: s.writers else s.writers⟩
  | .writeUnlock t =>
    if t ∈ s.writers then some ⟨0, s.readers, s.writers.erase t⟩ else none

/-- The largest word beside a writer: on aarch64 a reader that fails does not write. -/
def Arch.top : Arch → Nat
  | .aarch64 => 2 ^ 31
  | .x86_64 => 2 ^ 32

/-- **Readers and their number, or one writer and the top bit.** -/
def Rwlock.Right (A : Arch) (s : Rwlock) : Prop :=
  s.writers.length = 0 ∧ s.lock.toNat = s.readers.length ∧ s.readers.length < 2 ^ 31 ∨
    s.writers.length = 1 ∧ s.readers.length = 0 ∧ 2 ^ 31 ≤ s.lock.toNat ∧ s.lock.toNat ≤ A.top

/-- The step does not carry out of the low 31 bits. -/
def NoCarry (s : Rwlock) : Arch → RwAct → Prop
  | .x86_64, .readTry _ _ => s.lock.toNat % 2 ^ 31 + 1 < 2 ^ 31
  | _, _ => True

variable {A : Arch} {s s' : Rwlock} {a : RwAct}

theorem msb_iff {w : BitVec 32} : w.msb = true ↔ 2 ^ 31 ≤ w.toNat := by
  simp [BitVec.msb_eq_decide]

theorem rwStep_right_iff (h : s.Right A) (hs : rwStep A s a = some s') :
    s'.Right A ↔ NoCarry s A a := by
  unfold Rwlock.Right at h ⊢
  cases a with
  | readTry t stored =>
    cases hs
    cases A with
    | aarch64 =>
      simp only [readTryLock, NoCarry, Bool.or_eq_true, msb_iff, Arch.top, iff_true] at h ⊢
      split
      · exact h
      · simp only [if_true, length_cons]
        bv_omega
    | x86_64 =>
      simp only [readTryLock, NoCarry, msb_iff, Arch.top]
      split
      · simp only [reduceCtorEq, if_false]
        bv_omega
      · simp only [if_true, length_cons]
        bv_omega
  | writeTry t stored =>
    cases hs
    cases A with
    | aarch64 | x86_64 =>
      simp only [NoCarry, iff_true, writeTryLock]
      split
      · exact h
      · simp only [if_true, length_cons, Arch.top] at h ⊢
        bv_omega
  | readUnlock t | writeUnlock t =>
    obtain ⟨ht, hs⟩ := Option.ite_none_right_eq_some.mp hs
    cases hs
    have hlen := length_erase_of_mem ht
    have hpos := length_pos_of_mem ht
    simp only [NoCarry, iff_true]
    bv_omega

/-- **The word is right along a run** exactly as long as no pass of a reader carries. -/
theorem rwlock_run_iff (A : Arch) (as : List RwAct) :
    (∀ t ∈ trace (rwStep A) rwlockInit as, t.post.Right A) ↔
      ∀ t ∈ trace (rwStep A) rwlockInit as, NoCarry t.pre A t.act :=
  trace_all_iff (I := Rwlock.Right A) (fun _ _ _ => rwStep_right_iff)
    (fun _ _ _ h hc hs => (rwStep_right_iff h hs).mpr hc) as _ (.inl ⟨rfl, rfl, by decide⟩)

/-- On x86_64 every pass of a reader that waits adds one. -/
theorem read_spins (t : Nat) (b : Bool) (h : s.lock.msb = true) {n : Nat}
    (hn : s.lock.toNat + n ≤ 2 ^ 32) :
    exec (rwStep .x86_64) s (replicate n (.readTry t b)) =
      some { s with lock := s.lock + BitVec.ofNat 32 n } := by
  induction n with
  | zero => simp [exec]
  | succ n ih =>
    have hle := msb_iff.mp h
    have hmsb : (s.lock + BitVec.ofNat 32 n).msb = true := msb_iff.mpr (by bv_omega)
    rw [replicate_succ', exec_append _ (ih (by omega))]
    simp [exec, rwStep, readTryLock, hmsb, BitVec.add_assoc, BitVec.ofNat_add]

/-- **A reader enters beside the writer**, if it spins long enough. -/
theorem read_enters (s : Rwlock) (t : Nat) (b : Bool) (h : s.lock.msb = true) :
    exec (rwStep .x86_64) s (replicate (2 ^ 32 - s.lock.toNat + 1) (.readTry t b)) =
      some ⟨1, t :: s.readers, s.writers⟩ := by
  have hzero : s.lock + BitVec.ofNat 32 (2 ^ 32 - s.lock.toNat) = 0 := by bv_omega
  rw [replicate_succ', exec_append _ (read_spins t b h (by omega)), hzero]
  simp [exec, rwStep, readTryLock]

theorem read_enters_held : exec (rwStep .x86_64) ⟨0x80000000, [], [1]⟩
    (replicate (2 ^ 31 + 1) (.readTry 2 true)) = some ⟨1, [2], [1]⟩ :=
  read_enters ⟨0x80000000, [], [1]⟩ 2 true rfl

end ChCore.Sync
