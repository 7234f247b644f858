/-
  File: ChCore/Musl/Pipe.lean
  Subject: Pipes (user/musl-1.1.24/src/chcore-port/pipe.c) as byte queues.

  `read_idx` and `write_idx` go around a ring of 1024 places, one of which stays free. What is
  copied does not: every `memcpy` starts at the first byte of `pf->buf` and of the caller's buffer,
  or goes on in `pf->buf` where the one before has ended.

  * `pipe_run` -- a pipe is a FIFO queue on runs that meet `CallOk`: it is filled when it is empty,
    and read once before it is filled again;
  * `pipe_inside_run` -- no run copies past the end of `pf->buf`;
  * `pipe_run_broken` -- a second read, a second write, a message that goes around, a write to a
    full pipe.
-/
import ChCore.Common.Errno
import ChCore.Lib.Bytes
import ChCore.Lib.Run

namespace ChCore.Musl

open Lib Option List

/-! ## 1. The pipe -/

def PIPE_BUF_SIZE : Nat := 1024

/-- `struct pipe_file`. -/
structure PipeFile where
  buf : Nat → UInt8
  readIdx : Nat
  writeIdx : Nat
  readFd : Nat
  writeFd : Nat

variable (readFd writeFd : Nat)

/-- `chcore_pipe2`: the members that are not named are zero. -/
def chcorePipe2 : PipeFile := ⟨fun _ => 0, 0, 0, readFd, writeFd⟩

/-- One `memcpy` into or out of `pf->buf`: its first place there and its length. -/
structure Copy where
  off : Nat
  len : Nat

/-- What a read leaves in the pipe and in the buffer of the caller, what it returns, and where it
    has copied from. -/
structure ReadResult where
  pf : PipeFile
  buf : Nat → UInt8
  r : Int
  copies : List Copy

variable (pf : PipeFile)

/-- `chcore_pipe_read_local`, for an fd of the pipe `pf`. -/
def chcorePipeReadLocal (fd : Nat) (buf : Nat → UInt8) (count : Nat) : ReadResult :=
  if pf.readFd ≠ fd then ⟨pf, buf, -EINVAL, []⟩
  else if pf.readIdx ≤ pf.writeIdx then
    let len := min (pf.writeIdx - pf.readIdx) count
    ⟨{ pf with readIdx := pf.readIdx + len }, patch buf 0 (slice pf.buf 0 len), len, [⟨0, len⟩]⟩
  else
    let len := min (PIPE_BUF_SIZE - pf.readIdx + pf.writeIdx) count
    let lenTmp := min (PIPE_BUF_SIZE - pf.readIdx) len
    let buf := patch buf 0 (slice pf.buf 0 lenTmp)
    let buf := patch buf 0 (slice pf.buf lenTmp (len - lenTmp))
    ⟨{ pf with readIdx := (pf.readIdx + len) % PIPE_BUF_SIZE }, buf, len,
      [⟨0, lenTmp⟩, ⟨lenTmp, len - lenTmp⟩]⟩

structure WriteResult where
  pf : PipeFile
  r : Int
  copies : List Copy

/-- `chcore_pipe_write_local`, for an fd of the pipe `pf`; `data` is `buf` with `count` bytes. -/
def chcorePipeWriteLocal (fd : Nat) (data : List UInt8) : WriteResult :=
  if pf.writeFd ≠ fd then ⟨pf, -EINVAL, []⟩
  else if pf.readIdx ≤ pf.writeIdx then
    let len := min (PIPE_BUF_SIZE + pf.readIdx - pf.writeIdx - 1) data.length
    let lenTmp := min (PIPE_BUF_SIZE - pf.writeIdx) len
    let buf := patch pf.buf 0 (data.take lenTmp)
    let buf := patch buf lenTmp (data.take (len - lenTmp))
    ⟨{ pf with buf := buf, writeIdx := (pf.writeIdx + len) % PIPE_BUF_SIZE }, len,
      [⟨0, lenTmp⟩, ⟨lenTmp, len - lenTmp⟩]⟩
  else
    let len := min (pf.readIdx - pf.writeIdx) data.length
    ⟨{ pf with buf := patch pf.buf 0 (data.take len), writeIdx := pf.writeIdx + len }, len,
      [⟨0, len⟩]⟩

/-! ## 2. What is to hold -/

/-- The calls on the two ends; `buf` is what the buffer of the reader holds before. -/
inductive PipeCall where
  | read (count : Nat) (buf : Nat → UInt8)
  | write (data : List UInt8)

/-- A pipe with all the bytes that writes have accepted and reads have returned. `fresh` says that
    no byte has been read since the last write that has accepted some. -/
structure PipeState where
  pf : PipeFile
  accepted : List UInt8
  returned : List UInt8
  fresh : Bool

def PipeState.init : PipeState := ⟨chcorePipe2 readFd writeFd, [], [], true⟩

/-- How many bytes are queued. -/
def PipeState.queued (s : PipeState) : Nat := s.accepted.length - s.returned.length

/-- The bytes that a read has put into the buffer of its caller. -/
def ReadResult.out (x : ReadResult) : List UInt8 := slice x.buf 0 x.r.toNat

def pipeStep (s : PipeState) : PipeCall → Option PipeState
  | .read count buf =>
    let res := chcorePipeReadLocal s.pf s.pf.readFd buf count
    some { s with
      pf := res.pf
      returned := s.returned ++ res.out
      fresh := s.fresh && res.out.isEmpty }
  | .write data =>
    let res := chcorePipeWriteLocal s.pf s.pf.writeFd data
    some { s with
      pf := res.pf
      accepted := s.accepted ++ data.take res.r.toNat
      fresh := s.fresh || !(data.take res.r.toNat).isEmpty }

/-- The copies of a call. -/
def PipeState.copies (s : PipeState) : PipeCall → List Copy
  | .read count buf => (chcorePipeReadLocal s.pf s.pf.readFd buf count).copies
  | .write data => (chcorePipeWriteLocal s.pf s.pf.writeFd data).copies

/-- How many bytes a call has to move. -/
def PipeState.moves (s s' : PipeState) : PipeCall → Prop
  | .read count _ => s'.returned.length = s.returned.length + min count s.queued
  | .write data =>
    s'.accepted.length = s.accepted.length + min data.length (PIPE_BUF_SIZE - 1 - s.queued)

instance (s s' : PipeState) (a : PipeCall) : Decidable (s.moves s' a) := by
  cases a <;> unfold PipeState.moves <;> infer_instance

/-- **A call on a FIFO queue** of 1023 bytes. -/
structure CallRight (t : Transition PipeState PipeCall) : Prop where
  fifo : t.post.returned <+: t.post.accepted
  moves : t.pre.moves t.post t.act
  inside : ∀ c ∈ t.pre.copies t.act, ∀ k, c.off ≤ k → k < c.off + c.len → k < PIPE_BUF_SIZE

/-- The calls that work: a write of nothing, to a full pipe or to an empty one without going around;
    a read of nothing, from an empty pipe or the first one since the last write. -/
def CallOk (s : PipeState) : PipeCall → Prop
  | .read count _ => count = 0 ∨ s.pf.readIdx = s.pf.writeIdx ∨ s.fresh
  | .write data => data = [] ∨ s.pf.writeIdx = s.pf.readIdx + (PIPE_BUF_SIZE - 1) ∨
      s.pf.readIdx = s.pf.writeIdx ∧
        s.pf.writeIdx + min (PIPE_BUF_SIZE - 1) data.length ≤ PIPE_BUF_SIZE

instance (s : PipeState) (a : PipeCall) : Decidable (CallOk s a) := by
  cases a <;> unfold CallOk <;> infer_instance

/-! ## 3. The invariant -/

/-- How many bytes the two indices stand for. -/
def PipeFile.fill : Nat :=
  if pf.readIdx ≤ pf.writeIdx then pf.writeIdx - pf.readIdx
  else PIPE_BUF_SIZE - pf.readIdx + pf.writeIdx

/-- The indices are places of the ring. -/
structure IndexInv (s : PipeState) : Prop where
  readLt : s.pf.readIdx < PIPE_BUF_SIZE
  writeLt : s.pf.writeIdx < PIPE_BUF_SIZE

structure PipeInv (s : PipeState) : Prop extends IndexInv s where
  straight : s.pf.readIdx ≤ s.pf.writeIdx ∨ s.pf.writeIdx = 0
  queue : ∃ rest, s.accepted = s.returned ++ rest ∧ rest.length = s.pf.fill ∧
    (s.fresh → slice s.pf.buf 0 rest.length = rest)

variable {s s' : PipeState} {count : Nat} {buf : Nat → UInt8} {data : List UInt8}

theorem indexInv_init : IndexInv (.init readFd writeFd) :=
  ⟨Nat.succ_pos 1023, Nat.succ_pos 1023⟩

theorem pipeInv_init : PipeInv (.init readFd writeFd) :=
  ⟨indexInv_init readFd writeFd, .inr rfl, [], rfl, rfl, fun _ => rfl⟩

theorem PipeInv.queued_eq (h : PipeInv s) : s.queued = s.pf.fill := by
  obtain ⟨rest, hacc, hlen, -⟩ := h.queue
  rw [PipeState.queued, hacc, length_append]
  omega

/-- **What a read does**, as long as the bytes do not go around. -/
theorem read_spec (h : PipeInv s) (count : Nat) (buf : Nat → UInt8) :
    (chcorePipeReadLocal s.pf s.pf.readFd buf count).out = slice s.pf.buf 0 (min s.pf.fill count) ∧
      ∃ r', (chcorePipeReadLocal s.pf s.pf.readFd buf count).pf = { s.pf with readIdx := r' } ∧
        r' < PIPE_BUF_SIZE ∧ (r' ≤ s.pf.writeIdx ∨ s.pf.writeIdx = 0) ∧
        PipeFile.fill { s.pf with readIdx := r' } = s.pf.fill - min s.pf.fill count := by
  have hout : ∀ (f : Nat → UInt8) (n : Nat),
      slice (patch f 0 (slice s.pf.buf 0 n)) 0 n = slice s.pf.buf 0 n := by
    intro f n
    have := slice_patch f (slice s.pf.buf 0 n)
    rwa [length_slice] at this
  obtain ⟨⟨hr, hw⟩, hstraight, -⟩ := h
  unfold PIPE_BUF_SIZE at hr hw
  by_cases hle : s.pf.readIdx ≤ s.pf.writeIdx
  · have hfill : s.pf.fill = s.pf.writeIdx - s.pf.readIdx := if_pos hle
    rw [chcorePipeReadLocal, if_neg (not_not.mpr rfl), if_pos hle, hfill]
    refine ⟨hout _ _, _, rfl, ?_, .inl ?_, ?_⟩
    · unfold PIPE_BUF_SIZE
      omega
    · omega
    · rw [PipeFile.fill, if_pos (by simp only; omega)]
      simp only
      omega
  -- the pipe has been filled up to its end: nothing is copied from the start of the ring
  have hzero : s.pf.writeIdx = 0 := hstraight.resolve_left hle
  have hfill : s.pf.fill = PIPE_BUF_SIZE - s.pf.readIdx := by
    rw [PipeFile.fill, if_neg hle, hzero, add_zero]
  have hlen : min (PIPE_BUF_SIZE - s.pf.readIdx) (min (PIPE_BUF_SIZE - s.pf.readIdx) count) =
      min (PIPE_BUF_SIZE - s.pf.readIdx) count := by omega
  have hsum : PIPE_BUF_SIZE - s.pf.readIdx + s.pf.writeIdx = PIPE_BUF_SIZE - s.pf.readIdx := by
    rw [hzero, add_zero]
  rw [chcorePipeReadLocal, if_neg (not_not.mpr rfl), if_neg hle, hfill]
  simp only [hsum, hlen, Nat.sub_self, slice_zero, patch_nil]
  refine ⟨hout _ _, _, rfl, Nat.mod_lt _ (by decide), .inr hzero, ?_⟩
  simp only [PipeFile.fill, hzero]
  unfold PIPE_BUF_SIZE
  split <;> omega

/-- A write of nothing, or to a full pipe. -/
theorem write_nothing (h : PipeInv s)
    (hno : data = [] ∨ s.pf.writeIdx = s.pf.readIdx + (PIPE_BUF_SIZE - 1)) :
    (chcorePipeWriteLocal s.pf s.pf.writeFd data).r = 0 ∧
      (chcorePipeWriteLocal s.pf s.pf.writeFd data).pf = s.pf ∧
      min data.length (PIPE_BUF_SIZE - 1 - s.pf.fill) = 0 := by
  obtain ⟨⟨hr, hw⟩, -, -⟩ := h
  rw [chcorePipeWriteLocal, if_neg (not_not.mpr rfl)]
  by_cases hle : s.pf.readIdx ≤ s.pf.writeIdx
  · have hlen : min (PIPE_BUF_SIZE + s.pf.readIdx - s.pf.writeIdx - 1) data.length = 0 := by
      rcases hno with rfl | hfull
      · exact Nat.min_zero _
      · omega
    have hmod : s.pf.writeIdx % PIPE_BUF_SIZE = s.pf.writeIdx := Nat.mod_eq_of_lt hw
    rw [if_pos hle, PipeFile.fill, if_pos hle]
    simp only [hlen, Nat.min_zero, Nat.sub_zero, take_zero, patch_nil, add_zero, hmod]
    refine ⟨rfl, trivial, ?_⟩
    omega
  · obtain rfl : data = [] := hno.resolve_right fun hfull => hle (hfull ▸ Nat.le_add_right _ _)
    rw [if_neg hle]
    simp

/-- A write that fills an empty pipe and does not go around. -/
theorem write_empty (h : PipeInv s) (he : s.pf.readIdx = s.pf.writeIdx)
    (hfit : s.pf.writeIdx + min (PIPE_BUF_SIZE - 1) data.length ≤ PIPE_BUF_SIZE) :
    (chcorePipeWriteLocal s.pf s.pf.writeFd data).r.toNat = min (PIPE_BUF_SIZE - 1) data.length ∧
      ∃ buf w', (chcorePipeWriteLocal s.pf s.pf.writeFd data).pf =
          { s.pf with buf := buf, writeIdx := w' } ∧
        w' < PIPE_BUF_SIZE ∧ (s.pf.readIdx ≤ w' ∨ w' = 0) ∧
        slice buf 0 (min (PIPE_BUF_SIZE - 1) data.length) =
          data.take (min (PIPE_BUF_SIZE - 1) data.length) ∧
        PipeFile.fill { s.pf with buf := buf, writeIdx := w' } =
          min (PIPE_BUF_SIZE - 1) data.length := by
  have hw := h.writeLt
  have hsum : PIPE_BUF_SIZE + s.pf.readIdx - s.pf.writeIdx - 1 = PIPE_BUF_SIZE - 1 := by omega
  have hlen : min (PIPE_BUF_SIZE - s.pf.writeIdx) (min (PIPE_BUF_SIZE - 1) data.length) =
      min (PIPE_BUF_SIZE - 1) data.length := by omega
  rw [chcorePipeWriteLocal, if_neg (not_not.mpr rfl), if_pos (le_of_eq he)]
  simp only [hsum, hlen, Nat.sub_self, take_zero, patch_nil]
  refine ⟨rfl, _, _, rfl, Nat.mod_lt _ (by decide), ?_, ?_, ?_⟩
  · unfold PIPE_BUF_SIZE at hfit hw ⊢
    omega
  · have hcopied := slice_patch s.pf.buf (data.take (min (PIPE_BUF_SIZE - 1) data.length))
    rw [length_take, Nat.min_eq_left (Nat.min_le_right _ _)] at hcopied
    exact hcopied
  · simp only [PipeFile.fill]
    unfold PIPE_BUF_SIZE at hfit hw ⊢
    split <;> omega

/-! ## 4. Calls -/

theorem copies_inside (h : IndexInv s) (a : PipeCall) :
    ∀ c ∈ s.copies a, ∀ k, c.off ≤ k → k < c.off + c.len → k < PIPE_BUF_SIZE := by
  obtain ⟨hr, hw⟩ := h
  intro c hc k _ hk
  refine lt_of_lt_of_le hk ?_
  unfold PIPE_BUF_SIZE at hr hw ⊢
  cases a with
  | read count buf =>
    rw [PipeState.copies, chcorePipeReadLocal, if_neg (not_not.mpr rfl)] at hc
    split at hc
    · obtain rfl := mem_singleton.mp hc
      simp only
      omega
    simp only [PIPE_BUF_SIZE, mem_cons, not_mem_nil, or_false] at hc
    rcases hc with rfl | rfl
    · simp only
      omega
    · simp only
      omega
  | write data =>
  rw [PipeState.copies, chcorePipeWriteLocal, if_neg (not_not.mpr rfl)] at hc
  split at hc
  · simp only [PIPE_BUF_SIZE, mem_cons, not_mem_nil, or_false] at hc
    rcases hc with rfl | rfl
    · simp only
      omega
    · simp only
      omega
  · obtain rfl := mem_singleton.mp hc
    simp only
    omega

theorem IndexInv.step {a : PipeCall} (h : IndexInv s) (hs : pipeStep s a = some s') :
    IndexInv s' := by
  obtain ⟨hr, hw⟩ := h
  have hmod : ∀ n, n % PIPE_BUF_SIZE < PIPE_BUF_SIZE := fun n => Nat.mod_lt n (by decide)
  cases a with
  | read count buf =>
    obtain rfl := some.inj hs
    simp only [chcorePipeReadLocal, ne_eq, not_true_eq_false, if_false]
    split
    · exact ⟨by simp only; omega, hw⟩
    · exact ⟨hmod _, hw⟩
  | write data =>
    obtain rfl := some.inj hs
    simp only [chcorePipeWriteLocal, ne_eq, not_true_eq_false, if_false]
    split
    · exact ⟨hr, hmod _⟩
    · exact ⟨hr, by simp only; omega⟩

theorem PipeInv.read (h : PipeInv s) (hok : CallOk s (.read count buf))
    (hs : pipeStep s (.read count buf) = some s') :
    PipeInv s' ∧ CallRight ⟨s, .read count buf, s'⟩ := by
  obtain ⟨hout, r', hpf, hr', hstraight, hfill⟩ := read_spec h count buf
  have hqueued := h.queued_eq
  obtain ⟨rest, hacc, hlen, hfresh⟩ := h.queue
  obtain rfl := some.inj hs
  simp only [hpf, hout]
  -- what has been read is the front of the queue
  have hfront : slice s.pf.buf 0 (min s.pf.fill count) = rest.take (min s.pf.fill count) := by
    rcases hok with rfl | hempty | hf
    · rw [Nat.min_zero, slice_zero, take_zero]
    · have hzero : s.pf.fill = 0 := by
        rw [PipeFile.fill, if_pos (le_of_eq hempty), hempty, Nat.sub_self]
      rw [hzero, Nat.zero_min, slice_zero, take_zero]
    · have hsplit := slice_add s.pf.buf 0 (min s.pf.fill count) (s.pf.fill - min s.pf.fill count)
      rw [Nat.add_sub_cancel' (min_le_left _ _), ← hlen, hfresh hf, hlen] at hsplit
      rw [hsplit, take_left' (length_slice _ _ _)]
  have hback : s.accepted = (s.returned ++ rest.take (min s.pf.fill count)) ++
      rest.drop (min s.pf.fill count) := by
    rw [append_assoc, take_append_drop]
    exact hacc
  rw [hfront]
  refine ⟨⟨⟨hr', h.writeLt⟩, hstraight, rest.drop (min s.pf.fill count), hback, ?_, fun hf => ?_⟩,
    ⟨_, hback.symm⟩, ?_, copies_inside h.toIndexInv _⟩
  · rw [length_drop, hlen, hfill]
  · -- the bytes still start at the first place if none has been read
    obtain ⟨hf, hnone⟩ := Bool.and_eq_true_iff.mp hf
    have hzero : rest.take (min s.pf.fill count) = [] := isEmpty_iff.mp hnone
    have hrest : rest.drop (min s.pf.fill count) = rest := by
      have := take_append_drop (min s.pf.fill count) rest
      rwa [hzero] at this
    rw [hrest]
    exact hfresh hf
  · simp only [PipeState.moves, length_append, length_take, hlen, hqueued]
    omega

theorem PipeInv.write (h : PipeInv s) (hok : CallOk s (.write data))
    (hs : pipeStep s (.write data) = some s') :
    PipeInv s' ∧ CallRight ⟨s, .write data, s'⟩ := by
  have hqueued := h.queued_eq
  obtain ⟨rest, hacc, hlen, hfresh⟩ := h.queue
  obtain rfl := some.inj hs
  by_cases hno : data = [] ∨ s.pf.writeIdx = s.pf.readIdx + (PIPE_BUF_SIZE - 1)
  · obtain ⟨hr, hpf, hmin⟩ := write_nothing h hno
    simp only [hr, hpf, Int.toNat_zero, take_zero, append_nil, isEmpty_nil,
      Bool.not_true, Bool.or_false]
    refine ⟨⟨h.toIndexInv, h.straight, rest, hacc, hlen, hfresh⟩, ⟨rest, hacc.symm⟩, ?_,
      copies_inside h.toIndexInv _⟩
    simp only [PipeState.moves, hqueued, hmin, add_zero]
  obtain ⟨hne, hnotfull⟩ := not_or.mp hno
  obtain ⟨he, hfit⟩ := (hok.resolve_left hne).resolve_left hnotfull
  obtain ⟨hr, buf, w', hpf, hw', hstraight, hcopied, hfill⟩ := write_empty h he hfit
  have hzero : s.pf.fill = 0 := by
    rw [PipeFile.fill, if_pos (le_of_eq he), he, Nat.sub_self]
  obtain rfl : rest = [] := eq_nil_of_length_eq_zero (hlen.trans hzero)
  rw [append_nil] at hacc
  simp only [hr, hpf, hacc]
  have htake : (data.take (min (PIPE_BUF_SIZE - 1) data.length)).length =
      min (PIPE_BUF_SIZE - 1) data.length := by
    rw [length_take, Nat.min_eq_left (min_le_right _ _)]
  refine ⟨⟨⟨h.readLt, hw'⟩, hstraight, _, rfl, ?_, fun _ => ?_⟩, ⟨_, rfl⟩, ?_,
    copies_inside h.toIndexInv _⟩
  · rw [htake, hfill]
  · rw [htake]
    exact hcopied
  · simp only [PipeState.moves, length_append, htake, hqueued, hzero, hacc]
    omega

theorem pipeStep_right {a : PipeCall} (h : PipeInv s) (hok : CallOk s a)
    (hs : pipeStep s a = some s') : PipeInv s' ∧ CallRight ⟨s, a, s'⟩ := by
  cases a with
  | read count buf => exact h.read hok hs
  | write data => exact h.write hok hs

/-! ## 5. Whole runs -/

section Runs

variable (readFd writeFd : Nat) (calls : List PipeCall)

/-- **Every run** stays inside the buffer, whatever it reads and writes. -/
theorem pipe_inside_run :
    ∀ t ∈ trace pipeStep (.init readFd writeFd) calls,
      ∀ c ∈ t.pre.copies t.act, ∀ k, c.off ≤ k → k < c.off + c.len → k < PIPE_BUF_SIZE := by
  intro t ht
  have hstep : ∀ s a s', IndexInv s → True → pipeStep s a = some s' → IndexInv s' :=
    fun _ _ _ h _ hs => h.step hs
  exact copies_inside (trace_inv hstep calls _ (indexInv_init readFd writeFd)
    (fun _ _ => trivial) t ht).1 t.act

/-- **A pipe is a FIFO queue** on every run whose calls meet `CallOk`. -/
theorem pipe_run (hok : ∀ t ∈ trace pipeStep (.init readFd writeFd) calls, CallOk t.pre t.act) :
    ∀ t ∈ trace pipeStep (.init readFd writeFd) calls, CallRight t := by
  intro t ht
  have hpre := (trace_inv (fun _ _ _ h hc hs => (pipeStep_right h hc hs).1) calls _
    (pipeInv_init readFd writeFd) hok t ht).1
  exact (pipeStep_right hpre (hok t ht) (trace_step calls _ ht)).2

end Runs

/-- Two messages, each read at once: the second one needs the place up to the end of the ring. -/
def messagesRun : List PipeCall :=
  [.write [1, 2, 3], .read 10 (fun _ => 7), .write (List.replicate 1021 4), .read 2000 (fun _ => 7),
    .read 5 (fun _ => 7)]

theorem pipe_inside_messages : (trace pipeStep (.init 3 4) messagesRun).length = 5 ∧
    ∀ t ∈ trace pipeStep (.init 3 4) messagesRun, ∀ c ∈ t.pre.copies t.act,
      ∀ k, c.off ≤ k → k < c.off + c.len → k < 1024 :=
  ⟨by decide +kernel, pipe_inside_run 3 4 messagesRun⟩

theorem pipe_run_messages :
    (∀ t ∈ trace pipeStep (.init 3 4) messagesRun, CallOk t.pre t.act) ∧
      ∀ t ∈ trace pipeStep (.init 3 4) messagesRun, CallRight t := by
  have hok : ∀ t ∈ trace pipeStep (.init 3 4) messagesRun, CallOk t.pre t.act := by decide +kernel
  exact ⟨hok, pipe_run 3 4 messagesRun hok⟩

/-- A run that ends with a wrong byte among those that have been read. -/
theorem exists_not_fifo {call : PipeCall} {calls : List PipeCall} (i : Nat)
    (h : (exec pipeStep (.init 3 4) (call :: calls)).any (fun s =>
      i < s.returned.length ∧ s.returned[i]? ≠ s.accepted[i]?) = true) :
    ∃ t ∈ trace pipeStep (.init 3 4) (call :: calls), ¬ CallRight t := by
  obtain ⟨t, ht, hlt, hother⟩ := trace_of_exec h
  refine ⟨t, ht, fun hright => hother ?_⟩
  obtain ⟨rest, hrest⟩ := hright.fifo
  rw [← hrest, List.getElem?_append_left hlt]

/-- A message of thirty bytes where only 24 places are left up to the end of the ring. -/
def aroundRun : List PipeCall :=
  [.write (List.replicate 1000 0), .read 1000 (fun _ => 7),
    .write ((List.range 30).map UInt8.ofNat), .read 30 (fun _ => 7)]

/-- The pipe is filled up after one byte has gone through it, and written to again. -/
def fullRun : List PipeCall :=
  [.write [1], .read 1 (fun _ => 7), .write (List.replicate 1023 2), .write [3]]

/-- **Four runs that are no FIFO queue.** Two reads return the same byte. A second write lands on
    the first. A message that goes around comes back with bytes the reader had before. A full pipe
    accepts one more byte, and is empty then. -/
theorem pipe_run_broken :
    (∃ t ∈ trace pipeStep (.init 3 4) [.write [1, 2], .read 1 (fun _ => 7), .read 1 (fun _ => 7)],
      ¬ CallRight t) ∧
    (∃ t ∈ trace pipeStep (.init 3 4) [.write [1], .write [2], .read 2 (fun _ => 7)],
      ¬ CallRight t) ∧
    (∃ t ∈ trace pipeStep (.init 3 4) aroundRun, ¬ CallRight t) ∧
    ∃ t ∈ trace pipeStep (.init 3 4) fullRun, ¬ CallRight t := by
  refine ⟨?_, ?_, ?_, ?_⟩
  · exact exists_not_fifo 1 (by decide +kernel)
  · exact exists_not_fifo 0 (by decide +kernel)
  · exact exists_not_fifo 1024 (by decide +kernel)
  have hmany : (trace pipeStep (.init 3 4) fullRun).any (fun t => ¬ t.pre.moves t.post t.act) =
      true := by
    decide +kernel
  obtain ⟨t, ht, hbad⟩ := any_eq_true.mp hmany
  exact ⟨t, ht, fun hright => of_decide_eq_true hbad hright.moves⟩

end ChCore.Musl
