/-
  File: ChCore/Ipc/Notification.lean
  Subject: Notification objects (`kernel/ipc/notification.c`) under any interleaving of
    `wait_notific` without a timeout and `signal_notific`.

  Both calls run under `notifc_lock`, so a run is a list of whole calls. The log records what the
  calls did; the law of the object compares the log with its two counters and its queue.

  * `notific_balanced_run` -- counters, queue and log agree exactly in the runs in which neither 32
    bit counter wraps.
-/
import ChCore.Common.Errno
import ChCore.Lib.Run

namespace ChCore.Ipc.Notification

open Lib Function List Option

/-! ## 1. The source -/

/-- `struct notification`; the two counters are `u32`. -/
structure Notific where
  notDeliveredNotifcCount : BitVec 32
  waitingThreadsCount : BitVec 32
  waitingThreads : List Nat
  deriving DecidableEq, Repr

def initNotific : Notific := ⟨0, 0, []⟩

/-- How `wait_notific` ends for its caller. -/
inductive WaitAnswer where
  | returned (ret : Int)
  | blocked
  deriving DecidableEq, Repr

variable {s s' : State} (n : Notific)

/-- `wait_notific` under `notifc_lock`. -/
def waitNotific (currentThread : Nat) (isBlock : Bool) : Notific × WaitAnswer :=
  if 0 < n.notDeliveredNotifcCount then
    ({ n with notDeliveredNotifcCount := n.notDeliveredNotifcCount - 1 }, .returned 0)
  else if isBlock then
    ({ n with
        waitingThreads := n.waitingThreads ++ [currentThread]
        waitingThreadsCount := n.waitingThreadsCount + 1 }, .blocked)
  else (n, .returned (-EAGAIN))

/-- `signal_notific` under `notifc_lock`, with the thread it takes off the queue (`none` = the
    counter claims a waiter and the queue has none: the list head is taken for a thread). -/
def signalNotific : Option (Notific × Option Nat) :=
  if 0 < n.notDeliveredNotifcCount ∨ n.waitingThreadsCount = 0 then
    some ({ n with notDeliveredNotifcCount := n.notDeliveredNotifcCount + 1 }, none)
  else
    match n.waitingThreads with
    | [] => none
    | target :: rest =>
      some ({ n with
        waitingThreads := rest
        waitingThreadsCount := n.waitingThreadsCount - 1 }, some target)

theorem not_pos_iff {b : BitVec 32} : ¬ 0 < b ↔ b = 0 := by bv_omega

theorem waitNotific_cases (t : Nat) (isBlock : Bool) :
    (∃ o r, waitNotific n t isBlock = (o, .returned r) ∧ o.waitingThreads = n.waitingThreads) ∨
    (isBlock = true ∧ n.notDeliveredNotifcCount = 0 ∧ ∃ o, waitNotific n t isBlock = (o, .blocked) ∧
      o.waitingThreads = n.waitingThreads ++ [t]) := by
  unfold waitNotific
  by_cases hnd : 0 < n.notDeliveredNotifcCount
  · rw [if_pos hnd]
    exact .inl ⟨_, _, rfl, rfl⟩
  rw [if_neg hnd]
  cases isBlock with
  | false => exact .inl ⟨_, _, rfl, rfl⟩
  | true => exact .inr ⟨rfl, not_pos_iff.mp hnd, _, rfl, rfl⟩

theorem signalNotific_queue {n o : Notific} {target : Option Nat}
    (h : signalNotific n = some (o, target)) :
    n.waitingThreads = target.toList ++ o.waitingThreads := by
  unfold signalNotific at h
  split at h
  · cases h
    rfl
  split at h
  · cases h
  rename_i hw
  cases h
  exact hw

/-! ## 2. Runs -/

/-- What a call did: a signal, a wait that returned, a wait that blocked, a wait that was woken
    with the return value in the context of its thread. -/
inductive Event where
  | signal
  | returned (thread : Nat) (ret : Int)
  | blocked (thread : Nat)
  | woken (thread : Nat) (ret : Int)
  deriving DecidableEq, Repr

structure State where
  notifc : Notific
  /-- `arch_set_thread_return`: the return value in the context of a thread. -/
  threadReturn : Nat → Int
  log : List Event

def State.init : State := ⟨initNotific, fun _ => 0, []⟩

inductive Call where
  | wait (thread : Nat) (isBlock : Bool)
  | signal
  deriving DecidableEq, Repr

/-- One call. A thread that is blocked makes none. -/
def step (s : State) : Call → Option State
  | .wait t isBlock =>
    if t ∈ s.notifc.waitingThreads then none
    else match waitNotific s.notifc t isBlock with
      | (n, .returned ret) => some { s with notifc := n, log := s.log ++ [.returned t ret] }
      | (n, .blocked) => some
          { notifc := n
            threadReturn := update s.threadReturn t 0
            log := s.log ++ [.blocked t] }
  | .signal =>
    match signalNotific s.notifc with
    | none => none
    | some (n, none) => some { s with notifc := n, log := s.log ++ [.signal] }
    | some (n, some t) => some
        { s with notifc := n, log := s.log ++ [.signal, .woken t (s.threadReturn t)] }

/-! ## 3. The law of the object -/

def Event.isSignal : Event → Bool
  | .signal => true
  | _ => false

/-- A wait that returned or was woken with 0. -/
def Event.isZeroWait : Event → Bool
  | .returned _ ret => ret = 0
  | .woken _ ret => ret = 0
  | _ => false

def Event.blocks : Event → Option Nat
  | .blocked t => some t
  | _ => none

def Event.wakes : Event → Option Nat
  | .woken t _ => some t
  | _ => none

/-- **The law of a notification object.** -/
structure Balanced (s : State) : Prop where
  /-- the count of waiters is the length of the queue -/
  count : s.notifc.waitingThreadsCount.toNat = s.notifc.waitingThreads.length
  /-- nobody waits while a signal is not delivered -/
  quiet : 0 < s.notifc.notDeliveredNotifcCount → s.notifc.waitingThreads = []
  /-- every signal went to one wait or is not delivered yet -/
  conserve : s.log.countP Event.isSignal =
    s.log.countP Event.isZeroWait + s.notifc.notDeliveredNotifcCount.toNat
  /-- the threads that blocked are those woken, in this order, and then the queue -/
  fifo : s.log.filterMap Event.blocks = s.log.filterMap Event.wakes ++ s.notifc.waitingThreads

/-- The invariant: the law, and a waiter will return 0. -/
structure Inv (s : State) : Prop extends Balanced s where
  zero : ∀ t ∈ s.notifc.waitingThreads, s.threadReturn t = 0

/-- **The condition on a call**: the counter it raises is not at its largest value. -/
def CallCounts (s : State) : Call → Prop
  | .wait _ isBlock => isBlock = true → s.notifc.notDeliveredNotifcCount = 0 →
      s.notifc.waitingThreadsCount ≠ 0xffffffff
  | .signal => s.notifc.notDeliveredNotifcCount ≠ 0xffffffff

theorem inv_init : Inv State.init where
  count := rfl
  quiet := fun _ => rfl
  conserve := rfl
  fifo := rfl
  zero := nofun

/-! ## 4. One call -/

/-- What a call can do: every branch of the two functions. -/
inductive Step (s : State) : Call → State → Prop where
  | take (t : Nat) (isBlock : Bool) (hnd : 0 < s.notifc.notDeliveredNotifcCount) :
      Step s (.wait t isBlock)
        { s with
          notifc := { s.notifc with
            notDeliveredNotifcCount := s.notifc.notDeliveredNotifcCount - 1 }
          log := s.log ++ [.returned t 0] }
  | again (t : Nat) :
      Step s (.wait t false) { s with log := s.log ++ [.returned t (-EAGAIN)] }
  | block (t : Nat) (hnd : s.notifc.notDeliveredNotifcCount = 0) :
      Step s (.wait t true)
        { notifc := { s.notifc with
            waitingThreads := s.notifc.waitingThreads ++ [t]
            waitingThreadsCount := s.notifc.waitingThreadsCount + 1 }
          threadReturn := update s.threadReturn t 0
          log := s.log ++ [.blocked t] }
  | store (h : 0 < s.notifc.notDeliveredNotifcCount ∨ s.notifc.waitingThreadsCount = 0) :
      Step s .signal
        { s with
          notifc := { s.notifc with
            notDeliveredNotifcCount := s.notifc.notDeliveredNotifcCount + 1 }
          log := s.log ++ [.signal] }
  | wake (t : Nat) (rest : List Nat) (hnd : s.notifc.notDeliveredNotifcCount = 0)
      (hwait : s.notifc.waitingThreads = t :: rest) :
      Step s .signal
        { s with
          notifc := { s.notifc with
            waitingThreads := rest
            waitingThreadsCount := s.notifc.waitingThreadsCount - 1 }
          log := s.log ++ [.signal, .woken t (s.threadReturn t)] }

variable {c : Call}

theorem Step.of_step (h : step s c = some s') : Step s c s' := by
  cases c with
  | wait t isBlock =>
    obtain ⟨_, h⟩ := ite_none_left_eq_some.mp h
    unfold waitNotific at h
    by_cases hnd : 0 < s.notifc.notDeliveredNotifcCount
    · simp only [hnd, if_true, some.injEq] at h
      exact h ▸ .take t isBlock hnd
    cases isBlock with
    | false =>
      simp only [hnd, if_false, Bool.false_eq_true, some.injEq] at h
      exact h ▸ .again t
    | true =>
      simp only [hnd, if_false, if_true, some.injEq] at h
      exact h ▸ .block t (not_pos_iff.mp hnd)
  | signal =>
  simp only [step, signalNotific] at h
  by_cases hst : 0 < s.notifc.notDeliveredNotifcCount ∨ s.notifc.waitingThreadsCount = 0
  · simp only [hst, if_true, some.injEq] at h
    exact h ▸ .store hst
  have hnd := not_pos_iff.mp (not_or.mp hst).1
  cases hw : s.notifc.waitingThreads with
  | nil =>
    simp only [hst, if_false, hw] at h
    cases h
  | cons t rest =>
    simp only [hst, if_false, hw, some.injEq] at h
    exact h ▸ .wake t rest hnd hw

/-- With nobody in the queue a signal that has no waiter to take is the only thing that counts. -/
theorem Balanced.queue_nil {s : State} (h : Balanced s)
    (hst : 0 < s.notifc.notDeliveredNotifcCount ∨ s.notifc.waitingThreadsCount = 0) :
    s.notifc.waitingThreads = [] := by
  rcases hst with hnd | h0
  · exact h.quiet hnd
  · have hlen := h.count
    rw [h0] at hlen
    exact length_eq_zero_iff.mp hlen.symm

/-- **One call keeps the law exactly when its counter does not wrap.** -/
theorem balanced_step_iff (h : Inv s) (hs : Step s c s') : Balanced s' ↔ CallCounts s c := by
  have hcount := h.count
  have hcons := h.conserve
  have hfifo := h.fifo
  cases hs with
  | take t isBlock hnd =>
    have hq := h.quiet hnd
    refine iff_of_true ⟨hcount, fun _ => hq, ?_, ?_⟩ fun _ h0 => absurd h0 (by bv_omega)
    · simp [Event.isSignal, Event.isZeroWait]
      bv_omega
    · simpa [filterMap_cons, Event.blocks, Event.wakes] using hfifo
  | again t =>
    refine iff_of_true ⟨hcount, h.quiet, ?_, ?_⟩ nofun
    · simpa [Event.isSignal, Event.isZeroWait, EAGAIN] using hcons
    · simpa [filterMap_cons, Event.blocks, Event.wakes] using hfifo
  | block t hnd =>
    constructor
    · intro h' _ _ hmax
      have := h'.count
      simp [hmax] at this
    intro hc
    have hmax := hc rfl hnd
    refine ⟨?_, fun hpos => absurd hnd (by bv_omega), ?_, ?_⟩
    · simp only [length_append, length_cons, length_nil]
      bv_omega
    · simpa [Event.isSignal, Event.isZeroWait] using hcons
    · simp [filterMap_cons, Event.blocks, Event.wakes, hfifo]
  | store hst =>
    have hq := h.queue_nil hst
    constructor
    · intro h' hmax
      have := h'.conserve
      simp [hmax, Event.isSignal, Event.isZeroWait] at this hcons
      omega
    intro hmax
    refine ⟨hcount, fun _ => hq, ?_, ?_⟩
    · simp [Event.isSignal, Event.isZeroWait]
      simp only [CallCounts] at hmax
      bv_omega
    · simpa [filterMap_cons, Event.blocks, Event.wakes] using hfifo
  | wake t rest hnd hw =>
  have hzero : s.threadReturn t = 0 := h.zero t (hw ▸ mem_cons_self)
  refine iff_of_true ⟨?_, fun hpos => absurd hnd (by bv_omega), ?_, ?_⟩ ?_
  · rw [hw, length_cons] at hcount
    bv_omega
  · simp [countP_cons, Event.isSignal, Event.isZeroWait, hzero, hcons, hnd]
  · simp [filterMap_cons, Event.blocks, Event.wakes, hfifo, hw]
  · simp [CallCounts, hnd]

/-- What a waiter will return survives a call that keeps the law. -/
theorem inv_step (h : Inv s) (hs : Step s c s') (h' : Balanced s') : Inv s' := by
  refine ⟨h', ?_⟩
  cases hs with
  | take t isBlock hnd => exact h.zero
  | again t => exact h.zero
  | block t hnd =>
    intro u hu
    by_cases he : u = t
    · simp [he]
    · have hmem : u ∈ s.notifc.waitingThreads := by simpa [he] using hu
      simpa [he] using h.zero u hmem
  | store hst => exact h.zero
  | wake t rest hnd hw =>
    intro u hu
    exact h.zero u (hw ▸ mem_cons_of_mem t hu)

/-! ## 5. Whole runs -/

/-- **Any interleaving of waits and signals**: the law holds after every call exactly when no call
    raises a counter that stands at `2^32 - 1`. -/
theorem notific_balanced_run (cs : List Call) :
    (∀ t ∈ trace step State.init cs, Balanced t.post) ↔
      ∀ t ∈ trace step State.init cs, CallCounts t.pre t.act :=
  trace_all_iff (I := Inv) (fun _ _ _ h hs => balanced_step_iff h (.of_step hs))
    (fun _ _ _ h hc hs => inv_step h (.of_step hs) ((balanced_step_iff h (.of_step hs)).mpr hc))
    cs State.init inv_init

/-- The state after `n` signals that nobody waits for. -/
def signalled (n : Nat) : State :=
  ⟨⟨BitVec.ofNat 32 n, 0, []⟩, fun _ => 0, List.replicate n .signal⟩

theorem step_signalled (n : Nat) : step (signalled n) .signal = some (signalled (n + 1)) := by
  have hadd : BitVec.ofNat 32 n + 1#32 = BitVec.ofNat 32 (n + 1) := (BitVec.ofNat_add n 1).symm
  simp [step, signalNotific, signalled, hadd, replicate_succ']

theorem exec_signals (n : Nat) :
    ∀ k, exec step (signalled k) (List.replicate n .signal) = some (signalled (k + n)) := by
  induction n with
  | zero =>
    intro k
    rfl
  | succ n ih =>
    intro k
    rw [replicate_succ, exec, step_signalled, bind_some, ih (k + 1), add_assoc, add_comm 1 n]

/-- A number of signals at which the counter has come back to 0 breaks the law. -/
theorem not_balanced_of_signals {n : Nat} (hn : n ≠ 0) (h0 : BitVec.ofNat 32 n = 0) :
    ∃ t ∈ trace step State.init (List.replicate n .signal), ¬ Balanced t.post := by
  have hexec := exec_signals n 0
  rw [zero_add] at hexec
  obtain ⟨n, rfl⟩ := Nat.exists_eq_succ_of_ne_zero hn
  obtain ⟨t, ht, hpost⟩ := exec_last hexec
  refine ⟨t, ht, fun h => ?_⟩
  have hcons := h.conserve
  rw [hpost] at hcons
  simp only [signalled, h0, countP_replicate, Event.isSignal, Event.isZeroWait, if_true,
    Bool.false_eq_true, if_false] at hcons
  exact hn hcons

/-- After `2^32` signals the counter of signals that are not delivered is back at 0. -/
theorem signals_lost :
    ∃ t ∈ trace step State.init (List.replicate (2 ^ 32) .signal), ¬ Balanced t.post :=
  not_balanced_of_signals (by decide) (by decide)

end ChCore.Ipc.Notification
