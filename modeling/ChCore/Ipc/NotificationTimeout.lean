/-
  File: ChCore/Ipc/NotificationTimeout.lean
  Subject: Waits with a timeout (`kernel/ipc/notification.c`, `kernel/irq/timer.c`): signals and
    timer interrupts on several CPUs compete for a waiting thread.

  One step is one critical section of `notifc_lock` or `sleep_list_lock`, or the code of one CPU
  between two of them. Each CPU records how far it has come in `signal_notific` or in
  `handle_timer_irq`; each thread has a log of what happened to its waits.

  * `timeout_run` -- `WaitsOk` in every run in which the timer's callback keeps off threads that
    are being switched to, and no thread waits again while a CPU still works on its last wait.
-/
import ChCore.Ipc.Notification

namespace ChCore.Ipc.Notification.Timeout

open Lib Function Option List

/-! ## 1. What happens to a wait -/

inductive Waker where
  | signal
  | timeout
  deriving DecidableEq, Repr

/-- The events of one thread: it blocks on a notification, `waiting_threads_count` of that
    notification is decremented for it, it is made runnable. -/
inductive Event where
  | blocked (notifc : Nat)
  | decremented (notifc : Nat)
  | madeRunnable (waker : Waker)
  deriving DecidableEq, Repr

/-- How far a thread's last wait has come: it is over, the thread is in the queue of a notification,
    or the thread has been taken off the queue and is not yet runnable. -/
inductive Stage where
  | out
  | queued (notifc : Nat)
  | handed
  deriving DecidableEq, Repr

def Stage.next : Stage → Event → Option Stage
  | .out, .blocked n => some (.queued n)
  | .queued n, .decremented m => if m = n then some .handed else none
  | .handed, .madeRunnable _ => some .out
  | _, _ => none

/-- **The stage a log leads to**, newest event first. There is none for a log in which a wait is
    decremented or made runnable twice, or without the other. -/
def stage : List Event → Option Stage
  | [] => some .out
  | e :: log => (stage log).bind fun st => st.next e

/-! ## 2. The state -/

/-- The states of a thread that matter here; `TS_INTER` is left again inside one step. -/
inductive ThreadState where
  | ready
  | running
  | waiting
  deriving DecidableEq, Repr

/-- How far a CPU has come.

    In `signal_notific` with a target: `signalled` behind the `unlock`, before `try_remove_timeout`
    looks at `cb`; `dequeue` before `try_dequeue_sleeper`; `forget` before `pending_notific` is
    cleared; `switching` before `switch_to_thread`. The flag says that the direct switch is taken.

    In `handle_timer_irq`, with `sleep_list_lock` held: `irq` at the head of the loop, `callback`
    before the callback of a thread taken off the list, `clear` before its `cb` is set to `NULL`. -/
inductive Phase where
  | free
  | signalled (target notifc : Nat) (direct : Bool)
  | dequeue (target notifc : Nat) (direct : Bool)
  | forget (target notifc : Nat) (direct : Bool)
  | switching (target : Nat)
  | irq (now : Nat)
  | callback (now thread : Nat)
  | clear (now thread : Nat)
  deriving DecidableEq, Repr

/-- The thread a CPU is working on. -/
def Phase.thread : Phase → Option Nat
  | .signalled t _ _ | .dequeue t _ _ | .forget t _ _ | .switching t => some t
  | .callback _ t | .clear _ t => some t
  | .free | .irq _ => none

/-- The CPU is on its way to switch to this thread. -/
def Phase.directTo : Phase → Option Nat
  | .signalled t _ d | .dequeue t _ d | .forget t _ d => if d then some t else none
  | .switching t => some t
  | _ => none

/-- The CPU is about to run the timer callback of this thread. -/
def Phase.calls : Phase → Option Nat
  | .callback _ t => some t
  | _ => none

/-- The CPU holds its `sleep_list_lock`. -/
def Phase.holdsSleepLock : Phase → Bool
  | .irq _ | .callback _ _ | .clear _ _ => true
  | _ => false

/-- The behaviour of `signal_notific` behind `try_remove_timeout`. -/
def Phase.after (t : Nat) (direct : Bool) : Phase := if direct then .switching t else .free

/-- The system: notifications, threads and `N + 1` CPUs. -/
structure System (N : Nat) where
  notifc : Nat → Notific
  threadState : Nat → ThreadState
  threadReturn : Nat → Int
  /-- `sleep_state.cb` is `notific_timer_cb` and not `NULL`. -/
  cb : Nat → Bool
  sleepCpu : Nat → Fin (N + 1)
  wakeupTick : Nat → Nat
  pendingNotific : Nat → Option Nat
  sleepList : Fin (N + 1) → List Nat
  /-- `current_threads`; `none` is the idle thread. -/
  current : Fin (N + 1) → Option Nat
  cpu : Fin (N + 1) → Phase
  log : Nat → List Event

namespace System

variable {N : Nat}

/-- Every thread is runnable, nobody waits. -/
def init (N : Nat) : System N where
  notifc := fun _ => initNotific
  threadState := fun _ => .ready
  threadReturn := fun _ => 0
  cb := fun _ => false
  sleepCpu := fun _ => 0
  wakeupTick := fun _ => 0
  pendingNotific := fun _ => none
  sleepList := fun _ => []
  current := fun _ => none
  cpu := fun _ => .free
  log := fun _ => []

variable (s : System N)

def setNotifc (n : Nat) (o : Notific) : System N :=
  { s with notifc := update s.notifc n o }

variable (t : Nat)

def setState (x : ThreadState) : System N :=
  { s with threadState := update s.threadState t x }

def setReturn (r : Int) : System N :=
  { s with threadReturn := update s.threadReturn t r }

def setCb (b : Bool) : System N :=
  { s with cb := update s.cb t b }

def setPending (n : Option Nat) : System N :=
  { s with pendingNotific := update s.pendingNotific t n }

variable (c : Fin (N + 1))

def setSleepList (l : List Nat) : System N :=
  { s with sleepList := update s.sleepList c l }

def setCurrent (t : Option Nat) : System N :=
  { s with current := update s.current c t }

def setPhase (p : Phase) : System N :=
  { s with cpu := update s.cpu c p }

def record (e : Event) : System N :=
  { s with log := update s.log t (e :: s.log t) }

/-- `wakeup_tick` and `sleep_cpu` of a thread. -/
def setSleep (t tick : Nat) (c : Fin (N + 1)) : System N :=
  { s with
    wakeupTick := update s.wakeupTick t tick
    sleepCpu := update s.sleepCpu t c }

section Log

variable (s : System N) (t : Nat) (c : Fin (N + 1))

@[simp] theorem log_setNotifc (n : Nat) (o : Notific) : (s.setNotifc n o).log = s.log := rfl
@[simp] theorem log_setState (x : ThreadState) : (s.setState t x).log = s.log := rfl
@[simp] theorem log_setReturn (r : Int) : (s.setReturn t r).log = s.log := rfl
@[simp] theorem log_setCb (b : Bool) : (s.setCb t b).log = s.log := rfl
@[simp] theorem log_setPending (n : Option Nat) : (s.setPending t n).log = s.log := rfl
@[simp] theorem log_setSleepList (l : List Nat) : (s.setSleepList c l).log = s.log := rfl
@[simp] theorem log_setCurrent (u : Option Nat) : (s.setCurrent c u).log = s.log := rfl
@[simp] theorem log_setPhase (p : Phase) : (s.setPhase c p).log = s.log := rfl
@[simp] theorem log_setSleep (tick : Nat) : (s.setSleep t tick c).log = s.log := rfl
@[simp] theorem log_record (e : Event) : (s.record t e).log = update s.log t (e :: s.log t) := rfl

end Log

end System

/-! ## 3. The source -/

section Source

variable {N : Nat}

/-- The place of a sleeper: before the first one that wakes up later. -/
def insertSleeper (tick : Nat → Nat) (t : Nat) : List Nat → List Nat
  | [] => [t]
  | u :: rest => if tick u > tick t then t :: u :: rest else u :: insertSleeper tick t rest

variable (s : System N) (c : Fin (N + 1))

/-- `enqueue_sleeper` with `notific_timer_cb`. -/
def enqueueSleeper (t tick : Nat) : System N :=
  let s := s.setSleep t tick c
  (s.setSleepList c (insertSleeper s.wakeupTick t (s.sleepList c))).setCb t true

/-- The blocking branch of `wait_notific`: the thread leaves the CPU. -/
def blockOn (n t : Nat) (o : Notific) (timeout : Option Nat) : System N :=
  let s := (((s.setNotifc n o).setState t .waiting).setReturn t 0).record t (.blocked n)
  match timeout with
  | none => s.setCurrent c none
  | some tick => (enqueueSleeper (s.setPending t (some n)) c t tick).setCurrent c none

/-- `wait_notific` by the thread that runs on `c`. -/
def wait (n : Nat) (isBlock : Bool) (timeout : Option Nat) : Option (System N) :=
  match s.current c with
  | none => none
  | some t =>
    if s.cpu c = .free ∧ s.threadState t = .running then
      match waitNotific (s.notifc n) t isBlock with
      | (o, .returned _) => some (s.setNotifc n o)
      | (o, .blocked) => some (blockOn s c n t o timeout)
    else none

/-- The direct switch of `signal_notific` puts the caller into a ready queue first. -/
def enqueueCurrent : Option (System N) :=
  match s.current c with
  | none => some s
  | some u => if s.threadState u = .running then some ((s.setReturn u 0).setState u .ready) else none

/-- `signal_notific` up to its `unlock`; `direct` says that the direct switch is enabled and the
    affinity of the target allows it. A directly switched target is still `TS_WAITING` here. -/
def signal (n : Nat) (direct : Bool) : Option (System N) :=
  if s.cpu c = .free then
    match signalNotific (s.notifc n) with
    | none => none
    | some (o, none) => some (s.setNotifc n o)
    | some (o, some t) =>
      let s := (s.setNotifc n o).record t (.decremented n)
      if direct then (enqueueCurrent s c).map fun s => s.setPhase c (.signalled t n true)
      else some (((s.setState t .ready).record t (.madeRunnable .signal)).setPhase c
        (.signalled t n false))
  else none

/-- `try_remove_timeout`: the test of `cb`, without a lock. -/
def testTimeout : Option (System N) :=
  match s.cpu c with
  | .signalled t n d =>
    if s.cb t then some (s.setPhase c (.dequeue t n d)) else some (s.setPhase c (.after t d))
  | _ => none

/-- `try_dequeue_sleeper`; it waits while the timer interrupt of the sleep CPU holds the lock. -/
def dequeueSleeper : Option (System N) :=
  match s.cpu c with
  | .dequeue t n d =>
    if (s.cpu (s.sleepCpu t)).holdsSleepLock then none
    else if s.cb t then
      some (((s.setSleepList (s.sleepCpu t) ((s.sleepList (s.sleepCpu t)).erase t)).setCb t
        false).setPhase c (.forget t n d))
    else some (s.setPhase c (.forget t n d))
  | _ => none

/-- The end of `try_remove_timeout`. -/
def forgetPending : Option (System N) :=
  match s.cpu c with
  | .forget t n d =>
    if s.pendingNotific t = none ∨ s.pendingNotific t = some n then
      some ((s.setPending t none).setPhase c (.after t d))
    else none
  | _ => none

/-- `switch_to_thread` at the end of the direct switch; it stops the kernel on a ready thread. -/
def switchToThread : Option (System N) :=
  match s.cpu c with
  | .switching t =>
    if s.threadState t = .ready then none
    else some ((((s.setState t .running).record t (.madeRunnable .signal)).setCurrent c
      (some t)).setPhase c .free)
  | _ => none

/-- One turn of the loop of `handle_timer_irq`, up to the callback. -/
def timerTake : Option (System N) :=
  match s.cpu c, s.sleepList c with
  | .irq now, t :: rest =>
    if s.wakeupTick t < now ∧ s.cb t = true then
      some ((s.setSleepList c rest).setPhase c (.callback now t))
    else none
  | _, _ => none

/-- `notific_timer_cb`. A thread that is `TS_WAITING` is deleted from the list it is linked in; one
    that a signal has taken off already is not linked any more, and its stale links still fit as
    long as its old neighbours are neighbours. -/
def timerCallback : Option (System N) :=
  match s.cpu c with
  | .callback now t =>
    match s.pendingNotific t with
    | none => none
    | some n =>
      let s₁ := (s.setPending t none).setPhase c (.clear now t)
      if s.threadState t ≠ .waiting then some s₁
      else if (s.notifc n).waitingThreadsCount = 0 then none
      else
        let o := { s.notifc n with
          waitingThreads := (s.notifc n).waitingThreads.erase t
          waitingThreadsCount := (s.notifc n).waitingThreadsCount - 1 }
        some (((((s₁.setNotifc n o).record t (.decremented n)).setReturn t
          (-EAGAIN)).setState t .ready).record t (.madeRunnable .timeout))
  | _ => none

/-- The end of a turn of the loop: `cb = NULL`. -/
def timerClear : Option (System N) :=
  match s.cpu c with
  | .clear now t => some ((s.setCb t false).setPhase c (.irq now))
  | _ => none

/-- The loop ends at a sleeper whose time has not come, or at the end of the list. -/
def timerEnd : Option (System N) :=
  match s.cpu c with
  | .irq now =>
    if ∀ t ∈ (s.sleepList c).head?, now ≤ s.wakeupTick t then some (s.setPhase c .free) else none
  | _ => none

/-- The scheduler takes a ready thread. -/
def dispatch (t : Nat) : Option (System N) :=
  if s.cpu c = .free ∧ s.current c = none ∧ s.threadState t = .ready then
    some ((s.setState t .running).setCurrent c (some t))
  else none

/-- The scheduler puts the running thread back. -/
def preempt : Option (System N) :=
  match s.current c with
  | none => none
  | some t =>
    if s.cpu c = .free ∧ s.threadState t = .running then
      some ((s.setState t .ready).setCurrent c none)
    else none

inductive Act (N : Nat) where
  | wait (c : Fin (N + 1)) (notifc : Nat) (isBlock : Bool) (timeout : Option Nat)
  | signal (c : Fin (N + 1)) (notifc : Nat) (direct : Bool)
  | testTimeout (c : Fin (N + 1))
  | dequeueSleeper (c : Fin (N + 1))
  | forgetPending (c : Fin (N + 1))
  | switchToThread (c : Fin (N + 1))
  | timerIrq (c : Fin (N + 1)) (now : Nat)
  | timerTake (c : Fin (N + 1))
  | timerCallback (c : Fin (N + 1))
  | timerClear (c : Fin (N + 1))
  | timerEnd (c : Fin (N + 1))
  | dispatch (c : Fin (N + 1)) (t : Nat)
  | preempt (c : Fin (N + 1))
  deriving DecidableEq, Repr

def step : Act N → Option (System N)
  | .wait c n isBlock timeout => wait s c n isBlock timeout
  | .signal c n direct => signal s c n direct
  | .testTimeout c => testTimeout s c
  | .dequeueSleeper c => dequeueSleeper s c
  | .forgetPending c => forgetPending s c
  | .switchToThread c => switchToThread s c
  | .timerIrq c now => if s.cpu c = .free then some (s.setPhase c (.irq now)) else none
  | .timerTake c => timerTake s c
  | .timerCallback c => timerCallback s c
  | .timerClear c => timerClear s c
  | .timerEnd c => timerEnd s c
  | .dispatch c t => dispatch s c t
  | .preempt c => preempt s c

end Source

/-! ## 4. What must hold of every wait -/

section Law

variable {N : Nat}

variable (s : System N)

/-- A CPU is still in `signal_notific` or `handle_timer_irq` for this thread. -/
def Busy (t : Nat) : Prop := ∃ c, (s.cpu c).thread = some t
  deriving Decidable

/-- A CPU is on its way to switch to this thread. -/
def SwitchingTo (t : Nat) : Prop := ∃ c, (s.cpu c).directTo = some t
  deriving Decidable

/-- **Every wait is counted off once and made runnable once.** A wait that is open has its thread
    in the queue or on the way to a CPU, and with a timeout the timer still has the thread in the
    queue; when the wait is over, the thread is in no queue and, once the CPUs have finished with it,
    in no sleep list. -/
def WaitsOk : Prop :=
  ∀ t, ∃ st, stage (s.log t) = some st ∧
    match st with
    | .out => (∀ n, t ∉ (s.notifc n).waitingThreads) ∧ (¬ Busy s t → ∀ c, t ∉ s.sleepList c)
    | .queued n => t ∈ (s.notifc n).waitingThreads ∧ (s.cb t = true →
        t ∈ s.sleepList (s.sleepCpu t) ∨ (s.cpu (s.sleepCpu t)).calls = some t)
    | .handed => SwitchingTo s t

/-- **The condition on a step**: a thread begins no blocking wait while a CPU still works on its
    last one, and the timer callback does not run for a thread that a CPU is switching to. -/
def WakeOk : Act N → Prop
  | .wait c n isBlock _ => isBlock = true → (s.notifc n).notDeliveredNotifcCount = 0 →
      ∀ t ∈ s.current c, ¬ Busy s t
  | .timerCallback c => ∀ t ∈ (s.cpu c).calls, ¬ SwitchingTo s t
  | _ => True

instance (s : System N) (a : Act N) : Decidable (WakeOk s a) := by
  cases a <;> unfold WakeOk <;> infer_instance

end Law

/-! ## 5. The view of one thread -/

section View

variable {N : Nat}

/-- The part of a phase that concerns `t`. -/
def Phase.on (p : Phase) (t : Nat) : Phase := if p.thread = some t then p else .free

/-- All that the code keeps about one thread, without its log. -/
@[ext] structure View (N : Nat) where
  queued : Nat → Nat
  state : ThreadState
  cb : Bool
  sleepCpu : Fin (N + 1)
  pending : Option Nat
  asleep : Fin (N + 1) → Nat
  phase : Fin (N + 1) → Phase

def view (s : System N) (t : Nat) : View N where
  queued := fun n => (s.notifc n).waitingThreads.count t
  state := s.threadState t
  cb := s.cb t
  sleepCpu := s.sleepCpu t
  pending := s.pendingNotific t
  asleep := fun c => (s.sleepList c).count t
  phase := fun c => (s.cpu c).on t

variable (s : System N) (u : Nat)

@[simp] theorem view_setNotifc (n : Nat) (o : Notific) :
    view (s.setNotifc n o) u =
      { view s u with queued := update (view s u).queued n (o.waitingThreads.count u) } := by
  simp only [view, System.setNotifc, View.mk.injEq, and_true]
  exact comp_update (fun x : Notific => x.waitingThreads.count u) s.notifc n o

theorem view_setNotifc_same {n : Nat} {o : Notific}
    (h : o.waitingThreads = (s.notifc n).waitingThreads) : view (s.setNotifc n o) u = view s u := by
  rw [view_setNotifc, h]
  exact congrArg (fun q => { view s u with queued := q }) (update_eq_self n (view s u).queued)

variable (c : Fin (N + 1)) (t : Nat)

@[simp] theorem view_setState (x : ThreadState) :
    view (s.setState t x) u =
      { view s u with state := if u = t then x else (view s u).state } := by
  simp [view, System.setState, update_apply]

@[simp] theorem view_setReturn (r : Int) : view (s.setReturn t r) u = view s u := rfl

@[simp] theorem view_setCb (b : Bool) :
    view (s.setCb t b) u = { view s u with cb := if u = t then b else (view s u).cb } := by
  simp [view, System.setCb, update_apply]

@[simp] theorem view_setPending (n : Option Nat) :
    view (s.setPending t n) u =
      { view s u with pending := if u = t then n else (view s u).pending } := by
  simp [view, System.setPending, update_apply]

@[simp] theorem view_setSleepList (l : List Nat) :
    view (s.setSleepList c l) u =
      { view s u with asleep := update (view s u).asleep c (l.count u) } := by
  simp only [view, System.setSleepList, View.mk.injEq, true_and, and_true]
  exact comp_update (count u) s.sleepList c l

@[simp] theorem view_setCurrent (t : Option Nat) : view (s.setCurrent c t) u = view s u := rfl

@[simp] theorem view_setPhase (p : Phase) :
    view (s.setPhase c p) u =
      { view s u with phase := update (view s u).phase c (p.on u) } := by
  simp only [view, System.setPhase, View.mk.injEq, true_and]
  exact comp_update (Phase.on · u) s.cpu c p

@[simp] theorem view_record (e : Event) : view (s.record t e) u = view s u := rfl

@[simp] theorem view_setSleep (t tick : Nat) (c : Fin (N + 1)) :
    view (s.setSleep t tick c) u =
      { view s u with sleepCpu := if u = t then c else (view s u).sleepCpu } := by
  simp [view, System.setSleep, update_apply]

end View

/-! ## 6. The protocol for one thread -/

section Protocol

variable {N : Nat} {t : Nat} {v : View N} {st : Stage}

/-- The CPU is in `signal_notific` with a target. -/
def Phase.signals : Phase → Bool
  | .signalled _ _ _ | .dequeue _ _ _ | .forget _ _ _ | .switching _ => true
  | _ => false

/-- The stage behind the `unlock` of a signal. -/
def Stage.signalled (direct : Bool) : Stage := if direct then .handed else .out

/-- What the code keeps about a thread whose last wait is at a stage. -/
def StageOk (v : View N) : Stage → Prop
  | .out => (∀ n, v.queued n = 0) ∧ v.state ≠ .waiting ∧ (v.cb = true → ∃ c, v.phase c ≠ .free)
  | .queued n => (∀ m, v.queued m = if m = n then 1 else 0) ∧ v.state = .waiting ∧
      (v.cb = true → v.pending = some n)
  | .handed => (∀ n, v.queued n = 0) ∧ v.state = .waiting ∧
      ∃ c, (v.phase c).directTo.isSome = true

/-- What a CPU that works on the thread relies on. -/
def PhaseOk (v : View N) (st : Stage) (c : Fin (N + 1)) : Phase → Prop
  | .free | .irq _ => True
  | .signalled _ _ d | .dequeue _ _ d => st = .signalled d
  | .forget _ _ d => st = .signalled d ∧ v.cb = false
  | .switching _ => st = .handed ∧ v.cb = false
  | .callback _ _ => c = v.sleepCpu ∧ v.cb = true ∧ (∀ d, v.asleep d = 0) ∧ v.pending ≠ none
  | .clear _ _ => c = v.sleepCpu ∧ v.cb = true ∧ (∀ d, v.asleep d = 0) ∧ st = .out

/-- **The protocol between signals and the timer for one thread.** -/
structure InvAt (v : View N) (st : Stage) : Prop where
  stage : StageOk v st
  phase : ∀ c, PhaseOk v st c (v.phase c)
  one : ∀ c d, (v.phase c).signals = true → (v.phase d).signals = true → c = d
  asleep : ∀ c, v.asleep c ≠ 0 → c = v.sleepCpu ∧ v.cb = true ∧ v.asleep c = 1 ∧ v.pending ≠ none
  armed : v.cb = true →
    v.asleep v.sleepCpu ≠ 0 ∨ (v.phase v.sleepCpu).holdsSleepLock = true

theorem stage_cons {log : List Event} {st : Stage} (h : stage log = some st) (e : Event) :
    stage (e :: log) = st.next e := by
  rw [stage, h, bind_some]

theorem InvAt.phaseOk {c : Fin (N + 1)} {p : Phase} (h : InvAt v st) (hp : v.phase c = p) :
    PhaseOk v st c p := hp ▸ h.phase c

variable {n : Nat}

theorem InvAt.not_signals (h : InvAt v (.queued n)) (c : Fin (N + 1)) :
    (v.phase c).signals = false := by
  cases hp : v.phase c with
  | signalled _ _ d | dequeue _ _ d => cases d <;> cases h.phaseOk hp
  | forget _ _ d => cases d <;> cases (h.phaseOk hp).1
  | switching _ => cases (h.phaseOk hp).1
  | _ => rfl

theorem InvAt.queued_zero (h : InvAt v (.queued n)) (m : Nat) : update v.queued n 0 m = 0 := by
  by_cases hm : m = n
  · subst hm; simp
  · simp [hm, h.stage.1 m]

theorem InvAt.not_clear (h : InvAt v (.queued n)) (c : Fin (N + 1)) (now u : Nat) :
    v.phase c ≠ .clear now u := by
  intro hp
  cases (h.phaseOk hp).2.2.2

theorem InvAt.out (h : InvAt v st) (hv : v.state ≠ .waiting) : st = .out := by
  cases st with
  | out => rfl
  | queued n | handed => exact absurd h.stage.2.1 hv

theorem InvAt.queued_one (h : InvAt v .out) (n m : Nat) :
    update v.queued n (v.queued n + 1) m = if m = n then 1 else 0 := by
  by_cases hm : m = n
  · subst hm; simp [h.stage.1 m]
  · simp [hm, h.stage.1 m]

/-- **The thread blocks**, with a timeout (`tick`) or without one, when no CPU is at work on it. -/
theorem InvAt.block (h : InvAt v .out) (hfree : ∀ c, v.phase c = .free) (n : Nat) :
    InvAt { v with
      queued := update v.queued n (v.queued n + 1)
      state := .waiting } (.queued n) := by
  have hcb : v.cb = false := by
    cases hb : v.cb with
    | false => rfl
    | true =>
      obtain ⟨c, hc⟩ := h.stage.2.2 hb
      exact absurd (hfree c) hc
  refine ⟨⟨fun m => ?_, rfl, fun hb => ?_⟩, fun c => ?_, h.one, h.asleep, h.armed⟩
  · exact h.queued_one n m
  · simp [hcb] at hb
  · simp [hfree c, PhaseOk]

theorem InvAt.blockTimeout (h : InvAt v .out) (hfree : ∀ c, v.phase c = .free) (n : Nat)
    (c : Fin (N + 1)) :
    InvAt { v with
      queued := update v.queued n (v.queued n + 1)
      state := .waiting
      cb := true
      sleepCpu := c
      pending := some n
      asleep := update v.asleep c (v.asleep c + 1) } (.queued n) := by
  have hzero : ∀ d, v.asleep d = 0 := by
    intro d
    by_contra hd
    obtain ⟨c, hc⟩ := h.stage.2.2 (h.asleep d hd).2.1
    exact hc (hfree c)
  refine ⟨⟨fun m => ?_, rfl, fun _ => rfl⟩, fun d => ?_, h.one, fun d hd => ?_, fun _ => ?_⟩
  · exact h.queued_one n m
  · simp [hfree d, PhaseOk]
  · by_cases hdc : d = c
    · subst hdc; simp [hzero d]
    · simp [hdc, hzero d] at hd
  · simp

variable {f : Fin (N + 1) → Phase} {c : Fin (N + 1)} {p : Phase}

theorem one_update (h : ∀ c d, (f c).signals = true → (f d).signals = true → c = d)
    (hp : p.signals = true → ∀ d, (f d).signals = true → d = c) (a b : Fin (N + 1))
    (ha : (update f c p a).signals = true) (hb : (update f c p b).signals = true) :
    a = b := by
  by_cases hac : a = c
  · by_cases hbc : b = c
    · rw [hac, hbc]
    · rw [hac, update_self] at ha
      rw [update_of_ne hbc] at hb
      exact absurd (hp ha b hb) hbc
  rw [update_of_ne hac] at ha
  by_cases hbc : b = c
  · rw [hbc, update_self] at hb
    exact absurd (hp hb a ha) hac
  · rw [update_of_ne hbc] at hb
    exact h a b ha hb

theorem holds_update {e : Fin (N + 1)} (p : Phase) (hl : (f e).holdsSleepLock = true)
    (hc : (f c).holdsSleepLock = false) : (update f c p e).holdsSleepLock = true := by
  by_cases he : e = c
  · rw [he, hc] at hl
    cases hl
  · rwa [update_of_ne he]

theorem holds_self {e : Fin (N + 1)} (he : c = e) (hp : p.holdsSleepLock = true) :
    (update f c p e).holdsSleepLock = true := by
  rw [he, update_self, hp]

/-- **A signal takes the thread off the queue**, and leaves it `TS_WAITING` if it will switch. -/
theorem InvAt.signal (h : InvAt v (.queued n)) (hfree : v.phase c = .free) (t : Nat)
    (d : Bool) :
    InvAt { v with
      queued := update v.queued n 0
      state := if d then v.state else .ready
      phase := update v.phase c (.signalled t n d) } (.signalled d) := by
  have hq := h.queued_zero
  refine ⟨?_, (forall_update_iff _ _).mpr ⟨rfl, fun e he => ?_⟩,
    one_update h.one fun _ e he => ?_, h.asleep,
    fun hb => (h.armed hb).imp_right fun hl => holds_update _ hl (by rw [hfree]; rfl)⟩
  · cases d with
    | true => exact ⟨hq, h.stage.2.1, c, by simp [Phase.directTo]⟩
    | false => exact ⟨hq, by simp, fun _ => ⟨c, by simp⟩⟩
  · cases hp : v.phase e with
    | free | irq _ => trivial
    | callback _ _ => exact h.phaseOk hp
    | clear _ _ => exact absurd hp (h.not_clear e _ _)
    | _ =>
      have := h.not_signals e
      rw [hp] at this
      cases this
  · rw [h.not_signals e] at he
    cases he

theorem signals_not_holds (h : p.signals = true) : p.holdsSleepLock = false := by
  cases p <;> first | rfl | cases h

/-- **`try_remove_timeout` moves on**: what the CPU knows is the same or more. -/
theorem InvAt.onward (h : InvAt v st) (hsig : (v.phase c).signals = true) (hp : PhaseOk v st c p)
    (hdirect : p.directTo = (v.phase c).directTo) (hfree : p = .free → v.cb = false) :
    InvAt { v with phase := update v.phase c p } st := by
  refine ⟨?_, (forall_update_iff _ _).mpr ⟨hp, fun d _ => h.phase d⟩,
    one_update h.one fun _ d hd => h.one d c hd hsig, h.asleep,
    fun hb => (h.armed hb).imp_right fun hl => holds_update _ hl (signals_not_holds hsig)⟩
  · cases st with
    | queued n =>
      rw [h.not_signals c] at hsig
      cases hsig
    | out =>
      refine ⟨h.stage.1, h.stage.2.1, fun hb => ⟨c, fun he => ?_⟩⟩
      have hcb := hfree (by simpa using he)
      rw [show v.cb = true from hb] at hcb
      cases hcb
    | handed =>
    obtain ⟨d, hd⟩ := h.stage.2.2
    refine ⟨h.stage.1, h.stage.2.1, d, ?_⟩
    by_cases hdc : d = c
    · subst hdc
      simpa [hdirect] using hd
    · simpa [hdc] using hd

/-- **`try_dequeue_sleeper`**, with the sleep list not in the hands of the timer. -/
theorem InvAt.dequeue (h : InvAt v st) (hlock : (v.phase v.sleepCpu).holdsSleepLock = false)
    (hst : ∀ n, st ≠ .queued n) :
    InvAt { v with
      cb := false
      asleep := update v.asleep v.sleepCpu (v.asleep v.sleepCpu - 1) } st := by
  have hzero : ∀ d, update v.asleep v.sleepCpu (v.asleep v.sleepCpu - 1) d = 0 := by
    intro d
    by_cases hd : d = v.sleepCpu
    · subst hd
      rw [update_self]
      by_cases h0 : v.asleep v.sleepCpu = 0
      · rw [h0]
      · rw [(h.asleep _ h0).2.2.1]
    · rw [update_of_ne hd]
      by_contra h0
      exact hd (h.asleep d h0).1
  refine ⟨?_, fun c => ?_, h.one, fun c hc => absurd (hzero c) hc, nofun⟩
  · cases st with
    | out => exact ⟨h.stage.1, h.stage.2.1, nofun⟩
    | queued n => exact absurd rfl (hst n)
    | handed => exact h.stage
  cases hp : v.phase c with
  | free | irq _ => trivial
  | signalled _ _ d | dequeue _ _ d => exact h.phaseOk hp
  | forget _ _ d | switching _ => exact ⟨(h.phaseOk hp).1, rfl⟩
  | callback _ _ | clear _ _ =>
    -- such a CPU is the sleep CPU, and it holds the lock
    rw [← (h.phaseOk hp).1, hp] at hlock
    cases hlock

theorem InvAt.forget (h : InvAt v st) (hcb : v.cb = false) :
    InvAt { v with pending := none } st := by
  refine ⟨?_, fun c => ?_, h.one, fun c hc => ?_, h.armed⟩
  · cases st with
    | out => exact h.stage
    | queued n =>
      exact ⟨h.stage.1, h.stage.2.1, fun hb => by rw [show v.cb = true from hb] at hcb; cases hcb⟩
    | handed => exact h.stage
  · cases hp : v.phase c with
    | callback _ _ =>
      rw [(h.phaseOk hp).2.1] at hcb
      cases hcb
    | _ => exact h.phaseOk hp
  · have := (h.asleep c hc).2.1
    rw [hcb] at this
    cases this

/-- **The direct switch ends the wait.** -/
theorem InvAt.switch (h : InvAt v st) {t : Nat} (hc : v.phase c = .switching t) :
    st = .handed ∧ InvAt { v with
      state := .running
      phase := update v.phase c .free } .out := by
  obtain ⟨rfl, hcb⟩ := h.phaseOk hc
  have hother : ∀ d, d ≠ c → (v.phase d).signals = false := by
    intro d hd
    by_contra hs
    exact hd (h.one d c (by simpa using hs) (by rw [hc]; rfl))
  have hnb : ¬ v.cb = true := by simp [hcb]
  refine ⟨rfl, ⟨h.stage.1, by simp, fun hb => absurd hb hnb⟩,
    (forall_update_iff _ _).mpr ⟨trivial, fun d hd => ?_⟩,
    one_update h.one nofun, h.asleep, fun hb => absurd hb hnb⟩
  have hsd := hother d hd
  cases hp : v.phase d with
  | free | irq _ => trivial
  | callback _ _ | clear _ _ => exact absurd (h.phaseOk hp).2.1 hnb
  | _ =>
    rw [hp] at hsd
    cases hsd

/-- **The timer takes the thread off its sleep list.** -/
theorem InvAt.take (h : InvAt v st) (hne : v.asleep c ≠ 0) (hfree : v.phase c = .free) (now t : Nat) :
    InvAt { v with
      asleep := update v.asleep c (v.asleep c - 1)
      phase := update v.phase c (.callback now t) } st := by
  obtain ⟨hcpu, hcb, hone, hpend⟩ := h.asleep c hne
  have hzero : ∀ d, update v.asleep c (v.asleep c - 1) d = 0 := by
    intro d
    by_cases hd : d = c
    · subst hd
      rw [update_self, hone]
    · rw [update_of_ne hd]
      by_contra h0
      exact hd ((h.asleep d h0).1.trans hcpu.symm)
  refine ⟨?_, (forall_update_iff _ _).mpr ⟨⟨hcpu, hcb, hzero, hpend⟩, fun d hd => ?_⟩,
    one_update h.one nofun, fun d hd => absurd (hzero d) hd,
    fun _ => .inr (holds_self hcpu rfl)⟩
  · cases st with
    | out => exact ⟨h.stage.1, h.stage.2.1, fun _ => ⟨c, by simp⟩⟩
    | queued n => exact h.stage
    | handed =>
    obtain ⟨d, hd⟩ := h.stage.2.2
    refine ⟨h.stage.1, h.stage.2.1, d, ?_⟩
    by_cases hdc : d = c
    · rw [hdc, hfree] at hd
      cases hd
    · simpa [hdc] using hd
  · cases hp : v.phase d with
    | callback _ _ | clear _ _ => exact absurd ((h.phaseOk hp).2.2.1 c) hne
    | _ => exact h.phaseOk hp

/-- **The callback finds the thread in the queue** and ends its wait. -/
theorem InvAt.callbackWake (h : InvAt v (.queued n)) {now t : Nat}
    (hc : v.phase c = .callback now t) :
    v.pending = some n ∧ InvAt { v with
      queued := update v.queued n 0
      state := .ready
      pending := none
      phase := update v.phase c (.clear now t) } .out := by
  obtain ⟨hcpu, hcb, hzero, _⟩ := h.phaseOk hc
  have hq := h.queued_zero
  refine ⟨h.stage.2.2 hcb, ⟨hq, by simp, fun _ => ⟨c, by simp⟩⟩,
    (forall_update_iff _ _).mpr ⟨⟨hcpu, hcb, hzero, rfl⟩, fun d hd => ?_⟩,
    one_update h.one nofun, fun d hd => absurd (hzero d) hd,
    fun _ => .inr (holds_self hcpu rfl)⟩
  · have hsd := h.not_signals d
    cases hp : v.phase d with
    | free | irq _ => trivial
    | callback _ _ => exact absurd ((h.phaseOk hp).1.trans hcpu.symm) hd
    | clear _ _ => exact absurd hp (h.not_clear d _ _)
    | _ =>
      rw [hp] at hsd
      cases hsd

/-- **The callback comes too late**: a signal has made the thread runnable. -/
theorem InvAt.callbackLate (h : InvAt v .out) {now t : Nat} (hc : v.phase c = .callback now t) :
    InvAt { v with
      pending := none
      phase := update v.phase c (.clear now t) } .out := by
  obtain ⟨hcpu, hcb, hzero, _⟩ := h.phaseOk hc
  refine ⟨⟨h.stage.1, h.stage.2.1, fun _ => ⟨c, by simp⟩⟩,
    (forall_update_iff _ _).mpr ⟨⟨hcpu, hcb, hzero, rfl⟩, fun d hd => ?_⟩,
    one_update h.one nofun, fun d hd => absurd (hzero d) hd,
    fun _ => .inr (holds_self hcpu rfl)⟩
  · cases hp : v.phase d with
    | callback _ _ => exact absurd ((h.phaseOk hp).1.trans hcpu.symm) hd
    | _ => exact h.phaseOk hp

/-- **The timer lets go of the thread.** -/
theorem InvAt.clear (h : InvAt v st) {now t : Nat} (hc : v.phase c = .clear now t) :
    InvAt { v with
      cb := false
      phase := update v.phase c .free } st := by
  obtain ⟨hcpu, _, hzero, rfl⟩ := h.phaseOk hc
  refine ⟨⟨h.stage.1, h.stage.2.1, nofun⟩,
    (forall_update_iff _ _).mpr ⟨trivial, fun d hd => ?_⟩,
    one_update h.one nofun, fun d hd => absurd (hzero d) hd,
    nofun⟩
  cases hp : v.phase d with
  | callback _ _ | clear _ _ => exact absurd ((h.phaseOk hp).1.trans hcpu.symm) hd
  | switching _ => cases (h.phaseOk hp).1
  | forget _ _ d => exact ⟨(h.phaseOk hp).1, rfl⟩
  | _ => exact h.phaseOk hp

theorem InvAt.schedule (h : InvAt v .out) {x : ThreadState} (hx : x ≠ .waiting) :
    InvAt { v with state := x } .out := by
  refine ⟨⟨h.stage.1, hx, h.stage.2.2⟩, fun c => ?_, h.one, h.asleep, h.armed⟩
  cases hp : v.phase c with
  | _ => exact h.phaseOk hp

end Protocol

/-! ## 7. One step -/

section Step

variable {N : Nat} {s s' : System N}

/-- Every thread keeps to the protocol. -/
def SysInv (s : System N) : Prop := ∀ t, ∃ st, stage (s.log t) = some st ∧ InvAt (view s t) st

@[simp] theorem Phase.on_free (t : Nat) : Phase.on .free t = .free := by simp [Phase.on]

@[simp] theorem Phase.on_irq (now t : Nat) : Phase.on (.irq now) t = .free := rfl

variable {p : Phase} {t : Nat} {c : Fin (N + 1)}

variable {u : Nat}

theorem Phase.on_other (hp : p.thread = some t) (hu : u ≠ t) : p.on u = .free := by
  rw [Phase.on, hp, if_neg (fun e => hu (some.inj e).symm)]

theorem Phase.on_self (hp : p.thread = some t) : p.on t = p := by
  rw [Phase.on, if_pos hp]

theorem Phase.calls_on (h : (p.on t).holdsSleepLock = true) (hno : ∀ now u, p.on t ≠ .clear now u) :
    p.calls = some t := by
  unfold Phase.on at h hno
  split at h
  · rename_i ht
    rw [if_pos ht] at hno
    cases p with
    | callback now u => exact ht
    | clear now u => exact absurd rfl (hno now u)
    | irq now => cases ht
    | _ => cases h
  · cases h

/-- A CPU that is on its way to `t` in the view of `t` is so in the system. -/
theorem Phase.directTo_on (h : (p.on t).directTo.isSome = true) : p.directTo = some t := by
  unfold Phase.on at h
  split at h
  · rename_i ht
    cases p with
    | signalled a n d | dequeue a n d | forget a n d =>
      cases d with
      | false => cases h
      | true => exact ht
    | switching a => exact ht
    | _ => cases h
  · cases h

/-- A step that concerns one thread. -/
theorem SysInv.of_view (h : SysInv s) (t : Nat) {g : Stage} (hg : stage (s'.log t) = some g)
    (ht : InvAt (view s' t) g) (hu : ∀ u, u ≠ t → s'.log u = s.log u ∧ view s' u = view s u) :
    SysInv s' := by
  intro u
  by_cases he : u = t
  · rw [he]
    exact ⟨g, hg, ht⟩
  · rw [(hu u he).1, (hu u he).2]
    exact h u

/-- A step that concerns no thread. -/
theorem SysInv.congr (h : SysInv s) (hlog : s'.log = s.log) (hu : ∀ u, view s' u = view s u) :
    SysInv s' := by
  intro u
  rw [hlog, hu u]
  exact h u

theorem count_insertSleeper (tick : Nat → Nat) (t u : Nat) (l : List Nat) :
    (insertSleeper tick t l).count u = l.count u + if u = t then 1 else 0 := by
  induction l with
  | nil =>
    by_cases h : u = t
    · subst h; simp [insertSleeper]
    · simp [insertSleeper, h, Ne.symm h]
  | cons a rest ih =>
    unfold insertSleeper
    split
    · by_cases h : u = t
      · subst h; simp
      · simp [h, count_cons_of_ne (Ne.symm h)]
    · rw [count_cons, count_cons]
      omega

theorem view_enqueueSleeper (s : System N) (c : Fin (N + 1)) (t tick u : Nat) :
    view (enqueueSleeper s c t tick) u =
      { view s u with
        cb := if u = t then true else (view s u).cb
        sleepCpu := if u = t then c else (view s u).sleepCpu
        asleep := update (view s u).asleep c
          ((view s u).asleep c + if u = t then 1 else 0) } := by
  simp only [enqueueSleeper, view_setCb, view_setSleepList, view_setSleep, count_insertSleeper]
  rfl

variable {n : Nat}

/-- **`wait_notific`.** -/
theorem inv_wait (h : SysInv s) {isBlock : Bool} {timeout : Option Nat}
    (hok : WakeOk s (.wait c n isBlock timeout)) (hs : wait s c n isBlock timeout = some s') :
    SysInv s' := by
  unfold wait at hs
  split at hs
  · cases hs
  rename_i t hcur
  obtain ⟨⟨_, hrun⟩, hs⟩ := ite_none_right_eq_some.mp hs
  rcases waitNotific_cases (s.notifc n) t isBlock with ⟨o, r, ho, hq⟩ | ⟨hb, hnd, o, ho, hq⟩
  · simp only [ho, some.injEq] at hs
    subst hs
    exact h.congr rfl fun u => view_setNotifc_same s u hq
  simp only [ho, some.injEq] at hs
  subst hs
  have hfree : ∀ d, (view s t).phase d = .free := by
    intro d
    have hno : ¬ Busy s t := hok hb hnd t hcur
    exact if_neg fun e => hno ⟨d, e⟩
  obtain ⟨st, hst, hinv⟩ := h t
  have hrun' : (view s t).state = .running := hrun
  obtain rfl := hinv.out (by rw [hrun']; simp)
  have hcount : o.waitingThreads.count t = (view s t).queued n + 1 := by
    simp [hq, view]
  have hother : ∀ u, u ≠ t → o.waitingThreads.count u = (view s u).queued n := by
    intro u hu
    simp [hq, view, hu.symm]
  cases timeout with
  | none =>
    refine h.of_view t (g := .queued n) ?_ ?_ fun u hu => ⟨?_, ?_⟩
    · simp [blockOn, stage_cons hst, Stage.next]
    · simpa [blockOn, hcount] using hinv.block hfree n
    · simp [blockOn, hu]
    · simp [blockOn, hu, hother u hu]
  | some tick =>
    refine h.of_view t (g := .queued n) ?_ ?_ fun u hu => ⟨?_, ?_⟩
    · simp [blockOn, enqueueSleeper, stage_cons hst, Stage.next]
    · simpa [blockOn, view_enqueueSleeper, hcount] using hinv.blockTimeout hfree n c
    · simp [blockOn, enqueueSleeper, hu]
    · simp [blockOn, view_enqueueSleeper, hu, hother u hu]

theorem view_setPhase_same (s : System N) (h : p.on u = (s.cpu c).on u) :
    view (s.setPhase c p) u = view s u := by
  rw [view_setPhase, h]
  exact congrArg (fun f => { view s u with phase := f }) (update_eq_self c (view s u).phase)

theorem SysInv.schedule (h : SysInv s) {x : ThreadState} (ht : s.threadState t ≠ .waiting)
    (hx : x ≠ .waiting) : SysInv (s.setState t x) := by
  obtain ⟨st, hst, hinv⟩ := h t
  obtain rfl := hinv.out ht
  refine h.of_view t hst ?_ fun u hu => ⟨rfl, ?_⟩
  · simpa using hinv.schedule hx
  · simp [hu]

theorem SysInv.queued (h : SysInv s) {n : Nat} {rest : List Nat}
    (hq : (s.notifc n).waitingThreads = t :: rest) :
    stage (s.log t) = some (.queued n) ∧ InvAt (view s t) (.queued n) := by
  obtain ⟨st, hst, hinv⟩ := h t
  have hpos : (view s t).queued n ≠ 0 := by simp [view, hq]
  cases st with
  | out | handed => exact absurd (hinv.stage.1 n) hpos
  | queued m =>
  have hm := hinv.stage.1 n
  by_cases hnm : n = m
  · subst hnm
    exact ⟨hst, hinv⟩
  · rw [if_neg hnm] at hm
    exact absurd hm hpos

/-- The target of a signal, taken off its queue. -/
theorem inv_taken (h : SysInv s) {o : Notific} (hfree : s.cpu c = .free)
    (hq : (s.notifc n).waitingThreads = t :: o.waitingThreads) :
    SysInv (((s.setNotifc n o).record t (.decremented n)).setPhase c (.signalled t n true)) ∧
    SysInv (((((s.setNotifc n o).record t (.decremented n)).setState t .ready).record t
      (.madeRunnable .signal)).setPhase c (.signalled t n false)) := by
  obtain ⟨hst, hinv⟩ := h.queued hq
  have hphase : (view s t).phase c = .free := by simp [view, hfree]
  have hcount : o.waitingThreads.count t = 0 := by
    have := hinv.stage.1 n
    simpa [view, hq] using this
  have hother : ∀ u, u ≠ t → o.waitingThreads.count u = (view s u).queued n := by
    intro u hu
    simp [view, hq, count_cons_of_ne (hu.symm)]
  have hon : ∀ d, Phase.on (.signalled t n d) t = .signalled t n d := fun d => Phase.on_self rfl
  have hoff : ∀ d u, u ≠ t → Phase.on (.signalled t n d) u = (view s u).phase c := by
    intro d u hu
    simp [Phase.on_other (p := .signalled t n d) rfl hu, view, hfree]
  constructor
  · refine h.of_view t (g := .handed) ?_ ?_ fun u hu => ⟨?_, ?_⟩
    · simp [stage_cons hst, Stage.next]
    · simpa [hcount, hon, Stage.signalled] using hinv.signal hphase t true
    · simp [hu]
    · simp [hother u hu, hoff true u hu]
  · refine h.of_view t (g := .out) ?_ ?_ fun u hu => ⟨?_, ?_⟩
    · simp [stage, hst, Stage.next]
    · simpa [hcount, hon, Stage.signalled] using hinv.signal hphase t false
    · simp [hu]
    · simp [hu, hother u hu, hoff false u hu]

/-- **`signal_notific` up to its `unlock`.** -/
theorem inv_signal (h : SysInv s) {direct : Bool} (hs : signal s c n direct = some s') :
    SysInv s' := by
  obtain ⟨hfree, hs⟩ := ite_none_right_eq_some.mp hs
  split at hs
  · cases hs
  · rename_i o hsig
    have hq := signalNotific_queue hsig
    cases hs
    exact h.congr rfl fun u => view_setNotifc_same s u hq.symm
  rename_i o t hsig
  have hq := signalNotific_queue hsig
  cases direct with
  | false =>
    cases hs
    exact (inv_taken h hfree hq).2
  | true =>
  obtain ⟨s1, hs1, rfl⟩ := map_eq_some_iff.mp hs
  unfold enqueueCurrent at hs1
  cases hcur : s.current c with
  | none =>
    simp only [System.record, System.setNotifc, hcur, some.injEq] at hs1
    subst hs1
    exact (inv_taken h hfree hq).1
  | some u =>
  simp only [System.record, System.setNotifc, hcur] at hs1
  obtain ⟨hrun, hs1⟩ := ite_none_right_eq_some.mp hs1
  cases hs1
  -- the caller is put into a ready queue first: the two changes do not meet
  have h' : SysInv ((s.setState u .ready).setReturn u 0) :=
    h.schedule (by rw [hrun]; simp) (by simp)
  exact (inv_taken h' hfree hq).1

theorem view_phase_self (hc : s.cpu c = p) (hp : p.thread = some t) : (view s t).phase c = p := by
  show (s.cpu c).on t = p
  rw [hc, Phase.on_self hp]

theorem view_phase_other (hc : s.cpu c = p) (hp : p.thread = some t) (hu : u ≠ t) :
    (view s u).phase c = .free := by
  show (s.cpu c).on u = .free
  rw [hc, Phase.on_other hp hu]

theorem Phase.on_after (t u : Nat) (d : Bool) :
    (Phase.after t d).on u = if u = t then Phase.after t d else .free := by
  cases d with
  | false => simp [Phase.after]
  | true =>
  by_cases h : u = t
  · subst h
    simp [Phase.after, Phase.on, Phase.thread]
  · simp [Phase.after, Phase.on, Phase.thread, h, Ne.symm h]

theorem Phase.directTo_after (t : Nat) (d : Bool) :
    (Phase.after t d).directTo = if d then some t else none := by
  cases d <;> rfl

/-- Behind the timeout the CPU is free, or sure that the thread sleeps no more. -/
theorem phaseOk_after {v : View N} {st : Stage} {d : Bool} (t : Nat) (hst : st = .signalled d)
    (hcb : v.cb = false) : PhaseOk v st c (.after t d) := by
  cases d with
  | false => trivial
  | true => exact ⟨hst, hcb⟩

section

variable (h : SysInv s)

include h

/-- **`try_remove_timeout` looks at `cb`.** -/
theorem inv_testTimeout (hs : testTimeout s c = some s') : SysInv s' := by
  unfold testTimeout at hs
  split at hs
  case h_2 => cases hs
  rename_i t n d hc
  obtain ⟨st, hst, hinv⟩ := h t
  have hpt : (view s t).phase c = .signalled t n d := view_phase_self hc rfl
  have hok : st = .signalled d := hinv.phaseOk hpt
  have hsig : ((view s t).phase c).signals = true := by rw [hpt]; rfl
  by_cases hcb : s.cb t = true
  · rw [if_pos hcb] at hs
    cases hs
    refine h.of_view t hst ?_ fun u hu => ⟨rfl, view_setPhase_same s ?_⟩
    · rw [view_setPhase, Phase.on_self rfl]
      exact hinv.onward hsig hok (by rw [hpt]; rfl) (by simp)
    · rw [hc, Phase.on_other rfl hu, Phase.on_other rfl hu]
  rw [if_neg hcb] at hs
  cases hs
  have hcb : (view s t).cb = false := by simpa [view] using hcb
  refine h.of_view t hst ?_ fun u hu => ⟨rfl, view_setPhase_same s ?_⟩
  · rw [view_setPhase, Phase.on_after, if_pos rfl]
    exact hinv.onward hsig (phaseOk_after t hok hcb) (by rw [hpt, Phase.directTo_after]; rfl)
      fun _ => hcb
  · rw [hc, Phase.on_after, if_neg hu, Phase.on_other rfl hu]

/-- **`try_dequeue_sleeper`.** -/
theorem inv_dequeueSleeper (hs : dequeueSleeper s c = some s') : SysInv s' := by
  unfold dequeueSleeper at hs
  split at hs
  case h_2 => cases hs
  rename_i t n d hc
  obtain ⟨hlock, hs⟩ := ite_none_left_eq_some.mp hs
  obtain ⟨st, hst, hinv⟩ := h t
  have hpt : (view s t).phase c = .dequeue t n d := view_phase_self hc rfl
  have hok : st = .signalled d := hinv.phaseOk hpt
  have hsig : ((view s t).phase c).signals = true := by rw [hpt]; rfl
  have hon : Phase.on (.forget t n d) t = .forget t n d := Phase.on_self rfl
  have hoff : ∀ u, u ≠ t → Phase.on (.forget t n d) u = (view s u).phase c := by
    intro u hu
    rw [view_phase_other hc rfl hu, Phase.on_other rfl hu]
  by_cases hcb : s.cb t = true
  · rw [if_pos hcb] at hs
    cases hs
    have hfree : ((view s t).phase (view s t).sleepCpu).holdsSleepLock = false := by
      show ((s.cpu (s.sleepCpu t)).on t).holdsSleepLock = false
      unfold Phase.on
      split
      · simpa using hlock
      · rfl
    have hne : ∀ m, st ≠ .queued m := by
      intro m hm
      rw [hok] at hm
      cases d <;> cases hm
    have hcount : ((s.sleepList (s.sleepCpu t)).erase t).count t =
        (view s t).asleep (s.sleepCpu t) - 1 := count_erase_self
    have hother : ∀ u, u ≠ t → ((s.sleepList (s.sleepCpu t)).erase t).count u =
        (view s u).asleep (s.sleepCpu t) := fun u hu => count_erase_of_ne hu
    have hdeq := hinv.dequeue hfree hne
    refine h.of_view t hst ?_ fun u hu => ⟨rfl, ?_⟩
    · have := hdeq.onward (p := .forget t n d) (c := c) hsig ⟨hok, rfl⟩ (by rw [hpt]; rfl) (by simp)
      simpa [hon, hcount, show (view s t).sleepCpu = s.sleepCpu t from rfl] using this
    · simp [hu, hoff u hu, hother u hu]
  rw [if_neg hcb] at hs
  cases hs
  have hcb : (view s t).cb = false := by simpa [view] using hcb
  refine h.of_view t hst ?_ fun u hu => ⟨rfl, view_setPhase_same s (hoff u hu)⟩
  rw [view_setPhase, hon]
  exact hinv.onward hsig ⟨hok, hcb⟩ (by rw [hpt]; rfl) (by simp)

/-- **`pending_notific` is cleared.** -/
theorem inv_forgetPending (hs : forgetPending s c = some s') : SysInv s' := by
  unfold forgetPending at hs
  split at hs
  case h_2 => cases hs
  rename_i t n d hc
  obtain ⟨_, hs⟩ := ite_none_right_eq_some.mp hs
  cases hs
  obtain ⟨st, hst, hinv⟩ := h t
  have hpt : (view s t).phase c = .forget t n d := view_phase_self hc rfl
  obtain ⟨hok, hcb⟩ := hinv.phaseOk hpt
  refine h.of_view t hst ?_ fun u hu => ⟨rfl, ?_⟩
  · have := (hinv.forget hcb).onward (p := .after t d) (c := c) (by rw [hpt]; rfl)
      (phaseOk_after t hok hcb) (by rw [hpt, Phase.directTo_after]; rfl) fun _ => hcb
    simpa [Phase.on_after] using this
  · simp [Phase.on_after, hu, ← view_phase_other hc rfl hu]

/-- **The direct switch.** -/
theorem inv_switchToThread (hs : switchToThread s c = some s') : SysInv s' := by
  unfold switchToThread at hs
  split at hs
  case h_2 => cases hs
  rename_i t hc
  obtain ⟨_, hs⟩ := ite_none_left_eq_some.mp hs
  cases hs
  obtain ⟨st, hst, hinv⟩ := h t
  obtain ⟨rfl, hinv'⟩ := hinv.switch (view_phase_self hc rfl)
  refine h.of_view t (g := .out) ?_ ?_ fun u hu => ⟨?_, ?_⟩
  · simp [stage_cons hst, Stage.next]
  · simpa using hinv'
  · simp [hu]
  · simp [View.ext_iff, hu, view_phase_other hc rfl hu]

/-- **The timer takes a sleeper.** -/
theorem inv_timerTake (hs : timerTake s c = some s') : SysInv s' := by
  unfold timerTake at hs
  cases hc : s.cpu c with
  | irq now =>
    cases hl : s.sleepList c with
    | nil =>
      rw [hc, hl] at hs
      cases hs
    | cons t rest =>
    simp only [hc, hl] at hs
    obtain ⟨_, hs⟩ := ite_none_right_eq_some.mp hs
    cases hs
    obtain ⟨st, hst, hinv⟩ := h t
    have hfree : ∀ u, (view s u).phase c = .free := by
      intro u
      show (s.cpu c).on u = .free
      rw [hc, Phase.on_irq]
    have hcount : (view s t).asleep c = rest.count t + 1 := by simp [view, hl]
    have hother : ∀ u, u ≠ t → rest.count u = (view s u).asleep c := by
      intro u hu
      simp [view, hl, count_cons_of_ne (hu.symm)]
    refine h.of_view t hst ?_ fun u hu => ⟨rfl, ?_⟩
    · have := hinv.take (by rw [hcount]; simp) (hfree t) now t
      simpa [hcount, Phase.on_self (p := .callback now t) rfl] using this
    · simp [hother u hu, Phase.on_other (p := .callback now t) rfl hu, ← hfree u]
  | _ =>
    rw [hc] at hs
    cases hs

/-- **`notific_timer_cb`**, for a thread that no CPU is switching to. -/
theorem inv_timerCallback (hok : WakeOk s (.timerCallback c)) (hs : timerCallback s c = some s') :
    SysInv s' := by
  unfold timerCallback at hs
  split at hs
  case h_2 => cases hs
  rename_i now t hc
  obtain ⟨st, hst, hinv⟩ := h t
  have hpt : (view s t).phase c = .callback now t := view_phase_self hc rfl
  have hon : Phase.on (.clear now t) t = .clear now t := Phase.on_self rfl
  have hoff : ∀ u, u ≠ t → Phase.on (.clear now t) u = (view s u).phase c := by
    intro u hu
    rw [view_phase_other hc rfl hu, Phase.on_other rfl hu]
  split at hs
  · cases hs
  rename_i n hpend
  cases st with
  | out =>
    rw [if_pos (show s.threadState t ≠ .waiting from hinv.stage.2.1)] at hs
    cases hs
    refine h.of_view t hst ?_ fun u hu => ⟨rfl, ?_⟩
    · simpa [hon] using hinv.callbackLate hpt
    · simp [hu, hoff u hu]
  | queued m =>
    obtain ⟨hm, hinv'⟩ := hinv.callbackWake hpt
    obtain rfl : n = m := some.inj (hpend.symm.trans hm)
    rw [if_neg (not_not.mpr (show s.threadState t = .waiting from hinv.stage.2.1))] at hs
    obtain ⟨_, hs⟩ := ite_none_left_eq_some.mp hs
    cases hs
    have hone : (view s t).queued n = 1 := by simpa using hinv.stage.1 n
    have hcount : ((s.notifc n).waitingThreads.erase t).count t = 0 :=
      count_erase_self.trans (congrArg (· - 1) hone)
    have hother : ∀ u, u ≠ t → ((s.notifc n).waitingThreads.erase t).count u =
        (view s u).queued n := fun u hu => count_erase_of_ne hu
    refine h.of_view t (g := .out) ?_ ?_ fun u hu => ⟨?_, ?_⟩
    · simp [stage, hst, Stage.next]
    · simpa [hcount, hon] using hinv'
    · simp [hu]
    · simp [hu, hother u hu, hoff u hu]
  | handed =>
    -- some CPU is switching to the thread, which the condition excludes
    obtain ⟨d, hd⟩ := hinv.stage.2.2
    exact absurd ⟨d, Phase.directTo_on hd⟩ (hok t (by rw [hc]; rfl))

/-- **`cb = NULL`.** -/
theorem inv_timerClear (hs : timerClear s c = some s') : SysInv s' := by
  unfold timerClear at hs
  split at hs
  case h_2 => cases hs
  rename_i now t hc
  cases hs
  obtain ⟨st, hst, hinv⟩ := h t
  refine h.of_view t hst ?_ fun u hu => ⟨rfl, ?_⟩
  · simpa using hinv.clear (view_phase_self hc rfl)
  · simp [View.ext_iff, hu, view_phase_other hc rfl hu]

theorem inv_timerEnd (hs : timerEnd s c = some s') : SysInv s' := by
  unfold timerEnd at hs
  split at hs
  case h_2 => cases hs
  rename_i now hc
  obtain ⟨_, hs⟩ := ite_none_right_eq_some.mp hs
  cases hs
  exact h.congr rfl fun u => view_setPhase_same s (by rw [hc, Phase.on_irq, Phase.on_free])

/-- **One step** that meets the condition keeps every thread to the protocol. -/
theorem inv_step {a : Act N} (hok : WakeOk s a) (hs : step s a = some s') : SysInv s' := by
  cases a with
  | wait c n isBlock timeout => exact inv_wait h hok hs
  | signal c n direct => exact inv_signal h hs
  | testTimeout c => exact inv_testTimeout h hs
  | dequeueSleeper c => exact inv_dequeueSleeper h hs
  | forgetPending c => exact inv_forgetPending h hs
  | switchToThread c => exact inv_switchToThread h hs
  | timerIrq c now =>
    obtain ⟨hfree, hs⟩ := ite_none_right_eq_some.mp hs
    cases hs
    exact h.congr rfl fun u => view_setPhase_same s (by rw [hfree, Phase.on_irq, Phase.on_free])
  | timerTake c => exact inv_timerTake h hs
  | timerCallback c => exact inv_timerCallback h hok hs
  | timerClear c => exact inv_timerClear h hs
  | timerEnd c => exact inv_timerEnd h hs
  | dispatch c t =>
    obtain ⟨⟨_, _, hready⟩, hs⟩ := ite_none_right_eq_some.mp hs
    cases hs
    exact (h.schedule (t := t) (x := .running) (by rw [hready]; simp) (by simp) :)
  | preempt c =>
  simp only [step, preempt] at hs
  split at hs
  · cases hs
  rename_i t hcur
  obtain ⟨⟨_, hrun⟩, hs⟩ := ite_none_right_eq_some.mp hs
  cases hs
  exact (h.schedule (t := t) (x := .ready) (by rw [hrun]; simp) (by simp) :)

end

end Step

/-! ## 8. Whole runs -/

section Runs

variable {N : Nat}

theorem sysInv_init : SysInv (System.init N) := by
  intro t
  refine ⟨.out, rfl, ⟨fun _ => rfl, by simp [view, System.init], nofun⟩,
    fun c => ?_, fun c d hc => ?_, fun c hc => absurd rfl hc, nofun⟩
  · simp [view, System.init, PhaseOk]
  · simp [view, System.init, Phase.signals] at hc

/-- The protocol says what must hold of every wait. -/
theorem SysInv.waitsOk {s : System N} (h : SysInv s) : WaitsOk s := by
  intro t
  obtain ⟨st, hst, hinv⟩ := h t
  refine ⟨st, hst, ?_⟩
  cases st with
  | out =>
    refine ⟨fun n => count_eq_zero.mp (hinv.stage.1 n), fun hb c hc => ?_⟩
    -- a thread in a sleep list has its callback set, so some CPU is at work on it
    have hne : (view s t).asleep c ≠ 0 := by
      simpa [view, count_eq_zero] using hc
    obtain ⟨d, hd⟩ := hinv.stage.2.2 (hinv.asleep c hne).2.1
    refine hb ⟨d, ?_⟩
    by_contra ht
    exact hd (if_neg ht)
  | queued n =>
    have hone : (s.notifc n).waitingThreads.count t = 1 := (hinv.stage.1 n).trans (if_pos rfl)
    refine ⟨one_le_count_iff.mp hone.ge, fun hcb => (hinv.armed hcb).imp ?_ fun hl => ?_⟩
    · exact fun hne => count_pos_iff.mp (Nat.pos_of_ne_zero hne)
    · exact Phase.calls_on hl (hinv.not_clear _)
  | handed =>
    obtain ⟨d, hd⟩ := hinv.stage.2.2
    exact ⟨d, Phase.directTo_on hd⟩

/-- **Signals and timeouts on any CPUs**: in a run whose steps meet `WakeOk` every wait is counted
    off once and made runnable once, by a signal or by its timeout. -/
theorem timeout_run (as : List (Act N))
    (hok : ∀ t ∈ trace step (System.init N) as, WakeOk t.pre t.act) :
    ∀ t ∈ trace step (System.init N) as, WaitsOk t.post :=
  fun t ht => (trace_inv (fun _ _ _ h hc hs => inv_step h hc hs) as _ sysInv_init hok t ht).2.waitsOk

/-- Two waits on two CPUs: one is ended by a signal that also removes its timeout, the other one by
    the timer. -/
def plainRun : List (Act 1) :=
  [.dispatch 0 1, .wait 0 0 true (some 5), .dispatch 0 2, .wait 0 0 true (some 7),
    .dispatch 1 3, .signal 1 0 false, .testTimeout 1, .dequeueSleeper 1, .forgetPending 1,
    .timerIrq 0 9, .timerTake 0, .timerCallback 0, .timerClear 0, .timerEnd 0]

theorem timeout_run_plain :
    (trace step (System.init 1) plainRun).length = 14 ∧
      ∀ t ∈ trace step (System.init 1) plainRun, WaitsOk t.post :=
  ⟨by decide +kernel, timeout_run plainRun (by decide +kernel)⟩

/-- The timer interrupt hits the window of a direct switch: thread 1 has been taken off the queue
    and is still `TS_WAITING`, so its callback counts it off a second time. -/
def windowRun : List (Act 1) :=
  [.dispatch 0 1, .wait 0 0 true (some 5), .dispatch 0 2, .wait 0 0 true none,
    .dispatch 1 3, .signal 1 0 true, .timerIrq 0 9, .timerTake 0, .timerCallback 0]

theorem timeout_woken_twice : ∃ t ∈ trace step (System.init 1) windowRun, ¬ WaitsOk t.post := by
  have hend : (exec step (System.init 1) windowRun).any (fun s => stage (s.log 1) = none) = true := by
    decide +kernel
  obtain ⟨t, ht, hbad⟩ := trace_of_exec hend
  refine ⟨t, ht, fun h => ?_⟩
  obtain ⟨st, hst, _⟩ := h 1
  rw [hbad] at hst
  cases hst

end Runs

end ChCore.Ipc.Notification.Timeout
