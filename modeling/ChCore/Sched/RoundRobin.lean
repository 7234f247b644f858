/-
  File: ChCore/Sched/RoundRobin.lean
  Subject: The round-robin scheduler (`kernel/sched/policy_rr.c`) with `switch_to_thread` and
    `finish_switch` (`kernel/sched/sched.c`) on several CPUs.

  Whether a thread is in a ready queue is recorded only in its `state`, and in which one only in
  its `cpuid`; both are rewritten by every operation. A run makes the calls in any order on any
  CPUs, with the changes that the callers make to `state` in between.

  * `rr_queues_run` -- `QueuesOk` in every run whose direct switches leave no running thread
    behind and whose `finish_switch` calls unlock no thread that is on a CPU.
-/
import ChCore.Common.Errno
import ChCore.Lib.Run

namespace ChCore.Sched

open Lib Function Option List

/-! ## 1. The state -/

/-- A thread: the idle thread of a CPU, or any other thread. -/
inductive Thread (N : Nat) where
  | idle (cpu : Fin (N + 1))
  | user (id : Nat)
  deriving DecidableEq, Repr

/-- `enum thread_state`. -/
inductive ThreadState where
  | init
  | ready
  | inter
  | running
  | exit
  | waiting
  | exiting
  deriving DecidableEq, Repr

inductive KernelStackState where
  | free
  | locked
  deriving DecidableEq, Repr

/-- `prev_thread`: `NULL`, `THREAD_ITSELF` or a thread. -/
inductive Prev (N : Nat) where
  | null
  | itself
  | thread (t : Thread N)
  deriving DecidableEq, Repr

/-- The scheduler's data for `N + 1` CPUs (`PLAT_CPU_NUM`). -/
structure SchedState (N : Nat) where
  rrReadyQueue : Fin (N + 1) → List (Thread N)
  currentThread : Fin (N + 1) → Option (Thread N)
  state : Thread N → ThreadState
  cpuid : Thread N → Fin (N + 1)
  affinity : Thread N → Int
  prio : Thread N → Nat
  budget : Thread N → Nat
  kernelStackState : Thread N → KernelStackState
  prevThread : Thread N → Prev N

def NO_AFF : Int := -1
def MAX_PRIO : Nat := 255
def DEFAULT_BUDGET : Nat := 1
namespace SchedState

variable {N : Nat}

/-- `rr_sched_init`, with threads of any priorities and affinities that wait to be enqueued. -/
def init (N : Nat) (prio : Thread N → Nat) (affinity : Thread N → Int) : SchedState N where
  rrReadyQueue := fun _ => []
  currentThread := fun _ => none
  state := fun _ => .init
  cpuid := fun _ => ⟨0, Nat.succ_pos N⟩
  affinity := affinity
  prio := prio
  budget := fun _ => DEFAULT_BUDGET
  kernelStackState := fun _ => .free
  prevThread := fun _ => .null

variable (s : SchedState N) (t : Thread N)

def setState (x : ThreadState) : SchedState N :=
  { s with state := update s.state t x }

def setBudget (b : Nat) : SchedState N :=
  { s with budget := update s.budget t b }

def setAffinity (a : Int) : SchedState N :=
  { s with affinity := update s.affinity t a }

def setPrev (p : Prev N) : SchedState N :=
  { s with prevThread := update s.prevThread t p }

end SchedState

/-! ## 2. The source -/

section Source

variable {N : Nat}

variable (s : SchedState N) (c : Fin (N + 1)) (t : Thread N)

/-- `__rr_sched_enqueue`. -/
def enqueueOn (c : Fin (N + 1)) : SchedState N × Int :=
  if s.state t = .ready then (s, -EINVAL)
  else
    ({ s with
        cpuid := update s.cpuid t c
        state := update s.state t .ready
        rrReadyQueue := update s.rrReadyQueue c (s.rrReadyQueue c ++ [t]) }, 0)

/-- The CPU that `rr_sched_enqueue` on CPU `c` enqueues a thread for, if there is such a CPU. The
    affinity is converted to `u32`, so a negative one other than `NO_AFF` is out of range. -/
def targetCpu : Option (Fin (N + 1)) :=
  if s.affinity t = NO_AFF then some c
  else if h : 0 ≤ s.affinity t ∧ (s.affinity t).toNat < N + 1 then some ⟨(s.affinity t).toNat, h.2⟩
  else none

/-- `rr_sched_enqueue` on CPU `c`. -/
def rrSchedEnqueue : SchedState N × Int :=
  match t with
  | .idle _ => (s, 0)
  | .user _ =>
    if s.prio t > MAX_PRIO then (s, -EINVAL)
    else match targetCpu s c t with
      | none => (s, -EINVAL)
      | some cpuid => enqueueOn s t cpuid

/-- `__rr_sched_dequeue`. -/
def dequeueFrom : SchedState N × Int :=
  if s.state t = .ready then
    ({ s with
        rrReadyQueue := update s.rrReadyQueue (s.cpuid t)
          ((s.rrReadyQueue (s.cpuid t)).erase t)
        state := update s.state t .inter }, 0)
  else (s, -EINVAL)

/-- `rr_sched_dequeue` (`none` = `BUG_ON`). -/
def rrSchedDequeue : Option (SchedState N × Int) :=
  match t with
  | .idle _ => none
  | .user _ => some (dequeueFrom s t)

def findNextRunnableThreadInList : Option (Thread N) :=
  (s.rrReadyQueue c).find? fun t =>
    decide (s.kernelStackState t = .free) || decide (s.currentThread c = some t)

/-- `rr_sched_choose_thread` on CPU `c`. -/
def rrSchedChooseThread : Option (SchedState N × Thread N) :=
  match findNextRunnableThreadInList s c with
  | none => some (s, .idle c)
  | some t =>
    match dequeueFrom s t with
    | (s', 0) => some (s', t)
    | (_, _) => none

/-- `switch_to_thread` on CPU `c` (`none` = `BUG_ON`). -/
def switchToThread : Option (SchedState N) :=
  if s.state t = .ready then none
  else if s.currentThread c = some t then some ((s.setState t .running).setPrev t .itself)
  else some
    { s with
      cpuid := update s.cpuid t c
      state := update s.state t .running
      prevThread := update s.prevThread t
        (match s.currentThread c with
          | none => .null
          | some old => .thread old)
      kernelStackState := update s.kernelStackState t .locked
      currentThread := update s.currentThread c (some t) }

/-- The second half of `rr_sched`. -/
def chooseAndSwitch : Option (SchedState N) :=
  match rrSchedChooseThread s c with
  | none => none
  | some (s', new) => switchToThread s' c new

/-- `rr_sched` on CPU `c`. -/
def rrSched : Option (SchedState N) :=
  match s.currentThread c with
  | none => chooseAndSwitch s c
  | some old =>
    if s.state old = .waiting then chooseAndSwitch s c
    else if s.state old = .running then
      if s.budget old > 0 then some s
      else
        match rrSchedEnqueue ((s.setBudget old DEFAULT_BUDGET).setState old .inter) c old with
        | (s', 0) => chooseAndSwitch s' c
        | (_, _) => none
    else none

/-- `finish_switch` on CPU `c`. -/
def finishSwitch : Option (SchedState N) :=
  match s.currentThread c with
  | none => none
  | some t =>
    match s.prevThread t with
    | .null | .itself => some s
    | .thread p =>
      some { s with kernelStackState := update s.kernelStackState p .free }

/-- The steps of a run: the calls of the scheduler, and what their callers do to the threads. -/
inductive Act (N : Nat) where
  | enqueue (c : Fin (N + 1)) (t : Thread N)
  | dequeue (t : Thread N)
  | sched (c : Fin (N + 1))
  /-- `switch_to_thread` by a notification or an IPC. -/
  | switchTo (c : Fin (N + 1)) (id : Nat)
  /-- `eret_to_thread` runs `finish_switch` first. -/
  | finish (c : Fin (N + 1))
  /-- the current thread goes onto a wait list -/
  | block (c : Fin (N + 1))
  /-- a thread is taken off its wait list -/
  | wake (t : Thread N)
  /-- the current thread exits -/
  | exit (c : Fin (N + 1))
  | setBudget (t : Thread N) (budget : Nat)
  | setAffinity (t : Thread N) (affinity : Int)
  deriving DecidableEq, Repr

def step : Act N → Option (SchedState N)
  | .enqueue c t => some (rrSchedEnqueue s c t).1
  | .dequeue t => (rrSchedDequeue s t).map Prod.fst
  | .sched c => rrSched s c
  | .switchTo c id => switchToThread s c (.user id)
  | .finish c => finishSwitch s c
  | .block c =>
    match s.currentThread c with
    | none => none
    | some t => if s.state t = .running then some (s.setState t .waiting) else none
  | .wake t => if s.state t = .waiting then some (s.setState t .inter) else none
  | .exit c =>
    match s.currentThread c with
    | none => none
    | some t =>
      if s.state t = .running then
        some { s.setState t .exit with currentThread := update s.currentThread c none }
      else none
  | .setBudget t b => some (s.setBudget t b)
  | .setAffinity t a => some (s.setAffinity t a)

end Source

/-! ## 3. The law of the queues -/

section Law

variable {N : Nat}

/-- **Queues, states and current threads agree.** -/
structure QueuesOk (s : SchedState N) : Prop where
  /-- a thread is in a queue exactly when it is ready -/
  ready : ∀ id, (∃ c, .user id ∈ s.rrReadyQueue c) ↔ s.state (.user id) = .ready
  /-- the queue is the one its `cpuid` names, and it is there once -/
  once : ∀ id c, .user id ∈ s.rrReadyQueue c →
    c = s.cpuid (.user id) ∧ (s.rrReadyQueue c).count (.user id) = 1
  idle : ∀ c d, .idle d ∉ s.rrReadyQueue c
  running : ∀ t, s.state t = .running → ∃! c, s.currentThread c = some t

/-- **The condition on a step.** A direct switch leaves no running thread behind and takes no
    thread from another CPU; `finish_switch` unlocks no thread that is on a CPU. -/
def SwitchOk (s : SchedState N) : Act N → Prop
  | .switchTo c id =>
    (∀ t ∈ s.currentThread c, t ≠ .user id → s.state t ≠ .running) ∧
    ∀ d, d ≠ c → s.currentThread d ≠ some (.user id)
  | .finish c => ∀ t ∈ s.currentThread c, ∀ d, ∀ u ∈ s.currentThread d, s.prevThread t ≠ .thread u
  | _ => True

instance (s : SchedState N) (a : Act N) : Decidable (SwitchOk s a) := by
  cases a <;> unfold SwitchOk <;> infer_instance

/-- The invariant. A thread that is on a CPU has its kernel stack locked, so no other CPU can
    choose it. -/
structure Inv (s : SchedState N) : Prop where
  placed : ∀ t c, (s.rrReadyQueue c).count t = if s.state t = .ready ∧ c = s.cpuid t then 1 else 0
  idle : ∀ d, s.state (.idle d) ≠ .ready
  home : ∀ c d, s.currentThread c = some (.idle d) → d = c
  apart : ∀ t c d, s.currentThread c = some t → s.currentThread d = some t → c = d
  locked : ∀ c t, s.currentThread c = some t → s.kernelStackState t = .locked
  running : ∀ t, s.state t = .running → ∃ c, s.currentThread c = some t

theorem inv_init (prio : Thread N → Nat) (affinity : Thread N → Int) :
    Inv (SchedState.init N prio affinity) where
  placed := by simp [SchedState.init]
  idle := by simp [SchedState.init]
  home := by simp [SchedState.init]
  apart := by simp [SchedState.init]
  locked := by simp [SchedState.init]
  running := by simp [SchedState.init]

theorem Inv.mem_iff {s : SchedState N} (h : Inv s) {t : Thread N} {c : Fin (N + 1)} :
    t ∈ s.rrReadyQueue c ↔ s.state t = .ready ∧ c = s.cpuid t := by
  rw [← count_pos_iff, h.placed]
  split <;> simp_all

theorem Inv.queuesOk {s : SchedState N} (h : Inv s) : QueuesOk s where
  ready := fun id => ⟨fun ⟨_, hc⟩ => (h.mem_iff.mp hc).1, fun hr => ⟨_, h.mem_iff.mpr ⟨hr, rfl⟩⟩⟩
  once := by
    intro id c hc
    have hr := h.mem_iff.mp hc
    exact ⟨hr.2, by rw [h.placed, if_pos hr]⟩
  idle := fun c d hc => h.idle d (h.mem_iff.mp hc).1
  running := by
    intro t ht
    obtain ⟨c, hc⟩ := h.running t ht
    exact ⟨c, hc, fun d hd => h.apart t d c hd hc⟩

end Law

/-! ## 4. The calls -/

section Calls

variable {N : Nat} {s s' : SchedState N}

/-- A change of state that is not about being ready. -/
theorem Inv.setState (h : Inv s) {t : Thread N} {x : ThreadState} (hold : s.state t ≠ .ready)
    (hx : x ≠ .ready) (hrun : x = .running → ∃ c, s.currentThread c = some t) :
    Inv (s.setState t x) := by
  refine ⟨fun u c => ?_, fun d => ?_, h.home, h.apart, h.locked, fun u hu => ?_⟩
  · have := h.placed u c
    by_cases hu : u = t
    · subst hu
      simpa [SchedState.setState, hold, hx] using this
    · simpa [SchedState.setState, hu] using this
  · by_cases hd : .idle d = t
    · simpa [SchedState.setState, hd] using hx
    · simpa [SchedState.setState, hd] using h.idle d
  · by_cases he : u = t
    · subst he
      exact hrun (by simpa [SchedState.setState] using hu)
    · exact h.running u (by simpa [SchedState.setState, he] using hu)

/-- **`__rr_sched_enqueue`** of a thread that is not an idle thread. -/
theorem Inv.enqueueOn (h : Inv s) (id : Nat) (c : Fin (N + 1)) :
    Inv (enqueueOn s (.user id) c).1 := by
  unfold Sched.enqueueOn
  split
  · exact h
  rename_i hold
  refine ⟨fun u d => ?_, fun d => ?_, h.home, h.apart, h.locked, fun u hu => ?_⟩
  · have hp := h.placed u d
    by_cases hu : u = .user id
    · subst hu
      rw [if_neg (fun hr => hold hr.1)] at hp
      by_cases hd : d = c
      · subst hd
        simp [hp]
      · simp [hp, hd]
    · by_cases hd : d = c
      · subst hd
        simpa [hu, Ne.symm hu] using hp
      · simpa [hu, hd] using hp
  · simpa using h.idle d
  have hne : u ≠ .user id := by
    intro he
    simp [he] at hu
  exact h.running u (by simpa [hne] using hu)

theorem Inv.rrSchedEnqueue (h : Inv s) (c : Fin (N + 1)) (t : Thread N) :
    Inv (rrSchedEnqueue s c t).1 := by
  cases t with
  | idle d => exact h
  | user id =>
  unfold Sched.rrSchedEnqueue
  simp only
  split
  · exact h
  · split
    · exact h
    · exact h.enqueueOn id _

/-- `rr_sched_enqueue` changes no current thread and makes no thread `TS_RUNNING`. -/
theorem rrSchedEnqueue_frame (s : SchedState N) (c : Fin (N + 1)) (t : Thread N) :
    (rrSchedEnqueue s c t).1.currentThread = s.currentThread ∧
      ∀ u, (rrSchedEnqueue s c t).1.state u = .running → s.state u = .running := by
  cases t with
  | idle d => exact ⟨rfl, fun _ hu => hu⟩
  | user id =>
  unfold Sched.rrSchedEnqueue Sched.enqueueOn
  simp only
  split
  · exact ⟨rfl, fun _ hu => hu⟩
  split
  · exact ⟨rfl, fun _ hu => hu⟩
  split
  · exact ⟨rfl, fun _ hu => hu⟩
  refine ⟨rfl, fun u hu => ?_⟩
  have hne : u ≠ .user id := by
    intro he
    simp [he] at hu
  simpa [hne] using hu

/-- **`__rr_sched_dequeue`.** -/
theorem Inv.dequeueFrom (h : Inv s) (t : Thread N) : Inv (dequeueFrom s t).1 := by
  unfold Sched.dequeueFrom
  split
  · rename_i hr
    refine ⟨fun u d => ?_, fun d => ?_, h.home, h.apart, h.locked, fun u hu => ?_⟩
    · have hp := h.placed u d
      by_cases hu : u = t
      · subst hu
        by_cases hd : d = s.cpuid u
        · subst hd
          simp [hp, hr]
        · simp [hp, hd]
      · by_cases hd : d = s.cpuid t
        · subst hd
          simpa [hu, count_erase_of_ne hu] using hp
        · simpa [hu, hd] using hp
    · by_cases hd : .idle d = t
      · simp [hd]
      · simpa [hd] using h.idle d
    · have hne : u ≠ t := by
        intro he
        simp [he] at hu
      exact h.running u (by simpa [hne] using hu)
  · exact h

/-- What `switch_to_thread` needs: the thread it leaves does not stay `TS_RUNNING`, and the one it
    takes is on no other CPU. -/
theorem Inv.switchToThread (h : Inv s) {c : Fin (N + 1)} {t : Thread N}
    (hleave : ∀ u ∈ s.currentThread c, u ≠ t → s.state u ≠ .running)
    (hoff : ∀ d, d ≠ c → s.currentThread d ≠ some t) (hidle : ∀ d, t = .idle d → d = c)
    (hs : switchToThread s c t = some s') : Inv s' := by
  obtain ⟨hr, hs⟩ := ite_none_left_eq_some.mp hs
  by_cases hcur : s.currentThread c = some t
  · rw [if_pos hcur] at hs
    cases hs
    have h' := h.setState (x := .running) hr (by simp) fun _ => ⟨c, hcur⟩
    exact { h' with }
  rw [if_neg hcur] at hs
  cases hs
  have hcurr : ∀ d u, update s.currentThread c (some t) d = some u →
      (d = c ∧ u = t) ∨ (d ≠ c ∧ u ≠ t ∧ s.currentThread d = some u) := by
    intro d u hd
    by_cases hdc : d = c
    · subst hdc
      rw [update_self] at hd
      exact .inl ⟨rfl, (some.inj hd).symm⟩
    · rw [update_of_ne hdc] at hd
      exact .inr ⟨hdc, fun hu => hoff d hdc (hu ▸ hd), hd⟩
  refine ⟨fun u d => ?_, fun d => ?_, fun d e hd => ?_, fun u d e hd he => ?_, fun d u hd => ?_,
    fun u hu => ?_⟩
  · have hp := h.placed u d
    by_cases hu : u = t
    · subst hu
      rw [if_neg (fun hx => hr hx.1)] at hp
      simp [hp]
    · simpa [hu] using hp
  · by_cases hd : .idle d = t
    · simp [hd]
    · simpa [hd] using h.idle d
  · rcases hcurr d _ hd with ⟨rfl, ht⟩ | ⟨_, _, hd⟩
    · exact hidle e ht.symm
    · exact h.home d e hd
  · rcases hcurr d u hd with ⟨rfl, rfl⟩ | ⟨_, hne, hd⟩
    · rcases hcurr e u he with ⟨rfl, _⟩ | ⟨_, hne, _⟩
      · rfl
      · exact absurd rfl hne
    · rcases hcurr e u he with ⟨_, ht⟩ | ⟨_, _, he⟩
      · exact absurd ht hne
      · exact h.apart u d e hd he
  · rcases hcurr d u hd with ⟨_, rfl⟩ | ⟨_, hne, hd⟩
    · simp
    · simpa [hne] using h.locked d u hd
  by_cases he : u = t
  · exact ⟨c, by simp [he]⟩
  obtain ⟨d, hd⟩ := h.running u (by simpa [he] using hu)
  have hdc : d ≠ c := by
    rintro rfl
    exact hleave u hd he (by simpa [he] using hu)
  exact ⟨d, by simpa [hdc] using hd⟩

/-- The thread `rr_sched_choose_thread` returns is not ready any more, and on no other CPU: it is
    the current thread, or its kernel stack is free, or it is the idle thread of the CPU. -/
theorem Inv.chooseAndSwitch (h : Inv s) {c : Fin (N + 1)}
    (hleave : ∀ u ∈ s.currentThread c, s.state u ≠ .running)
    (hs : chooseAndSwitch s c = some s') : Inv s' := by
  unfold Sched.chooseAndSwitch Sched.rrSchedChooseThread at hs
  cases hf : findNextRunnableThreadInList s c with
  | none =>
    simp only [hf] at hs
    refine h.switchToThread (fun u hu _ => hleave u hu) (fun d hd hcur => ?_) (fun d hd => ?_) hs
    · exact hd (h.home d c hcur).symm
    · exact (Thread.idle.inj hd).symm
  | some t =>
  have hmem : t ∈ s.rrReadyQueue c := mem_of_find?_eq_some hf
  have hready := (h.mem_iff.mp hmem).1
  have hfree : s.kernelStackState t = .free ∨ s.currentThread c = some t := by
    simpa using List.find?_some hf
  have h' := h.dequeueFrom t
  simp only [hf, Sched.dequeueFrom, hready, if_true] at hs h'
  refine h'.switchToThread (fun u hu _ => ?_) (fun d hd hcur => ?_) (fun d hd => ?_) hs
  · by_cases he : u = t
    · simp [he]
    · simpa [he] using hleave u hu
  · rcases hfree with hk | hk
    · rw [h.locked d t hcur] at hk
      cases hk
    · exact hd (h.apart t d c hcur hk)
  · rw [hd] at hready
    exact absurd hready (h.idle d)

/-- **`rr_sched`.** -/
theorem Inv.rrSched (h : Inv s) {c : Fin (N + 1)} (hs : rrSched s c = some s') : Inv s' := by
  unfold Sched.rrSched at hs
  split at hs
  · rename_i hcur
    exact h.chooseAndSwitch (by simp [hcur]) hs
  rename_i old hcur
  by_cases hw : s.state old = .waiting
  · rw [if_pos hw] at hs
    refine h.chooseAndSwitch (fun u hu => ?_) hs
    obtain rfl : old = u := some.inj (hcur.symm.trans hu)
    simp [hw]
  rw [if_neg hw] at hs
  obtain ⟨hrun, hs⟩ := ite_none_right_eq_some.mp hs
  by_cases hb : s.budget old > 0
  · rw [if_pos hb] at hs
    cases hs
    exact h
  rw [if_neg hb] at hs
  -- the old thread is put back before a new one is chosen
  have h₁ : Inv ((s.setBudget old DEFAULT_BUDGET).setState old .inter) := by
    have h' := h.setState (t := old) (x := .inter) (by simp [hrun]) (by simp) (by simp)
    exact { h' with }
  have h₂ := h₁.rrSchedEnqueue c old
  split at hs
  · rename_i s2 he
    rw [he] at h₂
    refine h₂.chooseAndSwitch (fun u hu hur => ?_) hs
    have hframe := rrSchedEnqueue_frame ((s.setBudget old DEFAULT_BUDGET).setState old .inter) c old
    rw [he] at hframe
    have hur := hframe.2 u hur
    have hu : s.currentThread c = some u := (congrFun hframe.1 c).symm.trans hu
    obtain rfl : old = u := some.inj (hcur.symm.trans hu)
    simp [SchedState.setState] at hur
  · cases hs

/-- A CPU gives up its thread. -/
theorem Inv.leave (h : Inv s) {c : Fin (N + 1)}
    (hleave : ∀ t ∈ s.currentThread c, s.state t ≠ .running) :
    Inv { s with currentThread := update s.currentThread c none } := by
  have hcurr : ∀ d u, update s.currentThread c none d = some u →
      s.currentThread d = some u := by
    intro d u hd
    by_cases hdc : d = c
    · simp [hdc] at hd
    · simpa [hdc] using hd
  refine ⟨h.placed, h.idle, fun d e hd => h.home d e (hcurr d _ hd),
    fun u d e hd he => h.apart u d e (hcurr d u hd) (hcurr e u he),
    fun d u hd => h.locked d u (hcurr d u hd), fun u hu => ?_⟩
  obtain ⟨d, hd⟩ := h.running u hu
  have hdc : d ≠ c := by
    rintro rfl
    exact hleave u hd hu
  exact ⟨d, by simpa [hdc] using hd⟩

/-- **`finish_switch`**, where it does not unlock a thread that is on a CPU. -/
theorem Inv.finishSwitch (h : Inv s) {c : Fin (N + 1)} (hok : SwitchOk s (.finish c))
    (hs : finishSwitch s c = some s') : Inv s' := by
  unfold Sched.finishSwitch at hs
  split at hs
  · cases hs
  rename_i t hcur
  split at hs
  · cases hs
    exact h
  · cases hs
    exact h
  · rename_i p hp
    cases hs
    refine { h with locked := fun d u hd => ?_ }
    have hne : u ≠ p := fun he => hok t hcur d u hd (he ▸ hp)
    simpa [hne] using h.locked d u hd

/-- **One step** that meets the condition keeps the invariant. -/
theorem inv_step {a : Act N} (h : Inv s) (hok : SwitchOk s a) (hs : step s a = some s') :
    Inv s' := by
  cases a with
  | enqueue c t =>
    cases hs
    exact h.rrSchedEnqueue c t
  | dequeue t =>
    obtain ⟨r, hr, rfl⟩ := map_eq_some_iff.mp hs
    cases t with
    | idle d => cases hr
    | user id =>
      cases hr
      exact h.dequeueFrom (.user id)
  | sched c => exact h.rrSched hs
  | switchTo c id =>
    exact h.switchToThread hok.1 hok.2 nofun hs
  | finish c => exact h.finishSwitch hok hs
  | block c =>
    simp only [step] at hs
    split at hs
    · cases hs
    rename_i t hcur
    obtain ⟨hrun, hs⟩ := ite_none_right_eq_some.mp hs
    cases hs
    exact h.setState (by simp [hrun]) (by simp) (by simp)
  | wake t =>
    obtain ⟨hw, hs⟩ := ite_none_right_eq_some.mp hs
    cases hs
    exact h.setState (by simp [hw]) (by simp) (by simp)
  | exit c =>
    simp only [step] at hs
    split at hs
    · cases hs
    rename_i t hcur
    obtain ⟨hrun, hs⟩ := ite_none_right_eq_some.mp hs
    cases hs
    have h' := h.setState (t := t) (x := .exit) (by simp [hrun]) (by simp) (by simp)
    refine h'.leave fun u hu => ?_
    obtain rfl : t = u := some.inj (hcur.symm.trans hu)
    simp [SchedState.setState]
  | setBudget t b | setAffinity t x =>
    cases hs
    exact { h with }

end Calls

/-! ## 5. Whole runs -/

section Runs

variable {N : Nat}

/-- **The ready queues over whole runs**: queues, states and current threads agree after every step
    of a run whose steps meet `SwitchOk`, for any priorities and affinities. -/
theorem rr_queues_run (prio : Thread N → Nat) (affinity : Thread N → Int) (as : List (Act N))
    (hok : ∀ t ∈ trace step (SchedState.init N prio affinity) as, SwitchOk t.pre t.act) :
    ∀ t ∈ trace step (SchedState.init N prio affinity) as, QueuesOk t.post :=
  fun t ht => (trace_inv (fun _ _ _ h hc hs => inv_step h hc hs) as _
    (inv_init prio affinity) hok t ht).2.queuesOk

/-- Threads of middle priority that may run anywhere, on three CPUs. -/
def machine : SchedState 2 := SchedState.init 2 (fun _ => 10) (fun _ => NO_AFF)

/-- Two threads take turns on CPU 0; then one waits, is woken on CPU 1 and runs there. -/
def turnsRun : List (Act 2) :=
  [.enqueue 0 (.user 1), .enqueue 0 (.user 2), .sched 0, .finish 0, .setBudget (.user 1) 0,
    .sched 0, .finish 0, .block 0, .sched 0, .finish 0, .wake (.user 2), .enqueue 1 (.user 2),
    .sched 1, .finish 1]

theorem rr_queues_turns :
    (trace step machine turnsRun).length = 14 ∧
      ∀ t ∈ trace step machine turnsRun, QueuesOk t.post :=
  ⟨by decide +kernel, rr_queues_run _ _ turnsRun (by decide +kernel)⟩

/-- Thread 1 moves from CPU 0 to CPU 1, and CPU 0 returns to thread 2 a second time without a
    switch in between: `finish_switch` unlocks thread 1 again, which now runs on CPU 1. When thread
    1 is enqueued for CPU 2 by its direct switch, CPU 2 takes it while it is still on CPU 1. -/
def staleRun : List (Act 2) :=
  [.enqueue 0 (.user 1), .sched 0, .enqueue 0 (.user 2), .setAffinity (.user 1) 1,
    .setBudget (.user 1) 0, .sched 0, .finish 0, .sched 1, .sched 0, .finish 0,
    .setAffinity (.user 1) 2, .enqueue 1 (.user 1), .sched 2]

/-- A client waits for an IPC, its server runs and returns: `sys_ipc_return` leaves the server
    `TS_RUNNING` when it switches back. -/
def returnRun : List (Act 2) :=
  [.enqueue 0 (.user 1), .sched 0, .block 0, .switchTo 0 2, .switchTo 0 1]

theorem rr_queues_broken :
    (∃ t ∈ trace step machine staleRun, ¬ QueuesOk t.post) ∧
      ∃ t ∈ trace step machine returnRun, ¬ QueuesOk t.post := by
  constructor
  · have hend : (exec step machine staleRun).any (fun s => s.state (.user 1) = .running ∧
        s.currentThread 1 = some (.user 1) ∧ s.currentThread 2 = some (.user 1)) = true := by
      decide +kernel
    obtain ⟨t, ht, hrun, h1, h2⟩ := trace_of_exec hend
    refine ⟨t, ht, fun h => ?_⟩
    cases (h.running _ hrun).unique h1 h2
  have hend : (exec step machine returnRun).any (fun s => s.state (.user 2) = .running ∧
      ∀ c, s.currentThread c ≠ some (.user 2)) = true := by
    decide +kernel
  obtain ⟨t, ht, hrun, hno⟩ := trace_of_exec hend
  refine ⟨t, ht, fun h => ?_⟩
  obtain ⟨c, hc, _⟩ := h.running _ hrun
  exact hno c hc

end Runs

end ChCore.Sched
