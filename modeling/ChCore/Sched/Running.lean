/-
  File: ChCore/Sched/Running.lean
  Subject: `TS_RUNNING` and the current threads under direct switches: `sys_ipc_call`,
    `sys_ipc_return` (`kernel/ipc/connection.c`), `wait_notific`, `signal_notific`
    (`kernel/ipc/notification.c`) and `rr_sched`.

  A step is one call from its start to the return to user mode. Which handler thread a connection
  names is an argument of the call; a handler is a shadow thread with its `ipc_lock`, though
  `sys_ipc_register_cb_return` does not check that.

  * `running_run_iff` -- `RunningOk` all along a run exactly when nobody returns from an IPC, and
    no idle thread is left by a direct switch.
-/
import ChCore.Ipc.Notification
import ChCore.Sched.RoundRobin

namespace ChCore.Sched

open Lib Function Option
open Ipc.Notification (Notific initNotific waitNotific signalNotific waitNotific_cases signalNotific_queue)

/-! ## 1. The calls -/

/-- The scheduler with the handlers' locks and clients, and the notifications. -/
structure Kernel (N : Nat) where
  sched : SchedState N
  ipcLock : Nat → Bool
  client : Nat → Option (Thread N)
  notifc : Nat → Notific

section Source

variable {N : Nat}

/-- `create_thread` leaves a shadow thread `TS_WAITING`. -/
def Kernel.init (N : Nat) (shadow : Nat → Bool) (prio : Thread N → Nat) (affinity : Thread N → Int) :
    Kernel N where
  sched := { SchedState.init N prio affinity with
    state := fun
      | .user id => if shadow id then .waiting else .init
      | .idle _ => .init }
  ipcLock := fun _ => false
  client := fun _ => none
  notifc := fun _ => initNotific

/-- `switch_to_thread` and `eret_to_thread`. -/
def switchAndEret (s : SchedState N) (c : Fin (N + 1)) (t : Thread N) : Option (SchedState N) :=
  (switchToThread s c t).bind (finishSwitch · c)

/-- `sys_ipc_call` to the handler `h`, through `grab_ipc_lock` and `thread_migrate_to_server`. The
    call waits for the kernel stack of the handler with the lock held. -/
def sysIpcCall (k : Kernel N) (c : Fin (N + 1)) (h : Nat) : Option (Kernel N) :=
  match k.sched.currentThread c with
  | none => none
  | some t =>
    if k.ipcLock h then some k
    else if k.sched.kernelStackState (.user h) ≠ .free then none
    else (switchAndEret (k.sched.setState t .waiting) c (.user h)).map fun s =>
      { k with
        sched := s
        ipcLock := update k.ipcLock h true
        client := update k.client h (some t) }

/-- `sys_ipc_return` by the handler that is current; the state of the handler is not touched. -/
def sysIpcReturn (k : Kernel N) (c : Fin (N + 1)) : Option (Kernel N) :=
  match k.sched.currentThread c with
  | some (.user h) =>
    match k.client h with
    | none => none
    | some t => (switchAndEret k.sched c t).map fun s =>
      { k with
        sched := s
        ipcLock := update k.ipcLock h false
        client := update k.client h none }
  | _ => none

def Kernel.setNotifc (k : Kernel N) (n : Nat) (o : Notific) : Kernel N :=
  { k with notifc := update k.notifc n o }

/-- `wait_notific`. -/
def wait (k : Kernel N) (c : Fin (N + 1)) (n : Nat) (isBlock : Bool) : Option (Kernel N) :=
  match k.sched.currentThread c with
  | some (.user t) =>
    match waitNotific (k.notifc n) t isBlock with
    | (o, .returned _) => some (k.setNotifc n o)
    | (o, .blocked) =>
      ((rrSched (k.sched.setState (.user t) .waiting) c).bind (finishSwitch · c)).map fun s =>
        { k.setNotifc n o with sched := s }
  | _ => none

/-- The direct switch is enabled and the affinity of the target allows it. -/
def directTo (s : SchedState N) (c : Fin (N + 1)) (t : Nat) (direct : Bool) : Prop :=
  direct = true ∧ (s.affinity (.user t) = NO_AFF ∨ s.affinity (.user t) = c.val)
  deriving Decidable

/-- `sched_enqueue` under `BUG_ON`. -/
def mustEnqueue (s : SchedState N) (c : Fin (N + 1)) (t : Thread N) : Option (SchedState N) :=
  if (rrSchedEnqueue s c t).2 = 0 then some (rrSchedEnqueue s c t).1 else none

/-- What `signal_notific` does with its target. -/
def wakeTarget (s : SchedState N) (c : Fin (N + 1)) (t : Nat) (direct : Bool) :
    Option (SchedState N) :=
  if directTo s c t direct then
    match s.currentThread c with
    | none => none
    | some u => (mustEnqueue s c u).bind (switchAndEret · c (.user t))
  else mustEnqueue (s.setState (.user t) .inter) c (.user t)

/-- `signal_notific`. -/
def signal (k : Kernel N) (c : Fin (N + 1)) (n : Nat) (direct : Bool) : Option (Kernel N) :=
  match signalNotific (k.notifc n) with
  | none => none
  | some (o, none) => some (k.setNotifc n o)
  | some (o, some t) =>
    (wakeTarget k.sched c t direct).map fun s => { k.setNotifc n o with sched := s }

inductive KernelAct (N : Nat) where
  /-- a new thread that is not a handler is enqueued -/
  | create (c : Fin (N + 1)) (id : Nat)
  | ipcCall (c : Fin (N + 1)) (h : Nat)
  | ipcReturn (c : Fin (N + 1))
  | wait (c : Fin (N + 1)) (n : Nat) (isBlock : Bool)
  | signal (c : Fin (N + 1)) (n : Nat) (direct : Bool)
  | sched (c : Fin (N + 1))
  | setBudget (t : Thread N) (budget : Nat)
  deriving DecidableEq, Repr

variable (shadow : Nat → Bool)

def kernelStep (k : Kernel N) : KernelAct N → Option (Kernel N)
  | .create c id =>
    if shadow id = false ∧ k.sched.state (.user id) = .init then
      (mustEnqueue k.sched c (.user id)).map fun s => { k with sched := s }
    else none
  | .ipcCall c h => if shadow h then sysIpcCall k c h else none
  | .ipcReturn c => sysIpcReturn k c
  | .wait c n isBlock => wait k c n isBlock
  | .signal c n direct => signal k c n direct
  | .sched c => ((rrSched k.sched c).bind (finishSwitch · c)).map fun s => { k with sched := s }
  | .setBudget t b => some { k with sched := k.sched.setBudget t b }

end Source

/-! ## 2. In the middle of a call -/

section Sched

variable {N : Nat} {s s' r : SchedState N} {c : Fin (N + 1)} {t : Thread N}

/-- **`TS_RUNNING` exactly when current**, on one CPU. -/
structure RunningOk (s : SchedState N) : Prop where
  running : ∀ t, s.state t = .running ↔ ∃ c, s.currentThread c = some t
  apart : ∀ t c d, s.currentThread c = some t → s.currentThread d = some t → c = d

/-- The same in the middle of a call: the thread of the CPU `off` does not run any more. An idle
    thread is on its own CPU, and in no ready queue. -/
structure Law (off : Option (Fin (N + 1))) (s : SchedState N) : Prop where
  running : ∀ t, s.state t = .running → ∃ d, some d ≠ off ∧ s.currentThread d = some t
  current : ∀ d t, some d ≠ off → s.currentThread d = some t → s.state t = .running
  apart : ∀ t d e, s.currentThread d = some t → s.currentThread e = some t → d = e
  home : ∀ d e, s.currentThread d = some (.idle e) → e = d
  unready : ∀ d, s.state (.idle d) ≠ .ready

theorem state_setState (x : ThreadState) (u : Thread N) :
    (s.setState t x).state u = if u = t then x else s.state u := by
  simp [SchedState.setState, update_apply]

theorem Law.ok (h : Law none s) : RunningOk s where
  running t := ⟨fun hr => (h.running t hr).imp fun _ => And.right,
    fun ⟨c, hc⟩ => h.current c t (some_ne_none c) hc⟩
  apart := h.apart

/-- Changes of state that are not about running threads or idle threads. -/
theorem Law.congr {off : Option (Fin (N + 1))} (h : Law off s)
    (hcur : r.currentThread = s.currentThread)
    (hst : ∀ u, r.state u = .running ↔ s.state u = .running)
    (hidle : ∀ d, r.state (.idle d) ≠ .ready) : Law off r := by
  refine ⟨fun t ht => ?_, fun d t hd ht => ?_, hcur ▸ h.apart, hcur ▸ h.home, hidle⟩
  · rw [hcur]
    exact h.running t ((hst t).mp ht)
  · rw [hcur] at ht
    exact (hst t).mpr (h.current d t hd ht)

theorem Law.leave (h : Law none s) (hc : s.currentThread c = some t) {x : ThreadState}
    (hx : x ≠ .running) (hr : x ≠ .ready) : Law (some c) (s.setState t x) := by
  refine ⟨fun u hu => ?_, fun d u hd hu => ?_, h.apart, h.home, fun d => ?_⟩
  · rw [state_setState] at hu
    split at hu
    · exact absurd hu hx
    rename_i hne
    obtain ⟨d, -, hd⟩ := h.running u hu
    refine ⟨d, fun heq => hne ?_, hd⟩
    cases heq
    exact some.inj (hd.symm.trans hc)
  · have hne : u ≠ t := by
      rintro rfl
      exact hd (congrArg some (h.apart u d c hu hc))
    rw [state_setState, if_neg hne]
    exact h.current d u (some_ne_none d) hu
  · rw [state_setState]
    split
    · exact hr
    · exact h.unready d

/-- **A switch from the middle** to a thread that does not run. -/
theorem Law.switch (h : Law (some c) s) (ht : s.state t ≠ .running)
    (hidle : ∀ e, t = .idle e → e = c) (hs : switchToThread s c t = some s') :
    Law none s' ∧ ∀ u, s'.state u = if u = t then .running else s.state u := by
  obtain ⟨_, hs⟩ := ite_none_left_eq_some.mp hs
  -- in both branches the CPU has `t` afterwards, and `t` is running
  have hpost : (∀ d, s'.currentThread d = if d = c then some t else s.currentThread d) ∧
      ∀ u, s'.state u = if u = t then .running else s.state u := by
    split at hs <;> cases hs
    · rename_i hcur
      exact ⟨fun d => by by_cases hd : d = c <;> simp [SchedState.setPrev, SchedState.setState, hd, hcur],
        fun u => state_setState _ u⟩
    · simp [update_apply]
  obtain ⟨hcur, hst⟩ := hpost
  -- elsewhere nobody has `t`
  have helse : ∀ {d}, d ≠ c → s.currentThread d ≠ some t := fun hd hdt =>
    ht (h.current _ t (fun heq => hd (some.inj heq)) hdt)
  refine ⟨⟨fun u hu => ?_, fun d u _ hu => ?_, fun u d e hd he => ?_, fun d e hd => ?_, fun d => ?_⟩, hst⟩
  · rw [hst] at hu
    split at hu
    · rename_i heq
      exact ⟨c, some_ne_none c, by rw [hcur, if_pos rfl, heq]⟩
    · obtain ⟨d, hd, hdu⟩ := h.running u hu
      exact ⟨d, some_ne_none d, by rw [hcur, if_neg fun heq => hd (congrArg some heq), hdu]⟩
  · rw [hcur] at hu
    rw [hst]
    split at hu
    · rw [if_pos (some.inj hu).symm]
    · rename_i hd
      rw [h.current d u (fun heq => hd (some.inj heq)) hu, ite_self]
  · rw [hcur] at hd he
    split at hd
    · rename_i hdc
      split at he
      · rename_i hec
        exact hdc.trans hec.symm
      · rename_i hec
        exact absurd (he.trans hd.symm) (helse hec)
    · rename_i hdc
      split at he
      · exact absurd (hd.trans he.symm) (helse hdc)
      · exact h.apart u d e hd he
  · rw [hcur] at hd
    split at hd
    · rename_i hdc
      exact (hidle e (some.inj hd)).trans hdc.symm
    · exact h.home d e hd
  · rw [hst]
    split
    · exact ThreadState.noConfusion
    · exact h.unready d

/-- What a call leaves: the law, and the threads that wait as they were, but for `off`. -/
structure Done (off : Option Nat) (s s' : SchedState N) : Prop where
  law : Law none s'
  waiting : ∀ id, some id ≠ off → s.state (.user id) = .waiting → s'.state (.user id) = .waiting

theorem user_ne {x y : Nat} (h : some x ≠ some y) : (.user x : Thread N) ≠ .user y :=
  fun heq => h (congrArg some (Thread.user.inj heq))

theorem finishSwitch_frame (hs : finishSwitch s c = some s') :
    s'.state = s.state ∧ s'.currentThread = s.currentThread := by
  unfold finishSwitch at hs
  split at hs
  · cases hs
  · split at hs <;> cases hs <;> exact ⟨rfl, rfl⟩

theorem Done.eret {off : Option Nat} (h : Done off s r) (hs : finishSwitch r c = some s') :
    Done off s s' := by
  obtain ⟨hst, hcur⟩ := finishSwitch_frame hs
  exact ⟨h.law.congr hcur (by simp [hst]) (by simpa [hst] using h.law.unready),
    by simpa only [hst] using h.waiting⟩

/-- **`rr_sched`** from the middle of a call. The thread that is chosen was ready. -/
theorem Law.choose (h : Law (some c) s) (hs : chooseAndSwitch s c = some s') : Done none s s' := by
  unfold chooseAndSwitch rrSchedChooseThread at hs
  cases hf : findNextRunnableThreadInList s c with
  | none =>
    simp only [hf] at hs
    have hnot : s.state (.idle c) ≠ .running := by
      intro hrun
      obtain ⟨d, hd, hdc⟩ := h.running _ hrun
      exact hd (congrArg some (h.home d c hdc).symm)
    obtain ⟨hlaw, hst⟩ := h.switch hnot (fun e he => (Thread.idle.inj he).symm) hs
    exact ⟨hlaw, fun id _ hid => by simp [hst, hid]⟩
  | some t =>
  simp only [hf, dequeueFrom] at hs
  by_cases hr : s.state t = .ready
  · simp only [if_pos hr] at hs
    have hne : ∀ {u}, s.state u ≠ .ready → u ≠ t := fun hu heq => hu (heq ▸ hr)
    have hrun : ∀ u, update s.state t .inter u = .running ↔ s.state u = .running := by
      intro u
      by_cases hu : u = t
      · simp [hu, hr]
      · rw [update_of_ne hu]
    have hidle : ∀ d, update s.state t .inter (.idle d) ≠ .ready := by
      intro d
      rw [update_of_ne (hne (h.unready d))]
      exact h.unready d
    obtain ⟨hlaw, hst⟩ := (h.congr (s := s) (r := { s with
        rrReadyQueue := update s.rrReadyQueue (s.cpuid t)
          ((s.rrReadyQueue (s.cpuid t)).erase t)
        state := update s.state t .inter }) rfl hrun hidle).switch
      (by simp) (fun e he => absurd he.symm (hne (h.unready e))) hs
    refine ⟨hlaw, fun id _ hid => ?_⟩
    have hwaits : .user id ≠ t := hne (by simp [hid])
    rw [hst, if_neg hwaits]
    exact (update_of_ne hwaits ..).trans hid
  · simp [if_neg hr, EINVAL] at hs

/-- What `sched_enqueue` does when it succeeds: an idle thread stays as it is. -/
theorem mustEnqueue_eq (hs : mustEnqueue s c t = some s') : s'.currentThread = s.currentThread ∧
    (∀ u, u ≠ t → s'.state u = s.state u) ∧ (∀ id, t = .user id → s'.state t = .ready) ∧
      ∀ d, t = .idle d → s'.state t = s.state t := by
  obtain ⟨hret, hs⟩ := ite_none_right_eq_some.mp hs
  cases hs
  cases t with
  | idle d => simp [rrSchedEnqueue]
  | user id =>
  simp only [rrSchedEnqueue, enqueueOn, EINVAL] at hret ⊢
  split at hret
  · simp at hret
  rename_i hp
  rw [if_neg hp]
  split at hret
  · simp at hret
  split at hret
  · simp at hret
  rename_i hr
  simp +contextual [hr]

theorem Law.enqueue {off : Option (Fin (N + 1))} (h : Law off s) (ht : s.state t ≠ .running)
    (hs : mustEnqueue s c t = some s') : Law off s' := by
  obtain ⟨hcur, hst, hready, hidle⟩ := mustEnqueue_eq hs
  have hrun : ∀ u, s'.state u = .running ↔ s.state u = .running := by
    intro u
    by_cases hu : u = t
    · subst hu
      refine iff_of_false ?_ ht
      cases u with
      | idle d => rwa [hidle d rfl]
      | user id => simp [hready id rfl]
    · rw [hst u hu]
  refine h.congr hcur hrun fun d => ?_
  by_cases hd : .idle d = t
  · rw [hd, hidle d hd.symm, ← hd]
    exact h.unready d
  · rw [hst _ hd]
    exact h.unready d

/-- **`rr_sched`.** -/
theorem Law.rrSched (h : Law none s) (hs : rrSched s c = some s') : Done none s s' := by
  unfold Sched.rrSched at hs
  split at hs
  · rename_i hcur
    have h' : Law (some c) s := by
      refine ⟨fun t ht => ?_, fun d t _ => h.current d t (some_ne_none d), h.apart, h.home, h.unready⟩
      obtain ⟨d, -, hd⟩ := h.running t ht
      refine ⟨d, fun heq => ?_, hd⟩
      cases heq
      cases hcur.symm.trans hd
    exact h'.choose hs
  rename_i old hcur
  have hrun := h.current c old (by simp) hcur
  simp only [hrun, reduceCtorEq, if_false, if_true] at hs
  split at hs
  · cases hs
    exact ⟨h, fun _ _ => id⟩
  split at hs
  · rename_i r he
    have hm : mustEnqueue ((s.setBudget old DEFAULT_BUDGET).setState old .inter) c old = some r := by
      simp [mustEnqueue, he]
    have hhalf : Law (some c) ((s.setBudget old DEFAULT_BUDGET).setState old .inter) :=
      (h.leave hcur (x := .inter) (by simp) (by simp)).congr rfl (fun _ => Iff.rfl)
        (h.leave hcur (x := .inter) (by simp) (by simp)).unready
    obtain ⟨_, hst, _⟩ := mustEnqueue_eq hm
    have hd := (hhalf.enqueue (by simp [SchedState.setState]) hm).choose hs
    refine ⟨hd.law, fun id hid hwait => hd.waiting id hid ?_⟩
    have hne : .user id ≠ old := by
      rintro rfl
      cases hrun.symm.trans hwait
    rw [hst _ hne, state_setState, if_neg hne]
    exact hwait
  · cases hs

end Sched

/-! ## 3. Runs -/

section Runs

variable {N : Nat} {shadow : Nat → Bool} {k k' : Kernel N} {c : Fin (N + 1)}

/-- **The condition on a call**: not a return from an IPC, and not a direct switch that leaves an
    idle thread. -/
def LeavesNone (k : Kernel N) : KernelAct N → Prop
  | .ipcReturn _ => False
  | .signal c n direct => ∀ o t, signalNotific (k.notifc n) = some (o, some t) →
    directTo k.sched c t direct → ∀ d, k.sched.currentThread c ≠ some (.idle d)
  | _ => True

/-- The invariant: the threads in the queues of the notifications wait, each in one queue; a handler
    whose lock is free waits in none of them, and no handler is its own client. -/
structure KernelInv (shadow : Nat → Bool) (k : Kernel N) : Prop where
  law : Law none k.sched
  waits : ∀ n, ∀ t ∈ (k.notifc n).waitingThreads, k.sched.state (.user t) = .waiting
  nodup : ∀ n, (k.notifc n).waitingThreads.Nodup
  once : ∀ n m, ∀ t ∈ (k.notifc n).waitingThreads, t ∈ (k.notifc m).waitingThreads → n = m
  parked : ∀ h, shadow h = true → k.ipcLock h = false →
    k.sched.state (.user h) = .waiting ∧ ∀ n, h ∉ (k.notifc n).waitingThreads
  caller : ∀ h t, k.client h = some t → t ≠ .user h

theorem kernelInv_init (prio : Thread N → Nat) (affinity : Thread N → Int) :
    KernelInv shadow (Kernel.init N shadow prio affinity) := by
  refine ⟨⟨fun t => ?_, ?_, ?_, ?_, ?_⟩, ?_, ?_, ?_, ?_, ?_⟩
  · cases t with
    | idle d => simp [Kernel.init]
    | user id => cases hid : shadow id <;> simp [Kernel.init, hid]
  all_goals simp +contextual [Kernel.init, SchedState.init, initNotific]

/-- The scheduler has run; a thread that it does not leave waiting is in no queue and has its lock. -/
theorem KernelInv.schedDone {s : SchedState N} {off : Option Nat} (h : KernelInv shadow k)
    (hd : Done off k.sched s) (hqueue : ∀ x ∈ off, ∀ n, x ∉ (k.notifc n).waitingThreads)
    (hlock : ∀ x ∈ off, shadow x = true → k.ipcLock x = true) :
    KernelInv shadow { k with sched := s } := by
  refine ⟨hd.law, fun n t ht => ?_, h.nodup, h.once, fun x hx hl => ?_, h.caller⟩
  · exact hd.waiting t (fun heq => hqueue t heq.symm n ht) (h.waits n t ht)
  · obtain ⟨hwait, hno⟩ := h.parked x hx hl
    refine ⟨hd.waiting x (fun heq => ?_) hwait, hno⟩
    cases (hlock x heq.symm hx).symm.trans hl

theorem KernelInv.setNotifc (h : KernelInv shadow k) {n : Nat} {o : Notific}
    (hsub : o.waitingThreads.Sublist (k.notifc n).waitingThreads) :
    KernelInv shadow (k.setNotifc n o) := by
  have hmem : ∀ m, (update k.notifc n o m).waitingThreads.Sublist (k.notifc m).waitingThreads := by
    intro m
    by_cases hm : m = n
    · rw [hm, update_self]
      exact hsub
    · rw [update_of_ne hm]
  exact ⟨h.law, fun m t ht => h.waits m t ((hmem m).mem ht), fun m => (hmem m).nodup (h.nodup m),
    fun m l t ht hl => h.once m l t ((hmem m).mem ht) ((hmem l).mem hl),
    fun x hx hl => (h.parked x hx hl).imp id fun hno m hin => hno m ((hmem m).mem hin), h.caller⟩

/-- A thread that waits comes into a queue. -/
theorem KernelInv.addWaiter (h : KernelInv shadow k) {n t : Nat} {o : Notific}
    (ho : o.waitingThreads = (k.notifc n).waitingThreads ++ [t])
    (hwait : k.sched.state (.user t) = .waiting) (hno : ∀ m, t ∉ (k.notifc m).waitingThreads)
    (hlock : shadow t = true → k.ipcLock t = true) : KernelInv shadow (k.setNotifc n o) := by
  have hmem : ∀ m u, u ∈ (update k.notifc n o m).waitingThreads ↔
      u ∈ (k.notifc m).waitingThreads ∨ m = n ∧ u = t := by
    intro m u
    by_cases hm : m = n
    · simp [hm, ho]
    · simp [hm]
  refine ⟨h.law, fun m u hu => ?_, fun m => ?_, fun m l u hu hl => ?_, fun x hx hl => ?_, h.caller⟩
  · rcases (hmem m u).mp hu with hu | ⟨-, rfl⟩
    · exact h.waits m u hu
    · exact hwait
  · simp only [Kernel.setNotifc]
    by_cases hm : m = n
    · rw [hm, update_self, ho]
      exact (h.nodup n).append (List.nodup_singleton t) (List.disjoint_singleton.mpr (hno n))
    · rw [update_of_ne hm]
      exact h.nodup m
  · rcases (hmem m u).mp hu with hu | ⟨rfl, rfl⟩
    · rcases (hmem l u).mp hl with hl | ⟨-, rfl⟩
      · exact h.once m l u hu hl
      · exact absurd hu (hno m)
    · rcases (hmem l u).mp hl with hl | ⟨rfl, -⟩
      · exact absurd hl (hno l)
      · rfl
  · obtain ⟨hw, hq⟩ := h.parked x hx hl
    refine ⟨hw, fun m hin => ?_⟩
    rcases (hmem m x).mp hin with hin | ⟨-, rfl⟩
    · exact hq m hin
    · cases (hlock hx).symm.trans hl

/-- **`sys_ipc_call`**: the handler waits in no queue. -/
theorem KernelInv.ipcCall (h : KernelInv shadow k) {x : Nat} (hx : shadow x = true)
    (hs : sysIpcCall k c x = some k') : KernelInv shadow k' := by
  unfold sysIpcCall at hs
  split at hs
  · cases hs
  rename_i t hcur
  split at hs
  · cases hs
    exact h
  rename_i hlock
  split at hs
  · cases hs
  obtain ⟨s, hsw, rfl⟩ := map_eq_some_iff.mp hs
  obtain ⟨r, hr, hf⟩ := bind_eq_some_iff.mp hsw
  have hrun := h.law.current c t (some_ne_none c) hcur
  obtain ⟨hwait, hqueue⟩ := h.parked x hx (by simpa using hlock)
  have hne : t ≠ .user x := by
    rintro rfl
    cases hrun.symm.trans hwait
  have hstill : (k.sched.setState t .waiting).state (.user x) ≠ .running := by
    simp [state_setState, hne.symm, hwait]
  obtain ⟨hlaw, hst⟩ := (h.law.leave hcur (x := .waiting) (by simp) (by simp)).switch hstill
    (fun e he => by cases he) hr
  have hd : Done (some x) k.sched s := by
    refine Done.eret ⟨hlaw, fun id hid hw => ?_⟩ hf
    rw [hst, if_neg (user_ne hid), state_setState, hw, ite_self]
  have hcall : KernelInv shadow { k with
      ipcLock := update k.ipcLock x true, client := update k.client x (some t) } := by
    refine ⟨h.law, h.waits, h.nodup, h.once, fun y hy hl => ?_, fun y u hu => ?_⟩
    · have hyx : y ≠ x := by
        rintro rfl
        simp at hl
      exact h.parked y hy (by simpa [hyx] using hl)
    · by_cases hyx : y = x
      · subst hyx
        obtain rfl : t = u := by simpa using hu
        exact hne
      · exact h.caller y u (by simpa [hyx] using hu)
  exact hcall.schedDone hd (fun y hy => some.inj hy ▸ hqueue) (fun y hy _ => by simp [← some.inj hy])

/-- **`wait_notific`**: the thread that blocks is running, so it is in no queue before. -/
theorem KernelInv.wait (h : KernelInv shadow k) {n : Nat} {isBlock : Bool}
    (hs : wait k c n isBlock = some k') : KernelInv shadow k' := by
  unfold Sched.wait at hs
  split at hs
  case h_2 => cases hs
  rename_i t hcur
  have hrun := h.law.current c _ (some_ne_none c) hcur
  rcases waitNotific_cases (k.notifc n) t isBlock with ⟨o, r, ho, hq⟩ | ⟨-, -, o, ho, hq⟩
  · simp only [ho, some.injEq] at hs
    exact hs ▸ h.setNotifc (hq ▸ .refl _)
  simp only [ho] at hs
  obtain ⟨s, hsw, rfl⟩ := map_eq_some_iff.mp hs
  obtain ⟨r, hr, hf⟩ := bind_eq_some_iff.mp hsw
  have hch : rrSched (k.sched.setState (.user t) .waiting) c =
      chooseAndSwitch (k.sched.setState (.user t) .waiting) c := by
    simp [rrSched, SchedState.setState, hcur]
  rw [hch] at hr
  have hd := ((h.law.leave hcur (x := .waiting) (by simp) (by simp)).choose hr).eret hf
  have hdone : Done none k.sched s := by
    refine ⟨hd.law, fun id hid hw => hd.waiting id hid ?_⟩
    rw [state_setState, hw, ite_self]
  refine (h.schedDone hdone (fun x hx => by cases hx) fun x hx => by cases hx).addWaiter hq ?_ ?_ ?_
  · exact hd.waiting t (some_ne_none t) (by rw [state_setState, if_pos rfl])
  · intro m hm
    cases hrun.symm.trans (h.waits m t hm)
  · intro hshadow
    by_contra hl
    cases hrun.symm.trans (h.parked t hshadow (by simpa using hl)).1

/-- **What `signal_notific` does with its target**, which waits. -/
theorem wakeTarget_done {s s' : SchedState N} {t : Nat} {direct : Bool} (h : Law none s)
    (hwait : s.state (.user t) = .waiting)
    (hok : directTo s c t direct → ∀ d, s.currentThread c ≠ some (.idle d))
    (hw : wakeTarget s c t direct = some s') : Done (some t) s s' := by
  unfold wakeTarget at hw
  split at hw
  · rename_i hdir
    split at hw
    · cases hw
    rename_i u hcur
    obtain ⟨r, hm, hsw⟩ := bind_eq_some_iff.mp hw
    obtain ⟨r', hr', hf⟩ := bind_eq_some_iff.mp hsw
    have hrun := h.current c u (some_ne_none c) hcur
    obtain ⟨hc', hst, hready, -⟩ := mustEnqueue_eq hm
    cases u with
    | idle d => exact absurd hcur (hok hdir d)
    | user id =>
    have hready := hready id rfl
    -- the thread that runs is in a ready queue now, as if it had left the CPU
    have hstate : ∀ u, r.state u = if u = .user id then .ready else s.state u := by
      intro u
      split
      · rename_i heq
        rw [heq, hready]
      · rename_i hne
        exact hst u hne
    have hhalf : Law (some c) r := by
      refine (h.leave hcur (x := .inter) (by simp) (by simp)).congr hc' (fun u => ?_) fun d => ?_
      · rw [hstate, state_setState]
        split
        · simp
        · exact Iff.rfl
      · rw [hstate, if_neg (by simp)]
        exact h.unready d
    have hkeep : ∀ {u}, s.state u = .waiting → r.state u = .waiting := by
      intro u hu
      rw [hstate, if_neg ?_, hu]
      rintro rfl
      cases hrun.symm.trans hu
    obtain ⟨hlaw, hst'⟩ := hhalf.switch (t := .user t) (by simp [hkeep hwait])
      (fun e he => by cases he) hr'
    refine Done.eret ⟨hlaw, fun x hx hxw => ?_⟩ hf
    rw [hst', if_neg (user_ne hx), hkeep hxw]
  · obtain ⟨-, hst, -⟩ := mustEnqueue_eq hw
    have hinter : Law none (s.setState (.user t) .inter) := by
      refine h.congr rfl (fun u => ?_) fun d => ?_
      · rw [state_setState]
        split
        · rename_i heq
          simp [heq, hwait]
        · exact Iff.rfl
      · rw [state_setState, if_neg (by simp)]
        exact h.unready d
    refine ⟨hinter.enqueue (by simp [state_setState]) hw, fun x hx hxw => ?_⟩
    rw [hst _ (user_ne hx), state_setState, if_neg (user_ne hx), hxw]

/-- **`signal_notific`**: its target is in no other queue. -/
theorem KernelInv.signal (h : KernelInv shadow k) {n : Nat} {direct : Bool}
    (hok : LeavesNone k (.signal c n direct)) (hs : signal k c n direct = some k') :
    KernelInv shadow k' := by
  unfold Sched.signal at hs
  split at hs
  · cases hs
  · rename_i o hsig
    cases hs
    exact h.setNotifc (signalNotific_queue hsig ▸ .refl _)
  rename_i o t hsig
  obtain ⟨s, hw, rfl⟩ := map_eq_some_iff.mp hs
  have hq : (k.notifc n).waitingThreads = t :: o.waitingThreads := signalNotific_queue hsig
  have hin : t ∈ (k.notifc n).waitingThreads := hq ▸ List.mem_cons_self
  have hd := wakeTarget_done h.law (h.waits n t hin) (hok o t hsig) hw
  have hrest : KernelInv shadow (k.setNotifc n o) := h.setNotifc (hq ▸ List.sublist_cons_self t _)
  refine hrest.schedDone hd (fun x hx m hm => ?_) fun x hx hshadow => ?_
  · obtain rfl := some.inj hx
    by_cases hmn : m = n
    · subst hmn
      have hnodup := h.nodup m
      rw [hq, List.nodup_cons] at hnodup
      exact hnodup.1 (by simpa [Kernel.setNotifc] using hm)
    · exact hmn (h.once m n t (by simpa [Kernel.setNotifc, hmn] using hm) hin)
  · obtain rfl := some.inj hx
    by_contra hl
    exact (h.parked t hshadow (by simpa [Kernel.setNotifc] using hl)).2 n hin

theorem kernelInv_step {a : KernelAct N} (h : KernelInv shadow k) (hok : LeavesNone k a)
    (hs : kernelStep shadow k a = some k') : KernelInv shadow k' := by
  cases a with
  | create c id =>
    obtain ⟨hnew, hs⟩ := ite_none_right_eq_some.mp hs
    obtain ⟨s, hm, rfl⟩ := map_eq_some_iff.mp hs
    have hd : Done none k.sched s := by
      refine ⟨h.law.enqueue (by simp [hnew.2]) hm, fun x _ hw => ?_⟩
      rw [(mustEnqueue_eq hm).2.1 _ fun heq => ?_, hw]
      cases (heq ▸ hnew.2).symm.trans hw
    exact h.schedDone hd (fun x hx => by cases hx) fun x hx => by cases hx
  | ipcCall c x =>
    obtain ⟨hx, hs⟩ := ite_none_right_eq_some.mp hs
    exact h.ipcCall hx hs
  | ipcReturn c => exact hok.elim
  | wait c n b => exact h.wait hs
  | signal c n d => exact h.signal hok hs
  | sched c =>
    obtain ⟨s, hsc, rfl⟩ := map_eq_some_iff.mp hs
    obtain ⟨r, hr, hf⟩ := bind_eq_some_iff.mp hsc
    exact h.schedDone ((h.law.rrSched hr).eret hf) (fun x hx => by cases hx) fun x hx => by cases hx
  | setBudget t b =>
    cases hs
    exact ⟨h.law.congr rfl (fun _ => Iff.rfl) h.law.unready, h.waits, h.nodup, h.once, h.parked,
      h.caller⟩

/-- The thread of the CPU is left `TS_RUNNING` by a switch to another one. -/
theorem not_running_of_switch {s s' : SchedState N} {t u : Thread N} (h : RunningOk s)
    (hcur : s.currentThread c = some t) (hne : u ≠ t) (hs : switchAndEret s c u = some s') :
    ¬ RunningOk s' := by
  obtain ⟨r, hr, hf⟩ := bind_eq_some_iff.mp hs
  obtain ⟨_, hr⟩ := ite_none_left_eq_some.mp hr
  rw [if_neg (by rw [hcur]; simpa using hne.symm)] at hr
  cases hr
  obtain ⟨hst, hc'⟩ := finishSwitch_frame hf
  intro hok
  have hrun := (h.running t).mpr ⟨c, hcur⟩
  obtain ⟨d, hd⟩ := (hok.running t).mp (by rw [hst]; simpa [hne.symm] using hrun)
  rw [hc'] at hd
  by_cases hdc : d = c
  · simp [hdc, hne] at hd
  · exact hdc (h.apart t d c (by simpa [hdc] using hd) hcur)

theorem step_breaks {a : KernelAct N} (h : KernelInv shadow k) (hbad : ¬ LeavesNone k a)
    (hs : kernelStep shadow k a = some k') : ¬ RunningOk k'.sched := by
  cases a with
  | ipcReturn c =>
    simp only [kernelStep, sysIpcReturn] at hs
    split at hs
    · rename_i x hcur
      split at hs
      · cases hs
      rename_i t hcl
      obtain ⟨s, hsw, rfl⟩ := map_eq_some_iff.mp hs
      exact not_running_of_switch h.law.ok hcur (h.caller x t hcl) hsw
    · cases hs
  | signal c n d =>
    simp only [LeavesNone, not_forall, not_not] at hbad
    obtain ⟨o, t, hsig, hdir, e, hcur⟩ := hbad
    simp only [kernelStep, Sched.signal, hsig, wakeTarget, if_pos hdir, hcur] at hs
    obtain ⟨s, hsw, rfl⟩ := map_eq_some_iff.mp hs
    exact not_running_of_switch h.law.ok hcur (by simp) hsw
  | create c id | ipcCall c x | wait c n b | sched c | setBudget t b => exact absurd trivial hbad

/-- **`TS_RUNNING` over whole runs.** -/
theorem running_run_iff (shadow : Nat → Bool) (prio : Thread N → Nat) (affinity : Thread N → Int)
    (as : List (KernelAct N)) :
    (∀ tr ∈ trace (kernelStep shadow) (Kernel.init N shadow prio affinity) as, RunningOk tr.post.sched) ↔
      ∀ tr ∈ trace (kernelStep shadow) (Kernel.init N shadow prio affinity) as, LeavesNone tr.pre tr.act :=
  trace_all_iff (G := fun tr => RunningOk tr.post.sched) (fun _ a _ h hs =>
      ⟨fun hok => by by_contra hbad; exact step_breaks h hbad hs hok,
        fun hok => (kernelInv_step h hok hs).law.ok⟩)
    (fun _ _ _ h hok hs => kernelInv_step h hok hs) as _ (kernelInv_init prio affinity)

/-- A client calls the handler 2, and the handler returns: it stays `TS_RUNNING`. -/
theorem running_ipc_return : ∃ tr ∈ trace (kernelStep (· = 2))
    (Kernel.init 0 (· = 2) (fun _ => 10) fun _ => NO_AFF) [.create 0 1, .sched 0, .ipcCall 0 2, .ipcReturn 0],
    ¬ RunningOk tr.post.sched := by
  have hend : (exec (kernelStep (· = 2)) (Kernel.init 0 (· = 2) (fun _ => 10) fun _ => NO_AFF)
      [.create 0 1, .sched 0, .ipcCall 0 2, .ipcReturn 0]).any (fun k =>
        k.sched.state (.user 2) = .running ∧ ∀ c, k.sched.currentThread c ≠ some (.user 2)) = true := by
    decide +kernel
  obtain ⟨tr, htr, hrun, hno⟩ := trace_of_exec hend
  refine ⟨tr, htr, fun h => ?_⟩
  obtain ⟨c, hc⟩ := (h.running _).mp hrun
  exact hno c hc

end Runs

end ChCore.Sched
