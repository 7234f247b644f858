/-
  File: ChCore/Irq/LockOrder.lean
  Subject: `notifc_lock`, `sleep_list_lock` and the locks of the ready queues
    (`kernel/ipc/notification.c`, `kernel/irq/timer.c`, `kernel/sched/policy_*.c`).

  `wait_notific` takes `sleep_list_lock` inside `notifc_lock`, the timer interrupt takes them the
  other way round. There is no order of the locks; but inside another lock a CPU takes the
  `sleep_list_lock` of its own list only, and only the CPU itself keeps that one while it waits.

  * `no_deadlock` -- no set of CPUs waits for one another.
-/
import ChCore.Lib.LockTraces

namespace ChCore.Irq

open Lib.LockTraces Function
open scoped Computability

inductive LockId (Cpu : Type) where
  | notifc (n : Nat)
  | sleepList (c : Cpu)
  | readyQueue (c : Cpu) (prio : Nat)
deriving DecidableEq

/-! ## 1. The lock operations of the functions -/

section Source

variable {Cpu : Type}

/-- `sched_enqueue` of both policies. An idle thread and a refused one take no lock. -/
def schedEnqueue : Language (Op (LockId Cpu)) :=
  1 + ⨆ c, ⨆ prio, critical (.readyQueue c prio) 1

variable (c : Cpu)

/-- `sched_choose_thread` looks into queues of its own CPU, into one of them (`policy_rr.c`) as often
    as it is found empty under the lock. -/
def schedChooseThread : Language (Op (LockId Cpu)) :=
  (⨆ prio, critical (.readyQueue c prio) 1)∗

def sched : Language (Op (LockId Cpu)) := 1 + schedEnqueue * schedChooseThread c

def enqueueSleeper : Language (Op (LockId Cpu)) := critical (.sleepList c) 1

/-- `try_dequeue_sleeper` locks the list of the CPU on which the thread went to sleep. -/
def tryDequeueSleeper : Language (Op (LockId Cpu)) := ⨆ c, critical (.sleepList c) 1

def tryRemoveTimeout : Language (Op (LockId Cpu)) := 1 + tryDequeueSleeper

def sleepTimerCb : Language (Op (LockId Cpu)) := schedEnqueue

/-- `notific_timer_cb`, on the notification the thread is waiting for. -/
def notificTimerCb : Language (Op (LockId Cpu)) := ⨆ n, critical (.notifc n) (1 + schedEnqueue)

/-- `handle_timer_irq` runs the callbacks of any number of sleepers. -/
def handleTimerIrq : Language (Op (LockId Cpu)) :=
  critical (.sleepList c) (sleepTimerCb + notificTimerCb)∗

/-- `wait_notific`, without waiting, or with `sched` after the sleep that a timeout asks for. -/
def waitNotific (n : Nat) : Language (Op (LockId Cpu)) :=
  critical (.notifc n) (1 + (1 + enqueueSleeper c) * sched c)

/-- `signal_notific`; a direct switch enqueues the current thread in place of the target. -/
def signalNotific (n : Nat) : Language (Op (LockId Cpu)) :=
  critical (.notifc n) (1 + schedEnqueue) * tryRemoveTimeout

def sysClockNanosleep : Language (Op (LockId Cpu)) := enqueueSleeper c * sched c

/-- What a CPU runs with interrupts disabled. -/
def kernelCode : Language (Op (LockId Cpu)) :=
  (⨆ n, waitNotific c n) + (⨆ n, signalNotific n) + sysClockNanosleep c + handleTimerIrq c

end Source

/-! ## 2. The discipline -/

section Discipline

variable {Cpu : Type} {c : Cpu} {held : List (LockId Cpu)}

/-- Nothing is taken inside the lock of a ready queue; inside a `notifc_lock`, the CPU's own list;
    inside that one, a `notifc_lock`. -/
def MayTake (c : Cpu) (held : List (LockId Cpu)) : LockId Cpu → Prop
  | .notifc _ => held = [] ∨ held = [.sleepList c]
  | .sleepList d => held = [] ∨ d = c ∧ ∃ n, held = [.notifc n]
  | .readyQueue .. => ∀ d prio, .readyQueue d prio ∉ held

theorem schedEnqueue_keeps (h : ∀ d prio, .readyQueue d prio ∉ held) :
    Keeps (MayTake c) held schedEnqueue :=
  keeps_one.add (.iSup fun _ => .iSup fun _ => .critical h keeps_one)

theorem sched_keeps (h : ∀ d prio, .readyQueue d prio ∉ held) : Keeps (MayTake c) held (sched c) :=
  keeps_one.add ((schedEnqueue_keeps h).mul (.kstar (.iSup fun _ => .critical h keeps_one)))

theorem enqueueSleeper_keeps (h : held = [] ∨ ∃ n, held = [.notifc n]) :
    Keeps (MayTake c) held (enqueueSleeper c) :=
  .critical (h.imp_right fun h => ⟨rfl, h⟩) keeps_one

theorem waitNotific_keeps (n : Nat) : Keeps (MayTake c) [] (waitNotific c n) :=
  .critical (.inl rfl) (keeps_one.add
    ((keeps_one.add (enqueueSleeper_keeps (.inr ⟨n, rfl⟩))).mul (sched_keeps (by simp))))

theorem signalNotific_keeps (n : Nat) : Keeps (MayTake c) [] (signalNotific n) :=
  .mul (.critical (.inl rfl) (keeps_one.add (schedEnqueue_keeps (by simp))))
    (keeps_one.add (.iSup fun _ => .critical (.inl rfl) keeps_one))

theorem handleTimerIrq_keeps : Keeps (MayTake c) [] (handleTimerIrq c) :=
  .critical (.inl rfl) (.kstar ((schedEnqueue_keeps (by simp)).add
    (.iSup fun _ => .critical (.inr rfl) (keeps_one.add (schedEnqueue_keeps (by simp))))))

theorem kernelCode_keeps (c : Cpu) : Keeps (MayTake c) [] (kernelCode c) :=
  (((Keeps.iSup waitNotific_keeps).add (.iSup signalNotific_keeps)).add
    ((enqueueSleeper_keeps (.inl rfl)).mul (sched_keeps (by simp)))).add handleTimerIrq_keeps

end Discipline

/-! ## 3. No deadlock -/

/-- **No set of CPUs is blocked in a cycle**, in any interleaving of the functions. -/
theorem no_deadlock {Cpu : Type} [DecidableEq Cpu] (s : State Cpu (LockId Cpu))
    (hs : Reachable kernelCode s) (S : Set Cpu) : ¬ Deadlock s S := by
  rintro ⟨⟨c, hc⟩, hwait⟩
  have hmay : ∀ {c l ops}, s.todo c = .lock l :: ops → MayTake c (s.held c) l := by
    intro c l ops htodo
    have hrest := ordered_reachable kernelCode_keeps hs c
    rw [htodo] at hrest
    exact hrest.1
  -- whoever holds the lock of a ready queue waits for nothing
  have hqueue : ∀ {c ops d prio}, c ∈ S → s.todo c ≠ .lock (.readyQueue d prio) :: ops := by
    intro c ops d prio hc htodo
    obtain ⟨l, _, htodo', e, he, hl⟩ := hwait c hc
    obtain ⟨l', _, hnext, _⟩ := hwait e he
    have := hmay hnext
    cases l' <;> simp only [MayTake] at this <;> grind
  -- whoever holds a `notifc_lock` waits for its own list, which nobody keeps while waiting
  have hnotifc : ∀ {c ops n}, c ∈ S → s.todo c ≠ .lock (.notifc n) :: ops := by
    intro c ops n hc htodo
    obtain ⟨l, _, htodo', e, he, hl⟩ := hwait c hc
    obtain ⟨l', _, hnext, f, hf, hl'⟩ := hwait e he
    have hmay' := hmay hnext
    cases l' with
    | notifc m => simp only [MayTake] at hmay'; grind
    | readyQueue d prio => exact hqueue he hnext
    | sleepList d =>
      obtain ⟨l'', _, hlast, _⟩ := hwait f hf
      have hmay'' := hmay hlast
      cases l'' <;> simp only [MayTake] at hmay' hmay'' <;> grind
  obtain ⟨l, _, htodo, d, hd, hl⟩ := hwait c hc
  cases l with
  | notifc n => exact hnotifc hc htodo
  | readyQueue d prio => exact hqueue hc htodo
  | sleepList x =>
  obtain ⟨l', _, hnext, _⟩ := hwait d hd
  cases l' with
  | notifc n => exact hnotifc hd hnext
  | readyQueue e prio => exact hqueue hd hnext
  | sleepList e =>
    have := hmay hnext
    simp only [MayTake] at this
    grind

/-- The CPU `true` waits in its interrupt for the `notifc_lock` that `wait_notific` holds on the
    CPU `false`, which has still to lock its list. -/
theorem no_deadlock_waiting : ∃ s : State Bool (LockId Bool), Reachable kernelCode s ∧
    (∃ ops, s.todo true = .lock (.notifc 0) :: ops) ∧ .notifc 0 ∈ s.held false ∧
    ¬ Deadlock s Set.univ := by
  have hnil : [] ∈ (1 : Language (Op (LockId Bool))) := rfl
  have hsleep : [_, _] ∈ enqueueSleeper false := mem_critical hnil
  have hbody : [_, _] ∈ 1 + (1 + enqueueSleeper false) * sched false :=
    .inr ⟨_, .inr hsleep, _, .inl hnil, rfl⟩
  have hwait : _ ∈ waitNotific false 0 := mem_critical hbody
  have hlate : [] ∈ 1 + schedEnqueue := .inl hnil
  have hcb : [_, _] ∈ notificTimerCb := Language.mem_iSup.mpr ⟨0, mem_critical hlate⟩
  have hcbs : [_, _] ∈ (sleepTimerCb + notificTimerCb)∗ :=
    Language.mem_kstar.mpr ⟨[_], rfl, List.forall_mem_singleton.mpr (.inr hcb)⟩
  have hirq : _ ∈ handleTimerIrq true := mem_critical hcbs
  have hs : Reachable kernelCode _ := (((Relation.ReflTransGen.refl.tail (.start rfl
    (.inl (.inl (.inl (Language.mem_iSup.mpr ⟨0, hwait⟩)))))).tail
    (.lock (update_self ..) (by simp))).tail (.start (by simp) (.inr hirq))).tail
    (.lock (update_self ..) (by simp))
  exact ⟨_, hs, ⟨_, by simp; rfl⟩, by simp, no_deadlock _ hs _⟩

end ChCore.Irq
