/-
  File: ChCore/Object/ThreadExit.lean
  Subject: The end of a process: `create_thread`, `sys_thread_exit` (`kernel/object/thread.c`)
    and `sys_exit_group` (`kernel/object/recycle.c`) on one cap_group.

  The threads of a cap_group share a counter, `thread_cnt`, and a flag, `notify_recycler`. A step
  is one access to them with what the thread does right after: the locked decrement of
  `sys_thread_exit` and the compare-and-swap of `sys_exit_group` are steps of their own, so other
  threads may run between them.

  * `notifications_run` -- in every run `notify_user_recycler` is called once less than
    `sys_exit_group` is executed;
  * `notify_once_iff` -- so it is called exactly when it should be, in every state of a run,
    exactly when the process does not end in that run.

  `thread_cnt` is an `int` and counts threads, which take memory; it is kept in `Int`.
-/
import ChCore.Lib.Run

namespace ChCore.ThreadExit

open Lib List

/-! ## 1. The cap_group and its threads -/

inductive Phase where
  | running
  /-- in `sys_thread_exit`, with the count at zero, before `sys_exit_group(0)` -/
  | leaving
  /-- `sys_thread_exit` executed -/
  | exited
  /-- `sys_exit_group` executed -/
  | left
  deriving DecidableEq, Repr

structure Thread where
  shadow : Bool
  phase : Phase
  deriving DecidableEq, Repr

/-- The part of `struct cap_group` the exit paths use. `threads` are all threads ever created,
    `notifications` the exit codes passed to `notify_user_recycler` for this cap_group,
    `groupExits` how often `sys_exit_group` was executed. -/
structure Group where
  threadCnt : Int
  notifyRecycler : Int
  threads : List Thread
  notifications : List Int
  groupExits : Nat
  deriving DecidableEq, Repr

/-- A new cap_group: `cap_group_init`, and `notify_recycler = 0` in `sys_create_cap_group`. -/
def Group.init : Group := ⟨0, 0, [], [], 0⟩

/-- How `create_thread` ends: with a thread; with an error before the thread is counted
    (`obj_alloc`, `thread_init`); with an error of `cap_alloc`, after it. -/
inductive Created where
  | ok
  | early
  | late
  deriving DecidableEq, Repr

variable (g : Group)

/-- `create_thread`. Its error path does not take the thread out of the count again. -/
def createThread (shadow : Bool) : Created → Group
  | .early => g
  | .late => { g with threadCnt := g.threadCnt + 1 }
  | .ok => { g with threadCnt := g.threadCnt + 1, threads := g.threads ++ [⟨shadow, .running⟩] }

/-- `__sync_val_compare_and_swap`: the value that was there, and the value that is there now. -/
def syncValCompareAndSwap (v old new : Int) : Int × Int := (v, if v = old then new else v)

/-- `sys_exit_group`: the recycler is notified where the flag **was** 1. -/
def sysExitGroup (exitcode : Int) : Group :=
  let r := syncValCompareAndSwap g.notifyRecycler 0 1
  { g with
    notifyRecycler := r.2
    notifications := if r.1 = 1 then g.notifications ++ [exitcode] else g.notifications
    groupExits := g.groupExits + 1 }

def Group.setPhase (i : Nat) (t : Thread) (p : Phase) : Group :=
  { g with threads := g.threads.set i { t with phase := p } }

/-- `sys_thread_exit` up to the test of the count. -/
def sysThreadExit (i : Nat) (t : Thread) : Group :=
  let cnt := g.threadCnt - 1
  { g.setPhase i t (if cnt = 0 then .leaving else .exited) with threadCnt := cnt }

inductive Act where
  | create (shadow : Bool) (r : Created)
  | threadExit (i : Nat)
  /-- the `sys_exit_group(0)` at the end of `sys_thread_exit` -/
  | lastExit (i : Nat)
  | exitGroup (i : Nat) (exitcode : Int)
  deriving DecidableEq, Repr

/-- **One step.** A thread that has left makes no more. -/
def step : Act → Option Group
  | .create shadow r => some (createThread g shadow r)
  | .threadExit i =>
    match g.threads[i]? with
    | some ⟨shadow, .running⟩ => some (sysThreadExit g i ⟨shadow, .running⟩)
    | _ => none
  | .lastExit i =>
    match g.threads[i]? with
    | some ⟨shadow, .leaving⟩ => some (sysExitGroup (g.setPhase i ⟨shadow, .leaving⟩ .exited) 0)
    | _ => none
  | .exitGroup i exitcode =>
    match g.threads[i]? with
    | some ⟨shadow, .running⟩ =>
      some (sysExitGroup (g.setPhase i ⟨shadow, .running⟩ .left) exitcode)
    | _ => none

/-! ## 2. How often the recycler is notified -/

/-- The flag says whether `sys_exit_group` was executed; all calls but the first notify. -/
structure Counted (g : Group) : Prop where
  flag : g.notifyRecycler = if g.groupExits = 0 then 0 else 1
  notified : g.notifications.length = g.groupExits - 1

theorem counted_init : Counted Group.init := ⟨rfl, rfl⟩

theorem counted_exitGroup {g : Group} (h : Counted g) (exitcode : Int) :
    Counted (sysExitGroup g exitcode) := by
  obtain ⟨hflag, hlen⟩ := h
  unfold sysExitGroup syncValCompareAndSwap
  by_cases hz : g.groupExits = 0
  · refine ⟨?_, ?_⟩
    · simp [hflag]
    · simp [hflag, hlen, hz]
  · rw [if_neg hz] at hflag
    refine ⟨?_, ?_⟩
    · simp [hflag]
    · simp only [hflag, if_true, length_append, length_singleton, hlen]
      omega

theorem counted_step {g g' : Group} {a : Act} (h : Counted g) (hs : step g a = some g') :
    Counted g' := by
  cases a with
  | create shadow r =>
    cases hs
    cases r with
    | ok => exact ⟨h.flag, h.notified⟩
    | early => exact h
    | late => exact ⟨h.flag, h.notified⟩
  | threadExit i =>
    simp only [step] at hs
    split at hs
    · cases hs
      exact ⟨h.flag, h.notified⟩
    · cases hs
  | lastExit i =>
    simp only [step] at hs
    split at hs
    · cases hs
      exact counted_exitGroup (g := g.setPhase i _ _) ⟨h.flag, h.notified⟩ 0
    · cases hs
  | exitGroup i exitcode =>
    simp only [step] at hs
    split at hs
    · cases hs
      exact counted_exitGroup (g := g.setPhase i _ _) ⟨h.flag, h.notified⟩ exitcode
    · cases hs

/-- **The recycler is notified once less than the group exits**: the first `sys_exit_group` sets
    the flag and notifies nobody, every later one notifies. -/
theorem notifications_run (as : List Act) :
    (exec step Group.init as).map (fun g => g.notifications.length) =
      (exec step Group.init as).map fun g => g.groupExits - 1 := by
  refine Option.map_congr fun g h => ?_
  exact (exec_inv (fun _ _ _ hI hs => counted_step hI hs) as _ _ counted_init h).notified

/-! ## 3. When it should be notified -/

/-- Some non-shadow thread was created, and all of them have executed `sys_thread_exit`. -/
def AllExited : Prop :=
  (∃ t ∈ g.threads, t.shadow = false) ∧ ∀ t ∈ g.threads, t.shadow = false → t.phase = .exited

/-- **The recycler is notified at most once, and once as soon as** a thread has executed
    `sys_exit_group` or all non-shadow threads have exited. -/
def NotifiedOnce : Prop :=
  g.notifications.length ≤ 1 ∧
    (0 < g.groupExits ∨ AllExited g → g.notifications.length = 1)

/-- The process does not end in the step: nobody executes `sys_exit_group`, and a non-shadow
    thread that exits with the count not at one leaves another one behind. -/
def StaysAlive : Act → Prop
  | .create _ _ => True
  | .threadExit i => ∀ t, g.threads[i]? = some t → t.shadow = false → g.threadCnt ≠ 1 →
      ∃ j t', j ≠ i ∧ g.threads[j]? = some t' ∧ t'.shadow = false ∧ t'.phase ≠ .exited
  | .lastExit _ => False
  | .exitGroup _ _ => False

/-- Nothing has happened that the recycler should hear of. -/
structure Quiet (g : Group) : Prop where
  counted : Counted g
  noExit : g.groupExits = 0
  alive : ¬ AllExited g

theorem quiet_init : Quiet Group.init where
  counted := counted_init
  noExit := rfl
  alive h := by
    obtain ⟨⟨t, ht, _⟩, _⟩ := h
    exact absurd ht not_mem_nil

/-- Without a group exit the recycler has not been notified, so all depends on the threads. -/
theorem notifiedOnce_iff {g : Group} (hc : Counted g) (hz : g.groupExits = 0) :
    NotifiedOnce g ↔ ¬ AllExited g := by
  have hlen : g.notifications.length = 0 := by rw [hc.notified, hz]
  unfold NotifiedOnce
  rw [hlen, hz]
  refine ⟨fun h hall => ?_, fun h => ⟨Nat.zero_le _, fun h' => ?_⟩⟩
  · exact absurd (h.2 (.inr hall)) (by decide)
  · rcases h' with h' | h'
    · exact absurd h' (lt_irrefl 0)
    · exact absurd h' h

/-- After the first group exit the recycler should have been notified and was not. -/
theorem not_notifiedOnce_first {g : Group} (h : Counted g) (hone : g.groupExits = 1) :
    ¬ NotifiedOnce g := by
  intro hn
  have hlen := hn.2 (.inl (by omega))
  rw [h.notified, hone] at hlen
  exact absurd hlen (by decide)

/-- Who has exited after `sys_thread_exit`: with a count of one the thread is still on its way to
    `sys_exit_group`, otherwise it has. -/
theorem allExited_threadExit {g : Group} {i : Nat} {shadow : Bool}
    (hi : g.threads[i]? = some ⟨shadow, .running⟩) (hq : ¬ AllExited g) :
    AllExited (sysThreadExit g i ⟨shadow, .running⟩) ↔
      shadow = false ∧ g.threadCnt ≠ 1 ∧
        ∀ j t', j ≠ i → g.threads[j]? = some t' → t'.shadow = false → t'.phase = .exited := by
  have hlt : i < g.threads.length := (List.getElem?_eq_some_iff.mp hi).1
  have hmem : ∀ t : Thread, t ∈ (sysThreadExit g i ⟨shadow, .running⟩).threads ↔
      t = ⟨shadow, if g.threadCnt - 1 = 0 then .leaving else .exited⟩ ∨
        ∃ j, j ≠ i ∧ g.threads[j]? = some t := by
    intro t
    show t ∈ g.threads.set i _ ↔ _
    rw [mem_iff_getElem?]
    refine ⟨fun ⟨j, hj⟩ => ?_, fun h => ?_⟩
    · rw [List.getElem?_set] at hj
      split at hj
      · exact .inl (Option.some.inj hj).symm
      · rename_i e
        exact .inr ⟨j, Ne.symm e, hj⟩
    · rcases h with rfl | ⟨j, hne, hj⟩
      · exact ⟨i, by rw [List.getElem?_set, if_pos rfl, if_pos hlt]⟩
      · exact ⟨j, by rw [List.getElem?_set, if_neg (hne.symm)]; exact hj⟩
  refine ⟨fun ⟨hex, hall⟩ => ?_, fun ⟨hsh, hcnt, hall⟩ => ⟨?_, fun t ht hts => ?_⟩⟩
  · have hrest : ∀ j t', j ≠ i → g.threads[j]? = some t' → t'.shadow = false →
        t'.phase = .exited :=
      fun j t' hne hj hs => hall t' ((hmem t').mpr (.inr ⟨j, hne, hj⟩)) hs
    cases hsh : shadow with
    | true =>
      -- a shadow thread cannot be the one that was missing
      refine absurd ⟨?_, fun t ht hts => ?_⟩ hq
      · obtain ⟨t, ht, hts⟩ := hex
        rcases (hmem t).mp ht with rfl | ⟨j, _, hj⟩
        · rw [hsh] at hts
          cases hts
        · exact ⟨t, mem_iff_getElem?.mpr ⟨j, hj⟩, hts⟩
      obtain ⟨j, hj⟩ := mem_iff_getElem?.mp ht
      by_cases e : j = i
      · rw [e, hi] at hj
        cases hj
        rw [hsh] at hts
        cases hts
      · exact hrest j t e hj hts
    | false =>
      refine ⟨rfl, fun hone => ?_, hrest⟩
      have hp := hall _ ((hmem _).mpr (.inl rfl)) hsh
      rw [hone] at hp
      cases hp
  · exact ⟨_, (hmem _).mpr (.inl rfl), hsh⟩
  · rcases (hmem t).mp ht with rfl | ⟨j, hne, hj⟩
    · exact if_neg (by omega)
    · exact hall j t hne hj hts

theorem allExited_create {g : Group} (hq : ¬ AllExited g) (shadow : Bool) (r : Created) :
    ¬ AllExited (createThread g shadow r) := by
  cases r with
  | early => exact hq
  | late => exact hq
  | ok =>
  rintro ⟨⟨t, ht, hts⟩, hall⟩
  refine hq ⟨⟨t, ?_, hts⟩, fun t' ht' => hall t' (mem_append_left _ ht')⟩
  rcases mem_append.mp ht with ht | ht
  · exact ht
  · have hp := hall t (mem_append_right _ ht) hts
    rw [mem_singleton.mp ht] at hp
    cases hp

/-- **One step**: the recycler is notified as it should be exactly when the process does not end
    in the step. -/
theorem notify_step_iff {g g' : Group} {a : Act} (h : Quiet g) (hs : step g a = some g') :
    (NotifiedOnce g' ↔ StaysAlive g a) ∧ (StaysAlive g a → Quiet g') := by
  have hc := counted_step h.counted hs
  cases a with
  | create shadow r =>
    cases hs
    have hz : (createThread g shadow r).groupExits = 0 := by cases r <;> exact h.noExit
    have halive := allExited_create h.alive shadow r
    exact ⟨⟨fun _ => trivial, fun _ => (notifiedOnce_iff hc hz).mpr halive⟩,
      fun _ => ⟨hc, hz, halive⟩⟩
  | threadExit i =>
    simp only [step] at hs
    split at hs
    · rename_i shadow hi
      cases hs
      have hz : (sysThreadExit g i ⟨shadow, .running⟩).groupExits = 0 := h.noExit
      have hiff : StaysAlive g (.threadExit i) ↔
          ¬ AllExited (sysThreadExit g i ⟨shadow, .running⟩) := by
        rw [allExited_threadExit hi h.alive]
        refine ⟨fun hst ⟨hsh, hcnt, hall⟩ => ?_, fun hn t ht hts hcnt => ?_⟩
        · obtain ⟨j, t', hne, hj, hs', hp⟩ := hst _ hi hsh hcnt
          exact hp (hall j t' hne hj hs')
        rw [hi] at ht
        cases ht
        by_contra hno
        refine hn ⟨hts, hcnt, fun j t' hne hj hs' => ?_⟩
        by_contra hp
        exact hno ⟨j, t', hne, hj, hs', hp⟩
      rw [hiff]
      exact ⟨notifiedOnce_iff hc hz, fun hal => ⟨hc, hz, hal⟩⟩
    · cases hs
  | lastExit i | exitGroup i exitcode =>
  simp only [step] at hs
  split at hs
  · cases hs
    refine ⟨⟨fun hn => ?_, False.elim⟩, False.elim⟩
    exact not_notifiedOnce_first hc (congrArg (· + 1) h.noExit) hn
  · cases hs

/-- **The recycler over a run**: after every step it has been notified as it should be exactly
    when the process does not end in the run. -/
theorem notify_once_iff (as : List Act) :
    (∀ tr ∈ trace step Group.init as, NotifiedOnce tr.post) ↔
      ∀ tr ∈ trace step Group.init as, StaysAlive tr.pre tr.act :=
  trace_all_iff (I := Quiet) (C := StaysAlive) (G := fun tr => NotifiedOnce tr.post)
    (fun _ _ _ h hs => (notify_step_iff h hs).1) (fun _ _ _ h hC hs => (notify_step_iff h hs).2 hC)
    as _ quiet_init

/-- **One thread, one `sys_exit_group`**: the recycler is never notified. -/
theorem notify_never :
    ¬ ∀ tr ∈ trace step Group.init [.create false .ok, .exitGroup 0 0], NotifiedOnce tr.post := by
  intro h
  have hend : (exec step Group.init [.create false .ok, .exitGroup 0 0]).any
      (fun g => g.groupExits = 1 ∧ g.notifications.length = 0) = true := by decide
  obtain ⟨tr, htr, hone, hlen⟩ := trace_of_exec hend
  have hn := (h tr htr).2 (.inl (by omega))
  omega

end ChCore.ThreadExit
