/-
  File: ChCore/Sched/Priority.lean
  Subject: The priority policy (`kernel/sched/policy_pbrr.c`), and `sys_set_affinity`
    (`kernel/object/thread.c`) before an enqueue by either policy.

  An idle thread is an ordinary thread of this policy. It has to be in a queue of its CPU
  whenever `pbrr_sched_choose_thread` is called.

  * `pbrr_choice_run` -- the choice is the runnable thread of highest priority that was enqueued
    first, and there is one;
  * `enqueue_affinity_iff` -- when the affinity a user has set lets every later enqueue succeed.
-/
import ChCore.Sched.RoundRobin

namespace ChCore.Sched

open Lib Function Option List

/-! ## 1. The source -/

/-- The queues of the policy beside the data of the threads (`rrReadyQueue` is not in use). `clock`
    and `enqueuedAt` only record the order of the enqueues. -/
structure PbState (N : Nat) extends SchedState N where
  pbrrReadyQueue : Fin (N + 1) → Nat → List (Thread N)
  clock : Nat
  enqueuedAt : Thread N → Nat

section Source

variable {N : Nat}

/-- `pbrr_sched_init` before its enqueues: an idle thread has `MIN_PRIO` and its own CPU. -/
def PbState.init (N : Nat) (prio : Nat → Nat) (affinity : Nat → Int) : PbState N where
  toSchedState := SchedState.init N (fun | .idle _ => 0 | .user id => prio id)
    fun | .idle c => c.val | .user id => affinity id
  pbrrReadyQueue := fun _ _ => []
  clock := 0
  enqueuedAt := fun _ => 0

/-- `__pbrr_sched_enqueue`. -/
def PbState.enqueueOn (s : PbState N) (t : Thread N) (c : Fin (N + 1)) : PbState N × Int :=
  if s.state t = .ready then (s, -EINVAL)
  else
    ({ s with
        cpuid := update s.cpuid t c
        state := update s.state t .ready
        pbrrReadyQueue := fun d p =>
          if d = c ∧ p = s.prio t then s.pbrrReadyQueue d p ++ [t] else s.pbrrReadyQueue d p
        clock := s.clock + 1
        enqueuedAt := update s.enqueuedAt t s.clock }, 0)

/-- `pbrr_sched_enqueue` on CPU `c`. The affinity is not checked (`none` = an index outside the
    arrays). -/
def pbrrSchedEnqueue (s : PbState N) (c : Fin (N + 1)) (t : Thread N) : Option (PbState N × Int) :=
  if s.prio t > MAX_PRIO then some (s, -EINVAL)
  else (targetCpu s.toSchedState c t).map (s.enqueueOn t)

/-- `pbrr_sched_dequeue`; `list_del` takes the thread out of the list it is in. -/
def pbrrSchedDequeue (s : PbState N) (t : Thread N) : PbState N × Int :=
  if s.state t = .ready then
    ({ s with
        pbrrReadyQueue := fun d p => (s.pbrrReadyQueue d p).erase t
        state := update s.state t .inter }, 0)
  else (s, -EINVAL)

/-- The test of `find_next_runnable_thread_in_list`. -/
def PbState.runnable (s : PbState N) (c : Fin (N + 1)) (t : Thread N) : Bool :=
  decide (s.kernelStackState t = .free) || decide (s.currentThread c = some t)

/-- The loop of `pbrr_sched_choose_thread`, from a priority down to `MIN_PRIO`. -/
def PbState.chooseFrom (s : PbState N) (c : Fin (N + 1)) : Nat → Option (Thread N)
  | 0 => (s.pbrrReadyQueue c 0).find? (s.runnable c)
  | i + 1 => ((s.pbrrReadyQueue c (i + 1)).find? (s.runnable c)).or (s.chooseFrom c i)

/-- `pbrr_sched_choose_thread` (`none` = `BUG_ON`). -/
def pbrrSchedChooseThread (s : PbState N) (c : Fin (N + 1)) : Option (PbState N × Thread N) :=
  (s.chooseFrom c MAX_PRIO).bind fun t =>
    if (pbrrSchedDequeue s t).2 = 0 then some ((pbrrSchedDequeue s t).1, t) else none

/-- `pbrr_sched` up to the choice (`some none` = no schedule is needed). -/
def pbrrSchedSuspend (s : PbState N) (c : Fin (N + 1)) : Option (Option (PbState N)) :=
  match s.currentThread c with
  | none => some (some s)
  | some old =>
    if s.state old = .waiting then some (some s)
    else if s.state old = .running then
      if s.budget old ≠ 0 then some none
      else
        match pbrrSchedEnqueue
          { s with toSchedState := (s.setBudget old DEFAULT_BUDGET).setState old .inter } c old with
        | some (r, 0) => some (some r)
        | _ => none
    else none

def pbrrSched (s : PbState N) (c : Fin (N + 1)) : Option (PbState N) :=
  (pbrrSchedSuspend s c).bind fun
    | none => some s
    | some r => (pbrrSchedChooseThread r c).bind fun x =>
      (switchToThread x.1.toSchedState c x.2).map fun y => { x.1 with toSchedState := y }

/-- The steps of a run. An idle thread neither waits nor gets another affinity. -/
def pbStep (s : PbState N) : Act N → Option (PbState N)
  | .enqueue c t => (pbrrSchedEnqueue s c t).map Prod.fst
  | .dequeue t => some (pbrrSchedDequeue s t).1
  | .sched c => pbrrSched s c
  | .setAffinity (.idle _) _ => none
  | .block c =>
    match s.currentThread c with
    | some (.user _) => (step s.toSchedState (.block c)).map fun y => { s with toSchedState := y }
    | _ => none
  | a => (step s.toSchedState a).map fun y => { s with toSchedState := y }

/-- `sys_set_affinity` for the thread that the capability names. -/
def sysSetAffinity (s : SchedState N) (thread : Option (Thread N)) (aff : BitVec 32) :
    SchedState N × Int :=
  match thread with
  | none => (s, -ECAPBILITY)
  | some t =>
    if aff.toInt ≥ (N + 1 : Nat) then (s, -EINVAL) else (s.setAffinity t aff.toInt, 0)

end Source

/-! ## 2. The invariant -/

section Inv

variable {N : Nat} {s s' r : PbState N} {x : SchedState N} {c : Fin (N + 1)} {t : Thread N}

structure PbInv (s : PbState N) : Prop where
  placed : ∀ t c p, t ∈ s.pbrrReadyQueue c p → s.state t = .ready ∧ s.cpuid t = c ∧ s.prio t = p
  queued : ∀ t, s.state t = .ready →
    t ∈ s.pbrrReadyQueue (s.cpuid t) (s.prio t) ∧ s.prio t ≤ MAX_PRIO
  order : ∀ c p, (s.pbrrReadyQueue c p).Pairwise (s.enqueuedAt · < s.enqueuedAt ·)
  past : ∀ t c p, t ∈ s.pbrrReadyQueue c p → s.enqueuedAt t < s.clock
  affinity : ∀ c, s.affinity (.idle c) = c.val
  awake : ∀ c, s.state (.idle c) ≠ .waiting
  home : ∀ c, s.state (.idle c) = .ready → s.cpuid (.idle c) = c

attribute [local grind =] update_apply

theorem pbInv_init (prio : Nat → Nat) (affinity : Nat → Int) :
    PbInv (PbState.init N prio affinity) := by
  constructor <;> simp [PbState.init, SchedState.init]

/-- Changes that are not about being ready. -/
theorem PbInv.congr (h : PbInv s) (hready : ∀ t, x.state t = .ready ↔ s.state t = .ready)
    (hcpu : ∀ t, s.state t = .ready → x.cpuid t = s.cpuid t) (hprio : x.prio = s.prio)
    (haff : ∀ c, x.affinity (.idle c) = c.val) (hawake : ∀ c, x.state (.idle c) ≠ .waiting) :
    PbInv { s with toSchedState := x } := by
  obtain ⟨h1, h2, h3, h4, _, _, h7⟩ := h
  exact ⟨by grind, by grind, h3, h4, haff, hawake, by grind⟩

/-- A thread that is not ready gets another such state. -/
theorem PbInv.leave (h : PbInv s) {v : ThreadState} (ht : s.state t ≠ .ready) (hv : v ≠ .ready)
    (hwait : ∀ d, t = .idle d → v ≠ .waiting) (hstate : x.state = update s.state t v)
    (hcpu : ∀ u, u ≠ t → x.cpuid u = s.cpuid u) (hprio : x.prio = s.prio)
    (haff : x.affinity = s.affinity) : PbInv { s with toSchedState := x } := by
  refine h.congr (fun u => ?_) (fun u hu => hcpu u fun he => ht (he ▸ hu)) hprio
    (haff ▸ h.affinity) fun d => ?_
  · by_cases he : u = t
    · rw [hstate, he, update_self]
      exact iff_of_false hv ht
    · rw [hstate, update_of_ne he]
  · by_cases he : .idle d = t
    · rw [hstate, he, update_self]
      exact hwait d he.symm
    · rw [hstate, update_of_ne he]
      exact h.awake d

theorem PbInv.enqueueOn (h : PbInv s) (hp : s.prio t ≤ MAX_PRIO)
    (hidle : ∀ d, t = .idle d → d = c) : PbInv (s.enqueueOn t c).1 := by
  unfold PbState.enqueueOn
  split
  · exact h
  obtain ⟨h1, h2, h3, h4, h5, h6, h7⟩ := h
  refine ⟨by grind, by grind, fun d p => ?_, by grind, h5, by grind, by grind⟩
  -- the new thread is behind the others, which were enqueued before
  have hold : (s.pbrrReadyQueue d p).Pairwise fun a b =>
      update s.enqueuedAt t s.clock a < update s.enqueuedAt t s.clock b :=
    (h3 d p).imp_of_mem fun ha hb hlt => by grind
  dsimp only
  split
  · exact pairwise_append.mpr ⟨hold, pairwise_singleton _ _, by grind⟩
  · exact hold

/-- **`pbrr_sched_enqueue`.** -/
theorem PbInv.enqueue (h : PbInv s) {e : Int} (hs : pbrrSchedEnqueue s c t = some (r, e)) :
    PbInv r ∧ (∀ d u, r.runnable d u = s.runnable d u) ∧
      ∀ u, s.state u = .ready ∨ u = t ∧ e = 0 → r.state u = .ready := by
  unfold pbrrSchedEnqueue at hs
  split at hs
  · cases hs
    exact ⟨h, fun _ _ => rfl, by simp [EINVAL]⟩
  obtain ⟨d, hd, he⟩ := map_eq_some_iff.mp hs
  have hidle : ∀ b, t = .idle b → b = d := by
    rintro b rfl
    simp only [targetCpu, h.affinity, NO_AFF] at hd
    split at hd
    · omega
    · split at hd
      · simpa [Fin.ext_iff] using hd
      · cases hd
  have hinv := h.enqueueOn (by omega) hidle
  unfold PbState.enqueueOn at he hinv
  split at he <;> cases he
  · exact ⟨h, fun _ _ => rfl, by simp [EINVAL]⟩
  · rename_i hr
    exact ⟨by simpa [hr] using hinv, fun _ _ => rfl, by grind⟩

theorem PbInv.dequeue (h : PbInv s) (t : Thread N) : PbInv (pbrrSchedDequeue s t).1 := by
  unfold pbrrSchedDequeue
  split
  · have hnd : ∀ d p, (s.pbrrReadyQueue d p).Nodup := fun d p =>
      (h.order d p).imp fun hlt e => by simp [e] at hlt
    obtain ⟨h1, h2, h3, h4, h5, h6, h7⟩ := h
    refine ⟨fun u d p hu => ?_, fun u hu => ?_, fun d p => (h3 d p).sublist erase_sublist,
      fun u d p hu => h4 u d p (mem_of_mem_erase hu), h5, by grind, by grind⟩
    · grind
    · have hne : u ≠ t := by
        rintro rfl
        simp at hu
      exact ⟨(hnd _ _).mem_erase_iff.mpr ⟨hne, by grind⟩, by grind⟩
  · exact h

theorem PbInv.switch (h : PbInv s) (hs : switchToThread s.toSchedState c t = some x) :
    PbInv { s with toSchedState := x } := by
  obtain ⟨hr, hs⟩ := ite_none_left_eq_some.mp hs
  split at hs
  · cases hs
    exact h.leave (v := .running) hr nofun (fun _ _ => nofun) rfl (fun _ _ => rfl) rfl rfl
  · cases hs
    exact h.leave (v := .running) hr nofun (fun _ _ => nofun) rfl
      (fun _ hu => update_of_ne hu ..) rfl rfl

/-- The idle thread of the CPU is ready with a free kernel stack, or current. -/
def IdleThere (s : PbState N) (c : Fin (N + 1)) : Prop :=
  s.state (.idle c) = .ready ∧ s.kernelStackState (.idle c) = .free ∨
    s.currentThread c = some (.idle c)

/-- **`pbrr_sched` up to the choice**: the idle thread is in a queue then. -/
theorem PbInv.suspend (h : PbInv s) (hs : pbrrSchedSuspend s c = some (some r)) :
    PbInv r ∧ (IdleThere s c → r.state (.idle c) = .ready ∧ r.runnable c (.idle c) = true) := by
  have hfree : ∀ d, s.kernelStackState (.idle d) = .free → s.runnable c (.idle d) = true := by
    simp +contextual [PbState.runnable]
  unfold pbrrSchedSuspend at hs
  unfold IdleThere
  have hawake := h.awake c
  split at hs
  · cases hs
    exact ⟨h, by grind⟩
  rename_i old hcur
  split at hs
  · cases hs
    exact ⟨h, by grind⟩
  split at hs
  · rename_i hrunning
    split at hs
    · cases hs
    split at hs
    · rename_i he
      cases hs
      have hhalf : PbInv { s with
          toSchedState := (s.setBudget old DEFAULT_BUDGET).setState old .inter } :=
        h.leave (v := .inter) (hrunning.trans_ne nofun) nofun (fun _ _ => nofun) rfl
          (fun _ _ => rfl) rfl rfl
      obtain ⟨hinv, hrunnable, hready⟩ := hhalf.enqueue he
      have hcurrent : s.currentThread c = some (.idle c) → s.runnable c (.idle c) = true := by
        simp +contextual [PbState.runnable]
      have hkeep : ∀ d u, r.runnable d u = s.runnable d u := hrunnable
      simp only [SchedState.setState, SchedState.setBudget] at hready
      exact ⟨hinv, by grind⟩
    · cases hs
  · cases hs

/-- **The loop** ends at the highest priority with a runnable thread. -/
theorem chooseFrom_spec {n p : Nat} {u : Thread N} (hu : u ∈ s.pbrrReadyQueue c p)
    (hrun : s.runnable c u = true) (hp : p ≤ n) : ∃ t i, s.chooseFrom c n = some t ∧
      (s.pbrrReadyQueue c i).find? (s.runnable c) = some t ∧
      ∀ j ≤ n, ∀ v ∈ s.pbrrReadyQueue c j, s.runnable c v = true → j ≤ i := by
  induction n with
  | zero =>
    obtain ⟨t, ht⟩ := isSome_iff_exists.mp (List.find?_isSome.mpr ⟨u, Nat.le_zero.mp hp ▸ hu, hrun⟩)
    exact ⟨t, 0, ht, ht, by grind⟩
  | succ n ih =>
    cases hf : (s.pbrrReadyQueue c (n + 1)).find? (s.runnable c) with
    | some t => exact ⟨t, n + 1, by simp [PbState.chooseFrom, hf], hf, by grind⟩
    | none =>
      have hne : p ≠ n + 1 := by grind
      obtain ⟨t, i, hc, hi, hmax⟩ := ih (by omega)
      exact ⟨t, i, by simp [PbState.chooseFrom, hf, hc], hi, by grind⟩

/-- **What `pbrr_sched_choose_thread` should return**: a ready and runnable thread, of the highest
    priority and enqueued first; only this thread leaves its queue. -/
structure Chosen (s : PbState N) (c : Fin (N + 1)) (s' : PbState N) (t : Thread N) : Prop where
  ready : s.state t = .ready
  runnable : s.runnable c t = true
  best : t ∈ s.pbrrReadyQueue c (s.prio t) ∧ ∀ p, ∀ u ∈ s.pbrrReadyQueue c p,
    s.runnable c u = true → p < s.prio t ∨ p = s.prio t ∧ s.enqueuedAt t ≤ s.enqueuedAt u
  removed : ∀ d p, s'.pbrrReadyQueue d p =
    if d = c ∧ p = s.prio t then (s.pbrrReadyQueue d p).erase t else s.pbrrReadyQueue d p

theorem PbInv.choose (h : PbInv s) (hr : s.state (.idle c) = .ready)
    (hrun : s.runnable c (.idle c) = true) :
    ∃ s' t, pbrrSchedChooseThread s c = some (s', t) ∧ Chosen s c s' t := by
  obtain ⟨hmem, hprio⟩ := h.queued _ hr
  rw [h.home c hr] at hmem
  obtain ⟨t, i, hc, hi, hmax⟩ := chooseFrom_spec hmem hrun hprio
  obtain ⟨ht, l, l', hl, hfirst⟩ := List.find?_eq_some_iff_append.mp hi
  have hti : t ∈ s.pbrrReadyQueue c i := by simp [hl]
  obtain ⟨hready, hcpu, rfl⟩ := h.placed t c i hti
  have hsort := h.order c (s.prio t)
  rw [hl, pairwise_append, pairwise_cons] at hsort
  refine ⟨_, t, by simp [pbrrSchedChooseThread, hc, pbrrSchedDequeue, hready]; rfl, hready, ht,
    ⟨hti, fun p u hu hurun => ?_⟩, fun d p => ?_⟩
  · obtain ⟨hur, _, hup⟩ := h.placed u c p hu
    have hle := hmax p (hup ▸ (h.queued u hur).2) u hu hurun
    grind
  · split
    · rfl
    · exact erase_of_not_mem fun hm => by grind [h.placed t d p hm]

theorem PbInv.step (h : PbInv s) {a : Act N} (hs : pbStep s a = some s') : PbInv s' := by
  have haff := h.affinity
  have hawake := h.awake
  cases a with
  | enqueue c t =>
    obtain ⟨⟨r, e⟩, he, rfl⟩ := map_eq_some_iff.mp hs
    exact (h.enqueue he).1
  | dequeue t =>
    cases hs
    exact h.dequeue t
  | sched c =>
    obtain ⟨_ | r, hr, hs⟩ := bind_eq_some_iff.mp hs
    · cases hs
      exact h
    obtain ⟨⟨r', t⟩, hc, hs⟩ := bind_eq_some_iff.mp hs
    obtain ⟨x, hx, rfl⟩ := map_eq_some_iff.mp hs
    obtain ⟨u, _, hc⟩ := bind_eq_some_iff.mp hc
    obtain ⟨_, hc⟩ := ite_none_right_eq_some.mp hc
    cases hc
    exact ((h.suspend hr).1.dequeue t).switch hx
  | switchTo c id =>
    obtain ⟨x, hx, rfl⟩ := map_eq_some_iff.mp hs
    exact h.switch hx
  | setAffinity t b =>
    cases t with
    | idle d => cases hs
    | user id =>
      cases hs
      exact h.congr (fun _ => Iff.rfl) (fun _ _ => rfl) rfl
        (by simpa [SchedState.setAffinity] using haff) hawake
  | block c =>
    simp only [pbStep] at hs
    split at hs
    · rename_i hc
      obtain ⟨x, hx, rfl⟩ := map_eq_some_iff.mp hs
      simp only [Sched.step, hc] at hx
      obtain ⟨hrunning, hx⟩ := ite_none_right_eq_some.mp hx
      cases hx
      exact h.leave (v := .waiting) (hrunning.trans_ne (by decide)) (by decide)
        (fun _ h => by cases h) rfl (fun _ _ => rfl) rfl rfl
    · cases hs
  | exit c =>
    obtain ⟨x, hx, rfl⟩ := map_eq_some_iff.mp hs
    simp only [Sched.step] at hx
    split at hx
    · cases hx
    · obtain ⟨hrunning, hx⟩ := ite_none_right_eq_some.mp hx
      cases hx
      exact h.leave (v := .exit) (hrunning.trans_ne (by decide)) (by decide)
        (fun _ _ => by decide) rfl (fun _ _ => rfl) rfl rfl
  | wake t =>
    obtain ⟨x, hx, rfl⟩ := map_eq_some_iff.mp hs
    obtain ⟨hwaiting, hx⟩ := ite_none_right_eq_some.mp hx
    cases hx
    exact h.leave (v := .inter) (hwaiting.trans_ne (by decide)) (by decide)
      (fun _ _ => by decide) rfl (fun _ _ => rfl) rfl rfl
  | finish c =>
    obtain ⟨x, hx, rfl⟩ := map_eq_some_iff.mp hs
    simp only [Sched.step, finishSwitch] at hx
    repeat' split at hx
    all_goals cases hx
    -- only the state of a kernel stack changes
    all_goals exact h.congr (fun _ => Iff.rfl) (fun _ _ => rfl) rfl haff hawake
  | setBudget t b =>
    cases hs
    exact h.congr (fun _ => Iff.rfl) (fun _ _ => rfl) rfl haff hawake

/-- **The choice of the priority policy**, in every state of a run from which `pbrr_sched` chooses:
    if the idle thread is ready or current, it does not end in `BUG_ON(1)`. -/
theorem pbrr_choice_run (prio : Nat → Nat) (affinity : Nat → Int) (as : List (Act N))
    (s : PbState N) (hs : exec pbStep (PbState.init N prio affinity) as = some s) (c : Fin (N + 1))
    (hidle : IdleThere s c) (r : PbState N) (hr : pbrrSchedSuspend s c = some (some r)) :
    ∃ r' t, pbrrSchedChooseThread r c = some (r', t) ∧ Chosen r c r' t := by
  have hinv : PbInv s := exec_inv (fun _ _ _ h hs => h.step hs) as _ s (pbInv_init prio affinity) hs
  obtain ⟨hr', hready⟩ := hinv.suspend hr
  exact hr'.choose (hready hidle).1 (hready hidle).2

/-- Two threads of one priority above the idle thread. -/
theorem pbrr_choice_two : ∃ s : PbState 0,
    exec pbStep (PbState.init 0 (fun _ => 10) fun _ => NO_AFF)
    [.enqueue 0 (.idle 0), .enqueue 0 (.user 1), .enqueue 0 (.user 2)] = some s ∧ IdleThere s 0 ∧
    ∃ r, pbrrSchedSuspend s 0 = some (some r) ∧
      ∃ r' t, pbrrSchedChooseThread r 0 = some (r', t) ∧ Chosen r 0 r' t := by
  have h := pbrr_choice_run (N := 0) (fun _ => 10) (fun _ => NO_AFF)
    [.enqueue 0 (.idle 0), .enqueue 0 (.user 1), .enqueue 0 (.user 2)] _ rfl 0 (.inl ⟨rfl, rfl⟩)
    _ rfl
  exact ⟨_, rfl, .inl ⟨rfl, rfl⟩, _, rfl, h⟩

end Inv

/-! ## 3. The affinity -/

section Affinity

variable {N : Nat} {c : Fin (N + 1)} {t : Thread N}

theorem targetCpu_isSome {x : SchedState N} : (targetCpu x c t).isSome ↔
    x.affinity t = NO_AFF ∨ 0 ≤ x.affinity t ∧ (x.affinity t).toNat < N + 1 := by
  unfold targetCpu
  grind

theorem rrSchedEnqueue_ok {x : SchedState N} {id : Nat} (h : x.state (.user id) ≠ .ready) :
    (rrSchedEnqueue x c (.user id)).2 = 0 ↔
      x.prio (.user id) ≤ MAX_PRIO ∧ (targetCpu x c (.user id)).isSome := by
  simp only [rrSchedEnqueue, EINVAL]
  split
  · omega
  · cases targetCpu x c (.user id) <;> simp [enqueueOn, h]
    omega

theorem pbrrSchedEnqueue_ok {s : PbState N} (h : s.state t ≠ .ready) :
    (∃ r, pbrrSchedEnqueue s c t = some (r, 0)) ↔
      s.prio t ≤ MAX_PRIO ∧ (targetCpu s.toSchedState c t).isSome := by
  simp only [pbrrSchedEnqueue, EINVAL]
  split
  · simp
    omega
  · cases targetCpu s.toSchedState c t <;> simp [PbState.enqueueOn, h]
    omega

/-- `y` comes later: nothing but `sys_set_affinity` writes the affinity of a thread after its
    creation, and nothing its priority. -/
def Later (x : SchedState N) (t : Thread N) (y : SchedState N) : Prop :=
  y.affinity t = x.affinity t ∧ y.prio t = x.prio t

/-- Neither policy refuses the thread, nor uses an index outside its arrays. -/
def EnqueueOk (r : PbState N) (id : Nat) : Prop :=
  ∀ c, (rrSchedEnqueue r.toSchedState c (.user id)).2 = 0 ∧
    ∃ r', pbrrSchedEnqueue r c (.user id) = some (r', 0)

/-- **Every later enqueue succeeds**, exactly when the affinity is not below `NO_AFF` and the
    priority is one. -/
theorem enqueue_affinity_iff (x : SchedState N) (id : Nat) (aff : BitVec 32)
    (hret : (sysSetAffinity x (some (.user id)) aff).2 = 0) :
    (∀ r : PbState N, Later (sysSetAffinity x (some (.user id)) aff).1 (.user id) r.toSchedState →
      r.state (.user id) ≠ .ready → EnqueueOk r id) ↔
      NO_AFF ≤ aff.toInt ∧ x.prio (.user id) ≤ MAX_PRIO := by
  obtain ⟨hlt, hset⟩ : aff.toInt < (N + 1 : Nat) ∧
      (sysSetAffinity x (some (.user id)) aff).1 = x.setAffinity (.user id) aff.toInt := by
    unfold sysSetAffinity at hret ⊢
    dsimp only at hret ⊢
    split at hret
    · simp [EINVAL] at hret
    · rename_i h
      exact ⟨Int.not_le.mp h, by rw [if_neg h]⟩
  rw [hset]
  have hok : ∀ r : PbState N, Later (x.setAffinity (.user id) aff.toInt) (.user id) r.toSchedState →
      r.state (.user id) ≠ .ready →
      (EnqueueOk r id ↔ NO_AFF ≤ aff.toInt ∧ x.prio (.user id) ≤ MAX_PRIO) := by
    intro r ⟨haff, hprio⟩ hr
    have haff' : r.affinity (.user id) = aff.toInt := by simpa [SchedState.setAffinity] using haff
    have hprio' : r.prio (.user id) = x.prio (.user id) := hprio
    simp only [EnqueueOk, rrSchedEnqueue_ok hr, pbrrSchedEnqueue_ok hr, and_self_iff,
      targetCpu_isSome, haff', hprio', NO_AFF, forall_const]
    omega
  refine ⟨fun h => ?_, fun h r hl hr => (hok r hl hr).mpr h⟩
  -- the thread may be waiting when the next enqueue comes
  let r : PbState N := ⟨(x.setAffinity (.user id) aff.toInt).setState (.user id) .inter,
    fun _ _ => [], 0, fun _ => 0⟩
  have hr : r.state (.user id) ≠ .ready := by simp [r, SchedState.setState]
  exact (hok r ⟨rfl, rfl⟩ hr).mp (h r ⟨rfl, rfl⟩ hr)

theorem enqueue_affinity_three :
    (sysSetAffinity (SchedState.init 3 (fun _ => 10) fun _ => NO_AFF) (some (.user 1)) 3).2 = 0 ∧
    ∀ r : PbState 3,
    Later (sysSetAffinity (SchedState.init 3 (fun _ => 10) fun _ => NO_AFF) (some (.user 1)) 3).1
      (.user 1) r.toSchedState → r.state (.user 1) ≠ .ready → EnqueueOk r 1 :=
  ⟨rfl, (enqueue_affinity_iff _ 1 3 rfl).mpr ⟨by decide, by decide⟩⟩

/-- The affinity -2 is accepted. The next enqueue then fails, or indexes far outside the arrays. -/
theorem enqueue_affinity_negative :
    (sysSetAffinity (SchedState.init 3 (fun _ => 10) fun _ => NO_AFF) (some (.user 1)) (-2)).2 = 0 ∧
    ∃ r : PbState 3, r.toSchedState =
      (sysSetAffinity (SchedState.init 3 (fun _ => 10) fun _ => NO_AFF) (some (.user 1)) (-2)).1 ∧
      r.state (.user 1) ≠ .ready ∧ (rrSchedEnqueue r.toSchedState 0 (.user 1)).2 = -EINVAL ∧
      pbrrSchedEnqueue r 0 (.user 1) = none :=
  ⟨rfl, ⟨_, fun _ _ => [], 0, fun _ => 0⟩, rfl, by decide, rfl, rfl⟩

end Affinity

end ChCore.Sched
