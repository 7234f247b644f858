/-
  File: ChCore/Procmgr/Badge.lean
  Subject: The badges that the process manager gives to new processes (`user/procmgr/procmgr.c`).

  A badge is a random number shifted by 10 bits plus the pid, computed in 32 bits and then widened
  with its sign. A pid has up to 20 bits, so that its upper ones meet the random number, and of the
  31 bits of the random number 22 are left.

  * **`badges_distinct_iff`** -- over any run, the badges of the live processes are pairwise
    different and none of them is a privileged one exactly when every creation avoids a collision
    modulo `2^22`.
-/
import ChCore.Lib.Run
import ChCore.User.Idman

namespace ChCore.Procmgr

open Lib User Option

/-! ## 1. The source -/

def PID_MAX : Nat := 1024 * 1024

/-- `RAND_MAX + 1`. -/
def RAND_END : Nat := 2 ^ 31

/-- The badges that `sys_create_cap_group` and `sys_register_recycle` trust. -/
def ROOT_CAP_GROUP_BADGE : BitVec 64 := 0x1
def FSM_BADGE : BitVec 64 := 0x2
def PROCMGR_BADGE : BitVec 64 := 0x4

/-- `(rand() << 10) + proc->pid`: an `int`, widened to `u64` when it is returned. -/
def generateBadge (rand pid : Nat) : BitVec 64 :=
  (BitVec.ofNat 32 rand <<< 10 + BitVec.ofNat 32 pid).signExtend 64

/-- `struct proc_node` of a process that `new_proc_node` has made: its pid, and the random number
    its badge is made of. -/
structure ProcNode where
  pid : Nat
  rand : Nat
  pid_lt : pid < PID_MAX
  rand_lt : rand < RAND_END

def ProcNode.badge (p : ProcNode) : BitVec 64 := generateBadge p.rand p.pid

structure ProcState where
  pidMgr : IdManager PID_MAX
  /-- The processes that have been made and have not exited. -/
  live : List ProcNode

def initProcmgr : ProcState := ⟨IdManager.init PID_MAX, []⟩

variable (s : ProcState)

/-- `new_proc_node` with what `rand` returns (`none` = there is no pid left). -/
def newProcNode (rand : Fin RAND_END) : Option (ProcState × ProcNode) :=
  match h : s.pidMgr.allocId with
  | none => none
  | some (pidMgr, pid) =>
    some (⟨pidMgr, s.live⟩, ⟨pid, rand, (IdManager.allocId_spec h).2.1, rand.isLt⟩)

inductive ProcEvent where
  /-- `PROC_REQ_INIT`: the node gets a second pid, and the badge that the kernel has given to the
      first process. -/
  | init (rand : Fin RAND_END)
  /-- `PROC_REQ_NEWPROC`. -/
  | newproc (rand : Fin RAND_END)
  /-- The process exits. Its pid is not freed. -/
  | exit (pid : Nat)

def procStep : ProcEvent → Option ProcState
  | .init rand =>
    (newProcNode s rand).bind fun (s, _) =>
      s.pidMgr.allocId.map fun (pidMgr, _) => ⟨pidMgr, s.live⟩
  | .newproc rand => (newProcNode s rand).map fun (s, proc) => ⟨s.pidMgr, proc :: s.live⟩
  | .exit pid => some ⟨s.pidMgr, s.live.filter fun p => p.pid ≠ pid⟩

/-! ## 2. The arithmetic of the badges -/

theorem generateBadge_eq (rand pid : Nat) :
    generateBadge rand pid = (BitVec.ofNat 32 (rand * 1024 + pid)).signExtend 64 := by
  unfold generateBadge
  congr 1
  apply BitVec.eq_of_toNat_eq
  simp only [BitVec.toNat_add, BitVec.toNat_shiftLeft, BitVec.toNat_ofNat, Nat.shiftLeft_eq]
  omega

theorem signExtend_inj {x y : BitVec 32} : x.signExtend 64 = y.signExtend 64 ↔ x = y := by
  refine ⟨fun h => BitVec.eq_of_toInt_eq ?_, fun h => h ▸ rfl⟩
  rw [← BitVec.toInt_signExtend_of_le (v := 64), h, BitVec.toInt_signExtend_of_le] <;> decide

/-- **When two badges are equal.** -/
theorem generateBadge_eq_iff (r p r' p' : Nat) : generateBadge r p = generateBadge r' p' ↔
    p % 1024 = p' % 1024 ∧ (r + p / 1024) % 2 ^ 22 = (r' + p' / 1024) % 2 ^ 22 := by
  rw [generateBadge_eq, generateBadge_eq, signExtend_inj, ← BitVec.toNat_inj, BitVec.toNat_ofNat,
    BitVec.toNat_ofNat]
  omega

/-- Two processes with the same badge, in these terms. -/
def Collide (r p r' p' : Nat) : Prop :=
  p % 1024 = p' % 1024 ∧ (r + p / 1024) % 2 ^ 22 = (r' + p' / 1024) % 2 ^ 22

/-- A process with a privileged badge. -/
def HitsPrivileged (r p : Nat) : Prop :=
  (p % 1024 = 1 ∨ p % 1024 = 2 ∨ p % 1024 = 4) ∧ (r + p / 1024) % 2 ^ 22 = 0

def Privileged (badge : BitVec 64) : Prop :=
  badge = ROOT_CAP_GROUP_BADGE ∨ badge = FSM_BADGE ∨ badge = PROCMGR_BADGE

theorem privileged_iff (r p : Nat) : Privileged (generateBadge r p) ↔ HitsPrivileged r p := by
  have h1 : ROOT_CAP_GROUP_BADGE = generateBadge 0 1 := by decide
  have h2 : FSM_BADGE = generateBadge 0 2 := by decide
  have h4 : PROCMGR_BADGE = generateBadge 0 4 := by decide
  unfold Privileged HitsPrivileged
  rw [h1, h2, h4, generateBadge_eq_iff, generateBadge_eq_iff, generateBadge_eq_iff]
  omega

/-! ## 3. Runs -/

/-- **The badges tell the live processes apart**, and none of them is a privileged one. -/
def BadgesOk : Prop :=
  (s.live.map ProcNode.badge).Nodup ∧ ∀ p ∈ s.live, ¬ Privileged p.badge

/-- **The condition on an event**: the random number of a new process, with the pid it gets, makes
    neither the badge of a live process nor a privileged one. -/
def EventFits : ProcEvent → Prop
  | .newproc rand => ∀ m pid, s.pidMgr.allocId = some (m, pid) →
      (∀ q ∈ s.live, ¬ Collide rand pid q.rand q.pid) ∧ ¬ HitsPrivileged rand pid
  | _ => True

theorem newProcNode_some {s s' : ProcState} {rand : Fin RAND_END} {proc : ProcNode}
    (h : newProcNode s rand = some (s', proc)) :
    s'.live = s.live ∧ s.pidMgr.allocId = some (s'.pidMgr, proc.pid) ∧ proc.rand = rand := by
  unfold newProcNode at h
  split at h
  · cases h
  · rename_i pidMgr pid halloc
    cases h
    exact ⟨rfl, halloc, rfl⟩

/-- The badges after an event, from those before it. -/
theorem badgesOk_step_iff {s s' : ProcState} {e : ProcEvent} (h : BadgesOk s)
    (hs : procStep s e = some s') : BadgesOk s' ↔ EventFits s e := by
  cases e with
  | init rand =>
    obtain ⟨⟨s1, proc⟩, hnew, hs⟩ := bind_eq_some_iff.mp hs
    obtain ⟨⟨m, pid⟩, -, rfl⟩ := map_eq_some_iff.mp hs
    have hlive := (newProcNode_some hnew).1
    refine iff_of_true ?_ trivial
    rw [hlive]
    exact h
  | newproc rand =>
    obtain ⟨⟨s1, proc⟩, hnew, rfl⟩ := map_eq_some_iff.mp hs
    obtain ⟨hlive, halloc, hrand⟩ := newProcNode_some hnew
    have hfits : EventFits s (.newproc rand) ↔
        (∀ q ∈ s.live, ¬ Collide proc.rand proc.pid q.rand q.pid) ∧
          ¬ HitsPrivileged proc.rand proc.pid := by
      rw [hrand]
      constructor
      · exact fun hf => hf _ _ halloc
      intro hf m pid hm
      rw [halloc] at hm
      cases hm
      exact hf
    have hcollide : proc.badge ∉ s.live.map ProcNode.badge ↔
        ∀ q ∈ s.live, ¬ Collide proc.rand proc.pid q.rand q.pid := by
      simp only [List.mem_map, not_exists, not_and]
      refine forall₂_congr fun q _ => not_congr ?_
      rw [eq_comm]
      exact generateBadge_eq_iff _ _ _ _
    rw [hfits, ← hcollide, ← privileged_iff]
    unfold BadgesOk
    simp only [hlive, List.map_cons, List.nodup_cons, List.forall_mem_cons]
    exact ⟨fun hok => ⟨hok.1.1, hok.2.1⟩, fun hf => ⟨⟨hf.1, h.1⟩, hf.2, h.2⟩⟩
  | exit pid =>
    cases hs
    refine iff_of_true ⟨?_, fun p hp => h.2 p (List.mem_of_mem_filter hp)⟩ trivial
    exact h.1.sublist (List.filter_sublist.map _)

/-- **The badges of the live processes** are pairwise different and not privileged after every event
    of a run exactly when every creation of the run avoids the collisions. -/
theorem badges_distinct_iff (events : List ProcEvent) :
    (∀ t ∈ trace procStep initProcmgr events, BadgesOk t.post) ↔
      ∀ t ∈ trace procStep initProcmgr events, EventFits t.pre t.act :=
  trace_all_iff (I := BadgesOk) (C := EventFits) (G := fun t => BadgesOk t.post)
    (fun _ _ _ h hs => badgesOk_step_iff h hs)
    (fun _ _ _ h hfit hs => (badgesOk_step_iff h hs).mpr hfit) events initProcmgr
    ⟨List.nodup_nil, nofun⟩

/-- `rand` returns 0 for the first process after INIT. -/
def zeroRun : List ProcEvent := [.init ⟨0, by decide⟩, .newproc ⟨0, by decide⟩]

/-- Its pid is 2, so that it has the badge of the file system manager, and the kernel lets it create
    capability groups. -/
theorem badge_of_fsm : ∃ t ∈ trace procStep initProcmgr zeroRun,
    ∃ p ∈ t.post.live, p.badge = FSM_BADGE ∧ ¬ BadgesOk t.post := by
  have hrun : (exec procStep initProcmgr zeroRun).any
      (fun s => ∃ p ∈ s.live, p.badge = FSM_BADGE) = true := by decide
  obtain ⟨t, ht, p, hp, hbadge⟩ := trace_of_exec hrun
  exact ⟨t, ht, p, hp, hbadge, fun hok => hok.2 p hp (.inr (.inl hbadge))⟩

end ChCore.Procmgr
