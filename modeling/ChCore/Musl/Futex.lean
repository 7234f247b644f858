/-
  File: ChCore/Musl/Futex.lean
  Subject: `chcore_futex_wake` (user/musl-1.1.24/src/chcore-port/futex.c).

  * **`futex_wake_iff`** -- the loop over the requeued waiters does not count, so that it sends to
    all of them or to none.
-/
import Mathlib

namespace ChCore.Musl

open List

/-- `struct futex_entry`; `requeuedFutexList` has the capabilities. -/
structure FutexEntry where
  notificCap : Int
  uaddr : Nat
  waiterCount : Int
  requeuedFutexList : List Int

def FutexEntry.hasWaiter (e : FutexEntry) : Prop := 0 < e.waiterCount ∨ e.requeuedFutexList ≠ []
  deriving Decidable

/-- The entry that `chcore_futex_wake` looks for. -/
def FutexEntry.WaitsOn (e : FutexEntry) (uaddr : Nat) : Prop := e.hasWaiter ∧ e.uaddr = uaddr
  deriving Decidable

/-- The loop over the requeued waiters: who is notified, and who stays. -/
def requeuedLoop (sendCount val : Int) : List Int → List Int × List Int
  | [] => ([], [])
  | cap :: rest =>
    if sendCount < val then
      let (sent, left) := requeuedLoop sendCount val rest
      (cap :: sent, left)
    else ([], cap :: rest)

/-- `chcore_futex_wake` on the entries from the first one on. -/
def futexWake (uaddr : Nat) (val : Int) : List FutexEntry → List FutexEntry × List Int × Int
  | [] => ([], [], 0)
  | e :: table =>
    if e.WaitsOn uaddr then
      let sendCount := if e.waiterCount < val then e.waiterCount else val
      let (sent, left) := requeuedLoop sendCount val e.requeuedFutexList
      ({ e with requeuedFutexList := left } :: table,
        replicate sendCount.toNat e.notificCap ++ sent, sendCount)
    else
      let (table, sent, ret) := futexWake uaddr val table
      (e :: table, sent, ret)

/-- The waiters on an address. -/
def waiters (uaddr : Nat) (table : List FutexEntry) : Nat :=
  ((table.filter (·.uaddr = uaddr)).map fun e =>
    e.waiterCount.toNat + e.requeuedFutexList.length).sum

def requeuedOn (uaddr : Nat) (table : List FutexEntry) : List Int :=
  (table.filter (·.uaddr = uaddr)).flatMap (·.requeuedFutexList)

/-- **What a call is to do**: it sends `min val waiters` notifications, takes the requeued waiters it
    has notified off their list, and returns the number. -/
structure WakeRight (uaddr : Nat) (val : Int) (table : List FutexEntry)
    (r : List FutexEntry × List Int × Int) : Prop where
  sent : r.2.1.length = min val.toNat (waiters uaddr table)
  removed : ∃ n cap notified, r.2.1 = replicate n cap ++ notified ∧
    requeuedOn uaddr table = notified ++ requeuedOn uaddr r.1
  ret : r.2.2 = r.2.1.length

/-- The tables for which it does: the first entry with waiters has enough that wait since the
    beginning, or it has no requeued ones and is the only one. -/
def WakeFits (uaddr : Nat) (val : Int) : List FutexEntry → Prop
  | [] => True
  | e :: table =>
    if e.WaitsOn uaddr then
      val ≤ e.waiterCount ∨ e.requeuedFutexList = [] ∧ waiters uaddr table = 0
    else WakeFits uaddr val table

/-- The loop sends to all or to none. -/
theorem requeuedLoop_eq (sendCount val : Int) (l : List Int) :
    requeuedLoop sendCount val l = if sendCount < val then (l, []) else ([], l) := by
  induction l with
  | nil => simp [requeuedLoop]
  | cons cap rest ih =>
    unfold requeuedLoop
    rw [ih]
    split <;> rfl

variable {uaddr : Nat} {val : Int} {e : FutexEntry} {table : List FutexEntry}

theorem waiters_cons (h : e.uaddr = uaddr) : waiters uaddr (e :: table) =
    e.waiterCount.toNat + e.requeuedFutexList.length + waiters uaddr table := by
  simp [waiters, h]

theorem requeuedOn_cons (h : e.uaddr = uaddr) :
    requeuedOn uaddr (e :: table) = e.requeuedFutexList ++ requeuedOn uaddr table := by
  simp [requeuedOn, h]

theorem wake_skipped (h : ¬ e.WaitsOn uaddr) (table : List FutexEntry) :
    waiters uaddr (e :: table) = waiters uaddr table ∧
      requeuedOn uaddr (e :: table) = requeuedOn uaddr table := by
  by_cases ha : e.uaddr = uaddr
  · obtain ⟨hw, hr⟩ := not_or.mp fun hw => h ⟨hw, ha⟩
    rw [waiters_cons ha, requeuedOn_cons ha, not_not.mp hr]
    simp [Int.toNat_of_nonpos (not_lt.mp hw)]
  · simp [waiters, requeuedOn, ha]

/-- **A call is right exactly when `WakeFits`**. -/
theorem futex_wake_iff (uaddr : Nat) (val : Int) (hval : 0 ≤ val) (table : List FutexEntry) :
    WakeRight uaddr val table (futexWake uaddr val table) ↔ WakeFits uaddr val table := by
  induction table with
  | nil => exact iff_of_true ⟨by simp [futexWake, waiters], ⟨0, 0, [], rfl, rfl⟩, rfl⟩ trivial
  | cons e table ih =>
    unfold futexWake WakeFits
    by_cases h : e.WaitsOn uaddr
    swap
    · obtain ⟨hw, hr⟩ := wake_skipped h table
      rw [if_neg h, if_neg h, ← ih]
      constructor
      · rintro ⟨hsent, hremoved, hret⟩
        exact ⟨hw ▸ hsent, by simpa only [hr, (wake_skipped h _).2] using hremoved, hret⟩
      · rintro ⟨hsent, hremoved, hret⟩
        exact ⟨hw.symm ▸ hsent, by simpa only [hr, (wake_skipped h _).2] using hremoved, hret⟩
    rw [if_pos h, if_pos h]
    by_cases hlt : e.waiterCount < val
    · -- all requeued waiters are notified
      simp only [requeuedLoop_eq, if_pos hlt]
      constructor
      · rintro ⟨hsent, -, hret⟩
        rw [waiters_cons h.2] at hsent
        simp only [length_append, length_replicate] at hsent hret
        refine .inr ⟨length_eq_zero_iff.mp (by omega), by omega⟩
      rintro (hle | ⟨hnil, hrest⟩)
      · omega
      have hpos : 0 < e.waiterCount := h.1.resolve_right (not_not.mpr hnil)
      refine ⟨?_, ⟨_, _, _, rfl, by simp [requeuedOn_cons, h.2]⟩, ?_⟩
      · rw [waiters_cons h.2]
        simp only [hnil, append_nil, length_replicate, length_nil]
        omega
      · simp only [hnil, append_nil, length_replicate]
        omega
    simp only [requeuedLoop_eq, if_neg hlt, lt_irrefl, if_false, append_nil]
    refine iff_of_true ⟨?_, ⟨_, _, [], (append_nil _).symm, rfl⟩, ?_⟩ (.inl (not_lt.mp hlt))
    · rw [waiters_cons h.2, length_replicate]
      omega
    · rw [length_replicate]
      exact (Int.toNat_of_nonneg hval).symm

/-- Three waiters since the beginning and two requeued ones, behind an entry for another address. -/
def requeuedTable : List FutexEntry := [⟨3, 16, 1, []⟩, ⟨4, 8, 3, [6, 7]⟩]

theorem futex_wake_requeued : WakeRight 8 2 requeuedTable (futexWake 8 2 requeuedTable) :=
  (futex_wake_iff 8 2 (by decide) _).mpr (.inl (by decide))

/-- **Two requeued waiters are woken for one.** -/
theorem futex_wake_two : ¬ WakeRight 8 1 [⟨3, 8, 0, [4, 5]⟩] (futexWake 8 1 [⟨3, 8, 0, [4, 5]⟩]) :=
  fun h => absurd h.ret (by decide)

end ChCore.Musl
