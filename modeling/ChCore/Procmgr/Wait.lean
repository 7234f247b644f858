/-
  File: ChCore/Procmgr/Wait.lean
  Subject: The children of a client of the process manager (`handle_wait`,
    `handle_get_thread_cap`).

  After a loop without a match the cursor is the head of the list, taken as the `node` of a record.
  The record lies 16 bytes before the client: its pid is the low half of the address of the name of
  the client.

  * **`handlers_right_iff`** -- the handlers are right exactly if a child matches, or the number asked
    for is neither -1 nor that half.
-/
import ChCore.Common.Errno
import Mathlib.Data.List.Basic

namespace ChCore.Procmgr

def PROC_STATE_EXIT : Int := 3

/-- The fields of `struct proc_node` that the handlers read. -/
structure ChildRecord where
  procMtCap : Int
  pid : Int
  state : Int
  exitstatus : Int

/-- A client, with the `int` in front of its record and the one that pads its `pid`. -/
structure Client where
  name : BitVec 64
  pid : Int
  before : Int
  padding : Int
  children : List ChildRecord

variable (c : Client)

/-- `container_of(&client_proc->children, struct proc_node, node)` -/
def Client.headRecord : ChildRecord :=
  ⟨c.before, (c.name.setWidth 32).toInt, c.pid, c.padding⟩

def ChildRecord.Matches (p : ChildRecord) (pid : Int) : Prop := p.pid = pid ∨ pid = -1
  deriving Decidable

/-- The cursor after the loop over the children. -/
def forEachChild (head : ChildRecord) (pid : Int) : List ChildRecord → ChildRecord
  | [] => head
  | child :: rest => if child.Matches pid then child else forEachChild head pid rest

variable (pid : Int)

/-- What both handlers begin with. -/
def findChild : Except Int ChildRecord :=
  let child := forEachChild c.headRecord pid c.children
  if child.pid ≠ pid ∧ pid ≠ -1 then .error (-ENOENT) else .ok child

/-- The exit status and the pid that `handle_wait` returns; `none`: it goes on waiting. -/
def waitFor (child : ChildRecord) : Option (Int × Int) :=
  if child.state ≠ PROC_STATE_EXIT then none else some (child.exitstatus, child.pid)

def handleWait : Except Int (Option (Int × Int)) :=
  (findChild c pid).map waitFor

def handleGetThreadCap : Except Int Int :=
  (findChild c pid).map (·.procMtCap)

/-- **What the handlers are to do.** -/
def HandlersRight : Prop :=
  if ∃ p ∈ c.children, p.Matches pid then
    ∃ p ∈ c.children, p.Matches pid ∧ handleWait c pid = .ok (waitFor p) ∧
      handleGetThreadCap c pid = .ok p.procMtCap
  else handleWait c pid = .error (-ENOENT) ∧ handleGetThreadCap c pid = .error (-ENOENT)

theorem forEachChild_cases (head : ChildRecord) (pid : Int) (l : List ChildRecord) :
    (forEachChild head pid l ∈ l ∧ (forEachChild head pid l).Matches pid) ∨
      forEachChild head pid l = head ∧ ∀ p ∈ l, ¬ p.Matches pid := by
  induction l with
  | nil => exact .inr ⟨rfl, nofun⟩
  | cons child rest ih =>
    unfold forEachChild
    split
    · rename_i hm
      exact .inl ⟨List.mem_cons_self, hm⟩
    · rename_i hm
      rcases ih with ⟨hmem, hmatch⟩ | ⟨hhead, hnone⟩
      · exact .inl ⟨List.mem_cons_of_mem _ hmem, hmatch⟩
      · exact .inr ⟨hhead, List.forall_mem_cons.mpr ⟨hm, hnone⟩⟩

theorem findChild_of_matches {c : Client} {pid : Int}
    (h : (forEachChild c.headRecord pid c.children).Matches pid) :
    findChild c pid = .ok (forEachChild c.headRecord pid c.children) :=
  if_neg fun hno => h.elim hno.1 hno.2

theorem handlers_right_iff : HandlersRight c pid ↔
    (∃ p ∈ c.children, p.Matches pid) ∨ (c.headRecord.pid ≠ pid ∧ pid ≠ -1) := by
  unfold HandlersRight handleWait handleGetThreadCap
  rcases forEachChild_cases c.headRecord pid c.children with ⟨hmem, hmatch⟩ | ⟨hhead, hnone⟩
  · have hex : ∃ p ∈ c.children, p.Matches pid := ⟨_, hmem, hmatch⟩
    rw [if_pos hex, findChild_of_matches hmatch]
    exact iff_of_true ⟨_, hmem, hmatch, rfl, rfl⟩ (.inl hex)
  have hex : ¬ ∃ p ∈ c.children, p.Matches pid := fun ⟨p, hp, hm⟩ => hnone p hp hm
  rw [if_neg hex, or_iff_right hex]
  by_cases hm : c.headRecord.Matches pid
  · rw [findChild_of_matches (by rwa [hhead])]
    exact iff_of_false (fun h => nomatch h.1) fun h => hm.elim h.1 h.2
  have herr : findChild c pid = .error (-ENOENT) := by
    unfold findChild
    rw [hhead]
    exact if_pos (not_or.mp hm)
  rw [herr]
  exact iff_of_true ⟨rfl, rfl⟩ (not_or.mp hm)

/-- A client without children that waits for any child. -/
theorem handlers_wrong : ¬ HandlersRight ⟨0, 5, 0, 0, []⟩ (-1) := by
  intro h
  rw [HandlersRight] at h
  cases h.2

end ChCore.Procmgr
