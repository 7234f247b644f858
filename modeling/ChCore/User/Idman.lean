/-
  File: ChCore/User/Idman.lean
  Subject: The numbers that user servers hand out (`chcore/idman.h`): a bitmap in slots of 64 bits
    and the slot where the next search starts.

  * `allocId_spec` -- a number that is handed out was not in use and is below the limit.
-/
import Mathlib

namespace ChCore.User

open Function

def BITS_PER_U64 : Nat := 64

/-- `struct id_manager` for the numbers below `maxId`. -/
structure IdManager (maxId : Nat) where
  bitmap : Nat → Bool
  currSlot : Nat

namespace IdManager

variable {maxId : Nat}

/-- `init_id_manager`. -/
def init (maxId : Nat) : IdManager maxId := ⟨fun _ => false, 0⟩

def nrSlots (maxId : Nat) : Nat := (maxId + BITS_PER_U64 - 1) / BITS_PER_U64

/-- The loop of `__find_first_zero`, with `n` bits left. -/
def findFirstZero (bitmap : Nat → Bool) (slot : Nat) : Nat → Nat → Option Nat
  | 0, _ => none
  | n + 1, bit =>
    if bitmap (slot * BITS_PER_U64 + bit) then findFirstZero bitmap slot n (bit + 1) else some bit

/-- The loop of `alloc_id` (`none` = `-ENOMEM`). -/
def allocLoop : Nat → IdManager maxId → Option (IdManager maxId × Nat)
  | 0, _ => none
  | n + 1, m =>
    let slot := if m.currSlot ≥ nrSlots maxId then 0 else m.currSlot
    match findFirstZero m.bitmap slot BITS_PER_U64 0 with
    | none => allocLoop n { m with currSlot := slot + 1 }
    | some bit =>
      let id := slot * BITS_PER_U64 + bit
      if id ≥ maxId then allocLoop n { m with currSlot := slot + 1 }
      else some (⟨update m.bitmap id true, slot⟩, id)

variable (m : IdManager maxId)

/-- `alloc_id` tries every slot, the one it starts with twice. -/
def allocId : Option (IdManager maxId × Nat) :=
  allocLoop (nrSlots maxId + 1) m

/-- `free_id`; the flag is false for `-ENOENT` (`none` = its assertion fails). -/
def freeId (id : Int) : Option (IdManager maxId × Bool) :=
  if 0 < id ∧ id < maxId then
    if m.bitmap id.toNat then
      some (⟨update m.bitmap id.toNat false, id.toNat / BITS_PER_U64⟩, true)
    else some (m, false)
  else none

/-- `query_id` returns 0 (`none` = its assertion fails). -/
def queryId (id : Int) : Option Bool :=
  if 0 < id ∧ id < maxId then some (m.bitmap id.toNat) else none

theorem findFirstZero_some {bitmap : Nat → Bool} {slot n i bit : Nat}
    (h : findFirstZero bitmap slot n i = some bit) : bitmap (slot * BITS_PER_U64 + bit) = false := by
  induction n generalizing i with
  | zero => cases h
  | succ n ih =>
    unfold findFirstZero at h
    split at h
    · exact ih h
    · rename_i hzero
      cases h
      simpa using hzero

/-- **A number that is handed out** was not in use, is below the limit, and is in use now. -/
theorem allocLoop_spec {n id : Nat} {m m' : IdManager maxId} (h : allocLoop n m = some (m', id)) :
    m.bitmap id = false ∧ id < maxId ∧ m'.bitmap = update m.bitmap id true := by
  induction n generalizing m with
  | zero => cases h
  | succ n ih =>
    unfold allocLoop at h
    generalize (if m.currSlot ≥ nrSlots maxId then 0 else m.currSlot) = slot at h
    simp only at h
    split at h
    · have hnext := ih h
      exact hnext
    rename_i bit hbit
    split at h
    · have hnext := ih h
      exact hnext
    · rename_i hlt
      cases h
      exact ⟨findFirstZero_some hbit, not_le.mp hlt, rfl⟩

theorem allocId_spec {id : Nat} {m m' : IdManager maxId} (h : allocId m = some (m', id)) :
    m.bitmap id = false ∧ id < maxId ∧ m'.bitmap = update m.bitmap id true :=
  allocLoop_spec h

end IdManager

end ChCore.User
