/-
  File: ChCore/Mm/VmLocks.lean
  Subject: `vmspace_lock` and `pgtbl_lock` along every path of the calls on an address space
    (`kernel/mm/vmregion.c`, `kernel/mm/pgfault_handler.c`, `kernel/object/memory.c`).

  The calls are written with each `lock` and `unlock` of the source, over the regions, the memory
  objects and the page table.

  * **`locks_free_iff`** -- from free locks a call ends so exactly when the two calls that look for
    a region and return without the lock do find one;
  * **`locked_run`** -- runs of the calls follow the model without locks, so that the layout of the
    regions survives on the same condition.
-/
import ChCore.Lib.LockedCode
import ChCore.Mm.Mprotect
import ChCore.Mm.Pmo

namespace ChCore.Mm

open Lib Function

/-! ## 1. The state -/

inductive VmLock where
  | vmspace
  | pgtbl
  deriving DecidableEq, Repr

/-- An address space. `perm` and `pmoOf` are `vmr->perm` and `vmr->pmo` by the pointer of the
    region. -/
structure VmState where
  space : Vmspace
  pgtblLock : Bool
  perm : Nat → VmrProp
  pmoOf : Nat → Nat
  mem : Pmos
  pt : PtState
  pgtbl : Frame

instance : HasLocks VmLock VmState where
  held s i := match i with
    | .vmspace => s.space.vmspaceLock
    | .pgtbl => s.pgtblLock
  setLock s i b := match i with
    | .vmspace => { s with space := { s.space with vmspaceLock := b } }
    | .pgtbl => { s with pgtblLock := b }
  held_setLock s i b := by
    funext j
    cases i <;> cases j <;> simp [update]

/-- What `sys_handle_mprotect` reads. -/
def VmState.user (s : VmState) : UserSpace :=
  ⟨s.space, s.perm, fun p => (s.mem.pmos (s.pmoOf p)).size, s.pt, s.pgtbl⟩

/-! ## 2. The source -/

namespace Locked

open Code

variable (F : PteFormat)

/-- A function on the page table between `lock(&vmspace->pgtbl_lock)` and the `unlock`. -/
def withPgtblLock (f : VmState → Option PtState) : Code VmState Unit := do
  acquire VmLock.pgtbl
  let _ ← (do
    let s ← read
    let pt ← orStop (f s)
    write { s with pt := pt } : Code VmState Unit)
  release VmLock.pgtbl
  pure ()

variable (va len : BitVec 64)

def unmapPages : Code VmState Unit :=
  withPgtblLock fun s => (unmapRangeInPgtbl F s.pt s.pgtbl va.toNat len.toNat).map Prod.fst

def fillPageTable (start : BitVec 64) (pmo : Nat) (perm : VmrProp) : Code VmState Unit :=
  withPgtblLock fun s => mapRangeInPgtbl F s.pt s.pgtbl start.toNat (s.mem.pmos pmo).start
    (s.mem.pmos pmo).size.toNat perm

variable (p : Nat)

/-- `add_vmr_to_vmspace`, on a region that is not in use. -/
def addVmrToVmspace (v : Vmregion) (perm : VmrProp) (pmo : Nat) : Code VmState Unit := do
  let s ← read
  if h : p ∈ s.space.vmrList.map Prod.fst then stop
  else do
    bugOn (checkVmrIntersect s.space v = true)
    write { s with
      space := s.space.insert p v h
      perm := update s.perm p perm
      pmoOf := update s.pmoOf p pmo }

def delVmrFromVmspace : Code VmState Unit := do
  let s ← read
  write { s with space := s.space.del p }

def vmspaceMapRange (flags : VmrProp) (pmo : Nat) (alloc : Option Nat) : Code VmState Int := do
  let s ← read
  let type := (s.mem.pmos pmo).type
  bugOn (type ≠ .data ∧ type ≠ .anonym ∧ type ≠ .device ∧ type ≠ .shm)
  match alloc with
  | none => return -ENOMEM
  | some p =>
    let perm := if type = .device then flags ||| VMR_DEVICE else flags
    acquire VmLock.vmspace
    addVmrToVmspace p (mapRegion va len type) perm pmo
    release VmLock.vmspace
    if type = .data ∨ type = .device then
      fillPageTable F (roundDownPage va) pmo perm
    return 0

/-- `lock(&vmspace->vmspace_lock)` and `find_vmr_for_va`, with what follows in either case. -/
def lockAndFind (va : BitVec 64) (missing : Code VmState Int)
    (found : Nat → Vmregion → Code VmState Int) : Code VmState Int := do
  acquire VmLock.vmspace
  let s ← read
  match findVmrForVa s.space va with
  | none => missing
  | some (p, v) => found p v

/-- `vmspace_unmap_range` from the check of the range on. -/
def unmapFound (v : Vmregion) : Code VmState Int := do
  bugOn ((va ≠ v.start ∨ len ≠ v.size) ∧ len ≠ 0)
  delVmrFromVmspace p
  release VmLock.vmspace
  if len ≠ 0 then unmapPages F va len
  return 0

/-- `vmspace_unmap_range`. Where no region is found, `goto out` goes behind the `unlock`. -/
def vmspaceUnmapRange : Code VmState Int :=
  lockAndFind va (return -1) (unmapFound F va len)

def vmspaceMmapWithPmo (pmo : Nat) (len : BitVec 64) (perm : VmrProp) (alloc : Option Nat) :
    Code VmState (BitVec 64) :=
  match alloc with
  | none => return -1
  | some p => do
    acquire VmLock.vmspace
    let s ← read
    let start := s.space.userCurrentMmapAddr
    bugOn (len % VM_PAGE_SIZE ≠ 0)
    write { s with space := { s.space with userCurrentMmapAddr := start + len } }
    let type := (s.mem.pmos pmo).type
    bugOn (type ≠ .anonym ∧ type ≠ .shm ∧ type ≠ .file)
    addVmrToVmspace p ⟨start, len, type⟩ perm pmo
    release VmLock.vmspace
    return start

/-- `unmap_vmrs`; the number of regions bounds the depth. -/
def unmapVmrs : Nat → BitVec 64 → BitVec 64 → Code VmState Int
  | 0, _, _ => return 0
  | n + 1, va, len => do
    if len = 0 then return 0
    else do
      let s ← read
      match findVmrForVa s.space va with
      | none => return 0
      | some (p, v) =>
        if len < v.size then do
          bugOn (v.pmo ≠ .anonym)
          write { s with space := s.space.resize p (v.start + len) (v.size - len) }
          unmapPages F va len
          return 0
        else do
          unmapPages F va len
          delVmrFromVmspace p
          unmapVmrs n (va + v.size) (len - v.size)

def vmspaceMunmapWithAddr : Code VmState Int := do
  acquire VmLock.vmspace
  let s ← read
  let ret ← unmapVmrs F s.space.vmrList.length va len
  release VmLock.vmspace
  return ret

def vmspaceUnmapShmVmr (va : BitVec 64) : Code VmState Int :=
  lockAndFind va
    (do
      release VmLock.vmspace
      return -EINVAL)
    fun p v => do
      bugOn (v.pmo ≠ .shm)
      bugOn (va ≠ v.start)
      unmapPages F v.start v.size
      delVmrFromVmspace p
      release VmLock.vmspace
      return 0

/-- The permissions of the page of a fault. -/
def faultPerm (s : VmState) (p : Nat) (v : Vmregion) (offset : BitVec 64) : Code VmState VmrProp :=
  if (s.mem.pmos (s.pmoOf p)).size ≤ offset ∧ v.pmo = .file then
    return VMR_READ ||| VMR_WRITE ||| VMR_EXEC
  else do
    bugOn ((s.mem.pmos (s.pmoOf p)).size ≤ offset)
    return s.perm p

/-- `handle_trans_fault` from the `switch` on. The page is mapped in the same way whether it has
    just been committed or not. -/
def faultFound (faultAddr : BitVec 64) (p : Nat) (v : Vmregion) : Code VmState Int := do
  let s ← read
  bugOn (v.pmo ≠ .file ∧ v.pmo ≠ .anonym ∧ v.pmo ≠ .shm)
  let offset := roundDownPage faultAddr - v.start
  let perm ← faultPerm s p v offset
  let (pa, mem) ← orStop (demandPage s.mem (s.pmoOf p) (offset.toNat / PMO_PAGE_SIZE))
  write { s with mem := mem }
  withPgtblLock fun s => mapRangeInPgtbl F s.pt s.pgtbl (roundDownPage faultAddr).toNat pa
    PMO_PAGE_SIZE perm
  release VmLock.vmspace
  return 0

/-- `handle_trans_fault`. Where no region is found it returns at once. -/
def handleTransFault (faultAddr : BitVec 64) : Code VmState Int :=
  lockAndFind faultAddr (return -ENOMAPPING) (faultFound F faultAddr)

/-- `sys_handle_mprotect`, with the loops of `checkVmrs` and `setPerms`. -/
def sysHandleMprotect (addr length : BitVec 64) (prot : BitVec 32) : Code VmState Int :=
  if addr % VM_PAGE_SIZE ≠ 0 ∨ length % VM_PAGE_SIZE ≠ 0 then return -EINVAL
  else if length = 0 then return 0
  else do
    let target := getVmrProt prot
    acquire VmLock.vmspace
    let s ← read
    match checkVmrs s.user target length.toNat addr length with
    | .refused => do
      release VmLock.vmspace
      return -EACCES
    | .ignored => do
      release VmLock.vmspace
      return 0
    | .bug => stop
    | .whole => do
      let perm ← orStop (setPerms s.space target length.toNat s.perm addr length)
      write { s with perm := perm }
      withPgtblLock fun s =>
        (mprotectInPgtbl F s.pt s.pgtbl addr.toNat length.toNat target).map Prod.fst
      release VmLock.vmspace
      return 0

end Locked

/-- The calls with their arguments; `alloc` is the answer of `alloc_vmregion`. -/
inductive LockCall where
  | mapRange (va len : BitVec 64) (flags : VmrProp) (pmo : Nat) (alloc : Option Nat)
  | unmapRange (va len : BitVec 64)
  | munmapWithAddr (va len : BitVec 64)
  | mmapWithPmo (pmo : Nat) (len : BitVec 64) (perm : VmrProp) (alloc : Option Nat)
  | unmapShmVmr (va : BitVec 64)
  | transFault (faultAddr : BitVec 64)
  | mprotect (addr length : BitVec 64) (prot : BitVec 32)

/-- One of the calls; the answer is dropped. -/
def LockCall.run (F : PteFormat) : LockCall → Code VmState Unit
  | .mapRange va len flags pmo alloc => do
    let _ ← Locked.vmspaceMapRange F va len flags pmo alloc
  | .unmapRange va len => do
    let _ ← Locked.vmspaceUnmapRange F va len
  | .munmapWithAddr va len => do
    let _ ← Locked.vmspaceMunmapWithAddr F va len
  | .mmapWithPmo pmo len perm alloc => do
    let _ ← Locked.vmspaceMmapWithPmo pmo len perm alloc
  | .unmapShmVmr va => do
    let _ ← Locked.vmspaceUnmapShmVmr F va
  | .transFault faultAddr => do
    let _ ← Locked.handleTransFault F faultAddr
  | .mprotect addr length prot => do
    let _ ← Locked.sysHandleMprotect F addr length prot

/-! ## 3. What the parts do to the locks -/

/-- No lock is held. -/
def noLock : VmLock → Bool := fun _ => false

/-- `vmspace_lock` is held. -/
def vmLocked : VmLock → Bool := update noLock .vmspace true

namespace Locked

open Code

variable {F : PteFormat} {L : VmLock → Bool}

theorem takes_withPgtblLock (f : VmState → Option PtState) (h : L .pgtbl = false) :
    Takes L (withPgtblLock f) L := by
  refine takes_locked h (takes_read fun s hs => ?_)
  exact takes_bind (takes_orStop _) fun pt => takes_write hs

variable (va len : BitVec 64)

theorem takes_unmapPages (h : L .pgtbl = false) : Takes L (unmapPages F va len) L :=
  takes_withPgtblLock _ h

variable (p : Nat)

theorem takes_addVmr (v : Vmregion) (perm : VmrProp) (pmo : Nat) :
    Takes L (addVmrToVmspace p v perm pmo) L := by
  refine takes_read fun s hs => ?_
  split
  · exact takes_stop
  · exact takes_bind (takes_bugOn _) fun _ => takes_write hs

theorem takes_delVmr : Takes L (delVmrFromVmspace p) L :=
  takes_read fun _ hs => takes_write hs

theorem takes_enter : Takes noLock (acquire VmLock.vmspace : Code VmState Unit) vmLocked :=
  takes_acquire rfl

theorem takes_leave : Takes vmLocked (release VmLock.vmspace : Code VmState Unit) noLock := by
  have h : update vmLocked VmLock.vmspace false = noLock := by
    rw [vmLocked, update_idem]
    exact update_eq_self VmLock.vmspace noLock
  exact h ▸ takes_release rfl

/-- `unmap_vmrs` is balanced, however many regions it goes through. -/
theorem takes_unmapVmrs (n : Nat) (va len : BitVec 64) :
    Takes vmLocked (unmapVmrs F n va len) vmLocked := by
  induction n generalizing va len with
  | zero => exact takes_pure 0
  | succ n ih =>
    unfold unmapVmrs
    split
    · exact takes_pure 0
    refine takes_read fun s hs => ?_
    cases findVmrForVa s.space va with
    | none => exact takes_pure 0
    | some x =>
    obtain ⟨p, v⟩ := x
    simp only
    split
    · refine takes_bind (takes_bugOn _) fun _ => takes_bind (takes_write hs) fun _ => ?_
      exact takes_bind (takes_unmapPages va len rfl) fun _ => takes_pure 0
    · refine takes_bind (takes_unmapPages va len rfl) fun _ => ?_
      exact takes_bind (takes_delVmr p) fun _ => ih _ _

theorem takes_faultPerm (s : VmState) (p : Nat) (v : Vmregion) (offset : BitVec 64) :
    Takes L (faultPerm s p v offset) L := by
  unfold faultPerm
  split
  · exact takes_pure _
  · exact takes_bind (takes_bugOn _) fun _ => takes_pure _

/-! ## 4. The calls -/

theorem takes_vmspaceMapRange (flags : VmrProp) (pmo : Nat)
    (alloc : Option Nat) : Takes noLock (vmspaceMapRange F va len flags pmo alloc) noLock := by
  refine takes_read fun s _ => takes_bind (takes_bugOn _) fun _ => ?_
  cases alloc with
  | none => exact takes_pure _
  | some p =>
  refine takes_bind takes_enter fun _ => takes_bind (takes_addVmr p _ _ pmo) fun _ => ?_
  refine takes_bind takes_leave fun _ => ?_
  split
  · exact takes_bind (takes_withPgtblLock _ rfl) fun _ => takes_pure 0
  · exact takes_pure 0

theorem takes_vmspaceMmapWithPmo (pmo : Nat) (len : BitVec 64) (perm : VmrProp)
    (alloc : Option Nat) : Takes noLock (vmspaceMmapWithPmo pmo len perm alloc) noLock := by
  cases alloc with
  | none => exact takes_pure _
  | some p =>
  refine takes_bind takes_enter fun _ => takes_read fun s hs => ?_
  refine takes_bind (takes_bugOn _) fun _ => takes_bind (takes_write hs) fun _ => ?_
  refine takes_bind (takes_bugOn _) fun _ => takes_bind (takes_addVmr p _ perm pmo) fun _ => ?_
  exact takes_bind takes_leave fun _ => takes_pure _

theorem takes_vmspaceMunmapWithAddr : Takes noLock (vmspaceMunmapWithAddr F va len) noLock := by
  refine takes_bind takes_enter fun _ => takes_read fun s _ => ?_
  refine takes_bind (takes_unmapVmrs _ va len) fun ret => ?_
  exact takes_bind takes_leave fun _ => takes_pure ret

/-- A call that gives the lock back on both ways is balanced. -/
theorem takes_lockAndFind (va : BitVec 64) {missing : Code VmState Int}
    {found : Nat → Vmregion → Code VmState Int} (hm : Takes vmLocked missing noLock)
    (hf : ∀ p v, Takes vmLocked (found p v) noLock) :
    Takes noLock (lockAndFind va missing found) noLock := by
  refine takes_bind takes_enter fun _ => takes_read fun s _ => ?_
  cases findVmrForVa s.space va with
  | none => exact hm
  | some x => exact hf x.1 x.2

theorem takes_vmspaceUnmapShmVmr (va : BitVec 64) :
    Takes noLock (vmspaceUnmapShmVmr F va) noLock := by
  refine takes_lockAndFind va (takes_bind takes_leave fun _ => takes_pure _) fun p v => ?_
  refine takes_bind (takes_bugOn _) fun _ => takes_bind (takes_bugOn _) fun _ => ?_
  refine takes_bind (takes_unmapPages _ _ rfl) fun _ => takes_bind (takes_delVmr p) fun _ => ?_
  exact takes_bind takes_leave fun _ => takes_pure 0

theorem takes_sysHandleMprotect (addr length : BitVec 64) (prot : BitVec 32) :
    Takes noLock (sysHandleMprotect F addr length prot) noLock := by
  unfold sysHandleMprotect
  split
  · exact takes_pure _
  split
  · exact takes_pure 0
  refine takes_bind takes_enter fun _ => takes_read fun s hs => ?_
  cases checkVmrs s.user (getVmrProt prot) length.toNat addr length with
  | refused => exact takes_bind takes_leave fun _ => takes_pure _
  | ignored => exact takes_bind takes_leave fun _ => takes_pure 0
  | bug => exact takes_stop
  | whole =>
    refine takes_bind (takes_orStop _) fun perm => takes_bind (takes_write hs) fun _ => ?_
    refine takes_bind (takes_withPgtblLock _ rfl) fun _ => ?_
    exact takes_bind takes_leave fun _ => takes_pure 0

/-- The two calls that give the lock back only where a region is found. -/
theorem takes_unmapFound (v : Vmregion) : Takes vmLocked (unmapFound F va len p v) noLock := by
  refine takes_bind (takes_bugOn _) fun _ => takes_bind (takes_delVmr p) fun _ => ?_
  refine takes_bind takes_leave fun _ => ?_
  split
  · exact takes_bind (takes_unmapPages va len rfl) fun _ => takes_pure 0
  · exact takes_pure 0

theorem takes_faultFound (faultAddr : BitVec 64) (p : Nat) (v : Vmregion) :
    Takes vmLocked (faultFound F faultAddr p v) noLock := by
  refine takes_read fun s hs => takes_bind (takes_bugOn _) fun _ => ?_
  refine takes_bind (takes_faultPerm s p v _) fun perm => takes_bind (takes_orStop _) fun x => ?_
  refine takes_bind (takes_write hs) fun _ => takes_bind (takes_withPgtblLock _ rfl) fun _ => ?_
  exact takes_bind takes_leave fun _ => takes_pure 0

theorem lockAndFind_eq {va : BitVec 64} {missing : Code VmState Int}
    {found : Nat → Vmregion → Code VmState Int} {s : VmState} (hs : held s = noLock) :
    lockAndFind va missing found s = (match findVmrForVa s.space va with
      | none => missing
      | some (p, v) => found p v) (setLock s VmLock.vmspace true) :=
  acquire_bind (congrFun hs VmLock.vmspace) _

end Locked

/-! ## 5. When the locks are given back -/

/-- **Both locks are free at the end**, if the call returns, and it is not stuck at a lock. -/
def EndsFree : Outcome VmState Unit → Prop
  | .returned _ s => ∀ i, held s i = false
  | .stopped => True
  | .wedged => False

/-- The region the call looks for is there. -/
def LockCall.Finds (s : VmState) : LockCall → Prop
  | .unmapRange va _ => findVmrForVa s.space va ≠ none
  | .transFault faultAddr => findVmrForVa s.space faultAddr ≠ none
  | _ => True

theorem endsFree_dropped {α : Type} {f : Code VmState α} {L : VmLock → Bool}
    (hf : f.Takes L noLock) {s : VmState} (hs : held s = L) :
    EndsFree ((do let _ ← f : Code VmState Unit) s) := by
  have hdone : Code.Takes L (do let _ ← f : Code VmState Unit) noLock :=
    Code.takes_bind hf fun _ => Code.takes_pure ()
  have h := hdone s hs
  revert h
  cases (do let _ ← f : Code VmState Unit) s with
  | returned a s' => exact fun h i => congrFun h i
  | stopped => exact fun _ => trivial
  | wedged => exact fun h => h

/-- A call that returns at once where it finds no region ends with the lock held there. -/
theorem endsFree_lockAndFind_iff {va : BitVec 64} {e : Int}
    {found : Nat → Vmregion → Code VmState Int} (hf : ∀ p v, (found p v).Takes vmLocked noLock)
    {s : VmState} (hs : held s = noLock) :
    EndsFree ((do let _ ← Locked.lockAndFind va (return e) found : Code VmState Unit) s) ↔
      findVmrForVa s.space va ≠ none := by
  have hlocked : held (setLock s VmLock.vmspace true) = vmLocked := by
    rw [held_setLock, hs]
    rfl
  have heq : Locked.lockAndFind va (return e) found s = _ := Locked.lockAndFind_eq hs
  cases hfind : findVmrForVa s.space va with
  | none =>
    have hrun : (do let _ ← Locked.lockAndFind va (return e) found : Code VmState Unit) s =
        .returned () (setLock s VmLock.vmspace true) := by
      rw [Code.bind_apply, heq, hfind]
      rfl
    rw [hrun]
    refine iff_of_false (fun h => ?_) (fun h => h rfl)
    have hfree := h VmLock.vmspace
    rw [hlocked] at hfree
    exact absurd hfree (by decide)
  | some x =>
  have hrun : (do let _ ← Locked.lockAndFind va (return e) found : Code VmState Unit) s =
      (do let _ ← found x.1 x.2 : Code VmState Unit) (setLock s VmLock.vmspace true) := by
    rw [Code.bind_apply, heq, hfind]
    rfl
  rw [hrun]
  exact iff_of_true (endsFree_dropped (hf x.1 x.2) hlocked) (by simp)

/-- **Both locks are free after a call from free locks** exactly when `vmspace_unmap_range` and
    `handle_trans_fault` find a region at their address. -/
theorem locks_free_iff (F : PteFormat) (s : VmState) (c : LockCall) (hs : ∀ i, held s i = false) :
    EndsFree (c.run F s) ↔ c.Finds s := by
  have hs : held s = noLock := funext hs
  cases c with
  | unmapRange va len => exact endsFree_lockAndFind_iff (Locked.takes_unmapFound va len) hs
  | transFault faultAddr => exact endsFree_lockAndFind_iff (Locked.takes_faultFound faultAddr) hs
  | mapRange va len flags pmo alloc =>
    exact iff_of_true (endsFree_dropped (Locked.takes_vmspaceMapRange va len flags pmo alloc) hs)
      trivial
  | munmapWithAddr va len =>
    exact iff_of_true (endsFree_dropped (Locked.takes_vmspaceMunmapWithAddr va len) hs) trivial
  | mmapWithPmo pmo len perm alloc =>
    exact iff_of_true (endsFree_dropped (Locked.takes_vmspaceMmapWithPmo pmo len perm alloc) hs)
      trivial
  | unmapShmVmr va =>
    exact iff_of_true (endsFree_dropped (Locked.takes_vmspaceUnmapShmVmr va) hs) trivial
  | mprotect addr length prot =>
    exact iff_of_true (endsFree_dropped (Locked.takes_sysHandleMprotect addr length prot) hs)
      trivial

/-! ## 6. The calls without the locks, as in `Vmregion.lean` -/

/-- The regions, with `vmspace_lock` put aside. -/
def VmState.regions (s : VmState) : Vmspace := { s.space with vmspaceLock := false }

/-- The regions and the objects are the same; the locks and the page table need not be. -/
structure VmState.Kept (s s' : VmState) : Prop where
  regions : s'.regions = s.regions
  pmoOf : s'.pmoOf = s.pmoOf
  mem : s'.mem = s.mem

theorem VmState.Kept.trans {s1 s2 s3 : VmState} (h : s1.Kept s2) (h' : s2.Kept s3) : s1.Kept s3 :=
  ⟨h'.regions.trans h.regions, h'.pmoOf.trans h.pmoOf, h'.mem.trans h.mem⟩

namespace Locked

open Code

variable {F : PteFormat} {s s' : VmState} {u : Unit}

theorem acquire_kept {i : VmLock} (h : acquire i s = .returned u s') : s.Kept s' := by
  rw [acquire_returned h]
  cases i <;> exact ⟨rfl, rfl, rfl⟩

theorem release_kept {i : VmLock} (h : release i s = .returned u s') : s.Kept s' := by
  rw [release_returned h]
  cases i <;> exact ⟨rfl, rfl, rfl⟩

theorem withPgtblLock_kept {f : VmState → Option PtState}
    (h : withPgtblLock f s = .returned u s') : s.Kept s' := by
  obtain ⟨_, s1, hacq, h⟩ := bind_returned h
  obtain ⟨_, s2, hbody, h⟩ := bind_returned h
  obtain ⟨_, s3, hrel, h⟩ := bind_returned h
  obtain ⟨pt, s4, hpt, hwrite⟩ := bind_returned (show (orStop (f s1) >>= _) s1 = _ from hbody)
  cases h
  cases hwrite
  have hset : s1.Kept { s1 with pt := pt } := ⟨rfl, rfl, rfl⟩
  exact ((acquire_kept hacq).trans hset).trans (release_kept hrel)

variable {α β : Type} {Q : α → VmState → Prop} {p : Nat} {v : Vmregion} {va len : BitVec 64}

variable {f : Code VmState Unit} {g : Unit → Code VmState α}

theorem ends_kept (hf : ∀ {t u}, f s = .returned u t → s.Kept t) (h : ∀ t, s.Kept t → Ends (g ()) t Q) :
    Ends (f >>= g) s Q :=
  Ends.bind (M := fun _ t => s.Kept t) (fun _ _ => hf) fun _ t => h t

theorem ends_bugOn_bind {b : Prop} [Decidable b] (h : ¬ b → Ends (g ()) s Q) : Ends (bugOn b >>= g) s Q :=
  (ends_bugOn (Q := fun _ t => ¬ b ∧ t = s) fun hb => ⟨hb, rfl⟩).bind fun _ _ ht => ht.2 ▸ h ht.1

theorem ends_set {t : VmState}
    (hf : f s = .returned () t) (h : Ends (g ()) t Q) : Ends (f >>= g) s Q :=
  fun a s' hret => h a s' ((bind_of_returned hf).symm.trans hret)

theorem ends_addVmr {perm : VmrProp} {pmo : Nat} : Ends (addVmrToVmspace p v perm pmo) s
    fun _ t => Mm.addVmrToVmspace s.regions p v = some t.regions := by
  refine ends_read ?_
  split
  · exact ends_stop
  rename_i hp
  refine ends_bugOn_bind fun hno u t h => ?_
  cases h
  exact (if_neg Bool.false_ne_true).trans ((dif_neg hp).trans (if_neg hno))

/-- The regions after `unmap_vmrs`, by induction on the regions it goes through. -/
theorem ends_unmapVmrs {n : Nat} : Ends (unmapVmrs F n va len) s
    fun _ t => Mm.unmapVmrs n s.regions va len = some t.regions := by
  induction n generalizing s va len with
  | zero => exact ends_pure rfl
  | succ n ih =>
    unfold unmapVmrs Mm.unmapVmrs
    refine ends_ite (fun hlen => ends_pure (if_pos hlen)) fun hlen => ends_read ?_
    rw [if_neg hlen, show findVmrForVa s.regions va = findVmrForVa s.space va from rfl]
    cases findVmrForVa s.space va with
    | none => exact ends_pure rfl
    | some x =>
    simp only
    refine ends_ite (fun hlt => ends_bugOn_bind fun hno => ends_set rfl ?_) fun hlt => ?_
    · rw [if_pos hlt, if_pos (not_not.mp hno)]
      exact ends_kept withPgtblLock_kept fun t ht => ends_pure (congrArg some ht.regions.symm)
    · refine ends_kept withPgtblLock_kept fun t ht => ends_set rfl ?_
      rw [if_neg hlt, ← ht.regions]
      exact ih

theorem ends_lockAndFind {missing : Code VmState Int} {found : Nat → Vmregion → Code VmState Int}
    {Q : Int → VmState → Prop}
    (hm : ∀ t, s.Kept t → findVmrForVa t.regions va = none → Ends missing t Q)
    (hf : ∀ t, s.Kept t → ∀ p v, findVmrForVa t.regions va = some (p, v) → Ends (found p v) t Q) :
    Ends (lockAndFind va missing found) s Q := by
  refine ends_kept acquire_kept fun t ht => ends_read ?_
  split
  · exact hm t ht ‹_›
  · exact hf t ht _ _ ‹_›

/-- The code leaves the regions of `x`, `vmspace_lock` aside. -/
def Leaves (f : Code VmState α) (s : VmState) (x : Option (Vmspace × β)) : Prop :=
  Ends f s fun _ t => ∃ r, x = some r ∧ { r.1 with vmspaceLock := false } = t.regions

theorem ends_same {a : α} {x : Vmspace × β} (hf : ∀ {t u}, f s = .returned u t → s.Kept t)
    (hx : { x.1 with vmspaceLock := false } = s.regions) :
    Leaves (f >>= fun _ => pure a) s (some x) :=
  ends_kept hf fun _ ht => ends_pure ⟨x, rfl, hx.trans ht.regions.symm⟩

variable {alloc : Option Nat} {perm : VmrProp} {pmo : Nat}

theorem leaves_vmspaceMapRange : Leaves (vmspaceMapRange F va len perm pmo alloc) s
    (Mm.vmspaceMapRange s.regions va len (s.mem.pmos pmo).type alloc) := by
  refine ends_read (ends_bugOn_bind fun htype => ?_)
  unfold Mm.vmspaceMapRange
  rw [if_neg htype]
  cases alloc with
  | none => exact ends_pure ⟨_, rfl, rfl⟩
  | some p =>
  refine ends_kept acquire_kept fun t1 h1 => ends_addVmr.bind fun _ t2 h2 => ?_
  simp only [← h1.regions, h2]
  refine ends_kept release_kept fun t3 h3 => ?_
  rw [← h3.regions]
  exact ends_ite (fun _ => ends_same withPgtblLock_kept rfl) fun _ => ends_pure ⟨_, rfl, rfl⟩

theorem leaves_vmspaceMmapWithPmo : Leaves (vmspaceMmapWithPmo pmo len perm alloc) s
    (Mm.vmspaceMmapWithPmo s.regions (s.mem.pmos pmo).type len alloc) := by
  cases alloc with
  | none => exact ends_pure ⟨_, rfl, rfl⟩
  | some p =>
  refine ends_kept acquire_kept fun t1 h1 => ends_read (ends_bugOn_bind fun hlen => ends_set rfl ?_)
  refine ends_bugOn_bind fun htype => ends_addVmr.bind fun _ t2 h2 => ?_
  rw [← h1.regions, ← h1.mem]
  simp only [Mm.vmspaceMmapWithPmo, if_neg hlen, if_neg htype]
  refine ends_kept release_kept fun t3 h3 => ends_pure ⟨_, congrArg (Option.map _) h2, ?_⟩
  exact h3.regions.symm

theorem leaves_vmspaceMunmapWithAddr : Leaves (vmspaceMunmapWithAddr F va len) s
    (Mm.vmspaceMunmapWithAddr s.regions va len) := by
  refine ends_kept acquire_kept fun t1 h1 => ends_read (ends_unmapVmrs.bind fun r t2 h2 => ?_)
  rw [← h1.regions]
  refine ends_kept release_kept fun t3 h3 => ends_pure ⟨_, congrArg (Option.map _) h2, ?_⟩
  exact h3.regions.symm

theorem leaves_vmspaceUnmapShmVmr : Leaves (vmspaceUnmapShmVmr F va) s
    (Mm.vmspaceUnmapShmVmr s.regions va) := by
  unfold Mm.vmspaceUnmapShmVmr
  refine ends_lockAndFind (fun t ht hv => ?_) fun t ht p v hv => ?_
  · rw [← ht.regions, hv]
    exact ends_same release_kept rfl
  refine ends_bugOn_bind fun hshm => ends_bugOn_bind fun hstart => ?_
  rw [← ht.regions, hv]
  simp only [if_neg (not_or.mpr ⟨hshm, hstart⟩)]
  refine ends_kept withPgtblLock_kept fun t1 h1 => ends_set rfl ?_
  rw [← h1.regions]
  exact ends_same release_kept rfl

theorem leaves_vmspaceUnmapRange : Leaves (vmspaceUnmapRange F va len) s
    (Mm.vmspaceUnmapRange s.regions va len) := by
  unfold Mm.vmspaceUnmapRange
  refine ends_lockAndFind (fun t ht hv => ?_) fun t ht p v hv => ?_
  · rw [← ht.regions, hv]
    exact ends_pure ⟨_, rfl, rfl⟩
  refine ends_bugOn_bind fun hwhole => ends_set rfl (ends_kept release_kept fun t1 h1 => ?_)
  rw [← ht.regions, hv]
  simp only [if_neg hwhole]
  refine ends_ite (fun _ => ends_same withPgtblLock_kept h1.regions.symm) fun _ => ?_
  exact ends_pure ⟨_, rfl, h1.regions.symm⟩

theorem leaves_handleTransFault {faultAddr : BitVec 64} :
    Leaves (handleTransFault F faultAddr) s (some (s.regions, ())) := by
  refine ends_lockAndFind (fun t ht _ => ends_pure ⟨_, rfl, ht.regions.symm⟩) fun t ht p v _ => ?_
  refine ends_read (ends_bugOn_bind fun _ => ?_)
  have hperm : Ends (faultPerm t p v (roundDownPage faultAddr - v.start)) t fun _ u => u = t :=
    ends_ite (fun _ => ends_pure rfl) fun _ => ends_bugOn_bind fun _ => ends_pure rfl
  refine hperm.bind fun perm u hu => ?_
  subst hu
  refine ends_orStop_bind fun x _ => ends_set rfl ?_
  refine ends_kept withPgtblLock_kept fun t1 h1 => ends_same release_kept ?_
  exact (h1.regions.trans ht.regions).symm

theorem leaves_sysHandleMprotect {addr length : BitVec 64} {prot : BitVec 32} :
    Leaves (sysHandleMprotect F addr length prot) s (some (s.regions, ())) := by
  refine ends_ite (fun _ => ends_pure ⟨_, rfl, rfl⟩) fun _ => ?_
  refine ends_ite (fun _ => ends_pure ⟨_, rfl, rfl⟩) fun _ => ?_
  refine ends_kept acquire_kept fun t ht => ends_read ?_
  rw [← ht.regions]
  split
  · exact ends_same release_kept rfl
  · exact ends_same release_kept rfl
  · exact ends_stop
  · refine ends_orStop_bind fun perm _ => ends_set rfl (ends_kept withPgtblLock_kept fun t1 h1 => ?_)
    exact ends_same release_kept h1.regions.symm

end Locked

/-- The call on the regions alone; a fault and `mprotect` leave them as they are. -/
def LockCall.vmCall (s : VmState) : LockCall → Option VmCall
  | .mapRange va len _ pmo alloc => some (.mapRange va len (s.mem.pmos pmo).type alloc)
  | .unmapRange va len => some (.unmapRange va len)
  | .munmapWithAddr va len => some (.munmap va len)
  | .mmapWithPmo pmo len _ alloc => some (.mmap (s.mem.pmos pmo).type len alloc)
  | .unmapShmVmr va => some (.unmapShm va)
  | .transFault _ | .mprotect _ _ _ => none

/-- One call of a run (`none` = it does not return). -/
def lockStep (F : PteFormat) (s : VmState) (c : LockCall) : Option VmState :=
  match c.run F s with
  | .returned _ s' => some s'
  | _ => none

/-- A step does to the regions what the model without locks says, `vmspace_lock` aside. -/
def Follows (t : Transition VmState LockCall) : Prop :=
  ∃ x, (t.act.vmCall t.pre).elim (some t.pre.regions) (vmStep t.pre.regions) = some x ∧
    { x with vmspaceLock := false } = t.post.regions

variable {F : PteFormat} {c : LockCall} {s s' : VmState}

theorem Locked.Leaves.dropped {α β : Type} {f : Code VmState α} {x : Option (Vmspace × β)}
    {u : Unit} (h : Leaves f s x) (hs : (do let _ ← f : Code VmState Unit) s = .returned u s') :
    ∃ y, x.map Prod.fst = some y ∧ { y with vmspaceLock := false } = s'.regions := by
  obtain ⟨a, t, hf, hp⟩ := Code.bind_returned hs
  cases hp
  obtain ⟨r, rfl, hr⟩ := h a _ hf
  exact ⟨r.1, rfl, hr⟩

theorem lockStep_follows (h : lockStep F s c = some s') : Follows ⟨s, c, s'⟩ := by
  unfold lockStep at h
  split at h
  · rename_i hrun
    cases h
    cases c with
    | mapRange va len flags pmo alloc => exact Locked.leaves_vmspaceMapRange.dropped hrun
    | unmapRange va len => exact Locked.leaves_vmspaceUnmapRange.dropped hrun
    | munmapWithAddr va len => exact Locked.leaves_vmspaceMunmapWithAddr.dropped hrun
    | mmapWithPmo pmo len perm alloc => exact Locked.leaves_vmspaceMmapWithPmo.dropped hrun
    | unmapShmVmr va => exact Locked.leaves_vmspaceUnmapShmVmr.dropped hrun
    | transFault faultAddr => exact Locked.leaves_handleTransFault.dropped hrun
    | mprotect addr length prot => exact Locked.leaves_sysHandleMprotect.dropped hrun
  · cases h

theorem lockStep_laid_iff (h : s.regions.Laid) (hs : lockStep F s c = some s') :
    s'.regions.Laid ↔ ∀ v ∈ c.vmCall s, CallFits s.regions v := by
  obtain ⟨x, hx, hx'⟩ := lockStep_follows hs
  have hlaid : s'.regions.Laid ↔ x.Laid :=
    hx' ▸ ⟨fun h => ⟨h.apart, h.fits⟩, fun h => ⟨h.apart, h.fits⟩⟩
  rw [hlaid]
  cases hv : c.vmCall s with
  | none =>
    rw [hv] at hx
    cases hx
    simp [h]
  | some v =>
    rw [hv] at hx
    simpa using laid_step_iff h v hx

/-- **Runs of the locked calls** follow the model without locks, and the layout survives exactly
    those whose calls all meet `CallFits`. -/
theorem locked_run (F : PteFormat) (s : VmState) (cs : List LockCall) :
    (∀ t ∈ trace (lockStep F) { s with space := vmspaceInit } cs, Follows t) ∧
    ((∀ t ∈ trace (lockStep F) { s with space := vmspaceInit } cs, t.post.regions.Laid) ↔
      ∀ t ∈ trace (lockStep F) { s with space := vmspaceInit } cs,
        ∀ c ∈ t.act.vmCall t.pre, CallFits t.pre.regions c) := by
  refine ⟨fun t ht => lockStep_follows (trace_step cs _ ht), ?_⟩
  exact trace_all_iff (I := fun s => s.regions.Laid) (fun _ _ _ => lockStep_laid_iff)
    (fun _ _ _ h hc hs => (lockStep_laid_iff h hs).mpr hc) cs _ laid_init

/-! ## 7. A new address space -/

/-- An address space without a region, as `vmspace_init` leaves it. -/
def bareVmState : VmState :=
  ⟨vmspaceInit, false, fun _ => 0, fun _ => 0, freshPmos 4096, ⟨fun _ _ => 0, [], []⟩, 1⟩

/-- The same with a region of one page. -/
def regionState : VmState :=
  { bareVmState with space := ⟨[(1, ⟨0x1000, 0x1000, .anonym⟩)], none, 0, 0, false, List.nodup_singleton 1⟩ }

theorem locks_free_region :
    (∃ s, (LockCall.unmapRange 0x1000 0x1000).run aarch64 regionState = .returned () s) ∧
      EndsFree ((LockCall.unmapRange 0x1000 0x1000).run aarch64 regionState) := by
  have hfound : findVmrForVa regionState.space 0x1000 ≠ none := by decide
  exact ⟨⟨_, rfl⟩, (locks_free_iff aarch64 regionState (.unmapRange 0x1000 0x1000)
    fun i => by cases i <;> rfl).mpr hfound⟩

/-- **The lock that is kept**: on a new address space a page fault, and `vmspace_unmap_range`, return
    with `vmspace_lock` held, and whoever asks for it next waits for ever. -/
theorem vmspace_lock_kept :
    (∀ i, held bareVmState i = false) ∧
    (∃ s, Locked.handleTransFault aarch64 0x1000 bareVmState = .returned (-ENOMAPPING) s ∧
      held s VmLock.vmspace = true ∧ Locked.vmspaceUnmapShmVmr aarch64 0x1000 s = .wedged) ∧
    ∃ s, Locked.vmspaceUnmapRange aarch64 0x1000 0x1000 bareVmState = .returned (-1) s ∧
      held s VmLock.vmspace = true ∧ Locked.vmspaceUnmapShmVmr aarch64 0x1000 s = .wedged :=
  ⟨fun i => by cases i <;> rfl, ⟨_, rfl, rfl, rfl⟩, ⟨_, rfl, rfl, rfl⟩⟩

end ChCore.Mm
