/-
  File: ChCore/Mm/Vmregion.lean
  Subject: The regions of an address space (`kernel/mm/vmregion.c`, `sys_handle_brk` in
    `kernel/object/memory.c`) over whole runs.

  Addresses and lengths are machine words, so `start + size` wraps as it does in the source. A
  region is known by its pointer: the heap region is reached through `heap_vmr`, which the
  unmapping calls do not clear.

  * `vmr_laid_run` -- the layout survives a run exactly when every call of it meets `CallFits`.
-/
import ChCore.Common.Errno
import ChCore.Lib.Run

namespace ChCore.Mm

open Lib Option List Prod

/-! ## 1. The source -/

/-- `pmo_type_t`. -/
inductive PmoType where
  | anonym
  | data
  | file
  | shm
  | userPager
  | device
  | forbid
  deriving DecidableEq, Repr

/-- `struct vmregion`; of its pmo only the type is read here. -/
structure Vmregion where
  start : BitVec 64
  size : BitVec 64
  pmo : PmoType
  deriving DecidableEq, Repr

/-- `struct vmspace`. A node stands in `vmr_list` once. -/
structure Vmspace where
  vmrList : List (Nat × Vmregion)
  heapVmr : Option Nat
  userCurrentHeap : BitVec 64
  userCurrentMmapAddr : BitVec 64
  /-- `vmspace_lock` is held although no call is running. -/
  vmspaceLock : Bool
  nodup : (vmrList.map fst).Nodup

def VM_PAGE_SIZE : BitVec 64 := 0x1000
def HEAP_START : BitVec 64 := 0x600000000000
def MMAP_START : BitVec 64 := 0x700000000000

/-- `ROUND_DOWN(va, PAGE_SIZE)`. -/
def roundDownPage (va : BitVec 64) : BitVec 64 := va &&& ~~~(VM_PAGE_SIZE - 1)

/-- `vmspace_init`, on memory that `obj_alloc` has cleared. -/
def vmspaceInit : Vmspace :=
  ⟨[], none, HEAP_START, MMAP_START, false, nodup_nil⟩

/-- `list_add` at the head of `vmr_list`. -/
def Vmspace.insert (s : Vmspace) (p : Nat) (v : Vmregion) (h : p ∉ s.vmrList.map fst) : Vmspace :=
  { s with
    vmrList := (p, v) :: s.vmrList
    nodup := nodup_cons.mpr ⟨h, s.nodup⟩ }

/-- `del_vmr_from_vmspace`. -/
def Vmspace.del (s : Vmspace) (p : Nat) : Vmspace :=
  { s with
    vmrList := s.vmrList.filter (fun x => x.1 ≠ p)
    nodup := s.nodup.sublist (filter_sublist.map _) }

/-- Writes to the fields `start` and `size` of the region at `p`. -/
def Vmspace.resize (s : Vmspace) (p : Nat) (start size : BitVec 64) : Vmspace :=
  { s with
    vmrList := s.vmrList.map (fun x =>
      if x.1 = p then (p, { x.2 with start := start, size := size }) else x)
    nodup := by
      have h : (s.vmrList.map (fun x =>
          if x.1 = p then (p, { x.2 with start := start, size := size }) else x)).map fst
          = s.vmrList.map fst := by
        rw [List.map_map]
        refine map_congr_left fun x _ => ?_
        by_cases hx : x.1 = p <;> simp [hx]
      rw [h]
      exact s.nodup }

/-- `check_vmr_intersect`: the new end is inclusive, the ends of the list are exclusive. -/
def checkVmrIntersect (s : Vmspace) (v : Vmregion) : Bool :=
  if v.size = 0 then false
  else s.vmrList.any fun x =>
    !(decide (x.2.start + x.2.size ≤ v.start) || decide (v.start + v.size - 1 ≤ x.2.start))

/-- `add_vmr_to_vmspace` under `vmspace_lock`, on a region `alloc_vmregion` has just returned: the
    allocator never returns one that is in use. An intersection stops the kernel. -/
def addVmrToVmspace (s : Vmspace) (p : Nat) (v : Vmregion) : Option Vmspace :=
  if s.vmspaceLock then none
  else if h : p ∈ s.vmrList.map fst then none
  else if checkVmrIntersect s v then none
  else some (s.insert p v h)

def findVmrForVa (s : Vmspace) (addr : BitVec 64) : Option (Nat × Vmregion) :=
  s.vmrList.find? fun x => decide (x.2.start ≤ addr) && decide (addr < x.2.start + x.2.size)

/-- The region `vmspace_map_range` builds. -/
def mapRegion (va len : BitVec 64) (type : PmoType) : Vmregion :=
  ⟨roundDownPage va, if len < VM_PAGE_SIZE then VM_PAGE_SIZE else len, type⟩

/-- `vmspace_map_range`; `alloc` is the answer of `alloc_vmregion`. -/
def vmspaceMapRange (s : Vmspace) (va len : BitVec 64) (type : PmoType) (alloc : Option Nat) :
    Option (Vmspace × Int) :=
  if type ≠ .data ∧ type ≠ .anonym ∧ type ≠ .device ∧ type ≠ .shm then none
  else match alloc with
    | none => some (s, -ENOMEM)
    | some p => (addVmrToVmspace s p (mapRegion va len type)).map fun s => (s, 0)

/-- `vmspace_mmap_with_pmo`: the address, or -1. -/
def vmspaceMmapWithPmo (s : Vmspace) (type : PmoType) (len : BitVec 64) (alloc : Option Nat) :
    Option (Vmspace × BitVec 64) :=
  match alloc with
  | none => some (s, -1)
  | some p =>
    if len % VM_PAGE_SIZE ≠ 0 then none
    else if type ≠ .anonym ∧ type ≠ .shm ∧ type ≠ .file then none
    else
      (addVmrToVmspace { s with userCurrentMmapAddr := s.userCurrentMmapAddr + len } p
        ⟨s.userCurrentMmapAddr, len, type⟩).map fun s' => (s', s.userCurrentMmapAddr)

/-- `init_heap_vmr`: an empty region and its pointer. -/
def initHeapVmr (s : Vmspace) (va : BitVec 64) (alloc : Option Nat) :
    Option (Vmspace × Option Nat) :=
  match alloc with
  | none => some (s, none)
  | some p => (addVmrToVmspace s p ⟨va, 0, .anonym⟩).map fun s => (s, some p)

/-- `sys_handle_brk`. `brk(0)` makes a heap region each time; any other address grows the region
    at `heap_vmr` in place, without a look at the other regions. -/
def sysHandleBrk (s : Vmspace) (addr : BitVec 64) (alloc : Option Nat) :
    Option (Vmspace × BitVec 64) :=
  if addr = 0 then
    (initHeapVmr s s.userCurrentHeap alloc).map fun r =>
      ({ r.1 with heapVmr := r.2 }, s.userCurrentHeap)
  else
    match s.heapVmr with
    | none => none
    | some p =>
      match s.vmrList.find? (fun x => x.1 = p) with
      -- the heap region has been unmapped and freed: the write reaches no region of the list
      | none => some (s, addr)
      | some (_, v) =>
        if v.start + v.size ≤ addr then
          some (s.resize p v.start (v.size + (addr - (v.start + v.size))), addr)
        else none

/-- `vmspace_unmap_range`. Where it finds no region it returns without releasing the lock. -/
def vmspaceUnmapRange (s : Vmspace) (va len : BitVec 64) : Option (Vmspace × Int) :=
  if s.vmspaceLock then none
  else match findVmrForVa s va with
    | none => some ({ s with vmspaceLock := true }, -1)
    | some (p, v) =>
      if (va ≠ v.start ∨ len ≠ v.size) ∧ len ≠ 0 then none
      else some (s.del p, 0)

/-- `unmap_vmrs`. Every call of itself follows the removal of a region, so the number of regions
    bounds the depth; with no region left it finds none and returns. -/
def unmapVmrs : Nat → Vmspace → BitVec 64 → BitVec 64 → Option Vmspace
  | 0, s, _, _ => some s
  | n + 1, s, va, len =>
    if len = 0 then some s
    else match findVmrForVa s va with
      | none => some s
      | some (p, v) =>
        if len < v.size then
          if v.pmo = .anonym then some (s.resize p (v.start + len) (v.size - len)) else none
        else unmapVmrs n (s.del p) (va + v.size) (len - v.size)

def vmspaceMunmapWithAddr (s : Vmspace) (va len : BitVec 64) : Option (Vmspace × Int) :=
  if s.vmspaceLock then none
  else (unmapVmrs s.vmrList.length s va len).map fun s => (s, 0)

def vmspaceUnmapShmVmr (s : Vmspace) (va : BitVec 64) : Option (Vmspace × Int) :=
  if s.vmspaceLock then none
  else match findVmrForVa s va with
    | none => some (s, -EINVAL)
    | some (p, v) =>
      if v.pmo ≠ .shm ∨ va ≠ v.start then none else some (s.del p, 0)

/-- The calls of a run. -/
inductive VmCall where
  | mapRange (va len : BitVec 64) (type : PmoType) (alloc : Option Nat)
  | mmap (type : PmoType) (len : BitVec 64) (alloc : Option Nat)
  | brk (addr : BitVec 64) (alloc : Option Nat)
  | unmapRange (va len : BitVec 64)
  | munmap (va len : BitVec 64)
  | unmapShm (va : BitVec 64)
  deriving DecidableEq, Repr

/-- One call (`none` = the kernel stops, or waits for the lock for ever). -/
def vmStep (s : Vmspace) : VmCall → Option Vmspace
  | .mapRange va len type alloc => (vmspaceMapRange s va len type alloc).map fst
  | .mmap type len alloc => (vmspaceMmapWithPmo s type len alloc).map fst
  | .brk addr alloc => (sysHandleBrk s addr alloc).map fst
  | .unmapRange va len => (vmspaceUnmapRange s va len).map fst
  | .munmap va len => (vmspaceMunmapWithAddr s va len).map fst
  | .unmapShm va => (vmspaceUnmapShmVmr s va).map fst

/-! ## 2. The layout -/

/-- The first byte of a region. -/
def Vmregion.lo (v : Vmregion) : Nat := v.start.toNat

/-- The byte after the last one, as a number and not as a word. -/
def Vmregion.hi (v : Vmregion) : Nat := v.start.toNat + v.size.toNat

/-- Two regions share no byte. -/
def Apart (v w : Vmregion) : Prop := v.size = 0 ∨ w.size = 0 ∨ v.hi ≤ w.lo ∨ w.hi ≤ v.lo
  deriving Decidable

/-- A region does not wrap past `2^64`. -/
def Vmregion.Fits (v : Vmregion) : Prop := v.size = 0 ∨ v.hi ≤ 2 ^ 64
  deriving Decidable

/-- **The layout of an address space**: the regions that are not empty are pairwise disjoint and
    none of them wraps. -/
structure Vmspace.Laid (s : Vmspace) : Prop where
  apart : ∀ x ∈ s.vmrList, ∀ y ∈ s.vmrList, x.1 ≠ y.1 → Apart x.2 y.2
  fits : ∀ x ∈ s.vmrList, x.2.Fits

instance (s : Vmspace) : Decidable s.Laid :=
  decidable_of_iff ((∀ x ∈ s.vmrList, ∀ y ∈ s.vmrList, x.1 ≠ y.1 → Apart x.2 y.2) ∧
      ∀ x ∈ s.vmrList, x.2.Fits)
    ⟨fun h => ⟨h.1, h.2⟩, fun h => ⟨h.apart, h.fits⟩⟩

variable {v : Vmregion} {p : Nat} {s : Vmspace} {addr va len : BitVec 64} {alloc : Option Nat}
  {r : Vmspace × Int}

theorem Apart.symm {w : Vmregion} (h : Apart v w) : Apart w v := by
  rcases h with h | h | h | h
  · exact .inr (.inl h)
  · exact .inl h
  · exact .inr (.inr (.inr h))
  · exact .inr (.inr (.inl h))

theorem Apart.mono {v' w : Vmregion} (h : Apart v w) (hlo : v.lo ≤ v'.lo) (hhi : v'.hi ≤ v.hi)
    (hne : v.size ≠ 0) : Apart v' w := by
  rcases h with h | h | h | h
  · exact absurd h hne
  · exact .inr (.inl h)
  · exact .inr (.inr (.inl (le_trans hhi h)))
  · exact .inr (.inr (.inr (le_trans h hlo)))

theorem laid_init : vmspaceInit.Laid :=
  ⟨nofun, nofun⟩

/-! ## 3. The three edits of the list -/

theorem Vmspace.region_unique (s : Vmspace) {w : Vmregion} (hv : (p, v) ∈ s.vmrList)
    (hw : (p, w) ∈ s.vmrList) : v = w :=
  congrArg snd (inj_on_of_nodup_map s.nodup hv hw rfl)

theorem Vmspace.mem_resize {a n : BitVec 64} {x : Nat × Vmregion} :
    x ∈ (s.resize p a n).vmrList ↔ (x ∈ s.vmrList ∧ x.1 ≠ p) ∨
      ∃ v, (p, v) ∈ s.vmrList ∧ x = (p, { v with start := a, size := n }) := by
  constructor
  · intro h
    obtain ⟨y, hy, rfl⟩ := mem_map.mp h
    by_cases hp : y.1 = p
    · rw [if_pos hp]
      exact .inr ⟨y.2, hp ▸ hy, rfl⟩
    · rw [if_neg hp]
      exact .inl ⟨hy, hp⟩
  · intro h
    rcases h with ⟨hx, hp⟩ | ⟨v, hv, rfl⟩
    · exact mem_map.mpr ⟨x, hx, if_neg hp⟩
    · exact mem_map.mpr ⟨(p, v), hv, if_pos rfl⟩

theorem Vmspace.Laid.del (h : s.Laid) (p : Nat) : (s.del p).Laid :=
  ⟨fun x hx y hy => h.apart x (mem_of_mem_filter hx) y (mem_of_mem_filter hy),
    fun x hx => h.fits x (mem_of_mem_filter hx)⟩

/-- **A new region** keeps the layout exactly when it fits and keeps clear of the others. -/
theorem laid_insert_iff (h : s.Laid) (hp : p ∉ s.vmrList.map fst) :
    (s.insert p v hp).Laid ↔ v.Fits ∧ ∀ x ∈ s.vmrList, Apart v x.2 := by
  have hne : ∀ x ∈ s.vmrList, p ≠ x.1 := fun x hx e => hp (e ▸ mem_map_of_mem hx)
  constructor
  · intro h'
    refine ⟨h'.fits _ mem_cons_self, fun x hx => ?_⟩
    exact h'.apart _ mem_cons_self x (mem_cons_of_mem _ hx) (hne x hx)
  rintro ⟨hfit, hap⟩
  constructor
  · intro x hx y hy hxy
    rcases mem_cons.mp hx with rfl | hx
    · rcases mem_cons.mp hy with rfl | hy
      · exact absurd rfl hxy
      · exact hap y hy
    · rcases mem_cons.mp hy with rfl | hy
      · exact (hap x hx).symm
      · exact h.apart x hx y hy hxy
  · intro x hx
    rcases mem_cons.mp hx with rfl | hx
    · exact hfit
    · exact h.fits x hx

/-- **A region that moves or grows** in place: the same, against the others. -/
theorem laid_resize_iff (h : s.Laid) (a n : BitVec 64) (hv : (p, v) ∈ s.vmrList) :
    (s.resize p a n).Laid ↔ Vmregion.Fits { v with start := a, size := n } ∧
      ∀ x ∈ s.vmrList, x.1 ≠ p → Apart { v with start := a, size := n } x.2 := by
  have hnew : (p, { v with start := a, size := n }) ∈ (s.resize p a n).vmrList :=
    Vmspace.mem_resize.mpr (.inr ⟨v, hv, rfl⟩)
  constructor
  · intro h'
    refine ⟨h'.fits _ hnew, fun x hx hp => ?_⟩
    exact h'.apart _ hnew x (Vmspace.mem_resize.mpr (.inl ⟨hx, hp⟩)) (hp.symm)
  rintro ⟨hfit, hap⟩
  constructor
  · intro x hx y hy hxy
    rcases Vmspace.mem_resize.mp hx with ⟨hx, hxp⟩ | ⟨w, hw, rfl⟩
    · rcases Vmspace.mem_resize.mp hy with ⟨hy, _⟩ | ⟨w, hw, rfl⟩
      · exact h.apart x hx y hy hxy
      · exact (hap x hx hxp).symm
    · rcases Vmspace.mem_resize.mp hy with ⟨hy, hyp⟩ | ⟨w', _, rfl⟩
      · exact hap y hy hyp
      · exact absurd rfl hxy
  · intro x hx
    rcases Vmspace.mem_resize.mp hx with ⟨hx, _⟩ | ⟨w, hw, rfl⟩
    · exact h.fits x hx
    · exact hfit

/-! ## 4. What the calls need -/

/-- What `add_vmr_to_vmspace` does not check of the region it adds: that the region ends by `2^64`,
    that its last byte is not the first byte of another region, and that it lies below a region
    whose end is `2^64` (as a word, 0). -/
def NewFits (s : Vmspace) (v : Vmregion) : Prop :=
  v.size ≠ 0 → v.hi ≤ 2 ^ 64 ∧ ∀ x ∈ s.vmrList, x.2.size ≠ 0 →
    x.2.lo + 1 ≠ v.hi ∧ (x.2.hi = 2 ^ 64 → v.hi ≤ x.2.lo)

/-- What `sys_handle_brk` does not check before it grows the heap region `v` at `p` to `addr`: that
    no other region lies in the way, and that the region does not already end at `2^64`. -/
def GrowFits (s : Vmspace) (p : Nat) (v : Vmregion) (addr : BitVec 64) : Prop :=
  (v.hi < 2 ^ 64 → addr ≠ v.start → ∀ x ∈ s.vmrList, x.1 ≠ p → x.2.size ≠ 0 →
    addr.toNat ≤ x.2.lo ∨ x.2.hi ≤ v.lo) ∧
  (v.hi = 2 ^ 64 → v.lo ≤ addr.toNat)

/-- **The condition on a call**, in the state before it. -/
def CallFits (s : Vmspace) : VmCall → Prop
  | .mapRange va len type (some _) => NewFits s (mapRegion va len type)
  | .mmap type len (some _) => NewFits s ⟨s.userCurrentMmapAddr, len, type⟩
  | .brk addr _ => addr ≠ 0 → ∀ p v, s.heapVmr = some p → (p, v) ∈ s.vmrList →
      GrowFits s p v addr
  | _ => True

/-- The check of `check_vmr_intersect` against one region, where it passes. -/
theorem apart_iff_of_check {x : Vmregion} (h0 : v.size ≠ 0) (hv : v.hi ≤ 2 ^ 64) (hx : x.Fits)
    (hchk : x.start + x.size ≤ v.start ∨ v.start + v.size - 1 ≤ x.start) :
    Apart v x ↔ (x.size ≠ 0 → x.lo + 1 ≠ v.hi ∧ (x.hi = 2 ^ 64 → v.hi ≤ x.lo)) := by
  unfold Apart
  unfold Vmregion.Fits at hx
  simp only [Vmregion.lo, Vmregion.hi] at *
  by_cases hx0 : x.size = 0
  · simp [hx0]
  · bv_omega

/-- A region that `add_vmr_to_vmspace` accepts keeps the layout exactly when it meets `NewFits`. -/
theorem laid_addVmr_iff {s' : Vmspace} (h : s.Laid) (hadd : addVmrToVmspace s p v = some s') :
    s'.Laid ↔ NewFits s v := by
  unfold addVmrToVmspace at hadd
  split at hadd
  · cases hadd
  split at hadd
  · cases hadd
  split at hadd
  · cases hadd
  rename_i hchk
  cases hadd
  rw [laid_insert_iff h]
  by_cases h0 : v.size = 0
  · simp [NewFits, h0, Vmregion.Fits, Apart]
  simp only [checkVmrIntersect, h0, if_false, List.any_eq_true, not_exists, not_and,
    Bool.not_eq_true, Bool.not_eq_false', Bool.or_eq_true, decide_eq_true_eq] at hchk
  constructor
  · rintro ⟨hfit, hap⟩ _
    have hfit := hfit.resolve_left h0
    exact ⟨hfit, fun x hx => (apart_iff_of_check h0 hfit (h.fits x hx) (hchk x hx)).mp (hap x hx)⟩
  · intro hnew
    obtain ⟨hfit, hap⟩ := hnew h0
    exact ⟨.inr hfit,
      fun x hx => (apart_iff_of_check h0 hfit (h.fits x hx) (hchk x hx)).mpr (hap x hx)⟩

/-- The heap region after `brk`, against one other region. -/
theorem apart_grow_iff {x : Vmregion} (hv : v.hi < 2 ^ 64) (hend : v.start + v.size ≤ addr) :
    Apart { v with start := v.start, size := addr - v.start } x ↔
      (addr ≠ v.start → x.size ≠ 0 → addr.toNat ≤ x.lo ∨ x.hi ≤ v.lo) := by
  unfold Apart at *
  simp only [Vmregion.lo, Vmregion.hi] at *
  by_cases hx : x.size = 0
  · simp [hx]
  by_cases ha : addr = v.start
  · simp [ha]
  · have hne : ¬ addr - v.start = 0 := by bv_omega
    bv_omega

/-- The heap region that `brk` leaves keeps the layout exactly when it meets `GrowFits`. -/
theorem laid_grow_iff (h : s.Laid) (hv : (p, v) ∈ s.vmrList) (haddr : addr ≠ 0)
    (hend : v.start + v.size ≤ addr) :
    (s.resize p v.start (v.size + (addr - (v.start + v.size)))).Laid ↔ GrowFits s p v addr := by
  have hsize : v.size + (addr - (v.start + v.size)) = addr - v.start := by bv_omega
  have hap : ∀ x ∈ s.vmrList, x.1 ≠ p → Apart v x.2 :=
    fun x hx hp => h.apart _ hv x hx (hp.symm)
  have hfit : v.Fits := h.fits _ hv
  rw [hsize, laid_resize_iff h _ _ hv]
  by_cases hlt : v.hi < 2 ^ 64
  · -- the end is an address, so the new size is the distance to `addr`
    have hnew : Vmregion.Fits { v with start := v.start, size := addr - v.start } := by
      simp only [Vmregion.Fits, Vmregion.hi] at hlt ⊢
      right
      bv_omega
    constructor
    · rintro ⟨_, hx⟩
      refine ⟨fun _ ha x hm hp => ?_, fun e => absurd e (ne_of_lt hlt)⟩
      exact (apart_grow_iff hlt hend).mp (hx x hm hp) ha
    · intro hg
      refine ⟨hnew, fun x hm hp => ?_⟩
      exact (apart_grow_iff hlt hend).mpr fun ha => hg.1 hlt ha x hm hp
  -- the region ends at `2^64`: as a word the end is 0, and `addr` is compared with 0
  have h0 : v.size ≠ 0 := by
    intro e
    simp only [Vmregion.hi, e] at hlt
    bv_omega
  have htop : v.hi = 2 ^ 64 := le_antisymm (hfit.resolve_left h0) (not_lt.mp hlt)
  constructor
  · rintro ⟨hnew, _⟩
    refine ⟨fun e => absurd e hlt, fun _ => ?_⟩
    simp only [Vmregion.Fits, Vmregion.lo, Vmregion.hi] at hnew htop ⊢
    bv_omega
  intro hg
  have hlo := hg.2 htop
  have hhi : Vmregion.hi { v with start := v.start, size := addr - v.start } ≤ v.hi := by
    simp only [Vmregion.lo, Vmregion.hi] at hlo htop ⊢
    bv_omega
  refine ⟨.inr (htop ▸ hhi), fun x hm hp => ?_⟩
  exact (hap x hm hp).mono le_rfl hhi h0

/-! ## 5. The unmapping calls -/

theorem findVmrForVa_mem {x : Nat × Vmregion} (h : findVmrForVa s va = some x) :
    x ∈ s.vmrList := mem_of_find?_eq_some h

/-- Cutting bytes off the front of a region keeps the layout. -/
theorem Vmspace.Laid.cut (h : s.Laid) (hv : (p, v) ∈ s.vmrList) (hlen : len < v.size) :
    (s.resize p (v.start + len) (v.size - len)).Laid := by
  have hfit := h.fits _ hv
  have h0 : v.size ≠ 0 := by bv_omega
  have hlo : v.lo ≤ Vmregion.lo { v with start := v.start + len, size := v.size - len } := by
    simp only [Vmregion.Fits, Vmregion.lo, Vmregion.hi, h0, false_or] at hfit ⊢
    bv_omega
  have hhi : Vmregion.hi { v with start := v.start + len, size := v.size - len } ≤ v.hi := by
    simp only [Vmregion.Fits, Vmregion.hi, h0, false_or] at hfit ⊢
    bv_omega
  refine (laid_resize_iff h _ _ hv).mpr ⟨?_, fun x hx hp => ?_⟩
  · exact .inr (le_trans hhi (hfit.resolve_left h0))
  · exact (h.apart _ hv x hx (hp.symm)).mono hlo hhi h0

/-- `unmap_vmrs` keeps the layout, however many regions it goes through. -/
theorem laid_unmapVmrs {s' : Vmspace} (n : Nat) :
    ∀ {s : Vmspace} {va len : BitVec 64}, s.Laid → unmapVmrs n s va len = some s' → s'.Laid := by
  induction n with
  | zero =>
    intro s va len h hs
    cases hs
    exact h
  | succ n ih =>
    intro s va len h hs
    unfold unmapVmrs at hs
    split at hs
    · cases hs
      exact h
    split at hs
    · cases hs
      exact h
    rename_i p v hf
    have hv := findVmrForVa_mem hf
    split at hs
    · rename_i hlen
      obtain ⟨_, hs⟩ := ite_none_right_eq_some.mp hs
      cases hs
      exact h.cut hv hlen
    · exact ih (h.del p) hs

/-- With as much depth as there are regions `unmap_vmrs` is never cut short: more changes nothing. -/
theorem unmapVmrs_depth (n : Nat) :
    ∀ {s : Vmspace} (va len : BitVec 64), s.vmrList.length ≤ n →
      unmapVmrs (n + 1) s va len = unmapVmrs n s va len := by
  induction n with
  | zero =>
    intro s va len h
    have he : s.vmrList = [] := length_eq_zero_iff.mp (Nat.le_zero.mp h)
    simp [unmapVmrs, findVmrForVa, he]
  | succ n ih =>
    intro s va len h
    rw [unmapVmrs, unmapVmrs]
    cases hf : findVmrForVa s va with
    | none => rfl
    | some x =>
      have hlt : (s.del x.1).vmrList.length < s.vmrList.length :=
        length_filter_lt_length_iff_exists.mpr ⟨x, findVmrForVa_mem hf, by simp⟩
      simp only [ih (s := s.del x.1) (va + x.2.size) (len - x.2.size) (by omega)]

/-! ## 6. Runs -/

section

variable (h : s.Laid)

include h

theorem laid_mapRange_iff {type : PmoType} (hr : vmspaceMapRange s va len type alloc = some r) :
    r.1.Laid ↔ CallFits s (.mapRange va len type alloc) := by
  unfold vmspaceMapRange at hr
  split at hr
  · cases hr
  cases alloc with
  | none =>
    cases hr
    exact iff_of_true h trivial
  | some p =>
    obtain ⟨s', hadd, rfl⟩ := map_eq_some_iff.mp hr
    exact laid_addVmr_iff h hadd

theorem laid_mmap_iff {type : PmoType} {r : Vmspace × BitVec 64}
    (hr : vmspaceMmapWithPmo s type len alloc = some r) :
    r.1.Laid ↔ CallFits s (.mmap type len alloc) := by
  cases alloc with
  | none =>
    cases hr
    exact iff_of_true h trivial
  | some p =>
  obtain ⟨_, hr⟩ := ite_none_left_eq_some.mp hr
  obtain ⟨_, hr⟩ := ite_none_left_eq_some.mp hr
  obtain ⟨s', hadd, rfl⟩ := map_eq_some_iff.mp hr
  -- the move of `user_current_mmap_addr` is not seen by the layout
  have h' : Vmspace.Laid { s with userCurrentMmapAddr := s.userCurrentMmapAddr + len } :=
    ⟨h.apart, h.fits⟩
  exact (laid_addVmr_iff h' hadd :)

/-- `init_heap_vmr` adds an empty region, which is in nobody's way. -/
theorem laid_initHeapVmr {r : Vmspace × Option Nat} (hr : initHeapVmr s va alloc = some r) :
    r.1.Laid := by
  cases alloc with
  | none =>
    cases hr
    exact h
  | some p =>
    obtain ⟨s', hadd, rfl⟩ := map_eq_some_iff.mp hr
    exact (laid_addVmr_iff h hadd).mpr fun h0 => absurd rfl h0

theorem laid_brk_iff {r : Vmspace × BitVec 64} (hr : sysHandleBrk s addr alloc = some r) :
    r.1.Laid ↔ CallFits s (.brk addr alloc) := by
  unfold sysHandleBrk at hr
  by_cases h0 : addr = 0
  · rw [if_pos h0] at hr
    obtain ⟨r', hinit, rfl⟩ := map_eq_some_iff.mp hr
    have h' := laid_initHeapVmr h hinit
    exact iff_of_true ⟨h'.apart, h'.fits⟩ fun hne => absurd h0 hne
  rw [if_neg h0] at hr
  split at hr
  · cases hr
  rename_i p hp
  split at hr
  · rename_i hf
    cases hr
    refine iff_of_true h fun _ q v hq hv => ?_
    cases hp.symm.trans hq
    exact absurd (decide_eq_true rfl) (find?_eq_none.mp hf _ hv)
  rename_i q v hf
  have hx := mem_of_find?_eq_some hf
  obtain rfl : q = p := by simpa using find?_some hf
  obtain ⟨hend, hr⟩ := ite_none_right_eq_some.mp hr
  cases hr
  rw [laid_grow_iff h hx h0 hend]
  constructor
  · intro hg _ p v hq hv
    cases hp.symm.trans hq
    rwa [s.region_unique hv hx]
  · intro hc
    exact hc h0 q v hp hx

theorem laid_unmapRange (hr : vmspaceUnmapRange s va len = some r) : r.1.Laid := by
  obtain ⟨_, hr⟩ := ite_none_left_eq_some.mp hr
  split at hr
  · cases hr
    exact ⟨h.apart, h.fits⟩
  · obtain ⟨_, hr⟩ := ite_none_left_eq_some.mp hr
    cases hr
    exact h.del _

theorem laid_unmapShm (hr : vmspaceUnmapShmVmr s va = some r) : r.1.Laid := by
  obtain ⟨_, hr⟩ := ite_none_left_eq_some.mp hr
  split at hr
  · cases hr
    exact h
  · obtain ⟨_, hr⟩ := ite_none_left_eq_some.mp hr
    cases hr
    exact h.del _

theorem laid_munmap (hr : vmspaceMunmapWithAddr s va len = some r) : r.1.Laid := by
  obtain ⟨_, hr⟩ := ite_none_left_eq_some.mp hr
  obtain ⟨s', hs, rfl⟩ := map_eq_some_iff.mp hr
  exact laid_unmapVmrs _ h hs

/-- **One call**: from a laid out space it leads to one exactly when it meets `CallFits`. -/
theorem laid_step_iff {s' : Vmspace} (c : VmCall) (hs : vmStep s c = some s') :
    s'.Laid ↔ CallFits s c := by
  cases c with
  | mapRange va len type alloc =>
    obtain ⟨r, hr, rfl⟩ := map_eq_some_iff.mp hs
    exact laid_mapRange_iff h hr
  | mmap type len alloc =>
    obtain ⟨r, hr, rfl⟩ := map_eq_some_iff.mp hs
    exact laid_mmap_iff h hr
  | brk addr alloc =>
    obtain ⟨r, hr, rfl⟩ := map_eq_some_iff.mp hs
    exact laid_brk_iff h hr
  | unmapRange va len =>
    obtain ⟨r, hr, rfl⟩ := map_eq_some_iff.mp hs
    exact iff_of_true (laid_unmapRange h hr) trivial
  | munmap va len =>
    obtain ⟨r, hr, rfl⟩ := map_eq_some_iff.mp hs
    exact iff_of_true (laid_munmap h hr) trivial
  | unmapShm va =>
    obtain ⟨r, hr, rfl⟩ := map_eq_some_iff.mp hs
    exact iff_of_true (laid_unmapShm h hr) trivial

end

/-- **The layout over whole runs**: after every call of a run the regions are disjoint and do not
    wrap, exactly when every call of the run meets `CallFits` in the state before it. -/
theorem vmr_laid_run (cs : List VmCall) :
    (∀ t ∈ trace vmStep vmspaceInit cs, t.post.Laid) ↔
      ∀ t ∈ trace vmStep vmspaceInit cs, CallFits t.pre t.act :=
  trace_all_iff (fun _ a _ h hs => laid_step_iff h a hs)
    (fun _ a _ h hc hs => (laid_step_iff h a hs).mpr hc) cs vmspaceInit laid_init

/-- Three runs that break the layout: the heap grows over a mapping; a region is mapped across the
    end of the address space; the last byte of a new region is the first byte of an old one. -/
theorem vmr_runs_not_laid :
    (∃ t ∈ trace vmStep vmspaceInit [.brk 0 (some 1), .mmap .anonym 0x1000 (some 2),
        .brk 0x700000001000 none], ¬ t.post.Laid) ∧
    (∃ t ∈ trace vmStep vmspaceInit [.mapRange (-0x1000) 0x2000 .anonym (some 1)], ¬ t.post.Laid) ∧
    ∃ t ∈ trace vmStep vmspaceInit [.mapRange 0x402000 0x1000 .anonym (some 1),
        .mapRange 0x401000 0x1001 .anonym (some 2)], ¬ t.post.Laid :=
  ⟨trace_of_exec (P := (¬ Vmspace.Laid ·)) (by decide +kernel),
    trace_of_exec (P := (¬ Vmspace.Laid ·)) (by decide +kernel),
    trace_of_exec (P := (¬ Vmspace.Laid ·)) (by decide +kernel)⟩

end ChCore.Mm
