/-
  File: ChCore/Mm/Uaccess.lean
  Subject: `copy_from_user` and `copy_to_user` on x86_64 (`kernel/arch/x86_64/mm/uaccess.c`).

  A copy is done page by page: the first byte of each page is translated, and what is behind it in
  the page is taken from behind the result.

  * **`uaccess_right_iff`** -- a copy that is carried out is right exactly when `user_buf + size`
    does not pass `2^64`.
-/
import ChCore.Mm.VmLocks

namespace ChCore.Mm

open Lib Option Nat BitVec List

/-! ## 1. The source -/

def UACCESS_KBASE : BitVec 64 := 0xFFFFFF0000000000

def PAGE_OFFSET_MASK : BitVec 64 := 0xFFF

namespace Locked

open Code

/-- The page of an anonymous object; it is allocated and mapped if it is not there yet. -/
def anonymPage (p : Nat) (perm : VmrProp) (va : BitVec 64) (index : Nat) : Code VmState Nat := do
  let s ← read
  if getPageFromPmo (s.mem.pmos p) index ≠ 0 then return getPageFromPmo (s.mem.pmos p) index
  else do
    let x ← orStop (demandPage s.mem p index)
    write { s with mem := x.2 }
    withPgtblLock fun s => mapRangeInPgtbl x8664 s.pt s.pgtbl va.toNat x.1 PMO_PAGE_SIZE perm
    return x.1

/-- The page of a shared object or a file; the kernel does not touch it first. -/
def committedPage (p index : Nat) : Code VmState Nat := do
  let s ← read
  bugOn (getPageFromPmo (s.mem.pmos p) index = 0)
  return getPageFromPmo (s.mem.pmos p) index

/-- The `switch` of `transform_vaddr`. Kernel addresses are given by the physical ones. -/
def kvaOf (x : Nat × Vmregion) (userBuf : BitVec 64) : Code VmState Nat := do
  let s ← read
  let p := s.pmoOf x.1
  let pmo := s.mem.pmos p
  let va := roundDownPage userBuf
  let offset := va - x.2.start
  let index := offset.toNat / PMO_PAGE_SIZE
  match pmo.type with
  | .data => return pmo.start + (userBuf - x.2.start).toNat
  | .anonym => do
    bugOn (pmo.size ≤ offset)
    let pa ← anonymPage p (s.perm x.1) va index
    return pa + (userBuf &&& PAGE_OFFSET_MASK).toNat
  | .shm => do
    bugOn (pmo.size ≤ offset)
    let pa ← committedPage p index
    return pa + (userBuf &&& PAGE_OFFSET_MASK).toNat
  | .file => do
    let pa ← committedPage p index
    return pa + (userBuf &&& PAGE_OFFSET_MASK).toNat
  | _ => stop

def transformVaddr (userBuf : BitVec 64) : Code VmState Nat := do
  acquire VmLock.vmspace
  let s ← read
  let x ← orStop (findVmrForVa s.space userBuf)
  let kva ← kvaOf x userBuf
  release VmLock.vmspace
  return kva

end Locked

/-- The direction of a copy, with the contents of `kernel_buf` where it is the source. -/
inductive Copy where
  | fromUser
  | toUser (kernelBuf : Nat → Byte)

open Code

/-- `memcpy` of `len` bytes between `kernel_buf + off` and `kva`, with what it has stored in
    `kernel_buf`. -/
def Copy.memcpy (off kva len : Nat) : Copy → Code VmState (List Byte)
  | .fromUser => do
    let s ← read
    return slice s.mem.bytes kva len
  | .toUser kernelBuf => do
    let s ← read
    write { s with mem := { s.mem with bytes := patch s.mem.bytes kva (slice kernelBuf off len) } }
    return []

/-- One chunk of a copy: a translation and a `memcpy`. -/
def copyChunk (c : Copy) (off : Nat) (userBuf : BitVec 64) (len : Nat) : Code VmState (List Byte) := do
  let kva ← Locked.transformVaddr userBuf
  c.memcpy off kva len

/-- The loop over whole pages, and the last page. Every round takes a page off `left`. -/
def copyPages (c : Copy) : Nat → Nat → BitVec 64 → BitVec 64 → Code VmState (List Byte)
  | 0, off, userBuf, left => copyChunk c off userBuf left.toNat
  | n + 1, off, userBuf, left =>
    if VM_PAGE_SIZE < left then do
      let page ← copyChunk c off userBuf VM_PAGE_SIZE.toNat
      let rest ← copyPages c n (off + VM_PAGE_SIZE.toNat) (userBuf + VM_PAGE_SIZE)
        (left - VM_PAGE_SIZE)
      return page ++ rest
    else copyChunk c off userBuf left.toNat

/-- A copy. The list has what is stored in `kernel_buf`, from its first byte on. -/
def copyUser (c : Copy) (userBuf size : BitVec 64) : Code VmState (List Byte) := do
  bugOn (UACCESS_KBASE ≤ userBuf ∨ UACCESS_KBASE ≤ userBuf + size)
  let startOff := userBuf &&& PAGE_OFFSET_MASK
  if size + startOff ≤ VM_PAGE_SIZE then copyChunk c 0 userBuf size.toNat
  else do
    let len := VM_PAGE_SIZE - startOff
    let first ← copyChunk c 0 userBuf len.toNat
    bugOn ((userBuf + len) % VM_PAGE_SIZE ≠ 0)
    let left := size - len
    let rest ← copyPages c (left.toNat / VM_PAGE_SIZE.toNat) len.toNat (userBuf + len) left
    return first ++ rest

def copyFromUser (userBuf size : BitVec 64) : Code VmState (List Byte) :=
  copyUser .fromUser userBuf size

def copyToUser (userBuf : BitVec 64) (kernelBuf : Nat → Byte) (size : BitVec 64) :
    Code VmState (List Byte) :=
  copyUser (.toUser kernelBuf) userBuf size

/-! ## 2. What a user address maps to -/

/-- The byte of the object that an address of a region stands for. Objects that are mapped on demand
    are mapped page by page. -/
def Vmregion.offset (v : Vmregion) (type : PmoType) (a : BitVec 64) : Nat :=
  if type = .data then (a - v.start).toNat
  else (pageIndex v a).toNat * PMO_PAGE_SIZE + a.toNat % PMO_PAGE_SIZE

variable (s : VmState) (a : BitVec 64)

/-- The object of an address, and the byte of it. -/
def VmState.place : Option (Nat × Nat) :=
  (findVmrForVa s.space a).map fun x =>
    (s.pmoOf x.1, x.2.offset (s.mem.pmos (s.pmoOf x.1)).type a)

/-- Where a byte of an object is in memory, if it is there. -/
def Pmos.address (m : Pmos) (p k : Nat) : Option Nat :=
  if (m.pmos p).type = .data then some ((m.pmos p).start + k)
  else if ¬ (m.pmos p).OnDemand ∨ getPageFromPmo (m.pmos p) (k / PMO_PAGE_SIZE) = 0 then none
  else some (getPageFromPmo (m.pmos p) (k / PMO_PAGE_SIZE) + k % PMO_PAGE_SIZE)

/-- The place in memory that a user address maps to. -/
def VmState.phys : Option Nat :=
  (s.place a).bind fun x => s.mem.address x.1 x.2

/-- **The byte that a user address maps to.** -/
def VmState.byte : Byte :=
  match s.place a with
  | none => 0
  | some (p, k) => content s.mem p k

/-- **An address is mapped**: it has a region, and as a page table maps whole pages the region goes
    down to the start of the page. Behind the end of a `PMO_DATA` object nothing is mapped. -/
structure VmState.Maps (s : VmState) (a : BitVec 64) (x : Nat × Vmregion) : Prop where
  found : findVmrForVa s.space a = some x
  page : x.2.start ≤ roundDownPage a
  data : (s.mem.pmos (s.pmoOf x.1)).type = .data →
    (a - x.2.start).toNat < (s.mem.pmos (s.pmoOf x.1)).size.toNat

/-! ## 3. What a copy is to do -/

/-- What may happen to the objects on the way: pages are allocated and committed. -/
structure Demands (s t : VmState) : Prop where
  regions : t.regions = s.regions
  pmoOf : t.pmoOf = s.pmoOf
  inv : t.mem.Inv
  fields : ∀ q, (t.mem.pmos q).type = (s.mem.pmos q).type ∧
    (t.mem.pmos q).size = (s.mem.pmos q).size ∧ (t.mem.pmos q).start = (s.mem.pmos q).start
  pages : ∀ q, (s.mem.pmos q).OnDemand → ∀ j, j < 2 ^ 64 → getPageFromPmo (s.mem.pmos q) j ≠ 0 →
    getPageFromPmo (t.mem.pmos q) j = getPageFromPmo (s.mem.pmos q) j
  free : t.mem.free ⊆ s.mem.free

/-- The memory `m` is that of `s`, with the pages cleared that have been allocated since. -/
structure Cleared (s t : VmState) (m : Nat → Byte) : Prop where
  used : ∀ x, x ∉ s.mem.free → m x = s.mem.bytes x
  new : ∀ x, x ∈ s.mem.free → x ∉ t.mem.free → m x = 0

/-- The bytes of every object are what they were. -/
def SameContent (s t : VmState) : Prop :=
  ∀ q k, (s.mem.pmos q).Has k → content t.mem q k = content s.mem q k

/-- What the direction adds: `kernel_buf` has the bytes of the user, or the user has those of
    `kernel_buf`, stored one after the other at the places the addresses map to. -/
def Copy.Bytes (userBuf : BitVec 64) (s t : VmState) (n : Nat) (bs : List Byte) : Copy → Prop
  | .fromUser => bs = (range n).map (fun i => s.byte (userBuf + BitVec.ofNat 64 i)) ∧
      Cleared s t t.mem.bytes ∧ SameContent s t
  | .toUser kernelBuf => bs = [] ∧ ∃ m place, Cleared s t m ∧
      (∀ i < n, t.phys (userBuf + BitVec.ofNat 64 i) = some (place i)) ∧
      t.mem.bytes = scatter m place kernelBuf n

/-- **`n` bytes have been copied**, one after the other, and nothing else has changed. -/
structure Copied (c : Copy) (userBuf : BitVec 64) (s t : VmState) (n : Nat) (bs : List Byte) :
    Prop where
  demands : Demands s t
  bytes : c.Bytes userBuf s t n bs

/-- **A copy that has been carried out is right**: the range is one of the user, and if it is mapped
    its bytes have been copied. -/
structure CopyRight (c : Copy) (userBuf size : BitVec 64) (s t : VmState) (bs : List Byte) :
    Prop where
  range : userBuf.toNat + size.toNat ≤ UACCESS_KBASE.toNat
  copied : (∀ i < size.toNat, ∃ x, s.Maps (userBuf + BitVec.ofNat 64 i) x) →
    Copied c userBuf s t size.toNat bs

/-! ## 4. The translation -/

section Places

variable {s t : VmState} {a : BitVec 64} {x : Nat × Vmregion}

theorem place_of_found (h : findVmrForVa s.space a = some x) :
    s.place a = some (s.pmoOf x.1, x.2.offset (s.mem.pmos (s.pmoOf x.1)).type a) := by
  rw [VmState.place, h, map_some]

theorem Demands.found (h : Demands s t) (a : BitVec 64) :
    findVmrForVa t.space a = findVmrForVa s.space a := by
  show findVmrForVa t.regions a = findVmrForVa s.regions a
  rw [h.regions]

theorem Demands.place (h : Demands s t) (a : BitVec 64) : t.place a = s.place a := by
  simp only [VmState.place, h.found, h.pmoOf, (h.fields _).1]

theorem Demands.maps (h : Demands s t) (hx : s.Maps a x) : t.Maps a x := by
  refine ⟨(h.found a).trans hx.found, hx.page, fun hdata => ?_⟩
  rw [h.pmoOf] at hdata ⊢
  rw [(h.fields _).1] at hdata
  rw [(h.fields _).2.1]
  exact hx.data hdata

theorem Demands.trans {s1 s2 s3 : VmState} (h : Demands s1 s2) (h' : Demands s2 s3) :
    Demands s1 s3 := by
  refine ⟨h'.regions.trans h.regions, h'.pmoOf.trans h.pmoOf, h'.inv, fun q => ?_,
    fun q hq j hj hne => ?_, fun _ hx => h.free (h'.free hx)⟩
  · obtain ⟨h1, h2, h3⟩ := h.fields q
    obtain ⟨h1', h2', h3'⟩ := h'.fields q
    exact ⟨h1'.trans h1, h2'.trans h2, h3'.trans h3⟩
  · have hpage := h.pages q hq j hj hne
    rw [h'.pages q ((onDemand_congr (h.fields q).1).mpr hq) j hj (hpage ▸ hne), hpage]

variable (v : Vmregion)

theorem offset_div {type : PmoType} (h : type ≠ .data) (a : BitVec 64) :
    v.offset type a / PMO_PAGE_SIZE = (pageIndex v a).toNat := by
  rw [Vmregion.offset, if_neg h, mul_comm, mul_add_div (by decide),
    div_eq_of_lt (page_lt _), add_zero]

theorem offset_mod {type : PmoType} (h : type ≠ .data) (a : BitVec 64) :
    v.offset type a % PMO_PAGE_SIZE = a.toNat % PMO_PAGE_SIZE := by
  rw [Vmregion.offset, if_neg h, mul_comm, mul_add_mod, mod_mod]

theorem offset_lt (type : PmoType) (a : BitVec 64) : v.offset type a < 2 ^ 64 := by
  by_cases h : type = .data
  · rw [Vmregion.offset, if_pos h]
    exact (a - v.start).isLt
  have hdiv := offset_div v h a
  have hindex : (pageIndex v a).toNat < 2 ^ 52 := by
    have hpage : VM_PAGE_SIZE.toNat = 4096 := by decide
    rw [pageIndex, toNat_udiv, hpage]
    omega
  have hsize : PMO_PAGE_SIZE = 4096 := rfl
  rw [hsize] at hdiv
  omega

variable {y : Nat}

variable {m : Pmos} {p k : Nat}

theorem address_cases (h : m.address p k = some y) :
    ((m.pmos p).type = .data ∧ y = (m.pmos p).start + k) ∨
      ((m.pmos p).type ≠ .data ∧ (m.pmos p).OnDemand ∧
        getPageFromPmo (m.pmos p) (k / PMO_PAGE_SIZE) ≠ 0 ∧
        y = getPageFromPmo (m.pmos p) (k / PMO_PAGE_SIZE) + k % PMO_PAGE_SIZE) := by
  unfold Pmos.address at h
  split at h
  · rename_i hdata
    cases h
    exact .inl ⟨hdata, rfl⟩
  rename_i hdata
  split at h
  · cases h
  rename_i hno
  obtain ⟨hon, hne⟩ := not_or.mp hno
  cases h
  exact .inr ⟨hdata, not_not.mp hon, hne, rfl⟩

theorem content_of_address (h : m.address p k = some y) : content m p k = m.bytes y := by
  unfold content
  rcases address_cases h with ⟨hdata, rfl⟩ | ⟨hdata, _, hne, rfl⟩
  · rw [if_pos hdata]
  · rw [if_neg hdata, if_neg hne]

theorem address_not_free (hm : m.Inv) (hk : k < 2 ^ 64)
    (hsize : (m.pmos p).type = .data → k < (m.pmos p).size.toNat) (h : m.address p k = some y) :
    y ∉ m.free := by
  rcases address_cases h with ⟨hdata, rfl⟩ | ⟨_, hon, hne, rfl⟩
  · exact hm.block p hdata k (hsize hdata)
  · have hlt : k / PMO_PAGE_SIZE < 2 ^ 64 := lt_of_le_of_lt (Nat.div_le_self _ _) hk
    exact hm.notMem_free hon hlt hne ⟨Nat.le_add_right _ _, Nat.add_lt_add_left (page_lt k) _⟩

theorem Demands.address (h : Demands s t) (hk : k < 2 ^ 64)
    (hy : s.mem.address p k = some y) : t.mem.address p k = some y := by
  obtain ⟨htype, _, hstart⟩ := h.fields p
  unfold Pmos.address
  rcases address_cases hy with ⟨hdata, rfl⟩ | ⟨hdata, hon, hne, rfl⟩
  · rw [if_pos (htype.trans hdata), hstart]
  · have hlt : k / PMO_PAGE_SIZE < 2 ^ 64 := lt_of_le_of_lt (Nat.div_le_self _ _) hk
    rw [if_neg (htype ▸ hdata), h.pages p hon _ hlt hne, if_neg]
    exact not_or.mpr ⟨not_not.mpr ((onDemand_congr htype).mpr hon), hne⟩

theorem phys_of_found (h : findVmrForVa s.space a = some x) :
    s.phys a = s.mem.address (s.pmoOf x.1) (x.2.offset (s.mem.pmos (s.pmoOf x.1)).type a) := by
  rw [VmState.phys, place_of_found h, bind_some]

theorem byte_of_found (h : findVmrForVa s.space a = some x) :
    s.byte a = content s.mem (s.pmoOf x.1) (x.2.offset (s.mem.pmos (s.pmoOf x.1)).type a) := by
  rw [VmState.byte, place_of_found h]

theorem Demands.phys (h : Demands s t) (hy : s.phys a = some y) : t.phys a = some y := by
  obtain ⟨⟨p, k⟩, hplace, haddr⟩ := bind_eq_some_iff.mp hy
  obtain ⟨x, hx, hpk⟩ := map_eq_some_iff.mp hplace
  cases hpk
  rw [VmState.phys, h.place, hplace]
  exact h.address (offset_lt _ _ _) haddr

theorem VmState.Maps.not_free (hs : s.mem.Inv) (hx : s.Maps a x) (hy : s.phys a = some y) :
    y ∉ s.mem.free := by
  rw [phys_of_found hx.found] at hy
  refine address_not_free hs (offset_lt _ _ _) (fun hdata => ?_) hy
  rw [Vmregion.offset, if_pos hdata]
  exact hx.data hdata

theorem VmState.Maps.has (hx : s.Maps a x) (hy : s.phys a = some y) :
    (s.mem.pmos (s.pmoOf x.1)).Has (x.2.offset (s.mem.pmos (s.pmoOf x.1)).type a) := by
  rw [phys_of_found hx.found] at hy
  refine ⟨offset_lt _ _ _, ?_⟩
  rcases address_cases hy with ⟨hdata, _⟩ | ⟨_, hon, _⟩
  · refine .inr ⟨hdata, ?_⟩
    rw [Vmregion.offset, if_pos hdata]
    exact hx.data hdata
  · exact .inl hon

theorem toNat_in_page {a : BitVec 64} {j : Nat} (h : a.toNat % 4096 + j < 4096) :
    (a + BitVec.ofNat 64 j).toNat = a.toNat + j := by
  rw [toNat_add, toNat_ofNat]
  omega

/-- **A page has one region**: what is found at one of its bytes is found at the others that are
    mapped. -/
theorem VmState.Maps.same_page (hs : s.space.Disjoint) {j : Nat}
    (hx : findVmrForVa s.space a = some x) {y : Nat × Vmregion}
    (hy : s.Maps (a + BitVec.ofNat 64 j) y) (hj : a.toNat % 4096 + j < 4096) : y = x := by
  obtain ⟨hmem, hhas, hhi⟩ := findVmrForVa_some hx
  obtain ⟨hmem', hhas', hhi'⟩ := findVmrForVa_some hy.found
  have hstart := le_def.mp hy.page
  rw [roundDownPage_toNat, toNat_in_page hj] at hstart
  refine hs.unique hmem' hmem (a := a) ⟨?_, ?_⟩ hhas
  · show y.2.start.toNat ≤ a.toNat
    omega
  · have hlt := hhas'.2
    rw [toNat_in_page hj] at hlt
    omega

/-- **Behind the translation of a byte** are the translations of the bytes behind it in the page. -/
theorem phys_chunk (hs : s.space.Disjoint) {j kva : Nat} (hx : findVmrForVa s.space a = some x)
    (hkva : s.phys a = some kva) {y : Nat × Vmregion} (hy : s.Maps (a + BitVec.ofNat 64 j) y)
    (hj : a.toNat % 4096 + j < 4096) : s.phys (a + BitVec.ofNat 64 j) = some (kva + j) := by
  obtain rfl := hy.same_page hs hx hj
  obtain ⟨_, hhas, _⟩ := findVmrForVa_some hx
  have hto := toNat_in_page hj
  rw [phys_of_found hx] at hkva
  rw [phys_of_found hy.found]
  rcases address_cases hkva with ⟨hdata, hk⟩ | ⟨hdata, hon, hne, hk⟩
  · have hoff : (a + BitVec.ofNat 64 j - y.2.start).toNat = (a - y.2.start).toNat + j := by
      have hle : y.2.start ≤ a := le_def.mpr hhas.1
      have hle' : y.2.start ≤ a + BitVec.ofNat 64 j := by
        rw [le_def, hto]
        exact le_add_right_of_le hhas.1
      have hlo : y.2.start.toNat ≤ a.toNat := hhas.1
      rw [toNat_sub_of_le hle', toNat_sub_of_le hle, hto]
      omega
    rw [Pmos.address, hk]
    simp only [Vmregion.offset, if_pos hdata, hoff, add_assoc]
  have hround : roundDownPage (a + BitVec.ofNat 64 j) = roundDownPage a := by
    refine eq_of_toNat_eq ?_
    rw [roundDownPage_toNat, roundDownPage_toNat, hto]
    omega
  have hindex : pageIndex y.2 (a + BitVec.ofNat 64 j) = pageIndex y.2 a := by
    rw [pageIndex, pageIndex, hround]
  have hmod : (a + BitVec.ofNat 64 j).toNat % PMO_PAGE_SIZE = a.toNat % PMO_PAGE_SIZE + j := by
    have hsize : PMO_PAGE_SIZE = 4096 := rfl
    rw [hsize, hto]
    omega
  rw [offset_div _ hdata] at hne
  rw [Pmos.address, if_neg hdata, offset_div _ hdata, offset_mod _ hdata, hindex, hmod,
    if_neg (not_or.mpr ⟨not_not.mpr hon, hne⟩), hk, offset_div _ hdata, offset_mod _ hdata,
    add_assoc]

end Places

/-- **What a translation does**: the address maps to the result, and on the way a page may have been
    committed. -/
structure Translated (s t : VmState) (a : BitVec 64) (kva : Nat) : Prop where
  demands : Demands s t
  cleared : Cleared s t t.mem.bytes
  content : SameContent s t
  phys : t.phys a = some kva

section Translation

variable {s s' t : VmState} {a : BitVec 64} {kva : Nat}

theorem Demands.of_kept (hs : s.mem.Inv) (h : s.Kept t) : Demands s t :=
  ⟨h.regions, h.pmoOf, h.mem ▸ hs, fun _ => h.mem ▸ ⟨rfl, rfl, rfl⟩, fun _ _ _ _ _ => h.mem ▸ rfl,
    fun _ hx => h.mem ▸ hx⟩

variable {pa : Nat} {x : Nat × Vmregion}

/-- A page that is demanded. -/
theorem Demands.of_demanded (hs : s.mem.Inv) {p index : Nat} (hi : index < 2 ^ 64)
    (hp : (s.mem.pmos p).OnDemand) (hreg : t.regions = s.regions) (hof : t.pmoOf = s.pmoOf)
    (hd : Demanded s.mem t.mem p index pa) :
    Demands s t ∧ Cleared s t t.mem.bytes ∧ SameContent s t := by
  refine ⟨⟨hreg, hof, hd.inv, hd.fields, fun q hq j hj hne => ?_, fun x hx => ?_⟩,
    ⟨hd.bytes, fun x hx hx' => ?_⟩, fun q k hk => hd.content hs hp hi hk⟩
  · by_cases hqj : q = p ∧ j = index
    · obtain ⟨rfl, rfl⟩ := hqj
      rw [hd.same hne]
    · exact hd.pages q hq j hj hqj
  · by_cases hzero : getPageFromPmo (s.mem.pmos p) index = 0
    · obtain ⟨page, hpage, hin⟩ := hx
      exact ⟨page, (hd.fresh hzero).1 ▸ mem_cons_of_mem _ hpage, hin⟩
    · rw [hd.same hzero] at hx
      exact hx
  by_cases hzero : getPageFromPmo (s.mem.pmos p) index = 0
  · obtain ⟨page, hpage, hin⟩ := hx
    rw [(hd.fresh hzero).1] at hpage
    rcases mem_cons.mp hpage with rfl | hpage
    · exact (hd.fresh hzero).2.2 x hin
    · exact absurd ⟨page, hpage, hin⟩ hx'
  · rw [hd.same hzero] at hx'
    exact absurd hx hx'

theorem toNat_and_mask (a : BitVec 64) : (a &&& PAGE_OFFSET_MASK).toNat = a.toNat % PMO_PAGE_SIZE := by
  have hmask : PAGE_OFFSET_MASK.toNat = 2 ^ 12 - 1 := by decide
  rw [toNat_and, hmask, and_two_pow_sub_one_eq_mod]
  rfl

theorem pageIndex_toNat (v : Vmregion) (a : BitVec 64) :
    (pageIndex v a).toNat = (roundDownPage a - v.start).toNat / PMO_PAGE_SIZE := by
  rfl

theorem phys_of_page (hx : findVmrForVa t.space a = some x)
    (hon : (t.mem.pmos (t.pmoOf x.1)).OnDemand) (hdata : (t.mem.pmos (t.pmoOf x.1)).type ≠ .data)
    (hpage : getPageFromPmo (t.mem.pmos (t.pmoOf x.1)) ((roundDownPage a - x.2.start).toNat / PMO_PAGE_SIZE) = pa)
    (hne : pa ≠ 0) : t.phys a = some (pa + (a &&& PAGE_OFFSET_MASK).toNat) := by
  rw [← pageIndex_toNat] at hpage
  rw [phys_of_found hx, Pmos.address, if_neg hdata, offset_div _ hdata, offset_mod _ hdata, hpage,
    if_neg (not_or.mpr ⟨not_not.mpr hon, hne⟩), toNat_and_mask]

theorem Translated.of_kept (hs : s.mem.Inv) (h : s.Kept t)
    (hkva : s.phys a = some kva) : Translated s t a kva := by
  have hd := Demands.of_kept hs h
  refine ⟨hd, ⟨fun _ _ => h.mem ▸ rfl, fun x hx hx' => ?_⟩, fun _ _ _ => h.mem ▸ rfl, hd.phys hkva⟩
  rw [h.mem] at hx'
  exact absurd hx hx'

theorem Translated.then_kept (h : Translated s s' a kva) (hk : s'.Kept t) : Translated s t a kva := by
  have hd := Demands.of_kept h.demands.inv hk
  refine ⟨h.demands.trans hd, ⟨fun x hx => ?_, fun x hx hx' => ?_⟩, fun q k hq => ?_, hd.phys h.phys⟩
  · rw [hk.mem]
    exact h.cleared.used x hx
  · rw [hk.mem] at hx' ⊢
    exact h.cleared.new x hx hx'
  · rw [hk.mem]
    exact h.content q k hq

theorem Translated.after_kept (hk : s.Kept s') (h : Translated s' t a kva) : Translated s t a kva := by
  have hfields := h.demands.fields
  have hpages := h.demands.pages
  have hfree := h.demands.free
  have hused := h.cleared.used
  have hnew := h.cleared.new
  have hcontent := h.content
  unfold SameContent at hcontent
  rw [hk.mem] at hfields hpages hfree hused hnew hcontent
  exact ⟨⟨h.demands.regions.trans hk.regions, h.demands.pmoOf.trans hk.pmoOf, h.demands.inv, hfields,
    hpages, hfree⟩, ⟨hused, hnew⟩, hcontent, h.phys⟩

section

variable (hs : s.mem.Inv) (hx : findVmrForVa s.space a = some x)

include hs hx

theorem anonymPage_spec {perm : VmrProp} (htype : (s.mem.pmos (s.pmoOf x.1)).type = .anonym)
    (h : Locked.anonymPage (s.pmoOf x.1) perm (roundDownPage a) ((roundDownPage a - x.2.start).toNat / PMO_PAGE_SIZE) s = .returned pa t) :
    Translated s t a (pa + (a &&& PAGE_OFFSET_MASK).toNat) := by
  have hon : (s.mem.pmos (s.pmoOf x.1)).OnDemand := .inl htype
  have hdata : (s.mem.pmos (s.pmoOf x.1)).type ≠ .data := by
    rw [htype]
    decide
  have hi : (roundDownPage a - x.2.start).toNat / PMO_PAGE_SIZE < 2 ^ 64 :=
    lt_of_le_of_lt (Nat.div_le_self _ _) (BitVec.isLt _)
  change (if getPageFromPmo (s.mem.pmos (s.pmoOf x.1)) _ ≠ 0 then _ else _ : Code VmState Nat) s = _
    at h
  split at h
  · rename_i hne
    cases h
    exact .of_kept hs ⟨rfl, rfl, rfl⟩ (phys_of_page hx hon hdata rfl hne)
  obtain ⟨y, s1, hy, h1⟩ := bind_returned h
  obtain ⟨_, s2, hwrite, h2⟩ := bind_returned h1
  obtain ⟨_, s3, hmap, h3⟩ := bind_returned h2
  obtain ⟨hdemand, rfl⟩ := orStop_returned hy
  cases hwrite
  cases h3
  have hd := demandPage_spec hs hon hi (show _ = some (y.1, y.2) from hdemand)
  obtain ⟨hdem, hclear, hcont⟩ :=
    Demands.of_demanded (t := { s with mem := y.2 }) hs hi hon rfl rfl hd
  have htype' := (hdem.fields (s.pmoOf x.1)).1
  have hphys := phys_of_page (t := { s with mem := y.2 }) hx ((onDemand_congr htype').mpr hon)
    (htype' ▸ hdata) hd.page hd.notNull
  exact Translated.then_kept ⟨hdem, hclear, hcont, hphys⟩ (Locked.withPgtblLock_kept hmap)

theorem committedPage_spec (hon : (s.mem.pmos (s.pmoOf x.1)).OnDemand)
    (hdata : (s.mem.pmos (s.pmoOf x.1)).type ≠ .data)
    (h : Locked.committedPage (s.pmoOf x.1) ((roundDownPage a - x.2.start).toNat / PMO_PAGE_SIZE) s = .returned pa t) :
    Translated s t a (pa + (a &&& PAGE_OFFSET_MASK).toNat) := by
  obtain ⟨_, s1, hbug, h1⟩ := bind_returned (show (bugOn _ >>= _) s = _ from h)
  obtain ⟨hne, rfl⟩ := bugOn_returned hbug
  cases h1
  exact .of_kept hs ⟨rfl, rfl, rfl⟩ (phys_of_page hx hon hdata rfl hne)

/-- The `switch`, type by type. -/
theorem kvaOf_spec (h : Locked.kvaOf x a s = .returned kva t) : Translated s t a kva := by
  change (match (s.mem.pmos (s.pmoOf x.1)).type with
    | .data => _
    | .anonym => _
    | .shm => _
    | .file => _
    | _ => _ : Code VmState Nat) s = _ at h
  cases htype : (s.mem.pmos (s.pmoOf x.1)).type with
  | data =>
    rw [htype] at h
    cases h
    refine .of_kept hs ⟨rfl, rfl, rfl⟩ ?_
    rw [phys_of_found hx, Pmos.address, if_pos htype, Vmregion.offset, if_pos htype]
  | anonym =>
    rw [htype] at h
    obtain ⟨_, s1, hbug, h1⟩ := bind_returned h
    obtain ⟨_, rfl⟩ := bugOn_returned hbug
    obtain ⟨pa, s2, hpage, h2⟩ := bind_returned h1
    cases h2
    exact anonymPage_spec hs hx htype hpage
  | shm =>
    rw [htype] at h
    obtain ⟨_, s1, hbug, h1⟩ := bind_returned h
    obtain ⟨_, rfl⟩ := bugOn_returned hbug
    obtain ⟨pa, s2, hpage, h2⟩ := bind_returned h1
    cases h2
    exact committedPage_spec hs hx (.inr (.inl htype)) (by rw [htype]; decide) hpage
  | file =>
    rw [htype] at h
    obtain ⟨pa, s2, hpage, h2⟩ := bind_returned h
    cases h2
    exact committedPage_spec hs hx (.inr (.inr htype)) (by rw [htype]; decide) hpage
  | userPager | device | forbid =>
    rw [htype] at h
    cases h

end

/-- **`transform_vaddr`** translates the address, if it returns. -/
theorem transformVaddr_spec (hs : s.mem.Inv) (h : Locked.transformVaddr a s = .returned kva t) :
    ∃ x, findVmrForVa s.space a = some x ∧ Translated s t a kva := by
  obtain ⟨_, s1, hacq, h1⟩ := bind_returned h
  obtain ⟨x, s2, hx, h2⟩ := bind_returned (show (orStop _ >>= _) s1 = _ from h1)
  obtain ⟨hfind, rfl⟩ := orStop_returned hx
  obtain ⟨kva', s3, hkva, h3⟩ := bind_returned h2
  obtain ⟨_, s4, hrel, h4⟩ := bind_returned h3
  cases h4
  have hkept := Locked.acquire_kept hacq
  have htr := kvaOf_spec (hkept.mem ▸ hs) hfind hkva
  have hfound : findVmrForVa s.space a = some x := by
    rw [← (Demands.of_kept hs hkept).found a]
    exact hfind
  exact ⟨x, hfound, (htr.then_kept (Locked.release_kept hrel)).after_kept hkept⟩

end Translation

/-! ## 5. One chunk -/

section Chunk

variable {s t t2 : VmState} {userBuf : BitVec 64} {n len : Nat} {bs b : List Byte}

theorem add_ofNat_add (u : BitVec 64) (n j : Nat) :
    u + BitVec.ofNat 64 n + BitVec.ofNat 64 j = u + BitVec.ofNat 64 (n + j) := by
  rw [ofNat_add, BitVec.add_assoc]

variable {t1 : VmState}

/-- The pages that a translation takes are none that has been stored to. -/
theorem Cleared.scatter {m : Nat → Byte} {place : Nat → Nat} {g : Nat → Byte}
    (hd : Demands s t) (hm : Cleared s t m) (htr : Cleared t t1 t1.mem.bytes)
    (hplace : ∀ i < n, place i ∉ t.mem.free) (hbytes : t.mem.bytes = Lib.scatter m place g n) :
    ∃ m', Cleared s t1 m' ∧ t1.mem.bytes = Lib.scatter m' place g n := by
  classical
  refine ⟨fun x => if x ∈ t.mem.free then t1.mem.bytes x else m x, ⟨fun x hx => ?_, fun x hx hx' => ?_⟩,
    funext fun x => ?_⟩
  · rw [if_neg fun h => hx (hd.free h)]
    exact hm.used x hx
  · by_cases hfree : x ∈ t.mem.free
    · rw [if_pos hfree]
      exact htr.new x hfree hx'
    · rw [if_neg hfree]
      exact hm.new x hx hfree
  · by_cases hfree : x ∈ t.mem.free
    · have hne : ∀ i < n, place i ≠ x := fun i hi e => hplace i hi (e ▸ hfree)
      rw [scatter_of_ne hne, if_pos hfree]
    · rw [htr.used x hfree, hbytes]
      exact scatter_congr (if_neg hfree).symm place g n

theorem Cleared.trans (hd : Demands s t) (h : Cleared s t t.mem.bytes)
    (h' : Cleared t t1 t1.mem.bytes) : Cleared s t1 t1.mem.bytes := by
  refine ⟨fun x hx => ?_, fun x hx hx' => ?_⟩
  · rw [h'.used x fun hfree => hx (hd.free hfree), h.used x hx]
  · by_cases hfree : x ∈ t.mem.free
    · exact h'.new x hfree hx'
    · rw [h'.used x hfree, h.new x hx hfree]

theorem Demands.has (h : Demands s t) {q k : Nat} :
    (t.mem.pmos q).Has k ↔ (s.mem.pmos q).Has k := by
  obtain ⟨htype, hsize, _⟩ := h.fields q
  unfold Pmo.Has
  rw [onDemand_congr htype, htype, hsize]

theorem SameContent.trans (hd : Demands s t) (h : SameContent s t)
    (h' : SameContent t t1) : SameContent s t1 :=
  fun q k hq => (h' q k (hd.has.mpr hq)).trans (h q k hq)

/-- The byte of a mapped address is the one it was at the start. -/
theorem byte_of_phys (hd : Demands s t) (hsame : SameContent s t) {a : BitVec 64}
    {x : Nat × Vmregion} (hx : s.Maps a x) {y : Nat} (hy : t.phys a = some y) :
    t.mem.bytes y = s.byte a := by
  have hxt := hd.maps hx
  have hhas := hxt.has hy
  rw [phys_of_found hxt.found] at hy
  rw [byte_of_found hx.found, ← content_of_address hy]
  rw [hd.pmoOf, (hd.fields _).1] at hhas ⊢
  exact hsame _ _ (hd.has.mp hhas)

/-- The state with other bytes. -/
def VmState.setBytes (s : VmState) (bytes : Nat → Byte) : VmState :=
  { s with mem := { s.mem with bytes := bytes } }

@[simp] theorem VmState.setBytes_bytes (s : VmState) (bytes : Nat → Byte) :
    (s.setBytes bytes).mem.bytes = bytes := rfl

/-- **A chunk in one page adds its bytes.** -/
theorem copied_chunk {c : Copy} (hs : s.space.Disjoint) (hc : Copied c userBuf s t n bs)
    (hmaps : ∀ i < n + len, ∃ x, s.Maps (userBuf + BitVec.ofNat 64 i) x)
    (hpage : (userBuf + BitVec.ofNat 64 n).toNat % 4096 + len ≤ 4096)
    (h : copyChunk c n (userBuf + BitVec.ofNat 64 n) len t = .returned b t2) :
    Copied c userBuf s t2 (n + len) (bs ++ b) := by
  obtain ⟨kva, t1, hkva, hcpy⟩ := bind_returned h
  obtain ⟨x, hx, htr⟩ := transformVaddr_spec hc.demands.inv hkva
  have hd := hc.demands.trans htr.demands
  have hdis : t1.space.Disjoint := by
    show t1.regions.Disjoint
    rw [hd.regions]
    exact hs
  -- the bytes of the chunk are behind each other in memory
  have hchunk : ∀ j < len, t1.phys (userBuf + BitVec.ofNat 64 (n + j)) = some (kva + j) := by
    intro j hj
    obtain ⟨y, hy⟩ := hmaps (n + j) (Nat.add_lt_add_left hj n)
    have hy := hd.maps hy
    rw [← add_ofNat_add] at hy ⊢
    exact phys_chunk hdis ((htr.demands.found _).trans hx) htr.phys hy (by omega)
  cases c with
  | fromUser =>
    obtain ⟨rfl, hclear, hsame⟩ := hc.bytes
    cases hcpy
    have hsame' := hsame.trans hc.demands htr.content
    refine ⟨hd, ?_, hclear.trans hc.demands htr.cleared, hsame'⟩
    rw [List.range_add, List.map_append, List.map_map]
    congr 1
    refine map_congr_left fun j hj => ?_
    have hj := mem_range.mp hj
    obtain ⟨y, hy⟩ := hmaps (n + j) (Nat.add_lt_add_left hj n)
    exact byte_of_phys hd hsame' hy (hchunk j hj)
  | toUser kernelBuf =>
  obtain ⟨rfl, m, place, hclear, hphys, hbytes⟩ := hc.bytes
  cases hcpy
  have hused : ∀ i < n, place i ∉ t.mem.free := by
    intro i hi
    obtain ⟨y, hy⟩ := hmaps i (Nat.lt_add_right len hi)
    exact (hc.demands.maps hy).not_free hc.demands.inv (hphys i hi)
  obtain ⟨m', hclear', hbytes'⟩ := Cleared.scatter hc.demands hclear htr.cleared hused hbytes
  obtain ⟨place', hold, hnew, hstored⟩ := scatter_extend m' place kernelBuf n len kva
  refine ⟨{ hd with inv := inv_bytes hd.inv _ }, rfl, m', place', ⟨hclear'.used, hclear'.new⟩, fun i hi => ?_, ?_⟩
  · by_cases hin : i < n
    · rw [hold i hin]
      exact htr.demands.phys (hphys i hin)
    obtain ⟨k, rfl⟩ := Nat.exists_eq_add_of_le (not_lt.mp hin)
    have hk : k < len := Nat.lt_of_add_lt_add_left hi
    rw [hnew k hk]
    exact hchunk k hk
  · rw [hstored, ← hbytes']

/-- **The loop over the pages and the last page** add the rest. -/
theorem copyPages_copied {c : Copy} {fuel : Nat} {left : BitVec 64} (hs : s.space.Disjoint)
    (hc : Copied c userBuf s t n bs) (hfuel : left.toNat / 4096 ≤ fuel)
    (hmaps : ∀ i < n + left.toNat, ∃ x, s.Maps (userBuf + BitVec.ofNat 64 i) x)
    (hpage : (userBuf + BitVec.ofNat 64 n).toNat % 4096 = 0)
    (h : copyPages c fuel n (userBuf + BitVec.ofNat 64 n) left t = .returned b t2) :
    Copied c userBuf s t2 (n + left.toNat) (bs ++ b) := by
  have hsize : VM_PAGE_SIZE.toNat = 4096 := by decide
  induction fuel generalizing n t bs b left with
  | zero =>
    exact copied_chunk hs hc hmaps (by omega) h
  | succ fuel ih =>
    unfold copyPages at h
    split at h
    · rename_i hlt
      have hlt := lt_def.mp hlt
      rw [hsize] at hlt h
      have hsub : (left - VM_PAGE_SIZE).toNat = left.toNat - 4096 := by
        rw [toNat_sub_of_le (le_def.mpr (by omega)), hsize]
      obtain ⟨page, t1, hone, h1⟩ := bind_returned h
      obtain ⟨rest, t3, hrest, h3⟩ := bind_returned h1
      cases h3
      have hpg : VM_PAGE_SIZE = BitVec.ofNat 64 4096 := rfl
      have hfirst := copied_chunk hs hc (fun i hi => hmaps i (by omega)) (by omega) hone
      have hnext : (userBuf + BitVec.ofNat 64 (n + 4096)).toNat % 4096 = 0 := by
        rw [← add_ofNat_add, toNat_add, toNat_ofNat]
        omega
      rw [hpg, add_ofNat_add, ← hpg] at hrest
      have hall := ih hfirst (by omega) (fun i hi => hmaps i (by omega)) hnext hrest
      rw [hsub] at hall
      have hn : n + 4096 + (left.toNat - 4096) = n + left.toNat := by omega
      rw [hn, List.append_assoc] at hall
      exact hall
    · rename_i hle
      have hle := le_def.mp (BitVec.not_lt.mp hle)
      exact copied_chunk hs hc hmaps (by omega) h

end Chunk

/-! ## 6. The whole copy -/

section Whole

variable {c : Copy} {userBuf size : BitVec 64} {s t : VmState} {bs : List Byte}

theorem Copied.start (hs : s.mem.Inv) : Copied c userBuf s s 0 [] := by
  have hclear : Cleared s s s.mem.bytes := ⟨fun _ _ => rfl, fun _ hx hx' => absurd hx hx'⟩
  refine ⟨.of_kept hs ⟨rfl, rfl, rfl⟩, ?_⟩
  cases c with
  | fromUser => exact ⟨rfl, hclear, fun _ _ _ => rfl⟩
  | toUser kernelBuf => exact ⟨rfl, s.mem.bytes, id, hclear, fun i hi => absurd hi (Nat.not_lt_zero i), rfl⟩

/-- **A mapped range below `2^64` is copied.** -/
theorem copyUser_copied (hs : s.space.Disjoint) (hinv : s.mem.Inv)
    (hwrap : userBuf.toNat + size.toNat < 2 ^ 64)
    (hmaps : ∀ i < size.toNat, ∃ x, s.Maps (userBuf + BitVec.ofNat 64 i) x)
    (h : copyUser c userBuf size s = .returned bs t) : Copied c userBuf s t size.toNat bs := by
  have hpage : VM_PAGE_SIZE.toNat = 4096 := by decide
  have hoff : (userBuf &&& PAGE_OFFSET_MASK).toNat = userBuf.toNat % 4096 := toNat_and_mask userBuf
  have hsum : (size + (userBuf &&& PAGE_OFFSET_MASK)).toNat = size.toNat + userBuf.toNat % 4096 := by
    rw [toNat_add, hoff]
    omega
  have hzero : userBuf + BitVec.ofNat 64 0 = userBuf := BitVec.add_zero userBuf
  obtain ⟨_, s1, hbug, h1⟩ := bind_returned h
  obtain ⟨_, rfl⟩ := bugOn_returned hbug
  simp only at h1
  split at h1
  · rename_i hone
    rw [le_def, hsum, hpage] at hone
    rw [← hzero] at h1
    have hall := copied_chunk hs (.start hinv) (by rw [zero_add]; exact hmaps)
      (by rw [hzero]; omega) h1
    rw [zero_add] at hall
    exact hall
  rename_i hmore
  rw [le_def, hsum, hpage] at hmore
  have hlen : (VM_PAGE_SIZE - (userBuf &&& PAGE_OFFSET_MASK)).toNat
      = 4096 - userBuf.toNat % 4096 := by
    rw [toNat_sub_of_le (le_def.mpr (by omega)), hpage, hoff]
  generalize VM_PAGE_SIZE - (userBuf &&& PAGE_OFFSET_MASK) = len at h1 hlen
  have hleft : (size - len).toNat = size.toNat - len.toNat :=
    toNat_sub_of_le (le_def.mpr (by omega))
  have hword : userBuf + len = userBuf + BitVec.ofNat 64 len.toNat := by
    rw [ofNat_toNat, setWidth_eq]
  obtain ⟨first, s2, hfirst, h2⟩ := bind_returned h1
  obtain ⟨_, s3, hbug', h3⟩ := bind_returned h2
  obtain ⟨_, rfl⟩ := bugOn_returned hbug'
  obtain ⟨rest, s4, hrest, h4⟩ := bind_returned h3
  cases h4
  rw [← hzero] at hfirst
  have hc := copied_chunk hs (.start hinv) (fun i hi => hmaps i (by omega))
    (by rw [hzero]; omega) hfirst
  rw [zero_add, nil_append] at hc
  rw [hword] at hrest
  have hnext : (userBuf + BitVec.ofNat 64 len.toNat).toNat % 4096 = 0 := by
    rw [← hword, toNat_add, hlen]
    omega
  have hall := copyPages_copied hs hc (by rw [hpage])
    (fun i hi => hmaps i (by omega)) hnext hrest
  have hn : len.toNat + (size - len).toNat = size.toNat := by omega
  rw [hn] at hall
  exact hall

/-- **A copy that is carried out is right exactly when `user_buf + size` does not pass `2^64`.** -/
theorem uaccess_right_iff (hs : s.space.Disjoint) (hinv : s.mem.Inv)
    (h : copyUser c userBuf size s = .returned bs t) :
    CopyRight c userBuf size s t bs ↔ userBuf.toNat + size.toNat < 2 ^ 64 := by
  constructor
  · intro hright
    have hrange := hright.range
    omega
  intro hwrap
  refine ⟨?_, fun hmaps => copyUser_copied hs hinv hwrap hmaps h⟩
  obtain ⟨_, s₁, hbug, _⟩ := bind_returned h
  have hcheck := (not_or.mp (bugOn_returned hbug).1).2
  rw [BitVec.not_le, lt_def, toNat_add, mod_eq_of_lt hwrap] at hcheck
  exact le_of_lt hcheck

end Whole

/-! ## 7. A page of data -/

/-- One region over an object at `0x5000`. -/
def dataRegion (size : BitVec 64) : VmState where
  space := ⟨[(1, ⟨0x1000, size, .data⟩)], none, 0, 0, false, by simp⟩
  pgtblLock := false
  perm _ := 0
  pmoOf _ := 0
  mem := ⟨fun _ => 0, fun _ => ⟨.data, size, 0x5000, Common.initRadix (fun _ _ => 0) 1⟩, [], []⟩
  pt := ⟨fun _ _ => 0, [], []⟩
  pgtbl := 1

theorem dataRegion_disjoint (size : BitVec 64) : (dataRegion size).space.Disjoint := by
  simp [Vmspace.Disjoint, dataRegion]

theorem dataRegion_inv (size : BitVec 64) : (dataRegion size).mem.Inv := by
  have hno : ∀ p, ¬ ((dataRegion size).mem.pmos p).OnDemand :=
    fun _ => (by decide : ¬ (PmoType.data = .anonym ∨ PmoType.data = .shm ∨ PmoType.data = .file))
  refine ⟨fun p hp => absurd hp (hno p), fun p hp => absurd hp (hno p),
    fun p _ hp => absurd hp (hno p), nodup_nil, fun _ hpa => absurd hpa not_mem_nil,
    fun _ _ _ _ hfree => ?_⟩
  obtain ⟨_, hpa, _⟩ := hfree
  exact absurd hpa not_mem_nil

/-- Eight bytes over the boundary of two pages. -/
theorem uaccess_right_pages :
    ∃ bs t, copyUser .fromUser 0x1ffc 8 (dataRegion 0x2000) = .returned bs t ∧
      CopyRight .fromUser 0x1ffc 8 (dataRegion 0x2000) t bs :=
  ⟨_, _, rfl, (uaccess_right_iff (dataRegion_disjoint _) (dataRegion_inv _) rfl).mpr (by decide)⟩

/-- A region of one page. -/
abbrev dataPage : VmState := dataRegion 0x1000

theorem patch_const {n i : Nat} (v : Byte) (h : 0x5800 ≤ i) (hi : i < 0x5800 + n) :
    patch (fun _ => 0) 0x5800 (slice (fun _ => v) 0 n) i = v := by
  have hlen : i < 0x5800 + (slice (fun _ => v) 0 n).length := by
    rw [length_slice]
    exact hi
  rw [patch_inside h hlen v]
  simp [slice]

/-- **The sum that wraps**: with `user_buf = 0x1800` and `size = 2^64 - 0x800` the check sees `0x1000`
    and the test for one page sees 0. Both copies return; the one stores `2^64 - 0x800` bytes in
    `kernel_buf`, the other stores behind the end of the object. -/
theorem uaccess_wraps :
    (∃ bs t, copyFromUser 0x1800 0xFFFFFFFFFFFFF800 dataPage = .returned bs t ∧
      bs.length = 0xFFFFFFFFFFFFF800 ∧
      ¬ CopyRight .fromUser 0x1800 0xFFFFFFFFFFFFF800 dataPage t bs) ∧
    ∃ bs t, copyToUser 0x1800 (fun _ => 7) 0xFFFFFFFFFFFFF800 dataPage = .returned bs t ∧
      t.mem.bytes 0x6000 = 7 ∧
      ¬ CopyRight (.toUser fun _ => 7) 0x1800 0xFFFFFFFFFFFFF800 dataPage t bs := by
  have hpast : ¬ (0x1800 : BitVec 64).toNat + (0xFFFFFFFFFFFFF800 : BitVec 64).toNat
      ≤ UACCESS_KBASE.toNat := by decide
  refine ⟨⟨slice (fun _ => 0) 0x5800 0xFFFFFFFFFFFFF800, _, rfl, length_slice _ _ _,
    fun h => hpast h.range⟩, [], dataPage.setBytes
      (patch (fun _ => 0) 0x5800 (slice (fun _ => 7) 0 0xFFFFFFFFFFFFF800)), rfl, ?_,
    fun h => hpast h.range⟩
  rw [VmState.setBytes_bytes]
  exact patch_const 7 (by decide) (by decide)

end ChCore.Mm
