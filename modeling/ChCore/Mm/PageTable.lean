/-
  File: ChCore/Mm/PageTable.lean
  Subject: The page tables (`kernel/arch/aarch64/mm/page_table.c`, `kernel/arch/x86_64/mm/
    page_table.c`): the two formats of an entry, the walk, and the three range loops.

  The two files differ in the format of an entry only, so one model has the format as a parameter
  (`PteFormat`); `aarch64` and `x8664` are the two of the source. A page table page is known by the
  number of its frame, which is what an entry holds of it.

  * `PtInv` -- what holds of the tables of an address space; `descendAlloc_spec` -- what the walk
    that fills in missing tables does to them.
-/
import ChCore.Lib.Radix
import ChCore.Lib.Words

namespace ChCore.Mm

open Lib Option

/-! ## 1. Entries -/

/-- `pte_t`. -/
abbrev Pte := BitVec 64

/-- The number of a physical page, as the 36 bits of an entry hold it. -/
abbrev Frame := BitVec 36

/-- `vmr_prop_t`. -/
abbrev VmrProp := BitVec 64

def VMR_READ : VmrProp := 1
def VMR_WRITE : VmrProp := 2
def VMR_EXEC : VmrProp := 4
def VMR_DEVICE : VmrProp := 8

/-- `flags & prop`. -/
def VmrProp.has (flags prop : VmrProp) : Bool := flags &&& prop != 0

def PT_PAGE_SIZE : Nat := 4096
def PTP_ENTRIES : Nat := 512

/-- `table.next_table_addr`, which has the place of `pfn` in an entry of the last level. -/
def nextTableAddr (e : Pte) : Frame := getField 12 36 e

/-- The frame whose kernel address is `NULL`: `KBASE` is `2^64 - 2^40`. -/
def NULL_PTP : Frame := 0x10000000

/-- **The format of an entry**, with what the walks rely on. -/
structure PteFormat where
  /-- The entry is valid (aarch64) or present (x86_64). -/
  present : Pte → Bool
  /-- `get_next_ptp` answers `BLOCK_PTP` for an entry of this level. -/
  isBlock : Nat → Pte → Bool
  /-- The entry for a new page table page. -/
  tablePte : Frame → Pte
  /-- The entry `map_range_in_pgtbl` writes for a page. -/
  pagePte : Frame → VmrProp → Pte
  setPteFlags : Pte → VmrProp → Pte
  /-- `virt_to_phys` accepts the kernel address of the frame. -/
  directMap : Frame → Bool
  /-- The range loops start with `BUG_ON(va % PAGE_SIZE)`. -/
  checksVa : Bool
  present_zero : present 0 = false
  present_table : ∀ f, present (tablePte f) = true
  isBlock_table : ∀ level f, level < 3 → isBlock level (tablePte f) = false
  next_table : ∀ f, nextTableAddr (tablePte f) = f
  present_page : ∀ f flags, present (pagePte f flags) = true
  next_page : ∀ f flags, nextTableAddr (pagePte f flags) = f
  present_flags : ∀ e flags, present (setPteFlags e flags) = present e
  next_flags : ∀ e flags, nextTableAddr (setPteFlags e flags) = nextTableAddr e
  flags_flags : ∀ e flags, setPteFlags (setPteFlags e flags) flags = setPteFlags e flags

/-! ### aarch64 -/

def INNER_SHAREABLE : BitVec 2 := 3
def NORMAL_MEMORY : BitVec 3 := 4
def DEVICE_MEMORY : BitVec 3 := 0
def AP_HIGH_RW_EL0_RW : BitVec 2 := 1
def AP_HIGH_RO_EL0_RO : BitVec 2 := 3

/-- `l3_page.AP`. -/
def pteAP (e : Pte) : BitVec 2 := getField 6 2 e
/-- `l3_page.UXN`. -/
def pteUXN (e : Pte) : BitVec 1 := getField 54 1 e
/-- `l3_page.attr_index`. -/
def pteAttr (e : Pte) : BitVec 3 := getField 2 3 e

/-- The values `set_pte_flags` gives to these three fields. -/
def flagsAP (flags : VmrProp) : BitVec 2 :=
  if flags.has VMR_WRITE then AP_HIGH_RW_EL0_RW else AP_HIGH_RO_EL0_RO
def flagsUXN (flags : VmrProp) : BitVec 1 := if flags.has VMR_EXEC then 0 else 1
def flagsAttr (flags : VmrProp) : BitVec 3 :=
  if flags.has VMR_DEVICE then DEVICE_MEMORY else NORMAL_MEMORY

/-- `set_pte_flags`: AP, UXN, PXN, AF, SH and `attr_index`. -/
def aarch64SetPteFlags (e : Pte) (flags : VmrProp) : Pte :=
  setField 2 (flagsAttr flags) <| setField 8 INNER_SHAREABLE <| setField 10 (1 : BitVec 1) <|
    setField 53 (1 : BitVec 1) <| setField 54 (flagsUXN flags) <| setField 6 (flagsAP flags) e

/-- `is_valid` and `is_table` (or `is_page`) set in an empty entry, with a frame. -/
def aarch64Entry (f : Frame) : Pte :=
  setField 12 f <| setField 1 (1 : BitVec 1) <| setField 0 (1 : BitVec 1) 0

section
variable (e : Pte) (flags : VmrProp)

theorem aarch64Flags_fields :
    pteAP (aarch64SetPteFlags e flags) = flagsAP flags ∧
    pteUXN (aarch64SetPteFlags e flags) = flagsUXN flags ∧
    pteAttr (aarch64SetPteFlags e flags) = flagsAttr flags := by
  refine ⟨?_, ?_, ?_⟩ <;>
    simp [pteAP, pteUXN, pteAttr, aarch64SetPteFlags, getField_set_same,
      getField_set_disjoint]

theorem aarch64Flags_valid : getField 0 1 (aarch64SetPteFlags e flags) = getField 0 1 e := by
  simp [aarch64SetPteFlags, getField_set_disjoint]

theorem aarch64Flags_next : nextTableAddr (aarch64SetPteFlags e flags) = nextTableAddr e := by
  simp [nextTableAddr, aarch64SetPteFlags, getField_set_disjoint]

/-- Each of the six fields holds its value already. -/
theorem aarch64Flags_flags :
    aarch64SetPteFlags (aarch64SetPteFlags e flags) flags = aarch64SetPteFlags e flags := by
  generalize hy : aarch64SetPteFlags e flags = y
  obtain ⟨hap, huxn, hattr⟩ := hy ▸ aarch64Flags_fields e flags
  have hpxn : getField 53 1 y = 1 := by
    simp [← hy, aarch64SetPteFlags, getField_set_same, getField_set_disjoint]
  have haf : getField 10 1 y = 1 := by
    simp [← hy, aarch64SetPteFlags, getField_set_same, getField_set_disjoint]
  have hsh : getField 8 2 y = INNER_SHAREABLE := by
    simp [← hy, aarch64SetPteFlags, getField_set_same, getField_set_disjoint]
  unfold aarch64SetPteFlags
  rw [setField_of_getField hap, setField_of_getField huxn, setField_of_getField hpxn,
    setField_of_getField haf, setField_of_getField hsh, setField_of_getField hattr]

end

theorem aarch64Entry_valid (f : Frame) : getField 0 1 (aarch64Entry f) = 1 := by
  simp [aarch64Entry, getField_set_same, getField_set_disjoint]

theorem aarch64Entry_table (f : Frame) : getField 1 1 (aarch64Entry f) = 1 := by
  simp [aarch64Entry, getField_set_same, getField_set_disjoint]

theorem aarch64Entry_next (f : Frame) : nextTableAddr (aarch64Entry f) = f := by
  simp [nextTableAddr, aarch64Entry, getField_set_same]

/-- **The format of aarch64**; its `virt_to_phys` is a subtraction and accepts every address. -/
def aarch64 : PteFormat where
  present e := getField 0 1 e == 1
  isBlock _ e := getField 1 1 e == 0
  tablePte f := aarch64Entry f
  pagePte f flags := aarch64SetPteFlags (aarch64Entry f) flags
  setPteFlags := aarch64SetPteFlags
  directMap _ := true
  checksVa := false
  present_zero := by decide
  present_table f := by rw [aarch64Entry_valid]; rfl
  isBlock_table _ f _ := by rw [aarch64Entry_table]; rfl
  next_table := aarch64Entry_next
  present_page f flags := by rw [aarch64Flags_valid, aarch64Entry_valid]; rfl
  next_page f flags := by rw [aarch64Flags_next, aarch64Entry_next]
  present_flags e flags := by rw [aarch64Flags_valid]
  next_flags := aarch64Flags_next
  flags_flags := aarch64Flags_flags

/-! ### x86_64 -/

def PAGE_RW : Pte := 1 <<< 1
def PAGE_USER : Pte := 1 <<< 2
def PAGE_NX : Pte := 1 <<< 63

/-- `set_pte_flags`: the memory type is left as it is. -/
def x8664SetPteFlags (e : Pte) (flags : VmrProp) : Pte :=
  let e := e ||| PAGE_USER
  let e := if flags.has VMR_WRITE then e ||| PAGE_RW else e &&& ~~~PAGE_RW
  if flags.has VMR_EXEC then e &&& ~~~PAGE_NX else e ||| PAGE_NX

/-- The entry of a new page table page: present, user and writeable. -/
def x8664Table (f : Frame) : Pte :=
  setField 12 f <| setField 1 (1 : BitVec 1) <| setField 2 (1 : BitVec 1) <|
    setField 0 (1 : BitVec 1) 0

/-- `present` and `pfn` set in an empty entry. -/
def x8664Page (f : Frame) : Pte := setField 12 f <| setField 0 (1 : BitVec 1) 0

theorem getLsbD_x8664Flags (e : Pte) (flags : VmrProp) {i : Nat} (hi : i < 64) :
    (x8664SetPteFlags e flags).getLsbD i =
      if i = 63 then !flags.has VMR_EXEC
      else if i = 2 then true
      else if i = 1 then flags.has VMR_WRITE
      else e.getLsbD i := by
  have hrw : PAGE_RW.getLsbD i = decide (i = 1) := getLsbD_one_shiftLeft (by decide) i
  have hus : PAGE_USER.getLsbD i = decide (i = 2) := getLsbD_one_shiftLeft (by decide) i
  have hnx : PAGE_NX.getLsbD i = decide (i = 63) := getLsbD_one_shiftLeft (by decide) i
  unfold x8664SetPteFlags
  cases flags.has VMR_WRITE <;> cases flags.has VMR_EXEC <;> grind

theorem x8664Flags_field (e : Pte) (flags : VmrProp) {lo k : Nat} (hk : lo + k ≤ 63)
    (hlo : lo + k ≤ 1 ∨ 2 < lo) :
    getField lo k (x8664SetPteFlags e flags) = getField lo k e := by
  apply BitVec.eq_of_getLsbD_eq
  intro i hi
  rw [getLsbD_getField, getLsbD_getField, getLsbD_x8664Flags e flags (by omega),
    if_neg (by omega), if_neg (by omega), if_neg (by omega)]

theorem x8664Flags_flags (e : Pte) (flags : VmrProp) :
    x8664SetPteFlags (x8664SetPteFlags e flags) flags = x8664SetPteFlags e flags := by
  apply BitVec.eq_of_getLsbD_eq
  intro i hi
  simp only [getLsbD_x8664Flags _ flags hi]
  split_ifs <;> rfl

/-- `KCODE - KBASE`: from there on `virt_to_phys` stops the kernel. -/
def DIRECT_MAP_END : Nat := 0xFFFFFFFFC0000000 - 0xFFFFFF0000000000

/-- **The format of x86_64.** -/
def x8664 : PteFormat where
  present e := getField 0 1 e == 1
  isBlock level e := level == 3 || getField 7 1 e == 1
  tablePte := x8664Table
  pagePte f flags := x8664SetPteFlags (x8664Page f) flags
  setPteFlags := x8664SetPteFlags
  directMap f := f.toNat * PT_PAGE_SIZE < DIRECT_MAP_END
  checksVa := true
  present_zero := by decide
  present_table f := by
    simp [x8664Table, getField_set_same, getField_set_disjoint]
  isBlock_table level f hlevel := by
    have h : getField 7 1 (x8664Table f) = getField 7 1 (0 : Pte) := by
      simp [x8664Table, getField_set_disjoint]
    rw [h, beq_false_of_ne (ne_of_lt hlevel)]
    decide
  next_table f := by simp [nextTableAddr, x8664Table, getField_set_same]
  present_page f flags := by
    rw [x8664Flags_field _ _ (by omega) (by omega)]
    simp [x8664Page, getField_set_same, getField_set_disjoint]
  next_page f flags := by
    unfold nextTableAddr
    rw [x8664Flags_field _ _ (by omega) (by omega)]
    simp [x8664Page, getField_set_same]
  present_flags e flags := by rw [x8664Flags_field _ _ (by omega) (by omega)]
  next_flags e flags := x8664Flags_field _ _ (by omega) (by omega)
  flags_flags := x8664Flags_flags

/-! ## 2. The functions of the source -/

/-- The page table pages of an address space and where new ones come from. -/
structure PtState where
  mem : Tables Frame Pte
  /-- What `get_pages(0)` returns, call by call; after that it returns `NULL`. -/
  pages : List Frame
  /-- The stores into entries, the newest first. No function reads it. -/
  log : List (Frame × Nat × Pte)

def PtState.store (s : PtState) (f : Frame) (i : Nat) (e : Pte) : PtState :=
  { s with mem := s.mem.set f i e, log := (f, i, e) :: s.log }

/-- The stores that have led from `s` to `s'`, the first one first. -/
def newStores (s s' : PtState) : List (Frame × Nat × Pte) :=
  (s'.log.take (s'.log.length - s.log.length)).reverse

theorem newStores_of_log {s s' : PtState} {new : List (Frame × Nat × Pte)}
    (h : s'.log = new ++ s.log) : newStores s s' = new.reverse := by
  unfold newStores
  rw [h, List.length_append, Nat.add_sub_cancel, List.take_left]

/-- `GET_L0_INDEX` to `GET_L3_INDEX`. They read the bits 12 to 47 of an address, so that the wrap
    of an address at `2^64` is not seen by them; the loops below do not reduce theirs. -/
def ptIndex (level va : Nat) : Nat := va / 2 ^ (9 * (3 - level) + 12) % PTP_ENTRIES

variable (F : PteFormat)

/-- `get_next_ptp` without `alloc`: the next page, the entry and whether it is `BLOCK_PTP`
    (`none` = `-ENOMAPPING`). -/
def getNextPtp (m : Tables Frame Pte) (cur : Frame) (level va : Nat) :
    Option (Frame × Pte × Bool) :=
  if cur = NULL_PTP then none
  else
    let e := m cur (ptIndex level va)
    if F.present e then some (nextTableAddr e, e, F.isBlock level e) else none

/-- `get_next_ptp` with `alloc` (outer `none` = the kernel stops). -/
def getNextPtpAlloc (s : PtState) (cur : Frame) (level va : Nat) :
    Option (PtState × Option (Frame × Pte × Bool)) :=
  if cur = NULL_PTP then some (s, none)
  else if F.present (s.mem cur (ptIndex level va)) then
    some (s, getNextPtp F s.mem cur level va)
  else
    match s.pages with
    | [] => none
    | g :: rest =>
      if g = NULL_PTP ∨ F.directMap g = false then none
      else
        -- memset, then the store of the entry
        let s := { s with mem := s.mem.fill g 0, pages := rest }
        let s := s.store cur (ptIndex level va) (F.tablePte g)
        some (s, getNextPtp F s.mem cur level va)

inductive QueryResult where
  | noMapping
  | found (pa : Nat) (pte : Pte)
  /-- `virt_to_phys` stops the kernel. -/
  | stopped
  deriving DecidableEq, Repr

/-- `*pa = virt_to_phys(ptp) + GET_VA_OFFSET(va)` and `*entry = pte`. -/
def translated (ptp : Frame) (offset : Nat) (pte : Pte) : QueryResult :=
  if F.directMap ptp then .found (ptp.toNat * PT_PAGE_SIZE + offset) pte else .stopped

def queryInPgtbl (m : Tables Frame Pte) (pgtbl : Frame) (va : Nat) : QueryResult :=
  match getNextPtp F m pgtbl 0 va with
  | none => .noMapping
  | some (l1, _, _) =>
    match getNextPtp F m l1 1 va with
    | none => .noMapping
    | some (l2, pte, true) => translated F l2 (va % 2 ^ 30) pte
    | some (l2, _, false) =>
      match getNextPtp F m l2 2 va with
      | none => .noMapping
      | some (l3, pte, true) => translated F l3 (va % 2 ^ 21) pte
      | some (l3, _, false) =>
        match getNextPtp F m l3 3 va with
        | none => .noMapping
        | some (page, pte, _) => translated F page (va % 2 ^ 12) pte

/-- `total_page_cnt`. -/
def pageCount (len : Nat) : Nat := len / PT_PAGE_SIZE + if len % PT_PAGE_SIZE > 0 then 1 else 0

/-- `BUG_ON(ret != 0)` after a call of `get_next_ptp`. A page at `NULL` stops the kernel as well,
    at the next level or at the first store. -/
def orBug : Option (PtState × Option (Frame × Pte × Bool)) → Option (PtState × Frame)
  | some (s, some (ptp, _, false)) => if ptp = NULL_PTP then none else some (s, ptp)
  | _ => none

/-- The three calls of `get_next_ptp` in a round of `map_range_in_pgtbl`. -/
def descendAlloc (s : PtState) (pgtbl : Frame) (va : Nat) : Option (PtState × Frame) :=
  (orBug (getNextPtpAlloc F s pgtbl 0 va)).bind fun (s, l1) =>
  (orBug (getNextPtpAlloc F s l1 1 va)).bind fun (s, l2) =>
  orBug (getNextPtpAlloc F s l2 2 va)

/-- The loop of `map_range_in_pgtbl` over the entries from `i` on of one page of the last level, of
    which there are `n` left. -/
def mapPtes (flags : VmrProp) (l3 : Frame) : Nat → PtState → Nat → Nat → Nat → Nat →
    PtState × Nat × Nat × Nat
  | 0, s, _, va, pa, cnt => (s, va, pa, cnt)
  | n + 1, s, i, va, pa, cnt =>
    let s := s.store l3 i (F.pagePte (BitVec.ofNat 36 (pa / PT_PAGE_SIZE)) flags)
    let va := va + PT_PAGE_SIZE
    let pa := pa + PT_PAGE_SIZE
    let cnt := cnt - 1
    if cnt = 0 then (s, va, pa, cnt) else mapPtes flags l3 n s (i + 1) va pa cnt

/-- The loop of `map_range_in_pgtbl`. Every round maps a page, so `cnt` rounds are enough. -/
def mapLoop (flags : VmrProp) (pgtbl : Frame) : Nat → PtState → Nat → Nat → Nat → Option PtState
  | 0, s, _, _, _ => some s
  | n + 1, s, va, pa, cnt =>
    if cnt = 0 then some s
    else
      (descendAlloc F s pgtbl va).bind fun (s, l3) =>
        let i := ptIndex 3 va
        let (s, va, pa, cnt) := mapPtes F flags l3 (PTP_ENTRIES - i) s i va pa cnt
        mapLoop flags pgtbl n s va pa cnt

/-- `map_range_in_pgtbl` (`none` = the kernel stops). -/
def mapRangeInPgtbl (s : PtState) (pgtbl : Frame) (va pa len : Nat) (flags : VmrProp) :
    Option PtState :=
  if F.checksVa ∧ va % PT_PAGE_SIZE ≠ 0 then none
  else mapLoop F flags pgtbl (pageCount len) s va pa (pageCount len)

/-- The three calls of `get_next_ptp` in a round of `unmap_range_in_pgtbl`: the page of the last
    level, or the number of pages of the entry that is missing. What is a huge page is gone
    through like a table. -/
def descend (m : Tables Frame Pte) (pgtbl : Frame) (va : Nat) : Except Nat Frame :=
  match getNextPtp F m pgtbl 0 va with
  | none => .error (2 ^ 27)
  | some (l1, _, _) =>
    match getNextPtp F m l1 1 va with
    | none => .error (2 ^ 18)
    | some (l2, _, _) =>
      match getNextPtp F m l2 2 va with
      | none => .error (2 ^ 9)
      | some (l3, _, _) => .ok l3

/-- The loop of `unmap_range_in_pgtbl` and `mprotect_in_pgtbl` over the entries of one page of the
    last level; `edit` says what is stored, if anything is. -/
def editPtes (edit : Pte → Option Pte) (l3 : Frame) : Nat → PtState → Nat → Nat → Nat →
    PtState × Nat × Nat
  | 0, s, _, va, cnt => (s, va, cnt)
  | n + 1, s, i, va, cnt =>
    let s := match edit (s.mem l3 i) with
      | some e => s.store l3 i e
      | none => s
    let va := va + PT_PAGE_SIZE
    let cnt := cnt - 1
    if cnt = 0 then (s, va, cnt) else editPtes edit l3 n s (i + 1) va cnt

/-- The loop of `unmap_range_in_pgtbl` and `mprotect_in_pgtbl`, with the address it ends at. The
    source counts with a signed number that may fall below 0; here it stays at 0. -/
def editLoop (edit : Pte → Option Pte) (pgtbl : Frame) : Nat → PtState → Nat → Nat → PtState × Nat
  | 0, s, va, _ => (s, va)
  | n + 1, s, va, cnt =>
    if cnt = 0 then (s, va)
    else
      match descend F s.mem pgtbl va with
      | .error k => editLoop edit pgtbl n s (va + k * PT_PAGE_SIZE) (cnt - k)
      | .ok l3 =>
        let i := ptIndex 3 va
        let (s, va, cnt) := editPtes edit l3 (PTP_ENTRIES - i) s i va cnt
        editLoop edit pgtbl n s va cnt

/-- The loop for a range, with the check before it (`none` = the kernel stops). -/
def editRange (edit : Pte → Option Pte) (s : PtState) (pgtbl : Frame) (va len : Nat) :
    Option (PtState × Nat) :=
  if F.checksVa ∧ va % PT_PAGE_SIZE ≠ 0 then none
  else some (editLoop F edit pgtbl (pageCount len) s va (pageCount len))

/-- `unmap_range_in_pgtbl` up to the flush of the TLB. -/
def unmapRangeInPgtbl (s : PtState) (pgtbl : Frame) (va len : Nat) : Option (PtState × Nat) :=
  editRange F (fun _ => some 0) s pgtbl va len

/-- What `mprotect_in_pgtbl` does to one entry. -/
def protectPte (flags : VmrProp) (e : Pte) : Option Pte :=
  if F.present e then some (F.setPteFlags e flags) else none

/-- `mprotect_in_pgtbl` up to the flush of the TLB. -/
def mprotectInPgtbl (s : PtState) (pgtbl : Frame) (va len : Nat) (flags : VmrProp) :
    Option (PtState × Nat) :=
  editRange F (protectPte F flags) s pgtbl va len

/-- What an entry says that has `n` levels of tables below it. -/
def pteKind (n : Nat) (e : Pte) : Kind Frame :=
  if F.present e = false then .hole
  else if n = 0 then .leaf
  else if F.isBlock (3 - n) e then .leaf
  else if nextTableAddr e = NULL_PTP then .hole
  else .table (nextTableAddr e)

/-- The way to the table of the last level for a page number. -/
def tablePath (v : Nat) : List Nat := [v / 2 ^ 27 % 512, v / 2 ^ 18 % 512, v / 2 ^ 9 % 512]

/-- The way to the entry of a page number. -/
def pagePath (v : Nat) : List Nat := tablePath v ++ [v % 512]

/-- **The entry that translates a page**, with the number of levels below it. -/
def translation (m : Tables Frame Pte) (pgtbl : Frame) (v : Nat) : Option (Nat × Pte) :=
  lookup (pteKind F) m 3 pgtbl (pagePath v)

theorem ptIndex_zero (va : Nat) : ptIndex 0 va = va / PT_PAGE_SIZE / 2 ^ 27 % 512 := by
  unfold ptIndex PT_PAGE_SIZE PTP_ENTRIES
  omega

theorem ptIndex_one (va : Nat) : ptIndex 1 va = va / PT_PAGE_SIZE / 2 ^ 18 % 512 := by
  unfold ptIndex PT_PAGE_SIZE PTP_ENTRIES
  omega

theorem ptIndex_two (va : Nat) : ptIndex 2 va = va / PT_PAGE_SIZE / 2 ^ 9 % 512 := by
  unfold ptIndex PT_PAGE_SIZE PTP_ENTRIES
  omega

theorem ptIndex_three (va : Nat) : ptIndex 3 va = va / PT_PAGE_SIZE % 512 := by
  unfold ptIndex PT_PAGE_SIZE PTP_ENTRIES
  omega

variable {F} {m : Tables Frame Pte} {cur pgtbl : Frame} {level va n : Nat} {e : Pte}

theorem tablePath_div (va : Nat) :
    tablePath (va / PT_PAGE_SIZE) = [ptIndex 0 va, ptIndex 1 va, ptIndex 2 va] := by
  rw [ptIndex_zero, ptIndex_one, ptIndex_two]
  rfl

theorem pagePath_div (va : Nat) :
    pagePath (va / PT_PAGE_SIZE) =
      [ptIndex 0 va, ptIndex 1 va, ptIndex 2 va, ptIndex 3 va] := by
  rw [pagePath, tablePath_div]
  rfl

/-- What `get_next_ptp` answers for each kind of entry, above the last level. -/
theorem getNextPtp_cases (F : PteFormat) (m : Tables Frame Pte) (level va : Nat)
    (hcur : cur ≠ NULL_PTP) (hn : 0 < n) (hlevel : 3 - n = level) :
    match pteKind F n (m cur (ptIndex level va)) with
    | .hole => getNextPtp F m cur level va = none ∨
        ∃ e, getNextPtp F m cur level va = some (NULL_PTP, e, false)
    | .leaf => getNextPtp F m cur level va =
        some (nextTableAddr (m cur (ptIndex level va)), m cur (ptIndex level va), true)
    | .table g => g ≠ NULL_PTP ∧
        ∃ e, getNextPtp F m cur level va = some (g, e, false) := by
  have hn0 : n ≠ 0 := Nat.ne_of_gt hn
  simp only [getNextPtp, if_neg hcur, pteKind, hlevel, if_neg hn0]
  generalize m cur (ptIndex level va) = e
  cases hp : F.present e with
  | false => simp
  | true =>
  cases F.isBlock level e with
  | true => simp
  | false =>
    by_cases hnext : nextTableAddr e = NULL_PTP
    · simp [hnext]
    · simp [hnext]

theorem getNextPtp_null (m : Tables Frame Pte) (level va : Nat) :
    getNextPtp F m NULL_PTP level va = none := if_pos rfl

/-- No entry of the top level is a huge page: the architectures have none. -/
def TopPlain (F : PteFormat) (m : Tables Frame Pte) (pgtbl : Frame) : Prop :=
  ∀ i, F.present (m pgtbl i) = true → F.isBlock 0 (m pgtbl i) = false

/-- The answer of a query, from the entry that translates the page. -/
def queryResult (F : PteFormat) (va : Nat) : Option (Nat × Pte) → QueryResult
  | none => .noMapping
  | some (n, e) => translated F (nextTableAddr e) (va % 2 ^ (12 + 9 * n)) e

theorem queryResult_eq_noMapping {va : Nat} {t : Option (Nat × Pte)} :
    queryResult F va t = .noMapping ↔ t = none := by
  cases t with
  | none => exact ⟨fun _ => rfl, fun _ => rfl⟩
  | some t =>
    simp only [queryResult, translated, reduceCtorEq, iff_false]
    split <;> simp

/-- **A query is a search.** -/
theorem queryInPgtbl_eq (hroot : pgtbl ≠ NULL_PTP) (htop : TopPlain F m pgtbl) (va : Nat) :
    queryInPgtbl F m pgtbl va = queryResult F va (translation F m pgtbl (va / PT_PAGE_SIZE)) := by
  unfold queryInPgtbl translation
  rw [pagePath_div]
  have h0 := getNextPtp_cases F m 0 va hroot (show 0 < 3 by omega) rfl
  simp only [lookup]
  generalize hk0 : pteKind F 3 (m pgtbl (ptIndex 0 va)) = k0 at h0 ⊢
  cases k0 with
  | hole =>
    rcases h0 with h0 | ⟨e, h0⟩
    · simp [h0, queryResult]
    · simp [h0, queryResult, getNextPtp_null]
  | leaf =>
    -- there is no huge page at the top level
    have hb := htop (ptIndex 0 va)
    unfold pteKind at hk0
    cases hp : F.present (m pgtbl (ptIndex 0 va)) with
    | false => simp [hp] at hk0
    | true =>
      simp only [hp, hb hp] at hk0
      split_ifs at hk0
  | table l1 =>
  obtain ⟨hl1, e, h0⟩ := h0
  have h1 := getNextPtp_cases F m 1 va hl1 (show 0 < 2 by omega) rfl
  simp only [h0]
  generalize hk1 : pteKind F 2 (m l1 (ptIndex 1 va)) = k1 at h1 ⊢
  cases k1 with
  | hole =>
    rcases h1 with h1 | ⟨e, h1⟩
    · simp [h1, queryResult]
    · simp [h1, queryResult, getNextPtp_null]
  | leaf => simp [h1, queryResult]
  | table l2 =>
  obtain ⟨hl2, e, h1⟩ := h1
  have h2 := getNextPtp_cases F m 2 va hl2 (show 0 < 1 by omega) rfl
  simp only [h1]
  generalize hk2 : pteKind F 1 (m l2 (ptIndex 2 va)) = k2 at h2 ⊢
  cases k2 with
  | hole =>
    rcases h2 with h2 | ⟨e, h2⟩
    · simp [h2, queryResult]
    · simp [h2, queryResult, getNextPtp_null]
  | leaf => simp [h2, queryResult]
  | table l3 =>
    obtain ⟨hl3, e, h2⟩ := h2
    simp only [h2]
    simp only [getNextPtp, if_neg hl3, pteKind]
    cases F.present (m l3 (ptIndex 3 va)) <;> simp [queryResult]

/-! ## 4. The tables of an address space -/

theorem pteKind_of_absent (h : F.present e = false) (n : Nat) : pteKind F n e = .hole := if_pos h

theorem pteKind_zero (n : Nat) : pteKind F n 0 = .hole := pteKind_of_absent F.present_zero n

theorem pteKind_last (h : F.present e = true) : pteKind F 0 e = .leaf := by
  simp [pteKind, h]

theorem pteKind_table {g : Frame} (hn : 0 < n) (hg : g ≠ NULL_PTP) :
    pteKind F n (F.tablePte g) = .table g := by
  have hb : F.isBlock (3 - n) (F.tablePte g) = false := F.isBlock_table _ g (by omega)
  simp [pteKind, F.present_table, hb, F.next_table, hg, Nat.ne_of_gt hn]

/-- An entry that leads to a table is present, is no huge page and holds the table's frame. -/
theorem pteKind_eq_table {g : Frame} (h : pteKind F n e = .table g) :
    0 < n ∧ F.present e = true ∧ F.isBlock (3 - n) e = false ∧ nextTableAddr e = g ∧
      g ≠ NULL_PTP := by
  unfold pteKind at h
  split_ifs at h with hp hn hb hnull
  cases h
  exact ⟨pos_of_ne_zero hn, by simpa using hp, by simpa using hb, rfl, hnull⟩

/-- The tables that a list of indices leads to. -/
abbrev PtState.walk (F : PteFormat) (s : PtState) (pgtbl : Frame) (p : List Nat) : Option Frame :=
  Lib.walk (pteKind F) s.mem 3 pgtbl p

/-- **The tables of an address space**: they form a tree, and the pages that `get_pages` has still
    to return are no part of it. -/
structure PtInv (F : PteFormat) (s : PtState) (pgtbl : Frame) : Prop where
  root : pgtbl ≠ NULL_PTP
  top : TopPlain F s.mem pgtbl
  tree : Tree (pteKind F) s.mem 3 pgtbl
  nodup : s.pages.Nodup
  fresh : ∀ g ∈ s.pages, ∀ p, s.walk F pgtbl p ≠ some g

variable {s s' : PtState} {g l1 l2 l3 : Frame} {p q : List Nat}

theorem PtInv.not_null (h : PtInv F s pgtbl) (hw : s.walk F pgtbl p = some g) : g ≠ NULL_PTP := by
  have hloop : ∀ (p : List Nat) (n : Nat) (f : Frame), f ≠ NULL_PTP →
      Lib.walk (pteKind F) s.mem n f p = some g → g ≠ NULL_PTP := by
    intro p
    induction p with
    | nil =>
      intro n f hf hw
      rw [walk_nil] at hw
      cases hw
      exact hf
    | cons i p ih =>
      intro n f _ hw
      obtain ⟨k, f', rfl, hk, hw⟩ := walk_cons_some hw
      exact ih k f' (pteKind_eq_table hk).2.2.2.2 hw
  exact hloop p 3 pgtbl h.root hw

theorem PtInv.query (h : PtInv F s pgtbl) (va : Nat) :
    queryInPgtbl F s.mem pgtbl va =
      queryResult F va (translation F s.mem pgtbl (va / PT_PAGE_SIZE)) :=
  queryInPgtbl_eq h.root h.top va

/-! ### A store at the last level -/

section

variable (h : PtInv F s pgtbl) (hp : s.walk F pgtbl p = some l3) (hlen : p.length = 3)

include h hp hlen

theorem PtInv.store_last (i : Nat) (e : Pte) : PtInv F (s.store l3 i e) pgtbl where
  root := h.root
  top := by
    -- the table of the last level is not the one at the top
    have hne : l3 ≠ pgtbl := by
      rintro rfl
      have hp0 := h.tree p [] l3 hp walk_nil
      rw [hp0] at hlen
      cases hlen
    intro j
    have hsame : (s.store l3 i e).mem pgtbl j = s.mem pgtbl j :=
      Tables.set_of_ne _ _ fun hc => hne hc.1.symm
    rw [hsame]
    exact h.top j
  tree := h.tree.set_last hp hlen i e
  nodup := h.nodup
  fresh g hg q := by
    have hsame := h.tree.walk_set_last hp hlen i e q
    exact fun hw => h.fresh g hg q (hsame.symm.trans hw)

theorem PtInv.walk_store_last (i : Nat) (e : Pte) (q : List Nat) :
    (s.store l3 i e).walk F pgtbl q = s.walk F pgtbl q :=
  h.tree.walk_set_last hp hlen i e q

end

/-- Two page numbers have the same way exactly when they agree on 36 bits. -/
theorem pagePath_eq_iff (v w : Nat) : pagePath v = pagePath w ↔ v % 2 ^ 36 = w % 2 ^ 36 := by
  simp only [pagePath, tablePath, List.cons_append, List.nil_append, List.cons.injEq, and_true]
  omega

theorem translation_congr {v w : Nat} (h : v % 2 ^ 36 = w % 2 ^ 36) :
    translation F m pgtbl v = translation F m pgtbl w := by
  unfold translation
  rw [(pagePath_eq_iff v w).mpr h]

/-- **A store at the last level** is seen by one page. -/
theorem PtInv.translation_store (h : PtInv F s pgtbl) {v : Nat}
    (hp : s.walk F pgtbl (tablePath v) = some l3) (e : Pte) (w : Nat) :
    translation F (s.store l3 (v % 512) e).mem pgtbl w =
      if w % 2 ^ 36 = v % 2 ^ 36 then (if F.present e then some (0, e) else none)
      else translation F s.mem pgtbl w := by
  split
  · rename_i hw
    rw [translation_congr hw]
    unfold translation pagePath
    show lookup (pteKind F) (s.mem.set l3 (v % 512) e) 3 pgtbl _ = _
    rw [h.tree.lookup_set_last hp rfl]
    cases hpres : F.present e with
    | false => simp [pteKind_of_absent hpres]
    | true => simp [pteKind_last hpres]
  · rename_i hw
    refine h.tree.lookup_set_off hp (fun hpre => hw ?_) e
    have heq : pagePath v = pagePath w := hpre.eq_of_length rfl
    exact ((pagePath_eq_iff v w).mp heq).symm

/-- A page whose table of the last level is there is translated by its entry. -/
theorem translation_of_walk {v : Nat} (hp : s.walk F pgtbl (tablePath v) = some l3) :
    translation F s.mem pgtbl v =
      if F.present (s.mem l3 (v % 512)) then some (0, s.mem l3 (v % 512)) else none := by
  unfold translation pagePath
  rw [lookup_append hp]
  show lookup (pteKind F) s.mem 0 l3 [v % 512] = _
  cases hpres : F.present (s.mem l3 (v % 512)) with
  | false => simp [lookup, pteKind_of_absent hpres]
  | true => simp [lookup, pteKind_last hpres]

/-! ### Tables that are filled in -/

/-- The entry `i` of `f` lies on the way to a page of `R`; above the last level it was empty. -/
def Written (F : PteFormat) (pgtbl : Frame) (R : Nat → Prop) (s s' : PtState) (f : Frame)
    (i : Nat) : Prop :=
  ∃ v q, R v ∧ s'.walk F pgtbl q = some f ∧ q ++ [i] <+: pagePath v ∧
    (q.length = 3 ∨ f ∈ s.pages ∨ F.present (s.mem f i) = false)

/-- Above the last level the entry leads to a table. -/
def Linked (F : PteFormat) (pgtbl : Frame) (s : PtState) (f : Frame) (i : Nat) : Prop :=
  ∀ q, s.walk F pgtbl q = some f → q.length < 3 → s.walk F pgtbl (q ++ [i]) ≠ none

/-- **What mapping the pages of `R` does to the tables**: every table stays, and what is new or
    stored lies on the way to a page of `R`. -/
structure Extends (F : PteFormat) (pgtbl : Frame) (R : Nat → Prop) (s s' : PtState) : Prop where
  keeps : ∀ q g, s.walk F pgtbl q = some g → s'.walk F pgtbl q = some g
  only : ∀ q g, s'.walk F pgtbl q = some g →
    s.walk F pgtbl q = some g ∨ g ∈ s.pages ∧ ∃ v, R v ∧ q <+: tablePath v
  pages : s'.pages <:+ s.pages
  entries : ∀ f i, s'.mem f i = s.mem f i ∨ f ∈ s.pages ∨ Written F pgtbl R s s' f i
  log : ∃ new, s'.log = new ++ s.log ∧
    ∀ x ∈ new, Written F pgtbl R s s' x.1 x.2.1 ∧ Linked F pgtbl s' x.1 x.2.1
  plain : ∀ q f i, s'.walk F pgtbl q = some f → q.length < 3 → F.present (s'.mem f i) = true →
    s.walk F pgtbl q = some f ∧ s'.mem f i = s.mem f i ∨
      ∃ g, pteKind F (3 - q.length) (s'.mem f i) = .table g

variable {R R' : Nat → Prop}

theorem Written.mono (h : ∀ v, R v → R' v) {f : Frame} {i : Nat}
    (hw : Written F pgtbl R s s' f i) : Written F pgtbl R' s s' f i := by
  obtain ⟨v, q, hv, hrest⟩ := hw
  exact ⟨v, q, h v hv, hrest⟩

theorem Extends.refl (F : PteFormat) (pgtbl : Frame) (R : Nat → Prop) (s : PtState) :
    Extends F pgtbl R s s where
  keeps _ _ := id
  only _ _ := .inl
  pages := List.suffix_refl _
  entries _ _ := .inl rfl
  log := ⟨[], rfl, nofun⟩
  plain _ _ _ hw _ _ := .inl ⟨hw, rfl⟩

theorem Extends.mono (h : ∀ v, R v → R' v) (he : Extends F pgtbl R s s') : Extends F pgtbl R' s s' where
  __ := he
  only q g hw := by
    rcases he.only q g hw with hw | ⟨hg, v, hv, hq⟩
    · exact .inl hw
    · exact .inr ⟨hg, v, h v hv, hq⟩
  entries f i := (he.entries f i).imp_right (Or.imp_right (Written.mono h))
  log := by
    obtain ⟨new, hnew, hx⟩ := he.log
    exact ⟨new, hnew, fun x hmem => ⟨(hx x hmem).1.mono h, (hx x hmem).2⟩⟩

section Trans

variable {s1 s2 s3 : PtState} (h : Extends F pgtbl R s1 s2) (h' : Extends F pgtbl R s2 s3)
  (hinv : PtInv F s3 pgtbl) {f : Frame} {i : Nat}

include h' in
theorem Written.later (hw : Written F pgtbl R s1 s2 f i) : Written F pgtbl R s1 s3 f i := by
  obtain ⟨v, q, hv, hq, hpre, hlast⟩ := hw
  exact ⟨v, q, hv, h'.keeps q f hq, hpre, hlast⟩

include h h' hinv in
theorem Written.earlier (hw : Written F pgtbl R s2 s3 f i) : Written F pgtbl R s1 s3 f i := by
  obtain ⟨v, q, hv, hq, hpre, hlast⟩ := hw
  refine ⟨v, q, hv, hq, hpre, ?_⟩
  rcases hlast with hlast | hfresh | habs
  · exact .inl hlast
  · exact .inr (.inl (h.pages.subset hfresh))
  rcases h.entries f i with hsame | hfresh | ⟨v', q', -, hq', -, hlast'⟩
  · rw [hsame] at habs
    exact .inr (.inr habs)
  · exact .inr (.inl hfresh)
  · -- one table has one way
    rw [hinv.tree q q' f hq (h'.keeps q' f hq')]
    exact hlast'

include h' hinv in
theorem Linked.later (hl : Linked F pgtbl s2 f i) (hw : Written F pgtbl R s1 s2 f i) :
    Linked F pgtbl s3 f i := by
  obtain ⟨-, q', -, hq', -, -⟩ := hw
  intro q hq hlen hnone
  obtain rfl := hinv.tree q q' f hq (h'.keeps q' f hq')
  cases hg : s2.walk F pgtbl (q ++ [i]) with
  | none => exact hl q hq' hlen hg
  | some g => exact absurd (hnone.symm.trans (h'.keeps _ g hg)) (by simp)

include h h' hinv in
theorem Extends.trans : Extends F pgtbl R s1 s3 where
  keeps q g hw := h'.keeps q g (h.keeps q g hw)
  only q g hw := by
    rcases h'.only q g hw with hw | ⟨hg, hq⟩
    · exact h.only q g hw
    · exact .inr ⟨h.pages.subset hg, hq⟩
  pages := h'.pages.trans h.pages
  entries f i := by
    rcases h'.entries f i with hsame | hfresh | hw
    · rcases h.entries f i with hsame' | hfresh | hw
      · exact .inl (hsame.trans hsame')
      · exact .inr (.inl hfresh)
      · exact .inr (.inr (hw.later h'))
    · exact .inr (.inl (h.pages.subset hfresh))
    · exact .inr (.inr (hw.earlier h h' hinv))
  log := by
    obtain ⟨new, hnew, hx⟩ := h.log
    obtain ⟨new', hnew', hx'⟩ := h'.log
    refine ⟨new' ++ new, by rw [hnew', hnew, List.append_assoc], fun x hmem => ?_⟩
    rcases List.mem_append.mp hmem with hmem | hmem
    · exact ⟨(hx' x hmem).1.earlier h h' hinv, (hx' x hmem).2⟩
    · exact ⟨(hx x hmem).1.later h', (hx x hmem).2.later h' hinv (hx x hmem).1⟩
  plain q f i hw hq hp := by
    rcases h'.plain q f i hw hq hp with ⟨hw', he⟩ | hk
    · rcases h.plain q f i hw' hq (he ▸ hp) with ⟨hw'', he'⟩ | hk
      · exact .inl ⟨hw'', he.trans he'⟩
      · exact .inr (he ▸ hk)
    · exact .inr hk

end Trans

/-- The tables are extended on the way to `v` and no translation changes. -/
structure Grown (F : PteFormat) (pgtbl : Frame) (v : Nat) (s s' : PtState) : Prop where
  inv : PtInv F s' pgtbl
  tables : Extends F pgtbl (· = v) s s'
  translation : ∀ w, translation F s'.mem pgtbl w = Mm.translation F s.mem pgtbl w

theorem Grown.trans {s1 s2 s3 : PtState} {v : Nat} (h : Grown F pgtbl v s1 s2)
    (h' : Grown F pgtbl v s2 s3) : Grown F pgtbl v s1 s3 :=
  ⟨h'.inv, h.tables.trans h'.tables h'.inv, fun w => (h'.translation w).trans (h.translation w)⟩

/-- The table `g`, cleared and stored into the empty entry `i` of the table `cur`. -/
structure NewTable (F : PteFormat) (pgtbl : Frame) (s : PtState) (p : List Nat) (cur : Frame)
    (i : Nat) (g : Frame) (s' : PtState) : Prop where
  inv : PtInv F s pgtbl
  way : s.walk F pgtbl p = some cur
  level : p.length < 3
  absent : F.present (s.mem cur i) = false
  pages : s.pages = g :: s'.pages
  null : g ≠ NULL_PTP
  mem : s'.mem = s.mem.install g 0 cur i (F.tablePte g)
  log : s'.log = (cur, i, F.tablePte g) :: s.log

section NewTable

variable {i v : Nat} (hn : NewTable F pgtbl s p cur i g s')

include hn

theorem NewTable.mem_pages : g ∈ s.pages := hn.pages ▸ List.mem_cons_self

theorem NewTable.unused : g ∉ s'.pages ∧ s'.pages.Nodup :=
  List.nodup_cons.mp (hn.pages ▸ hn.inv.nodup)

theorem NewTable.fresh (q : List Nat) : s.walk F pgtbl q ≠ some g := hn.inv.fresh g hn.mem_pages q

theorem NewTable.cur_ne : cur ≠ g := fun hc => hn.fresh p (hc ▸ hn.way)

theorem NewTable.hole : pteKind F (3 - p.length) (s.mem cur i) = .hole :=
  pteKind_of_absent hn.absent _

theorem NewTable.table : pteKind F (3 - p.length) (F.tablePte g) = .table g :=
  pteKind_table (by have := hn.level; omega) hn.null

theorem NewTable.walk_new : s'.walk F pgtbl (p ++ [i]) = some g := by
  unfold PtState.walk
  rw [hn.mem]
  exact hn.inv.tree.walk_install_new hn.fresh hn.way hn.level hn.table

theorem NewTable.walk_old (hq : q ≠ p ++ [i]) : s'.walk F pgtbl q = s.walk F pgtbl q := by
  unfold PtState.walk
  rw [hn.mem]
  exact hn.inv.tree.walk_install hn.fresh pteKind_zero hn.way hn.hole hn.level hn.table hq

theorem NewTable.walk_none : s.walk F pgtbl (p ++ [i]) = none := by
  have hhole := hn.hole
  unfold PtState.walk
  rw [walk_append hn.way]
  obtain ⟨k, hk⟩ : ∃ k, 3 - p.length = k + 1 := ⟨2 - p.length, by have := hn.level; omega⟩
  rw [hk] at hhole ⊢
  simp only [Lib.walk, hhole]

/-! The entries: the new one, those of the new table, and the old ones. -/

theorem NewTable.entry_new : s'.mem cur i = F.tablePte g := by
  rw [hn.mem]
  exact Tables.set_same _ _ _ _

theorem NewTable.entry_zero (j : Nat) : s'.mem g j = 0 := by
  rw [hn.mem]
  unfold Tables.install
  rw [Tables.set_of_ne _ _ (fun hc => hn.cur_ne hc.1.symm), Tables.fill_same]

theorem NewTable.entry_old {f : Frame} {j : Nat} (hne : ¬ (f = cur ∧ j = i)) (hf : f ≠ g) :
    s'.mem f j = s.mem f j := by
  rw [hn.mem]
  unfold Tables.install
  rw [Tables.set_of_ne _ _ hne, Tables.fill_of_ne _ _ hf]

theorem NewTable.ptInv : PtInv F s' pgtbl where
  root := hn.inv.root
  top j hj := by
    by_cases hc : pgtbl = cur ∧ j = i
    · rw [hc.1, hc.2, hn.entry_new]
      exact F.isBlock_table 0 g (by omega)
    · have hroot : pgtbl ≠ g := fun hc => hn.fresh [] (by rw [← hc]; exact walk_nil)
      rw [hn.entry_old hc hroot] at hj ⊢
      exact hn.inv.top j hj
  tree := by
    rw [hn.mem]
    exact hn.inv.tree.install hn.fresh pteKind_zero hn.way hn.hole hn.level hn.table
  nodup := hn.unused.2
  fresh f hf q hw := by
    by_cases hq : q = p ++ [i]
    · rw [hq, hn.walk_new] at hw
      cases hw
      exact hn.unused.1 hf
    · rw [hn.walk_old hq] at hw
      exact hn.inv.fresh f (hn.pages ▸ List.mem_cons_of_mem _ hf) q hw

theorem NewTable.written (hpre : p ++ [i] <+: tablePath v) :
    Written F pgtbl (· = v) s s' cur i := by
  refine ⟨v, p, rfl, ?_, hpre.trans ⟨[v % 512], rfl⟩, .inr (.inr hn.absent)⟩
  rw [hn.walk_old (by simp)]
  exact hn.way

theorem NewTable.linked : Linked F pgtbl s' cur i := by
  intro q hq _ hnone
  have hqn : q ≠ p ++ [i] := by
    rintro rfl
    exact hn.cur_ne (some.inj (hq.symm.trans hn.walk_new))
  rw [hn.walk_old hqn] at hq
  obtain rfl := hn.inv.tree q p cur hq hn.way
  exact absurd (hnone.symm.trans hn.walk_new) (by simp)

theorem NewTable.extends (hpre : p ++ [i] <+: tablePath v) : Extends F pgtbl (· = v) s s' where
  keeps q f hw := by
    rw [hn.walk_old fun hq => by rw [hq, hn.walk_none] at hw; cases hw]
    exact hw
  only q f hw := by
    by_cases hq : q = p ++ [i]
    · rw [hq, hn.walk_new] at hw
      cases hw
      exact .inr ⟨hn.mem_pages, v, rfl, hq ▸ hpre⟩
    · rw [hn.walk_old hq] at hw
      exact .inl hw
  pages := by
    rw [hn.pages]
    exact List.suffix_cons _ _
  entries f j := by
    by_cases hc : f = cur ∧ j = i
    · obtain ⟨rfl, rfl⟩ := hc
      exact .inr (.inr (hn.written hpre))
    by_cases hfg : f = g
    · exact .inr (.inl (hfg ▸ hn.mem_pages))
    · exact .inl (hn.entry_old hc hfg)
  log := by
    refine ⟨[(cur, i, F.tablePte g)], hn.log, fun x hx => ?_⟩
    rw [List.mem_singleton.mp hx]
    exact ⟨hn.written hpre, hn.linked⟩
  plain q f j hw hq hpres := by
    by_cases hqn : q = p ++ [i]
    · -- the new table is empty
      rw [hqn, hn.walk_new] at hw
      cases hw
      rw [hn.entry_zero, F.present_zero] at hpres
      cases hpres
    rw [hn.walk_old hqn] at hw
    by_cases hc : f = cur ∧ j = i
    · obtain ⟨rfl, rfl⟩ := hc
      have hqp : q = p := hn.inv.tree q p f hw hn.way
      rw [hqp, hn.entry_new]
      exact .inr ⟨g, hn.table⟩
    · have hfg : f ≠ g := fun hfg => hn.fresh q (hfg ▸ hw)
      exact .inl ⟨hw, hn.entry_old hc hfg⟩

theorem NewTable.grown (hpre : p ++ [i] <+: tablePath v) : Grown F pgtbl v s s' where
  inv := hn.ptInv
  tables := hn.extends hpre
  translation w := by
    rw [hn.mem]
    exact hn.inv.tree.lookup_install hn.fresh pteKind_zero hn.way hn.hole hn.level hn.table _

end NewTable

/-- **One call of `get_next_ptp` with `alloc`** on the way to a page. -/
theorem getNextPtpAlloc_spec {v : Nat} (h : PtInv F s pgtbl) (hp : s.walk F pgtbl p = some cur)
    (hlt : level < 3) (hlevel : p.length = level) (hpre : p ++ [ptIndex level va] <+: tablePath v)
    (hr : orBug (getNextPtpAlloc F s cur level va) = some (s', g)) :
    Grown F pgtbl v s s' ∧ s'.walk F pgtbl (p ++ [ptIndex level va]) = some g := by
  have hcur : cur ≠ NULL_PTP := h.not_null hp
  unfold getNextPtpAlloc at hr
  rw [if_neg hcur] at hr
  cases hpres : F.present (s.mem cur (ptIndex level va)) with
  | true =>
    simp only [hpres, if_true, getNextPtp, if_neg hcur, orBug] at hr
    split at hr
    · rename_i s1 ptp e heq
      simp only [some.injEq, Prod.mk.injEq] at heq
      obtain ⟨rfl, rfl, rfl, hb⟩ := heq
      obtain ⟨hnull, hr⟩ := ite_none_left_eq_some.mp hr
      cases hr
      refine ⟨⟨h, Extends.refl F pgtbl _ s, fun _ => rfl⟩, ?_⟩
      unfold PtState.walk
      rw [walk_append hp]
      obtain ⟨k, hk⟩ : ∃ k, 3 - p.length = k + 1 := ⟨2 - p.length, by omega⟩
      rw [hk, walk_cons_table, walk_nil]
      have hkl : 3 - (k + 1) = level := by omega
      simp [pteKind, hpres, hkl, hb, hnull]
    · cases hr
  | false =>
  rw [hpres] at hr
  cases hpages : s.pages with
  | nil =>
    rw [hpages] at hr
    cases hr
  | cons g' rest =>
  simp only [hpages, Bool.false_eq_true, if_false] at hr
  split at hr
  · cases hr
  rename_i hg'
  obtain ⟨hnull, _⟩ := not_or.mp hg'
  have hself : (PtState.store { s with mem := s.mem.fill g' 0, pages := rest } cur
      (ptIndex level va) (F.tablePte g')).mem cur (ptIndex level va) = F.tablePte g' :=
    Tables.set_same _ _ _ _
  simp only [getNextPtp, if_neg hcur, hself, F.present_table, if_true, F.next_table,
    F.isBlock_table level g' hlt, orBug, if_neg hnull, some.injEq,
    Prod.mk.injEq] at hr
  obtain ⟨hs', rfl⟩ := hr
  have hn : NewTable F pgtbl s p cur (ptIndex level va) g' s' := by
    subst hs'
    exact ⟨h, hp, by omega, hpres, hpages, hnull, rfl, rfl⟩
  exact ⟨hn.grown hpre, hn.walk_new⟩

/-- **The walk of `map_range_in_pgtbl`**: it ends at the table of the last level. -/
theorem descendAlloc_spec (h : PtInv F s pgtbl) (hr : descendAlloc F s pgtbl va = some (s', l3)) :
    Grown F pgtbl (va / PT_PAGE_SIZE) s s' ∧
      s'.walk F pgtbl (tablePath (va / PT_PAGE_SIZE)) = some l3 := by
  obtain ⟨⟨s1, l1⟩, h1, hr⟩ := bind_eq_some_iff.mp hr
  obtain ⟨⟨s2, l2⟩, h2, h3⟩ := bind_eq_some_iff.mp hr
  have hpath := tablePath_div va
  obtain ⟨hgrow1, hw1⟩ := getNextPtpAlloc_spec (v := va / PT_PAGE_SIZE) h walk_nil
    (show 0 < 3 by omega) rfl (by rw [hpath]; exact ⟨[_, _], rfl⟩) h1
  obtain ⟨hgrow2, hw2⟩ := getNextPtpAlloc_spec (v := va / PT_PAGE_SIZE) hgrow1.inv hw1
    (show 1 < 3 by omega) rfl (by rw [hpath]; exact ⟨[_], rfl⟩) h2
  obtain ⟨hgrow3, hw3⟩ := getNextPtpAlloc_spec (v := va / PT_PAGE_SIZE) hgrow2.inv hw2
    (show 2 < 3 by omega) rfl (by rw [hpath]; exact ⟨[], rfl⟩) h3
  refine ⟨(hgrow1.trans hgrow2).trans hgrow3, ?_⟩
  rw [hpath]
  exact hw3

end ChCore.Mm
