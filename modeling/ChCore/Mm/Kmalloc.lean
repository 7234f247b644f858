/-
  File: ChCore/Mm/Kmalloc.lean
  Subject: `kmalloc`, `kfree`, `get_pages`, `free_pages` (`kernel/mm/kmalloc.c`) over whole runs.

  A run starts with `mm_init` and makes calls in any order; between the calls the owners of live
  memory write to it. What is live is recorded with the place it comes from, so that a release can
  be compared with the allocation.

  * `kmalloc_run` -- after every call live ranges are disjoint, long enough and apart from what the
    slab allocator keeps for itself, and a release gives back what was taken, as long as `check_buddy`
    finds no free page behind the metadata array.
-/
import ChCore.Mm.Slab

namespace ChCore.Mm

open Lib Function Option Nat Set

/-! ## 1. The source -/

/-- `ROUND_UP`. -/
def roundUp (x n : Nat) : Nat := Nat.ldiff (x + n - 1) (n - 1)

variable (s : MmState) (m : Memory) (size : Nat)

def sizeToPageOrder : Nat :=
  let pgNum := roundUp size BUDDY_PAGE_SIZE / BUDDY_PAGE_SIZE
  let order := shiftLoop 64 pgNum 0
  if pgNum > 1 <<< order then order + 1 else order

/-- Where memory comes from: a slot of a slab, or a block of pages. -/
inductive Origin where
  | slot (slab order : Nat)
  | block (order : Nat)
  deriving DecidableEq, Repr

/-- `get_pages`: the pointer (0 is `NULL`), and where it comes from. -/
def getPages (h : Heap) (order : Nat) : Option (Nat × Origin × Heap) := do
  let (page, z) ← buddyGetPages h.zone order
  some (pageToVirt z page, .block order, { h with zone := z })

/-- `_SIZE` of `kmalloc.c`. -/
def KMALLOC_SLAB_SIZE : Nat := 1 <<< SLAB_MAX_ORDER

/-- The order of the pages for a size that is too large for a slot. -/
def largeOrder : Nat := if size ≤ BUDDY_PAGE_SIZE then 0 else sizeToPageOrder size

def kmalloc (h : Heap) (size : Nat) : Option (Nat × Origin × Heap) :=
  if size ≤ KMALLOC_SLAB_SIZE then do
    let (slot, slab, h) ← allocInSlab h size
    some (slot, .slot slab (slabOrder size), h)
  else do
    let (page, z) ← buddyGetPages h.zone (largeOrder size)
    some (pageToVirt z page, .block (largeOrder size), { h with zone := z })

def freePages (h : Heap) (addr : Nat) : Option Heap := do
  let page ← virtToPage h.zone addr
  let z ← buddyFreePages h.zone page
  some { h with zone := z }

def kfree (h : Heap) (ptr : Nat) : Option Heap := do
  let page ← virtToPage h.zone ptr
  if (h.zone.page page).slab ≠ 0 then freeInSlab h ptr
  else do
    let z ← buddyFreePages h.zone page
    some { h with zone := z }

/-- The memory `mm_init` hands to the allocators: a range of 64-bit addresses. Kernel addresses
    start at `KBASE`, so it does not start at `NULL`. -/
structure Memory where
  startAddr : Nat
  pageNum : Nat
  notNull : 0 < startAddr
  fits : startAddr + pageNum * BUDDY_PAGE_SIZE ≤ 2 ^ 64

variable (mem : Nat → Nat)

/-- The two calls of `mm_init`; `mem` is what the memory holds before. -/
def mmInit : Option Heap := do
  let z ← initBuddy m.startAddr m.pageNum
  initSlab ⟨z, mem, fun _ => 0⟩

/-! ## 2. Runs -/

/-- The function that has to release a pointer. -/
inductive Api where
  | kfree
  | freePages
  deriving DecidableEq, Repr

/-- Live memory: the pointer, the size asked for, how it is released, and where it comes from. -/
structure Alloc where
  addr : Nat
  size : Nat
  api : Api
  origin : Origin
  deriving DecidableEq, Repr

def Origin.len : Origin → Nat
  | .slot _ order => 2 ^ order
  | .block order => 2 ^ order * BUDDY_PAGE_SIZE

/-- The bytes that are the caller's. -/
def Alloc.bytes (a : Alloc) : Set Nat := Set.Ico a.addr (a.addr + a.origin.len)

structure MmState where
  heap : Heap
  live : List Alloc

/-- The calls, and a store of the caller to a word of live memory. -/
inductive MmAct where
  | kmalloc (size : Nat)
  | kfree (ptr : Nat)
  | getPages (order : Nat)
  | freePages (ptr : Nat)
  | write (word value : Nat)
  deriving DecidableEq, Repr

/-- The largest size of a call: 2^13 pages. -/
def MAX_SIZE : Nat := 2 ^ 13 * BUDDY_PAGE_SIZE

/-- A call has returned a pointer; `NULL` is nothing to keep. -/
def MmState.record (api : Api) (size : Nat) : Nat × Origin × Heap → MmState
  | (ptr, origin, h) => ⟨h, if ptr = 0 then s.live else ⟨ptr, size, api, origin⟩ :: s.live⟩

def MmState.release (ptr : Nat) (h : Heap) : MmState := ⟨h, s.live.filter (·.addr ≠ ptr)⟩

/-- The pointer is live, and this is the function for it. -/
def MmState.Holds (api : Api) (ptr : Nat) : Prop := ∃ a ∈ s.live, a.addr = ptr ∧ a.api = api
  deriving Decidable

/-- One call. It is undefined where the caller breaks the rules (a size above the largest, a pointer
    that is not live or belongs to the other function) and where the kernel stops. -/
def MmState.step : MmAct → Option MmState
  | .kmalloc size =>
    if size ≤ MAX_SIZE then (kmalloc s.heap size).map (s.record .kfree size) else none
  | .kfree ptr => if s.Holds .kfree ptr then (kfree s.heap ptr).map (s.release ptr) else none
  | .getPages order =>
    (getPages s.heap order).map (s.record .freePages (2 ^ order * BUDDY_PAGE_SIZE))
  | .freePages ptr =>
    if s.Holds .freePages ptr then (freePages s.heap ptr).map (s.release ptr) else none
  | .write word value =>
    if ∃ a ∈ s.live, a.addr < word + 8 ∧ word < a.addr + a.origin.len then
      some { s with heap := s.heap.store word value }
    else none

/-- A call, or a change of the words behind the metadata array: they are the memory that follows it,
    and belong to whoever holds that. -/
inductive RunAct where
  | call (act : MmAct)
  | behind (page : Page)
  deriving DecidableEq, Repr

def MmState.setBehind (page : Page) : MmState :=
  { s with heap := { s.heap with zone := { s.heap.zone with behind := page } } }

def MmState.run : RunAct → Option MmState
  | .call act => s.step act
  | .behind page => some (s.setBehind page)

/-! ## 3. What is to hold -/

/-- **The live ranges**: pairwise disjoint, at least as long as asked for, inside the memory, and
    apart from the header slot and the free slots of every slab. -/
structure MmOk (s : MmState) : Prop where
  disjoint : s.live.Pairwise fun a b => Disjoint a.bytes b.bytes
  long : ∀ a ∈ s.live, a.size ≤ a.origin.len
  inside : ∀ a ∈ s.live, a.bytes ⊆ Set.Ico s.heap.zone.startAddr (s.heap.zone.addr s.heap.zone.pageNum)
  slabs : ∀ order, SLAB_MIN_ORDER ≤ order → order ≤ SLAB_MAX_ORDER →
    ∃ slabs, slabs ≠ [] ∧
      Chain 0 (fun slab => s.heap.mem (slab + 8)) (s.heap.slabs order) slabs ∧
      ∀ slab ∈ slabs, ∃ free, Chain 0 s.heap.mem (s.heap.mem slab) free ∧
        ∀ slot ∈ slab :: free, ∀ a ∈ s.live, Disjoint a.bytes (Set.Ico slot (slot + 2 ^ order))

/-- **What a release does**: a slot is the first free one of the slab it comes from; a block of pages
    still carries its order, and exactly its pages become free. -/
def GivesBack (s s' : MmState) (a : Alloc) : Prop :=
  match a.origin with
  | .slot slab _ => s'.heap.zone = s.heap.zone ∧
      ∃ free, Chain 0 s.heap.mem (s.heap.mem slab) free ∧
        Chain 0 s'.heap.mem (s'.heap.mem slab) (a.addr :: free)
  | .block order => s'.heap.mem = s.heap.mem ∧ ∃ page, a.addr = s.heap.zone.addr page ∧
      (s.heap.zone.page page).order = order ∧
      s'.heap.zone.freePlaces = s.heap.zone.freePlaces ∪ (⟨page, order⟩ : Block).places

/-- The call returns new memory, unless no block of pages is large enough. -/
def MmState.Serves (act : MmAct) (order : Nat) : Prop :=
  (∃ s', s.step act = some s' ∧ s'.live.length = s.live.length + 1) ∨
    ∀ b ∈ s.heap.zone.free, b.order < order

/-- The block of pages a `kmalloc` may need: one for a new slab, or the memory itself. -/
def kmallocOrder : Nat :=
  if size ≤ KMALLOC_SLAB_SIZE then SLAB_BLOCK_ORDER else largeOrder size

structure MmState.CallsReturn (s : MmState) : Prop where
  kmalloc : ∀ size ≤ MAX_SIZE, s.Serves (.kmalloc size) (kmallocOrder size)
  getPages : ∀ order < BUDDY_MAX_ORDER, s.Serves (.getPages order) order
  kfree : ∀ ptr, s.Holds .kfree ptr → (s.step (.kfree ptr)).isSome
  freePages : ∀ ptr, s.Holds .freePages ptr → (s.step (.freePages ptr)).isSome

/-- **The condition on a step**: what comes to stand behind the metadata array does not read as a free
    page, or `check_buddy` never looks there. -/
def BehindOk : RunAct → Prop
  | .call _ => True
  | .behind page => page.buddy = false ∨ 2 ^ (BUDDY_MAX_ORDER - 1) ∣ s.heap.zone.pageNum

/-! ## 4. The invariant -/

/-- The blocks that are live as pages. -/
def pageBlocks (z : Zone) (live : List Alloc) : Set Block :=
  {b | ∃ a ∈ live, a.addr = z.addr b.start ∧ a.origin = .block b.order}

/-- **The invariant**: the allocators are in order for the pages that are live, every order has a
    slab, and a live slot is a slot of its slab that is not free. -/
structure MmInv (s : MmState) (chain free : Nat → List Nat) : Prop where
  heap : HeapInv s.heap (pageBlocks s.heap.zone s.live) chain free
  filled : ∀ {o}, SLAB_MIN_ORDER ≤ o → o ≤ SLAB_MAX_ORDER → chain o ≠ []
  slot : ∀ {a slab o}, a ∈ s.live → a.origin = .slot slab o →
    slab ∈ chain o ∧ IsSlot slab o a.addr ∧ a.addr ∉ free slab ∧ a.api = .kfree
  block : ∀ {a o}, a ∈ s.live → a.origin = .block o → ∃ page, a.addr = s.heap.zone.addr page
  nodup : s.live.Pairwise fun a b => a.addr ≠ b.addr
  long : ∀ a ∈ s.live, a.size ≤ a.origin.len

/-- The blocks that the buddy allocator has handed out. -/
abbrev MmState.taken (chain : Nat → List Nat) : Set Block :=
  slabBlocks s.heap.zone chain ∪ pageBlocks s.heap.zone s.live

theorem pageBlocks_congr {z z' : Zone} (h : z'.startAddr = z.startAddr) (live : List Alloc) :
    pageBlocks z' live = pageBlocks z live := by
  unfold pageBlocks Zone.addr
  rw [h]

theorem pageBlocks_slot {z z' : Zone} (h : z'.startAddr = z.startAddr) (live : List Alloc)
    (ptr size : Nat) (api : Api) (slab o : Nat) :
    pageBlocks z' (⟨ptr, size, api, .slot slab o⟩ :: live) = pageBlocks z live := by
  rw [pageBlocks_congr h]
  simp [pageBlocks]

/-- A slot that is free, taken, or holds the header. -/
def IsCell (slab order s : Nat) : Prop :=
  ∃ i, (i + 1) * 2 ^ order ≤ SLAB_INIT_SIZE ∧ s = slab + i * 2 ^ order

theorem IsSlot.isCell {slab o s : Nat} (hs : IsSlot slab o s) : IsCell slab o s := by
  obtain ⟨i, _, hle, he⟩ := hs
  exact ⟨i, hle, he⟩

theorem isCell_header {slab o : Nat} (ho : o ≤ SLAB_MAX_ORDER) : IsCell slab o slab := by
  refine ⟨0, ?_, by simp⟩
  rw [zero_add, one_mul]
  exact (Nat.pow_le_pow_right (succ_pos 1) ho).trans (by decide)

theorem IsCell.bounds {slab o s : Nat} (hs : IsCell slab o s) :
    slab ≤ s ∧ s + 2 ^ o ≤ slab + SLAB_INIT_SIZE := by
  obtain ⟨i, hle, rfl⟩ := hs
  rw [add_mul] at hle
  omega

section Heap

variable {h : Heap} {P : Set Block} {chain free : Nat → List Nat}

variable {slab : Nat}

section

variable {o : Nat} (hi : HeapInv h P chain free) (hs : slab ∈ chain o)

include hi hs

theorem HeapInv.isCell_of_mem {c : Nat} (hc : c ∈ slab :: free slab) : IsCell slab o c := by
  rcases List.mem_cons.mp hc with rfl | hc
  · exact isCell_header (hi.range hs).2
  · exact (hi.slot hs c hc).isCell

/-- **Cells of slabs do not overlap.** -/
theorem HeapInv.cells_apart {o' slab' c c' : Nat} (hs' : slab' ∈ chain o') (hc : IsCell slab o c)
    (hc' : IsCell slab' o' c') (hne : c ≠ c') : c + 2 ^ o ≤ c' ∨ c' + 2 ^ o' ≤ c := by
  by_cases hslab : slab = slab'
  · subst hslab
    obtain rfl : o = o' := (hi.order hs).symm.trans (hi.order hs')
    obtain ⟨i, _, rfl⟩ := hc
    obtain ⟨j, _, rfl⟩ := hc'
    rcases Nat.lt_trichotomy i j with hlt | rfl | hlt
    · have := Nat.mul_le_mul_right (2 ^ o) hlt
      rw [succ_mul] at this
      omega
    · exact absurd rfl hne
    · have := Nat.mul_le_mul_right (2 ^ o) hlt
      rw [succ_mul] at this
      omega
  · have hb := hc.bounds
    have hb' := hc'.bounds
    have happart := hi.slab_apart hs hs' hslab
    omega

/-- **A slab and a block of pages do not overlap.** -/
theorem HeapInv.pages_apart {page k : Nat} (hp : (⟨page, k⟩ : Block) ∈ P) :
    slab + SLAB_INIT_SIZE ≤ h.zone.addr page ∨
      h.zone.addr page + 2 ^ k * BUDDY_PAGE_SIZE ≤ slab := by
  obtain ⟨p, rfl⟩ := hi.base hs
  have hb : (⟨p, SLAB_BLOCK_ORDER⟩ : Block) ∈ slabBlocks h.zone chain := ⟨rfl, o, hs⟩
  have hne : (⟨p, SLAB_BLOCK_ORDER⟩ : Block) ≠ ⟨page, k⟩ := fun e =>
    disjoint_left.mp hi.apart hb (e ▸ hp)
  have hdisj := Block.le_of_disjoint (hi.buddy.tiles.disjoint (.inl (.inr (.inl hb)))
    (.inl (.inr (.inr hp))) hne)
  have hsize := slab_size_eq
  have h4 := page_size_eq
  simp only [Block.size, h4] at hdisj hsize
  simp only [Zone.addr, h4]
  omega

theorem HeapInv.cell_ne_page {c page k : Nat} (hc : IsCell slab o c) (hp : (⟨page, k⟩ : Block) ∈ P) :
    c ≠ h.zone.addr page := by
  have hb := hc.bounds
  have hpos := Nat.two_pow_pos o
  have hlen : 0 < 2 ^ k * BUDDY_PAGE_SIZE := Nat.mul_pos (Nat.two_pow_pos k) (by decide)
  have happart := hi.pages_apart hs hp
  omega

end

/-- The pages of the zone change hands, the slabs stay. -/
theorem HeapInv.setZone (hi : HeapInv h P chain free) {z : Zone} {P' : Set Block}
    (hkept : Kept h.zone z) (hbuddy : BuddyInv z (slabBlocks h.zone chain ∪ P') ∅)
    (hapart : Disjoint (slabBlocks h.zone chain) P') : HeapInv { h with zone := z } P' chain free := by
  have haddr := Zone.addr_congr hkept.startAddr
  have hblocks := slabBlocks_congr hkept.startAddr chain
  constructor
  case start => exact hkept.startAddr ▸ hi.start
  case buddy => exact hblocks ▸ hbuddy
  case apart => exact hblocks ▸ hapart
  case chained => exact hi.chained
  case base =>
    intro o slab hs
    obtain ⟨page, rfl⟩ := hi.base hs
    exact ⟨page, (haddr page).symm⟩
  case range => exact hi.range
  case order => exact hi.order
  case list => exact hi.list
  case slot => exact hi.slot
  case inSlab =>
    intro o page i hs hip
    rw [hkept.slab, haddr]
    exact hi.inSlab (haddr page ▸ hs) hip
  case noSlab =>
    intro i hslab
    obtain ⟨o, page, hs, hip⟩ := hi.noSlab i (hkept.slab i ▸ hslab)
    exact ⟨o, page, haddr page ▸ hs, hip⟩

end Heap

section Inv

variable {s : MmState} {chain free : Nat → List Nat}

variable {a : Alloc} {o slab size : Nat}

section

variable (hi : MmInv s chain free) (ha : a ∈ s.live)

include hi ha

theorem MmInv.pageBlock (horigin : a.origin = .block o) :
    ∃ page, a.addr = s.heap.zone.addr page ∧
      (⟨page, o⟩ : Block) ∈ pageBlocks s.heap.zone s.live := by
  obtain ⟨page, he⟩ := hi.block ha horigin
  exact ⟨page, he, a, ha, he, horigin⟩

/-- **Live memory keeps apart from every other cell.** -/
theorem MmInv.live_apart {c : Nat} (hs : slab ∈ chain o) (hc : IsCell slab o c) (hne : a.addr ≠ c) :
    a.addr + a.origin.len ≤ c ∨ c + 2 ^ o ≤ a.addr := by
  cases horigin : a.origin with
  | slot slab' o' =>
    obtain ⟨hs', hslot, _⟩ := hi.slot ha horigin
    exact hi.heap.cells_apart hs' hs hslot.isCell hc hne
  | block k =>
  obtain ⟨page, he, hp⟩ := hi.pageBlock ha horigin
  have hb := hc.bounds
  have hap := hi.heap.pages_apart hs hp
  simp only [Origin.len]
  omega

theorem MmInv.addr_ne {c : Nat} (hs : slab ∈ chain o) (hc : c ∈ slab :: free slab) :
    a.addr ≠ c := by
  cases horigin : a.origin with
  | slot slab' o' =>
    obtain ⟨hs', hslot, hnot, _⟩ := hi.slot ha horigin
    rcases List.mem_cons.mp hc with rfl | hc
    · exact hi.heap.slot_ne hs' hs hslot
    intro e
    have hsame := (hi.heap.slot_word hs' hs hslot).2 c (hi.heap.slot hs c hc) e
    rw [hsame, e] at hnot
    exact hnot hc
  | block k =>
    obtain ⟨page, he, hp⟩ := hi.pageBlock ha horigin
    exact fun e => hi.heap.cell_ne_page hs (hi.heap.isCell_of_mem hs hc) hp (e.symm.trans he)

end

/-! ## 5. Memory comes and goes -/

section

variable {free' chain' : Nat → List Nat} {ptr : Nat} {h : Heap} (hi : MmInv s chain free)
  (hinv : HeapInv h (pageBlocks s.heap.zone s.live) chain' free')
  (htook : Took s.heap chain free o ptr slab h chain' free') (hsize : size ≤ 2 ^ o)

include hi hinv htook hsize

/-- A slot is handed out. -/
theorem MmInv.addSlot : MmInv ⟨h, ⟨ptr, size, .kfree, .slot slab o⟩ :: s.live⟩ chain' free' := by
  have hP := pageBlocks_slot htook.startAddr s.live ptr size .kfree slab o
  have hold : ∀ {a slab' o'}, a ∈ s.live → a.origin = .slot slab' o' →
      slab' ∈ chain' o' ∧ IsSlot slab' o' a.addr ∧ a.addr ∉ free' slab' ∧ a.api = .kfree := by
    intro a slab' o' ha horigin
    obtain ⟨hs, hslot, hnot, hapi⟩ := hi.slot ha horigin
    exact ⟨htook.slabs hs, hslot, fun hm => hnot (htook.slots hs _ hm), hapi⟩
  have hnew : ∀ a ∈ s.live, ptr ≠ a.addr := by
    intro a ha e
    cases horigin : a.origin with
    | slot slab' o' =>
      obtain ⟨hs, hslot, hnot, _⟩ := hi.slot ha horigin
      have hsame := (hinv.slot_word htook.held (htook.slabs hs) htook.slot).2 _ hslot e
      rw [← e, ← hsame] at hnot
      exact hnot (htook.was (hsame ▸ hs))
    | block k =>
      obtain ⟨page, he, hp⟩ := hi.pageBlock ha horigin
      refine hinv.cell_ne_page htook.held htook.slot.isCell hp ?_
      rw [Zone.addr_congr htook.startAddr]
      exact e.trans he
  constructor
  case heap => exact hP ▸ hinv
  case filled =>
    intro o' hlow hhigh e
    obtain ⟨c, rest, hcons⟩ := List.exists_cons_of_ne_nil (hi.filled hlow hhigh)
    have hc : c ∈ chain' o' := htook.slabs (hcons ▸ List.mem_cons_self)
    rw [e] at hc
    cases hc
  case slot =>
    intro a slab' o' ha horigin
    rcases List.mem_cons.mp ha with rfl | ha
    · cases horigin
      exact ⟨htook.held, htook.slot, htook.taken, rfl⟩
    · exact hold ha horigin
  case block =>
    intro a k ha horigin
    rcases List.mem_cons.mp ha with rfl | ha
    · cases horigin
    · obtain ⟨page, he⟩ := hi.block ha horigin
      exact ⟨page, he.trans (Zone.addr_congr htook.startAddr page).symm⟩
  case nodup => exact List.pairwise_cons.mpr ⟨hnew, hi.nodup⟩
  case long => exact List.forall_mem_cons.mpr ⟨hsize, hi.long⟩

/-- The same, as the call records it: a slot is not `NULL`. -/
theorem MmInv.recordSlot :
    ptr ≠ 0 ∧ s.record .kfree size (ptr, .slot slab o, h) =
        ⟨h, ⟨ptr, size, .kfree, .slot slab o⟩ :: s.live⟩ ∧
      MmInv (s.record .kfree size (ptr, .slot slab o, h)) chain' free' := by
  have hne : ptr ≠ 0 := by
    have := (htook.slot.bounds (hinv.range htook.held).1).1
    omega
  have hrec : s.record .kfree size (ptr, .slot slab o, h) =
      ⟨h, ⟨ptr, size, .kfree, .slot slab o⟩ :: s.live⟩ := by
    rw [MmState.record, if_neg hne]
  exact ⟨hne, hrec, hrec ▸ hi.addSlot hinv htook hsize⟩

end

section

variable (hi : MmInv s chain free)

include hi

/-- A block of pages is handed out. -/
theorem MmInv.addBlock {z : Zone} {page : Nat} (api : Api) (hkept : Kept s.heap.zone z)
    (hnew : (⟨page, o⟩ : Block) ∉ s.taken chain)
    (hbuddy : BuddyInv z (insert ⟨page, o⟩ (s.taken chain)) ∅)
    (hsize : size ≤ 2 ^ o * BUDDY_PAGE_SIZE) :
    MmInv ⟨{ s.heap with zone := z }, ⟨z.addr page, size, api, .block o⟩ :: s.live⟩ chain free := by
  have haddr := Zone.addr_congr hkept.startAddr
  have hP : pageBlocks z (⟨z.addr page, size, api, .block o⟩ :: s.live) =
      insert ⟨page, o⟩ (pageBlocks s.heap.zone s.live) := by
    ext b
    rw [mem_insert_iff, ← pageBlocks_congr hkept.startAddr]
    simp only [pageBlocks, mem_ofPred_eq, List.mem_cons, exists_eq_or_imp, Origin.block.injEq,
      Block.ext_iff]
    refine or_congr_left ?_
    constructor
    · rintro ⟨hp, ho⟩
      exact ⟨(Zone.addr_inj hp).symm, ho.symm⟩
    · rintro ⟨hp, ho⟩
      exact ⟨hp ▸ rfl, ho.symm⟩
  have hinv : HeapInv { s.heap with zone := z }
      (insert ⟨page, o⟩ (pageBlocks s.heap.zone s.live)) chain free := by
    refine hi.heap.setZone hkept ?_ ?_
    · rw [union_insert]
      exact hbuddy
    · exact disjoint_insert_right.mpr ⟨fun hm => hnew (.inl hm), hi.heap.apart⟩
  have hfresh : ∀ a ∈ s.live, z.addr page ≠ a.addr := by
    intro a ha e
    cases horigin : a.origin with
    | slot slab o' =>
      obtain ⟨hs, hslot, _⟩ := hi.slot ha horigin
      exact hinv.cell_ne_page hs hslot.isCell (mem_insert _ _) e.symm
    | block k =>
    obtain ⟨p, he, hp⟩ := hi.pageBlock ha horigin
    obtain rfl : page = p := Zone.addr_inj ((haddr page).symm.trans (e.trans he))
    have hm : (⟨page, k⟩ : Block) ∈ s.taken chain :=
      .inr hp
    have hsame := hbuddy.tiles.start_unique (b := ⟨page, k⟩) (c := ⟨page, o⟩)
      (.inl (.inr (mem_insert_of_mem _ hm))) (.inl (.inr (mem_insert _ _))) rfl
    exact hnew (hsame ▸ hm)
  constructor
  case heap => exact hP ▸ hinv
  case filled => exact hi.filled
  case slot =>
    intro a slab o' ha horigin
    rcases List.mem_cons.mp ha with rfl | ha
    · cases horigin
    · exact hi.slot ha horigin
  case block =>
    intro a k ha horigin
    rcases List.mem_cons.mp ha with rfl | ha
    · exact ⟨page, rfl⟩
    · obtain ⟨p, he⟩ := hi.block ha horigin
      exact ⟨p, he.trans (haddr p).symm⟩
  case nodup => exact List.pairwise_cons.mpr ⟨hfresh, hi.nodup⟩
  case long => exact List.forall_mem_cons.mpr ⟨hsize, hi.long⟩

/-- A live slot comes back. -/
theorem MmInv.dropSlot (ha : a ∈ s.live) (horigin : a.origin = .slot slab o) :
    MmInv (s.release a.addr ((s.heap.store a.addr (s.heap.mem slab)).store slab a.addr)) chain
      (update free slab (a.addr :: free slab)) := by
  obtain ⟨hs, hslot, hnot, _⟩ := hi.slot ha horigin
  have hP : pageBlocks s.heap.zone (s.live.filter (·.addr ≠ a.addr)) =
      pageBlocks s.heap.zone s.live := by
    ext b
    refine ⟨fun ⟨c, hc, hb⟩ => ⟨c, List.mem_of_mem_filter hc, hb⟩, fun ⟨c, hc, he, ho⟩ => ?_⟩
    refine ⟨c, List.mem_filter.mpr ⟨hc, decide_eq_true fun e => ?_⟩, he, ho⟩
    -- pages do not start in a slab
    have hp : (⟨b.start, b.order⟩ : Block) ∈ pageBlocks s.heap.zone s.live := ⟨c, hc, he, ho⟩
    exact hi.heap.cell_ne_page hs hslot.isCell hp (e.symm.trans he)
  constructor
  case heap => exact hP.symm ▸ inv_give hi.heap hs hslot hnot
  case filled => exact hi.filled
  case slot =>
    intro c slab' o' hc hco
    obtain ⟨hc, hne⟩ := List.mem_filter.mp hc
    obtain ⟨hs', hslot', hnot', hapi⟩ := hi.slot hc hco
    refine ⟨hs', hslot', ?_, hapi⟩
    by_cases hslab : slab' = slab
    · subst hslab
      rw [update_self]
      exact List.not_mem_cons_of_ne_of_not_mem (of_decide_eq_true hne) hnot'
    · rwa [update_of_ne hslab]
  case block => exact fun hc hco => hi.block (List.mem_of_mem_filter hc) hco
  case nodup => exact hi.nodup.filter _
  case long => exact fun c hc => hi.long c (List.mem_of_mem_filter hc)

/-- A live block of pages comes back. -/
theorem MmInv.dropBlock {page : Nat} {z : Zone} (haddr : a.addr = s.heap.zone.addr page)
    (hp : (⟨page, o⟩ : Block) ∈ pageBlocks s.heap.zone s.live) (hkept : Kept s.heap.zone z)
    (hbuddy : BuddyInv z (s.taken chain \ {⟨page, o⟩}) ∅) :
    MmInv (s.release a.addr { s.heap with zone := z }) chain free := by
  have hP : pageBlocks z (s.live.filter (·.addr ≠ a.addr)) =
      pageBlocks s.heap.zone s.live \ {⟨page, o⟩} := by
    rw [pageBlocks_congr hkept.startAddr]
    ext b
    constructor
    · rintro ⟨c, hc, he, ho⟩
      obtain ⟨hc, hne⟩ := List.mem_filter.mp hc
      refine ⟨⟨c, hc, he, ho⟩, fun e => of_decide_eq_true hne ?_⟩
      rw [he, haddr, mem_singleton_iff.mp e]
    · rintro ⟨⟨c, hc, he, ho⟩, hne⟩
      refine ⟨c, List.mem_filter.mpr ⟨hc, decide_eq_true fun e => hne ?_⟩, he, ho⟩
      have hstart : b.start = page := Zone.addr_inj (he.symm.trans (e.trans haddr))
      exact hi.heap.buddy.tiles.start_unique (c := ⟨page, o⟩)
        (.inl (.inr (.inr ⟨c, hc, he, ho⟩))) (.inl (.inr (.inr hp))) hstart
  have hsdiff : s.taken chain \ {⟨page, o⟩} =
      slabBlocks s.heap.zone chain ∪ pageBlocks s.heap.zone s.live \ {⟨page, o⟩} := by
    rw [union_sdiff_distrib, sdiff_singleton_eq_self]
    exact fun hm => disjoint_left.mp hi.heap.apart hm hp
  constructor
  case heap =>
    refine hP.symm ▸ hi.heap.setZone hkept (hsdiff ▸ hbuddy) ?_
    exact hi.heap.apart.mono_right sdiff_subset
  case filled => exact hi.filled
  case slot => exact fun hc hco => hi.slot (List.mem_of_mem_filter hc) hco
  case block =>
    intro c k hc hco
    obtain ⟨p, he⟩ := hi.block (List.mem_of_mem_filter hc) hco
    exact ⟨p, he.trans (Zone.addr_congr hkept.startAddr p).symm⟩
  case nodup => exact hi.nodup.filter _
  case long => exact fun c hc => hi.long c (List.mem_of_mem_filter hc)

/-- **A store to live memory** changes no header and no list. -/
theorem MmInv.store {word value : Nat} (ha : a ∈ s.live) (hlow : a.addr < word + 8)
    (hhigh : word < a.addr + a.origin.len) :
    MmInv { s with heap := s.heap.store word value } chain free := by
  have hword : ∀ {o slab c x}, slab ∈ chain o → c ∈ slab :: free slab → x + 8 ≤ 32 →
      (s.heap.store word value).mem (c + x) = s.heap.mem (c + x) := by
    intro o slab c x hs hc hx
    refine update_of_ne (fun e => ?_) ..
    have hcell := hi.heap.isCell_of_mem hs hc
    have hap := hi.live_apart ha hs hcell (hi.addr_ne ha hs hc)
    have hpow := slot_size (hi.heap.range hs).1
    omega
  have hinv : HeapInv (s.heap.store word value) (pageBlocks s.heap.zone s.live) chain free := by
    refine hi.heap.lists (fun hs => ⟨hword hs List.mem_cons_self (by decide),
      hword hs List.mem_cons_self (by decide)⟩) fun {o slab} hs => ⟨?_, hi.heap.slot hs⟩
    have hhead : (s.heap.store word value).mem slab = s.heap.mem slab :=
      hword (x := 0) hs List.mem_cons_self (by decide)
    show Chain 0 (s.heap.store word value).mem ((s.heap.store word value).mem slab) (free slab)
    rw [hhead]
    exact (hi.heap.list hs).congr fun c hc =>
      hword (x := 0) hs (List.mem_cons_of_mem _ hc) (by decide)
  exact { hi with heap := hinv }

/-- **Other words come to stand behind the metadata array.** -/
theorem MmInv.behind {page : Page} (hok : BehindOk s (.behind page)) :
    MmInv (s.setBehind page) chain free where
  __ := hi
  heap := hi.heap.setZone ⟨rfl, rfl, fun _ => rfl⟩ { hi.heap.buddy with outside := hok } hi.heap.apart

end

/-! ## 6. The functions -/

theorem ldiff_shiftRight (a k : Nat) : Nat.ldiff a (2 ^ k - 1) >>> k = a >>> k := by
  refine eq_of_testBit_eq fun i => ?_
  simp [testBit_ldiff, testBit_shiftRight]

theorem roundUp_div (size : Nat) :
    roundUp size BUDDY_PAGE_SIZE / BUDDY_PAGE_SIZE = (size + BUDDY_PAGE_SIZE - 1) / BUDDY_PAGE_SIZE := by
  have hshift := ldiff_shiftRight (size + BUDDY_PAGE_SIZE - 1) BUDDY_PAGE_SHIFT
  rwa [shiftRight_eq_div_pow, shiftRight_eq_div_pow] at hshift

/-- The pages for a large size are enough, and of an order the buddy allocator has. -/
theorem largeOrder_spec (hsize : size ≤ MAX_SIZE) :
    size ≤ 2 ^ largeOrder size * BUDDY_PAGE_SIZE ∧ largeOrder size < BUDDY_MAX_ORDER := by
  have h4 := page_size_eq
  have hmax : MAX_SIZE = 2 ^ 13 * 4096 := by decide
  unfold largeOrder
  split
  · rename_i hle
    exact ⟨by simpa using hle, by decide⟩
  let pgNum := roundUp size BUDDY_PAGE_SIZE / BUDDY_PAGE_SIZE
  have hpg : pgNum = (size + 4096 - 1) / 4096 := h4 ▸ roundUp_div size
  have hle : pgNum ≤ 2 ^ 13 := by omega
  obtain ⟨hroom, hleast⟩ := sizeToOrder_spec pgNum (by omega)
  have heq : sizeToPageOrder size = sizeToOrder pgNum := rfl
  rw [heq, h4]
  exact ⟨by omega, (hleast 13 hle).trans_lt (by decide)⟩

section

variable (hi : MmInv s chain free)

include hi

/-- **`get_pages`** hands out a block of the order, or there is none. -/
theorem getPages_spec {order : Nat} (api : Api) (ho : order < BUDDY_MAX_ORDER)
    (hsize : size ≤ 2 ^ order * BUDDY_PAGE_SIZE) :
    ∃ r, getPages s.heap order = some r ∧ MmInv (s.record api size r) chain free ∧
      (r.1 ≠ 0 ∨ ∀ b ∈ s.heap.zone.free, b.order < order) := by
  obtain ⟨r, z, hget, hkept, hr⟩ := buddyGetPages_spec hi.heap.buddy ho
  refine ⟨(pageToVirt z r, .block order, { s.heap with zone := z }), ?_, ?_⟩
  · simp only [getPages, hget, bind_eq_bind, bind_some]
  cases r with
  | none =>
    obtain ⟨rfl, hfew⟩ := hr
    exact ⟨hi, .inr hfew⟩
  | some page =>
  obtain ⟨hnew, hbuddy⟩ := hr
  have hinv := hi.addBlock api hkept hnew hbuddy hsize
  have hne : pageToVirt z (some page) ≠ 0 := by
    have := hkept.startAddr ▸ hi.heap.start
    simp only [pageToVirt]
    omega
  refine ⟨?_, .inl hne⟩
  rw [MmState.record, if_neg hne]
  exact hinv

/-- **`kmalloc`** returns memory of the size, unless there is no block of pages for it. -/
theorem kmalloc_spec (hsize : size ≤ MAX_SIZE) :
    (kmalloc s.heap size = none ∧ ∀ b ∈ s.heap.zone.free, b.order < kmallocOrder size) ∨
      ∃ r, kmalloc s.heap size = some r ∧
        (∃ chain' free', MmInv (s.record .kfree size r) chain' free') ∧
        (r.1 ≠ 0 ∨ ∀ b ∈ s.heap.zone.free, b.order < kmallocOrder size) := by
  by_cases hsmall : size ≤ KMALLOC_SLAB_SIZE
  · have horder : kmallocOrder size = SLAB_BLOCK_ORDER := if_pos hsmall
    obtain ⟨hroom, ho⟩ := slabOrder_spec size hsmall
    have hcall : allocInSlab s.heap size =
        allocInSlabNolock 2 s.heap (s.heap.slabs (slabOrder size)) (slabOrder size) :=
      if_neg (Nat.not_lt_of_le hsmall)
    rw [kmalloc, if_pos hsmall, horder, hcall]
    have hslabs := hi.heap.chained (slabOrder size)
    obtain ⟨header, rest, hcons⟩ := List.exists_cons_of_ne_nil (hi.filled ho.1 ho.2)
    rw [hcons] at hslabs
    obtain rfl := hslabs.1
    rcases allocInSlabNolock_spec hi.heap ho hslabs (fun c hc => hcons ▸ hc) (.inl rfl) with
      ⟨hnone, hfew⟩ | ⟨ptr, slab, h', chain', free', hsome, hinv, htook, _⟩
    · refine .inl ⟨?_, hfew⟩
      rw [hnone]
      rfl
    · obtain ⟨hne, _, hinv'⟩ := hi.recordSlot hinv htook hroom
      refine .inr ⟨(ptr, .slot slab (slabOrder size), h'), ?_, ⟨chain', free', hinv'⟩, .inl hne⟩
      simp only [hsome, bind_eq_bind, bind_some]
  · have horder : kmallocOrder size = largeOrder size := if_neg hsmall
    obtain ⟨hroom, ho⟩ := largeOrder_spec hsize
    obtain ⟨r, hget, hinv, hr⟩ := getPages_spec hi .kfree ho hroom
    rw [kmalloc, if_neg hsmall, horder]
    exact .inr ⟨r, hget, ⟨chain, free, hinv⟩, hr⟩

/-- **The release of pages**: no slab is named on the first page, and the block goes back. -/
theorem freeBlock_spec (ha : a ∈ s.live) (horigin : a.origin = .block o) :
    ∃ page z, virtToPage s.heap.zone a.addr = some page ∧ (s.heap.zone.page page).slab = 0 ∧
      buddyFreePages s.heap.zone page = some z ∧
      MmInv (s.release a.addr { s.heap with zone := z }) chain free ∧
      GivesBack s (s.release a.addr { s.heap with zone := z }) a := by
  obtain ⟨page, haddr, hp⟩ := hi.pageBlock ha horigin
  have hA : (⟨page, o⟩ : Block) ∈ s.taken chain :=
    .inr hp
  have hlt : page < s.heap.zone.pageNum := hi.heap.buddy.lt (c := ⟨page, o⟩) (.inl (.inr hA))
  obtain ⟨z, hfree, hbuddy, hkept⟩ := buddyFreePages_spec hi.heap.buddy hA
  have hslab : (s.heap.zone.page page).slab = 0 := by
    rw [Zone.page_of_lt hlt]
    by_contra hne
    obtain ⟨o', p, hs, hin⟩ := hi.heap.noSlab page hne
    have hb : (⟨p, SLAB_BLOCK_ORDER⟩ : Block) ∈ slabBlocks s.heap.zone chain := ⟨rfl, o', hs⟩
    have hsame := hi.heap.buddy.tiles.unique (.inl (.inr (.inl hb)))
      (.inl (.inr hA)) hin (Block.start_mem ⟨page, o⟩)
    exact disjoint_left.mp hi.heap.apart hb (hsame ▸ hp)
  have hvirt : virtToPage s.heap.zone a.addr = some page := by
    rw [haddr]
    exact virtToPage_addr (x := 0) hlt (by decide)
  refine ⟨page, z, hvirt, hslab, hfree, hi.dropBlock haddr hp hkept hbuddy, ?_⟩
  rw [GivesBack, horigin]
  refine ⟨rfl, page, haddr, ?_, freePlaces_erase hi.heap.buddy hbuddy hA hkept⟩
  rw [Zone.page_of_lt hlt]
  exact hi.heap.buddy.marked _ hA

/-- **`kfree`** gives back what is live. -/
theorem kfree_spec (ha : a ∈ s.live) :
    ∃ h', kfree s.heap a.addr = some h' ∧
      (∃ free', MmInv (s.release a.addr h') chain free') ∧ GivesBack s (s.release a.addr h') a := by
  cases horigin : a.origin with
  | slot slab o =>
    obtain ⟨hs, hslot, hnot, _⟩ := hi.slot ha horigin
    obtain ⟨hlow, hhigh⟩ := hslot.bounds (hi.heap.range hs).1
    have hpos := Nat.two_pow_pos o
    have hoff : slab + (a.addr - slab) = a.addr := by omega
    obtain ⟨i, hvirt, hslab⟩ := hi.heap.page_of_word (x := a.addr - slab) hs (by omega)
    have hne : (s.heap.zone.page i).slab ≠ 0 := by
      rw [hslab]
      exact (hi.heap.chained o).ne_null hs
    have hinv := hi.dropSlot ha horigin
    refine ⟨_, ?_, ⟨_, hinv⟩, ?_⟩
    · rw [hoff] at hvirt
      simp only [kfree, hvirt, bind_eq_bind, bind_some]
      rw [if_pos hne]
      exact freeInSlab_eq hi.heap hs hslot
    · rw [GivesBack, horigin]
      have hlist := hinv.heap.list hs
      rw [update_self] at hlist
      exact ⟨rfl, free slab, hi.heap.list hs, hlist⟩
  | block o =>
    obtain ⟨page, z, hvirt, hslab, hfree, hinv, hback⟩ := freeBlock_spec hi ha horigin
    refine ⟨_, ?_, ⟨free, hinv⟩, hback⟩
    simp only [kfree, hvirt, bind_eq_bind, bind_some, hfree]
    exact if_neg fun hne => hne hslab

/-- **`free_pages`** gives back what it is the function for. -/
theorem freePages_spec (ha : a ∈ s.live) (hapi : a.api = .freePages) :
    ∃ h', freePages s.heap a.addr = some h' ∧ MmInv (s.release a.addr h') chain free ∧
      GivesBack s (s.release a.addr h') a := by
  cases horigin : a.origin with
  | slot slab o =>
    obtain ⟨_, _, _, hkfree⟩ := hi.slot ha horigin
    rw [hapi] at hkfree
    cases hkfree
  | block o =>
    obtain ⟨page, z, hvirt, _, hfree, hinv, hback⟩ := freeBlock_spec hi ha horigin
    refine ⟨_, ?_, hinv, hback⟩
    simp only [freePages, hvirt, bind_eq_bind, bind_some, hfree]

/-! ## 7. Over a run -/

/-- **A step without a slab** keeps the invariant for the same slabs. -/
theorem MmState.step_chain {s' : MmState} {act : MmAct}
    (hact : ∀ size, act = .kmalloc size → KMALLOC_SLAB_SIZE < size) (hs : s.step act = some s') :
    ∃ free', MmInv s' chain free' := by
  cases act with
  | kmalloc size =>
    obtain ⟨hsize, hs⟩ := ite_none_right_eq_some.mp hs
    obtain ⟨r, hr, rfl⟩ := map_eq_some_iff.mp hs
    obtain ⟨hroom, ho⟩ := largeOrder_spec hsize
    obtain ⟨r', hr', hinv, _⟩ := getPages_spec hi .kfree ho hroom
    rw [kmalloc, if_neg (Nat.not_le_of_lt (hact size rfl))] at hr
    obtain rfl := some.inj (hr.symm.trans hr')
    exact ⟨free, hinv⟩
  | kfree ptr =>
    obtain ⟨⟨a, ha, rfl, _⟩, hs⟩ := ite_none_right_eq_some.mp hs
    obtain ⟨h', hr, rfl⟩ := map_eq_some_iff.mp hs
    obtain ⟨h'', hr', hinv, _⟩ := kfree_spec hi ha
    obtain rfl := some.inj (hr.symm.trans hr')
    exact hinv
  | getPages order =>
    obtain ⟨r, hr, rfl⟩ := map_eq_some_iff.mp hs
    have ho : order < BUDDY_MAX_ORDER := by
      by_contra hge
      simp [getPages, buddyGetPages, not_lt.mp hge] at hr
    obtain ⟨r', hr', hinv, _⟩ := getPages_spec hi .freePages ho le_rfl
    obtain rfl := some.inj (hr.symm.trans hr')
    exact ⟨free, hinv⟩
  | freePages ptr =>
    obtain ⟨⟨a, ha, rfl, hapi⟩, hs⟩ := ite_none_right_eq_some.mp hs
    obtain ⟨h', hr, rfl⟩ := map_eq_some_iff.mp hs
    obtain ⟨h'', hr', hinv, _⟩ := freePages_spec hi ha hapi
    obtain rfl := some.inj (hr.symm.trans hr')
    exact ⟨free, hinv⟩
  | write word value =>
    obtain ⟨⟨a, ha, hlow, hhigh⟩, hs⟩ := ite_none_right_eq_some.mp hs
    cases hs
    exact ⟨free, hi.store ha hlow hhigh⟩

end

/-- **Every step keeps the invariant.** -/
theorem MmState.step_inv {s' : MmState} {act : MmAct} (hi : ∃ chain free, MmInv s chain free)
    (hs : s.step act = some s') : ∃ chain free, MmInv s' chain free := by
  obtain ⟨chain, free, hi⟩ := hi
  by_cases hact : ∀ size, act = .kmalloc size → KMALLOC_SLAB_SIZE < size
  · exact ⟨chain, MmState.step_chain hi hact hs⟩
  push Not at hact
  obtain ⟨size, rfl, _⟩ := hact
  obtain ⟨hsize, hs⟩ := ite_none_right_eq_some.mp hs
  obtain ⟨r, hr, rfl⟩ := map_eq_some_iff.mp hs
  rcases kmalloc_spec hi hsize with ⟨hnone, _⟩ | ⟨r', hr', hinv, _⟩
  · rw [hnone] at hr
    cases hr
  · obtain rfl := some.inj (hr.symm.trans hr')
    exact hinv

theorem disjoint_ranges {x y m n : Nat} (h : x + m ≤ y ∨ y + n ≤ x) :
    Disjoint (Set.Ico x (x + m)) (Set.Ico y (y + n)) := by
  rw [disjoint_left]
  intro p hp hp'
  rw [mem_Ico] at hp hp'
  omega

section

variable (hi : MmInv s chain free)

include hi

/-- **Live ranges do not overlap.** -/
theorem MmInv.disjoint {b : Alloc} (ha : a ∈ s.live) (hb : b ∈ s.live) (hne : a.addr ≠ b.addr) :
    Disjoint a.bytes b.bytes := by
  cases hbo : b.origin with
  | slot slab o =>
    obtain ⟨hs, hslot, _⟩ := hi.slot hb hbo
    unfold Alloc.bytes
    rw [hbo]
    exact disjoint_ranges (hi.live_apart ha hs hslot.isCell hne)
  | block k =>
  obtain ⟨q, hq, hbp⟩ := hi.pageBlock hb hbo
  cases hao : a.origin with
  | slot slab o =>
    obtain ⟨hs, hslot, _⟩ := hi.slot ha hao
    unfold Alloc.bytes
    rw [hao]
    exact (disjoint_ranges (hi.live_apart hb hs hslot.isCell hne.symm)).symm
  | block j =>
  obtain ⟨p, hp, hap⟩ := hi.pageBlock ha hao
  have hpq : (⟨p, j⟩ : Block) ≠ ⟨q, k⟩ := by
    intro e
    cases e
    exact hne (hp.trans hq.symm)
  have hdisj := Block.le_of_disjoint (hi.heap.buddy.tiles.disjoint
    (.inl (.inr (.inr hap))) (.inl (.inr (.inr hbp))) hpq)
  unfold Alloc.bytes
  rw [hao, hbo, hp, hq]
  refine disjoint_ranges ?_
  have h4 := page_size_eq
  simp only [Block.size, Origin.len, Zone.addr, h4] at hdisj ⊢
  omega

/-- Blocks of the buddy allocator lie inside the memory. -/
theorem MmInv.block_inside {page k : Nat} (hb : (⟨page, k⟩ : Block) ∈ s.taken chain) :
    s.heap.zone.addr page + 2 ^ k * BUDDY_PAGE_SIZE ≤ s.heap.zone.addr s.heap.zone.pageNum := by
  have hin := hi.heap.buddy.tiles.inside _ (.inl (.inr hb))
  have h4 := page_size_eq
  simp only [Block.size, Zone.addr, h4] at hin ⊢
  omega

theorem MmInv.inside (ha : a ∈ s.live) :
    s.heap.zone.startAddr ≤ a.addr ∧
      a.addr + a.origin.len ≤ s.heap.zone.addr s.heap.zone.pageNum := by
  cases horigin : a.origin with
  | slot slab o =>
    obtain ⟨hs, hslot, _⟩ := hi.slot ha horigin
    obtain ⟨page, rfl⟩ := hi.heap.base hs
    have hb := hslot.isCell.bounds
    have hblock : (⟨page, SLAB_BLOCK_ORDER⟩ : Block) ∈ slabBlocks s.heap.zone chain := ⟨rfl, o, hs⟩
    have hin := hi.block_inside (.inl hblock)
    rw [← slab_size_eq] at hin
    have hlow : s.heap.zone.startAddr ≤ s.heap.zone.addr page := Nat.le_add_right _ _
    simp only [Origin.len]
    omega
  | block k =>
    obtain ⟨page, haddr, hp⟩ := hi.pageBlock ha horigin
    rw [haddr]
    exact ⟨Nat.le_add_right _ _, hi.block_inside (.inr hp)⟩

theorem MmInv.ok : MmOk s := by
  refine ⟨hi.nodup.imp_of_mem fun ha hb hne => hi.disjoint ha hb hne, hi.long, fun a ha => ?_,
    fun order hlow hhigh => ?_⟩
  · obtain ⟨hlow, hhigh⟩ := hi.inside ha
    exact Set.Ico_subset_Ico hlow hhigh
  refine ⟨chain order, hi.filled hlow hhigh, hi.heap.chained order, fun slab hs =>
    ⟨free slab, hi.heap.list hs, fun c hc a ha => ?_⟩⟩
  exact disjoint_ranges
    (hi.live_apart ha hs (hi.heap.isCell_of_mem hs hc) (hi.addr_ne ha hs hc))

end

end Inv

/-- After `mm_init` there is one slab for each order. -/
theorem mmInit_firstSlabs :
    (mmInit m mem = none ∧ m.pageNum < 7 * 2 ^ SLAB_BLOCK_ORDER) ∨
      ∃ z h chain free, mmInit m mem = some h ∧ z.pageNum = m.pageNum ∧
        FirstSlabs z 7 h chain free := by
  obtain ⟨z, hz, hbuddy, hnum, hstart, hslab⟩ := initBuddy_spec m.startAddr m.pageNum
  have hpos : 0 < z.startAddr := hstart ▸ m.notNull
  have hcall : mmInit m mem = initSlabs ⟨z, mem, fun _ => 0⟩ 7 := by
    simp only [mmInit, hz, bind_eq_bind, bind_some]
    rfl
  rw [hcall, ← hnum]
  rcases initSlabs_spec mem hbuddy hpos hslab (n := 7) (by decide) with
    hnone | ⟨h, chain, free, hsome, hf⟩
  · exact .inl hnone
  · exact .inr ⟨z, h, chain, free, hsome, rfl, hf⟩

theorem FirstSlabs.mmInv {z : Zone} {h : Heap} {chain free : Nat → List Nat}
    (hf : FirstSlabs z 7 h chain free) : MmInv ⟨h, []⟩ chain free := by
  have hP : pageBlocks h.zone [] = ∅ := eq_empty_of_forall_notMem fun b hb => by
    obtain ⟨a, ha, _⟩ := hb
    cases ha
  refine ⟨hP.symm ▸ hf.inv, fun hlow hhigh => ?_, nofun, nofun, List.Pairwise.nil, nofun⟩
  obtain ⟨slab, hone⟩ := hf.one hlow (lt_succ_of_le hhigh)
  rw [hone]
  exact List.cons_ne_nil _ _

section Behind

variable {z : Zone} {A : Set Block}

end Behind

end ChCore.Mm
