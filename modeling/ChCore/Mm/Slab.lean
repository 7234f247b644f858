/-
  File: ChCore/Mm/Slab.lean
  Subject: The slab allocator (`kernel/mm/slab.c`) over the buddy allocator.

  A slab is a block of 512 pages cut into slots of one size. The first slot holds the header; the
  free slots are a linked list through their own first words, the slabs of one size a linked list
  through their headers. Memory is the word stored at an address; the allocators read and write
  whole words at multiples of 8 from the start of a page.

  * `allocInSlabNolock_spec`, `freeInSlab_eq`, `initSlabs_spec` -- what the functions return, and
    when there is memory for it.
-/
import ChCore.Lib.Chain
import ChCore.Mm.Buddy

namespace ChCore.Mm

open Lib Function Option List

/-! ## 1. The source -/

def SLAB_INIT_SIZE : Nat := 2 * 1024 * 1024

def SLAB_MIN_ORDER : Nat := 5

def SLAB_MAX_ORDER : Nat := 11

/-- The memory system: the zone, the word at each address, and `slabs[]`. -/
structure Heap where
  zone : Zone
  mem : Nat → Nat
  slabs : Nat → Nat

def Heap.store (h : Heap) (addr value : Nat) : Heap :=
  { h with mem := update h.mem addr value }

/-- The loop of `size_to_order`, for numbers of 64 bits. -/
def shiftLoop : Nat → Nat → Nat → Nat
  | 0, _, order => order
  | fuel + 1, tmp, order => if tmp > 1 then shiftLoop fuel (tmp >>> 1) (order + 1) else order

def sizeToOrder (size : Nat) : Nat :=
  let order := shiftLoop 64 size 0
  if size > 1 <<< order then order + 1 else order

def orderToSize (order : Nat) : Nat := 1 <<< order

/-- The loop of `alloc_slab_memory` over the first pages of the block at `addr`. -/
def markSlab (z : Zone) (addr : Nat) : Nat → Option Zone
  | 0 => some z
  | i + 1 => do
    let z ← markSlab z addr i
    let page ← virtToPage z (addr + i * BUDDY_PAGE_SIZE)
    z.setPage page { z.page page with slab := addr }

def allocSlabMemory (h : Heap) (size : Nat) : Option (Nat × Heap) :=
  let order := sizeToOrder (size / BUDDY_PAGE_SIZE)
  match buddyGetPages h.zone order with
  | some (some page, z) => do
    let addr := pageToVirt z (some page)
    let z ← markSlab z addr (orderToSize order)
    some (addr, { h with zone := z })
  -- `BUG_ON(1)` when there is no memory
  | _ => none

/-- The loop of `init_slab_cache`: `n` more slots follow the one at `slot`. -/
def linkSlots (objSize : Nat) : Nat → (Nat → Nat) → Nat → (Nat → Nat)
  | 0, mem, slot => update mem slot 0
  | n + 1, mem, slot =>
    linkSlots objSize n (update mem slot (slot + objSize)) (slot + objSize)

/-- `init_slab_cache`. The header has `free_list_head`, `next_slab` and `order` at 0, 8 and 16. -/
def initSlabCache (h : Heap) (order size : Nat) : Option (Nat × Heap) := do
  let (addr, h) ← allocSlabMemory h size
  let objSize := orderToSize order
  let cnt := size / objSize - 1
  let slot := addr + objSize
  let h := ((h.store addr slot).store (addr + 8) 0).store (addr + 16) order
  some (addr, { h with mem := linkSlots objSize (cnt - 1) h.mem slot })

/-- The first free slot of a slab, taken off its list. -/
def takeSlot (h : Heap) (slab : Nat) : Option (Nat × Heap) :=
  let firstSlot := h.mem slab
  if firstSlot ≠ 0 then some (firstSlot, h.store slab (h.mem firstSlot)) else none

/-- The loop of `_alloc_in_slab_nolock` over the slabs from `nextSlab` on: a slot and its slab, or
    nothing (`none` = the fuel has run out). -/
def searchSlabs (h : Heap) : Nat → Nat → Option (Option (Nat × Nat × Heap))
  | 0, _ => none
  | fuel + 1, nextSlab =>
    if nextSlab ≠ 0 then
      match takeSlot h nextSlab with
      | some (slot, h') => some (some (slot, nextSlab, h'))
      | none => searchSlabs h fuel (h.mem (nextSlab + 8))
    else some none

/-- `_alloc_in_slab_nolock`: the slot, and the slab it comes from. Its recursion needs two calls at
    most. -/
def allocInSlabNolock : Nat → Heap → Nat → Nat → Option (Nat × Nat × Heap)
  | 0, _, _, _ => none
  | calls + 1, h, slabHeader, order =>
    match takeSlot h slabHeader with
    | some (slot, h') => some (slot, slabHeader, h')
    | none =>
      match searchSlabs h (h.zone.pageNum + 1) (h.mem (slabHeader + 8)) with
      | none => none
      | some (some r) => some r
      | some none => do
        let (newSlab, h) ← initSlabCache h order SLAB_INIT_SIZE
        let h := h.store (newSlab + 8) slabHeader
        let h := { h with slabs := update h.slabs order newSlab }
        allocInSlabNolock calls h newSlab order

/-- The loop of `init_slab` over the first `n` orders. -/
def initSlabs (h : Heap) : Nat → Option Heap
  | 0 => some h
  | n + 1 => do
    let h ← initSlabs h n
    let order := SLAB_MIN_ORDER + n
    let (slab, h) ← initSlabCache h order SLAB_INIT_SIZE
    some { h with slabs := update h.slabs order slab }

def initSlab (h : Heap) : Option Heap := initSlabs h (SLAB_MAX_ORDER + 1 - SLAB_MIN_ORDER)

/-- The order of the slots for a size. -/
def slabOrder (size : Nat) : Nat :=
  let order := sizeToOrder size
  if order < SLAB_MIN_ORDER then SLAB_MIN_ORDER else order

def allocInSlab (h : Heap) (size : Nat) : Option (Nat × Nat × Heap) :=
  if size > orderToSize SLAB_MAX_ORDER then none
  else allocInSlabNolock 2 h (h.slabs (slabOrder size)) (slabOrder size)

/-- `free_in_slab`. The order in the header only chooses the lock. -/
def freeInSlab (h : Heap) (addr : Nat) : Option Heap := do
  let page ← virtToPage h.zone addr
  let slab := (h.zone.page page).slab
  let h := h.store addr (h.mem slab)
  some (h.store slab addr)

/-! ## 2. The invariant -/

/-- The address of a page. -/
def Zone.addr (z : Zone) (page : Nat) : Nat := z.startAddr + page * BUDDY_PAGE_SIZE

/-- The order of the blocks that become slabs. -/
def SLAB_BLOCK_ORDER : Nat := 9

/-- The blocks of the slabs on the lists `chain`. -/
def slabBlocks (z : Zone) (chain : Nat → List Nat) : Set Block :=
  {b | b.order = SLAB_BLOCK_ORDER ∧ ∃ order, z.addr b.start ∈ chain order}

/-- A slot of a slab, behind the header slot. -/
def IsSlot (slab order s : Nat) : Prop :=
  ∃ i, 1 ≤ i ∧ (i + 1) * 2 ^ order ≤ SLAB_INIT_SIZE ∧ s = slab + i * 2 ^ order

/-- **The invariant of the two allocators.** `chain` are the slabs of each order, `free` the free
    slots of each slab, `P` the blocks given out as pages. -/
structure HeapInv (h : Heap) (P : Set Block) (chain free : Nat → List Nat) : Prop where
  start : 0 < h.zone.startAddr
  buddy : BuddyInv h.zone (slabBlocks h.zone chain ∪ P) ∅
  apart : Disjoint (slabBlocks h.zone chain) P
  chained : ∀ order, Chain 0 (fun slab => h.mem (slab + 8)) (h.slabs order) (chain order)
  base : ∀ {order slab}, slab ∈ chain order → ∃ page, slab = h.zone.addr page
  range : ∀ {order slab}, slab ∈ chain order → SLAB_MIN_ORDER ≤ order ∧ order ≤ SLAB_MAX_ORDER
  order : ∀ {order slab}, slab ∈ chain order → h.mem (slab + 16) = order
  list : ∀ {order slab}, slab ∈ chain order → Chain 0 h.mem (h.mem slab) (free slab)
  slot : ∀ {order slab}, slab ∈ chain order → ∀ s ∈ free slab, IsSlot slab order s
  inSlab : ∀ {order page i}, h.zone.addr page ∈ chain order →
    i ∈ (⟨page, SLAB_BLOCK_ORDER⟩ : Block).places → (h.zone.pages i).slab = h.zone.addr page
  noSlab : ∀ i, (h.zone.pages i).slab ≠ 0 → ∃ order page, h.zone.addr page ∈ chain order ∧
    i ∈ (⟨page, SLAB_BLOCK_ORDER⟩ : Block).places

variable {z : Zone} {chain free : Nat → List Nat}

abbrev HasSlabs (order : Nat) : Prop := SLAB_MIN_ORDER ≤ order ∧ order ≤ SLAB_MAX_ORDER

theorem Zone.addr_congr {z' : Zone} (h : z'.startAddr = z.startAddr) (page : Nat) :
    z'.addr page = z.addr page := by
  rw [Zone.addr, h, Zone.addr]

theorem slab_size_eq : SLAB_INIT_SIZE = 2 ^ SLAB_BLOCK_ORDER * BUDDY_PAGE_SIZE := by decide

theorem page_size_eq : BUDDY_PAGE_SIZE = 4096 := by decide

theorem slot_size {order : Nat} (ho : SLAB_MIN_ORDER ≤ order) : 32 ≤ 2 ^ order :=
  (by decide : 32 ≤ 2 ^ SLAB_MIN_ORDER).trans (Nat.pow_le_pow_right (Nat.succ_pos 1) ho)

theorem IsSlot.bounds {slab order s : Nat} (hs : IsSlot slab order s) (ho : SLAB_MIN_ORDER ≤ order) :
    slab + 32 ≤ s ∧ s + 2 ^ order ≤ slab + SLAB_INIT_SIZE := by
  obtain ⟨i, hi, hle, rfl⟩ := hs
  have hpow := slot_size ho
  have hmul : 2 ^ order ≤ i * 2 ^ order := Nat.le_mul_of_pos_left _ hi
  rw [add_mul] at hle
  omega

section Inv

variable {h : Heap} {P : Set Block} {chain free : Nat → List Nat}

variable {o o' slab slab' x s objSize n slot page : Nat} {mem : Nat → Nat} {rest : List Nat}
  {z : Zone}

section

variable (hi : HeapInv h P chain free) (hs : slab ∈ chain o) (hs' : slab' ∈ chain o')

include hi hs hs'

/-- **Slabs do not overlap.** -/
theorem HeapInv.slab_apart (hne : slab ≠ slab') :
    slab + SLAB_INIT_SIZE ≤ slab' ∨ slab' + SLAB_INIT_SIZE ≤ slab := by
  obtain ⟨page, rfl⟩ := hi.base hs
  obtain ⟨page', rfl⟩ := hi.base hs'
  have hb : (⟨page, SLAB_BLOCK_ORDER⟩ : Block) ∈ slabBlocks h.zone chain := ⟨rfl, o, hs⟩
  have hb' : (⟨page', SLAB_BLOCK_ORDER⟩ : Block) ∈ slabBlocks h.zone chain := ⟨rfl, o', hs'⟩
  have hpage : (⟨page, SLAB_BLOCK_ORDER⟩ : Block) ≠ ⟨page', SLAB_BLOCK_ORDER⟩ := by
    intro e
    cases e
    exact hne rfl
  have hdisj := Block.le_of_disjoint (hi.buddy.tiles.disjoint (.inl (.inr (.inl hb)))
    (.inl (.inr (.inl hb'))) hpage)
  have hsize := slab_size_eq
  have h4 := page_size_eq
  simp only [Block.size, SLAB_BLOCK_ORDER, h4] at hdisj hsize
  simp only [Zone.addr, h4]
  omega

theorem HeapInv.same_slab {y : Nat} (hx : x < SLAB_INIT_SIZE) (hy : y < SLAB_INIT_SIZE)
    (e : slab + x = slab' + y) : slab = slab' := by
  by_contra hne
  have happart := hi.slab_apart hs hs' hne
  omega

/-- The same as for a slot: it is no header word, and no slot of another slab. -/
theorem HeapInv.slot_word (hslot : IsSlot slab o s) :
    (∀ x, x < 32 → s ≠ slab' + x) ∧ ∀ s', IsSlot slab' o' s' → s = s' → slab = slab' := by
  obtain ⟨hlow, hhigh⟩ := hslot.bounds (hi.range hs).1
  have hpos := Nat.two_pow_pos o
  have hoff : slab + (s - slab) = s := by omega
  refine ⟨fun x hx e => ?_, fun s' hslot' e => ?_⟩
  · have hsame : slab = slab' :=
      hi.same_slab (x := s - slab) hs hs' (by omega) (by omega : x < SLAB_INIT_SIZE)
        (hoff.trans e)
    omega
  · obtain ⟨hlow', hhigh'⟩ := hslot'.bounds (hi.range hs').1
    have hpos' := Nat.two_pow_pos o'
    exact hi.same_slab (x := s - slab) (y := s' - slab') hs hs' (by omega) (by omega) (by omega)

end

/-- **Only the words of headers and free slots matter.** -/
theorem HeapInv.lists (hi : HeapInv h P chain free) {free' : Nat → List Nat}
    (hhead : ∀ {o slab}, slab ∈ chain o → mem (slab + 8) = h.mem (slab + 8) ∧ mem (slab + 16) = h.mem (slab + 16))
    (hlist : ∀ {o slab}, slab ∈ chain o → Chain 0 mem (mem slab) (free' slab) ∧ ∀ s ∈ free' slab, IsSlot slab o s) :
    HeapInv { h with mem := mem } P chain free' where
  __ := hi
  chained o := (hi.chained o).congr fun _ hs => (hhead hs).1
  order hs := (hhead hs).2.trans (hi.order hs)
  list hs := (hlist hs).1
  slot hs := (hlist hs).2

/-! ## 3. Slots taken off and put back -/

section

variable (hi : HeapInv h P chain free) (hs : slab ∈ chain o)

include hi hs

theorem HeapInv.head_ne (hs' : slab' ∈ chain o') (hx : 0 < x) (hx' : x < 32) :
    slab' + x ≠ slab := by
  intro e
  have hsize : 32 < SLAB_INIT_SIZE := by decide
  have hsame := hi.same_slab (x := x) (y := 0) hs' hs (by omega) (by omega) e
  omega

theorem HeapInv.slot_ne (hs' : slab' ∈ chain o') (hslot : IsSlot slab o s) : s ≠ slab' :=
  (hi.slot_word hs hs' hslot).1 0 (by decide)

/-- The first slot of a list that is not empty is taken off. -/
theorem inv_take (hfree : free slab = s :: rest) :
    HeapInv (h.store slab (h.mem s)) P chain (update free slab rest) := by
  refine hi.lists (fun {o' c} hc => ⟨?_, ?_⟩) fun {o' c} hc => ?_
  · exact update_of_ne (hi.head_ne hs hc (by decide) (by decide)) ..
  · exact update_of_ne (hi.head_ne hs hc (by decide) (by decide)) ..
  have hlist := hi.list hc
  have hslots := hi.slot hc
  have hcongr : ∀ r ∈ free c, update h.mem slab (h.mem s) r = h.mem r := fun r hr =>
    update_of_ne (hi.slot_ne hc hs (hslots r hr)) ..
  by_cases hcs : c = slab
  · subst hcs
    rw [hfree] at hlist hslots hcongr
    rw [update_self, update_self]
    exact ⟨hlist.2.2.congr fun r hr => hcongr r (mem_cons_of_mem s hr),
      fun r hr => hslots r (mem_cons_of_mem s hr)⟩
  · rw [update_of_ne hcs, update_of_ne hcs]
    exact ⟨hlist.congr hcongr, hslots⟩

/-- A slot that is on no list is put in front of the list of its slab. -/
theorem inv_give (hslot : IsSlot slab o s) (hnew : s ∉ free slab) :
    HeapInv ((h.store s (h.mem slab)).store slab s) P chain
      (update free slab (s :: free slab)) := by
  have hne : s ≠ slab := hi.slot_ne hs hs hslot
  have hmem : ∀ {w}, w ≠ s → w ≠ slab →
      update (update h.mem s (h.mem slab)) slab s w = h.mem w := fun h1 h2 =>
    (update_of_ne h2 ..).trans (update_of_ne h1 ..)
  refine hi.lists (fun {o' c} hc => ⟨?_, ?_⟩) fun {o' c} hc => ?_
  · exact hmem ((hi.slot_word hs hc hslot).1 8 (by decide)).symm
      (hi.head_ne hs hc (by decide) (by decide))
  · exact hmem ((hi.slot_word hs hc hslot).1 16 (by decide)).symm
      (hi.head_ne hs hc (by decide) (by decide))
  have hcongr : ∀ r ∈ free c, update (update h.mem s (h.mem slab)) slab s r = h.mem r := by
    intro r hr
    refine hmem (fun e => ?_) (hi.slot_ne hc hs (hi.slot hc r hr))
    have hsame := (hi.slot_word hc hs (hi.slot hc r hr)).2 s hslot e
    rw [hsame, e] at hr
    exact hnew hr
  by_cases hcs : c = slab
  · subst hcs
    have ho : o' = o := (hi.order hc).symm.trans (hi.order hs)
    subst ho
    have hs0 : s ≠ 0 := by
      have := (hslot.bounds (hi.range hs).1).1
      omega
    simp only [Heap.store, update_self]
    refine ⟨⟨rfl, hs0, ?_⟩, ?_⟩
    · rw [update_of_ne hne, update_self]
      exact (hi.list hc).congr hcongr
    intro r hr
    rcases mem_cons.mp hr with rfl | hr
    · exact hslot
    · exact hi.slot hc r hr
  · simp only [Heap.store, update_of_ne hcs, update_of_ne (hi.slot_ne hs hc hslot).symm]
    exact ⟨(hi.list hc).congr hcongr, hi.slot hc⟩

theorem takeSlot_spec :
    (free slab = [] ∧ takeSlot h slab = none) ∨ ∃ s rest, free slab = s :: rest ∧
      takeSlot h slab = some (s, h.store slab (h.mem s)) := by
  have hlist := hi.list hs
  unfold takeSlot
  cases hfree : free slab with
  | nil =>
    rw [hfree] at hlist
    exact .inl ⟨rfl, if_neg fun hne => hne hlist⟩
  | cons s rest =>
  rw [hfree] at hlist
  obtain ⟨hhead, hne, _⟩ := hlist
  refine .inr ⟨s, rest, rfl, ?_⟩
  simp only [hhead]
  exact if_pos hne

end

/-- **The search** finds a free slot in one of the slabs, or there is none. -/
theorem searchSlabs_spec (hi : HeapInv h P chain free) {l : List Nat} {p fuel : Nat}
    (hl : ∀ slab ∈ l, slab ∈ chain o) (hchain : Chain 0 (fun slab => h.mem (slab + 8)) p l)
    (hfuel : l.length < fuel) :
    ((∀ slab ∈ l, free slab = []) ∧ searchSlabs h fuel p = some none) ∨
      ∃ slab ∈ l, ∃ s rest, free slab = s :: rest ∧
        searchSlabs h fuel p = some (some (s, slab, h.store slab (h.mem s))) := by
  induction l generalizing p fuel with
  | nil =>
    cases fuel with
    | zero => cases hfuel
    | succ fuel => exact .inl ⟨nofun, if_neg fun hne => hne hchain⟩
  | cons slab l ih =>
    cases fuel with
    | zero => cases hfuel
    | succ fuel =>
    obtain ⟨rfl, hne, hnext⟩ := hchain
    have hp : p ∈ chain o := hl p mem_cons_self
    unfold searchSlabs
    rw [if_pos hne]
    rcases takeSlot_spec hi hp with ⟨hempty, htake⟩ | ⟨s, rest, hfree, htake⟩
    · rw [htake]
      have hl' : ∀ slab ∈ l, slab ∈ chain o := fun c hc => hl c (mem_cons_of_mem p hc)
      rcases ih hl' hnext (Nat.lt_of_succ_lt_succ hfuel) with ⟨hnone, hsearch⟩ | ⟨c, hc, hfound⟩
      · exact .inl ⟨forall_mem_cons.mpr ⟨hempty, hnone⟩, hsearch⟩
      · exact .inr ⟨c, mem_cons_of_mem p hc, hfound⟩
    · rw [htake]
      exact .inr ⟨p, mem_cons_self, s, rest, hfree, rfl⟩

/-- There are fewer slabs than pages. -/
theorem HeapInv.chain_length (hi : HeapInv h P chain free) (o : Nat) :
    (chain o).length ≤ h.zone.pageNum := by
  let pageOf : Nat → Nat := fun slab => (slab - h.zone.startAddr) / BUDDY_PAGE_SIZE
  have h4 := page_size_eq
  have hpage : ∀ page, pageOf (h.zone.addr page) = page := by
    simp only [pageOf, Zone.addr, h4]
    omega
  have hinj : ∀ a ∈ chain o, ∀ b ∈ chain o, pageOf a = pageOf b → a = b := by
    intro a ha b hb e
    obtain ⟨p, rfl⟩ := hi.base ha
    obtain ⟨q, rfl⟩ := hi.base hb
    rw [hpage, hpage] at e
    rw [e]
  have hsub : (chain o).map pageOf ⊆ List.range h.zone.pageNum := by
    intro p hp
    obtain ⟨slab, hs, rfl⟩ := mem_map.mp hp
    obtain ⟨page, rfl⟩ := hi.base hs
    rw [hpage, mem_range]
    exact hi.buddy.lt (c := ⟨page, SLAB_BLOCK_ORDER⟩) (.inl (.inr (.inl ⟨rfl, o, hs⟩)))
  have hlen := ((List.Nodup.map_on hinj (hi.chained o).nodup).subperm hsub).length_le
  rwa [length_map, length_range] at hlen

/-! ## 4. A new slab -/

/-- The slot at `slot` and the `n` behind it. -/
def slotList (objSize : Nat) : Nat → Nat → List Nat
  | 0, slot => [slot]
  | n + 1, slot => slot :: slotList objSize n (slot + objSize)

theorem mem_slotList : s ∈ slotList objSize n slot ↔ ∃ i, i ≤ n ∧ s = slot + i * objSize := by
  induction n generalizing slot with
  | zero => simp [slotList]
  | succ n ih =>
    rw [slotList, mem_cons, ih]
    constructor
    · rintro (rfl | ⟨i, hi, rfl⟩)
      · exact ⟨0, Nat.zero_le _, by simp⟩
      · exact ⟨i + 1, Nat.succ_le_succ hi, by ring⟩
    · rintro ⟨i, hi, rfl⟩
      cases i with
      | zero => exact .inl (by simp)
      | succ i => exact .inr ⟨i, Nat.le_of_succ_le_succ hi, by ring⟩

theorem linkSlots_of_lt {w : Nat} (hw : w < slot) : linkSlots objSize n mem slot w = mem w := by
  induction n generalizing mem slot with
  | zero => exact update_of_ne (ne_of_lt hw) ..
  | succ n ih =>
    rw [linkSlots, ih (Nat.lt_add_right objSize hw)]
    exact update_of_ne (ne_of_lt hw) ..

theorem linkSlots_of_gt {w : Nat} (hw : slot + n * objSize < w) :
    linkSlots objSize n mem slot w = mem w := by
  induction n generalizing mem slot with
  | zero => exact update_of_ne (by omega) ..
  | succ n ih =>
    have hmul : (n + 1) * objSize = n * objSize + objSize := Nat.succ_mul n objSize
    rw [linkSlots, ih (by omega)]
    exact update_of_ne (by omega) ..

/-- **The slots of a new slab are linked** in the order of their addresses. -/
theorem linkSlots_chain (hsize : 0 < objSize) (hslot : 0 < slot) :
    Chain 0 (linkSlots objSize n mem slot) slot (slotList objSize n slot) := by
  induction n generalizing mem slot with
  | zero => exact ⟨rfl, Nat.ne_of_gt hslot, update_self ..⟩
  | succ n ih =>
    refine ⟨rfl, Nat.ne_of_gt hslot, ?_⟩
    have hnext : linkSlots objSize (n + 1) mem slot slot = slot + objSize := by
      rw [linkSlots, linkSlots_of_lt (Nat.lt_add_of_pos_right hsize)]
      exact update_self ..
    rw [hnext]
    exact ih (Nat.lt_add_right objSize hslot)

theorem virtToPage_eq {w : Nat} (hlow : z.startAddr ≤ w) (hhigh : w ≤ z.addr z.pageNum) :
    virtToPage z w = some ((w - z.startAddr) / BUDDY_PAGE_SIZE) := by
  have hin : ¬ (w < z.startAddr ∨ w > z.startAddr + z.pageNum * BUDDY_PAGE_SIZE) := by
    unfold Zone.addr at hhigh
    omega
  rw [virtToPage, if_neg hin, Nat.shiftRight_eq_div_pow]
  rfl

theorem virtToPage_addr (hp : page < z.pageNum) (hx : x < BUDDY_PAGE_SIZE) :
    virtToPage z (z.addr page + x) = some page := by
  have h4 := page_size_eq
  have hle : z.addr page + x ≤ z.addr z.pageNum := by
    simp only [Zone.addr, h4]
    omega
  have hlow : z.startAddr ≤ z.addr page + x := by
    unfold Zone.addr
    omega
  rw [virtToPage_eq hlow hle]
  simp only [Zone.addr, h4]
  congr 1
  omega

/-- The pages of the block at `page` with the address of their slab. -/
def marked (z : Zone) (page n : Nat) : Nat → Page := fun i =>
  if page ≤ i ∧ i < page + n then { z.pages i with slab := z.addr page } else z.pages i

theorem markSlab_eq (hn : page + n ≤ z.pageNum) :
    markSlab z (z.addr page) n = some { z with pages := marked z page n } := by
  induction n with
  | zero =>
    have : marked z page 0 = z.pages := by
      funext i
      exact if_neg (by omega)
    rw [this]
    rfl
  | succ n ih =>
    have hlt : page + n < z.pageNum := hn
    let z1 : Zone := { z with pages := marked z page n }
    have haddr : z.addr page + n * BUDDY_PAGE_SIZE = z1.addr (page + n) + 0 := by
      show z.startAddr + page * _ + n * _ = z.startAddr + (page + n) * _ + 0
      ring
    have hpage : z1.page (page + n) = z.pages (page + n) := by
      rw [Zone.page_of_lt (show page + n < z1.pageNum from hlt)]
      exact if_neg (by omega)
    have hvirt : virtToPage z1 (z.addr page + n * BUDDY_PAGE_SIZE) = some (page + n) := by
      rw [haddr]
      exact virtToPage_addr (show page + n < z1.pageNum from hlt) (by decide)
    have hset : z1.setPage (page + n) { z1.page (page + n) with slab := z.addr page } =
        some { z with pages := marked z page (n + 1) } := by
      rw [hpage, Zone.setPage_of_lt (show page + n < z1.pageNum from hlt)]
      congr 1
      simp only [z1, Zone.mk.injEq, true_and, and_true]
      funext i
      by_cases hi : i = page + n
      · subst hi
        rw [update_self]
        exact (if_pos (by omega)).symm
      · rw [update_of_ne hi]
        exact if_congr (by omega) rfl rfl
    calc markSlab z (z.addr page) (n + 1)
        = (some z1).bind fun z' => (virtToPage z' (z.addr page + n * BUDDY_PAGE_SIZE)).bind
            fun p => z'.setPage p { z'.page p with slab := z.addr page } := by
          rw [markSlab, ih (le_of_lt hlt)]
          rfl
      _ = some { z with pages := marked z page (n + 1) } := by
          rw [bind_some, hvirt]
          exact hset

theorem Zone.addr_inj {p q : Nat} (e : z.addr p = z.addr q) : p = q := by
  have h4 := page_size_eq
  simp only [Zone.addr, h4] at e
  omega

theorem mem_addSlab :
    x ∈ update chain o (slab :: chain o) o' ↔ o' = o ∧ x = slab ∨ x ∈ chain o' := by
  by_cases ho : o' = o
  · subst ho
    simp
  · simp [ho]

theorem marked_slab {i : Nat} :
    (marked z page (2 ^ SLAB_BLOCK_ORDER) i).slab =
      if page ≤ i ∧ i < page + 2 ^ SLAB_BLOCK_ORDER then z.addr page else (z.pages i).slab := by
  unfold marked
  split <;> rfl

theorem slabBlocks_congr {z' : Zone} (h : z'.startAddr = z.startAddr) (chain : Nat → List Nat) :
    slabBlocks z' chain = slabBlocks z chain := by
  unfold slabBlocks Zone.addr
  rw [h]

/-- One slab more is one block more. -/
theorem slabBlocks_addSlab :
    slabBlocks z (update chain o (z.addr page :: chain o)) =
      insert ⟨page, SLAB_BLOCK_ORDER⟩ (slabBlocks z chain) := by
  ext b
  have hb : ∀ o', z.addr b.start ∈ update chain o (z.addr page :: chain o) o' ↔
      o' = o ∧ b.start = page ∨ z.addr b.start ∈ chain o' := by
    intro o'
    rw [mem_addSlab]
    exact or_congr_left (and_congr_right fun _ => ⟨Zone.addr_inj, fun e => e ▸ rfl⟩)
  show (b.order = SLAB_BLOCK_ORDER ∧ ∃ o', z.addr b.start ∈ _) ↔ b = _ ∨ _
  simp only [hb, exists_or, exists_eq_left, Block.ext_iff]
  constructor
  · rintro ⟨ho, hp | hc⟩
    · exact .inl ⟨hp, ho⟩
    · exact .inr ⟨ho, hc⟩
  · rintro (⟨hp, ho⟩ | ⟨ho, hc⟩)
    · exact ⟨ho, .inl hp⟩
    · exact ⟨ho, .inr hc⟩

/-- A block fresh from the buddy allocator, and memory that is written only in this block. -/
structure FreshBlock (h : Heap) (P : Set Block) (chain : Nat → List Nat) (z : Zone) (page : Nat)
    (mem : Nat → Nat) : Prop where
  kept : Kept h.zone z
  fresh : (⟨page, SLAB_BLOCK_ORDER⟩ : Block) ∉ slabBlocks h.zone chain ∪ P
  buddy : BuddyInv z (insert ⟨page, SLAB_BLOCK_ORDER⟩ (slabBlocks h.zone chain ∪ P)) ∅
  outside : ∀ w, w < z.addr page ∨ z.addr page + SLAB_INIT_SIZE ≤ w → mem w = h.mem w

section FreshBlock

variable (hi : HeapInv h P chain free) (hb : FreshBlock h P chain z page mem)

include hb

theorem FreshBlock.addr (p : Nat) : z.addr p = h.zone.addr p := Zone.addr_congr hb.kept.startAddr p

theorem FreshBlock.slabBlocks_eq :
    slabBlocks { z with pages := marked z page (2 ^ SLAB_BLOCK_ORDER) }
      (update chain o (z.addr page :: chain o)) =
        insert ⟨page, SLAB_BLOCK_ORDER⟩ (slabBlocks h.zone chain) := by
  rw [← slabBlocks_congr hb.kept.startAddr chain]
  exact slabBlocks_addSlab

theorem FreshBlock.disjoint {p : Nat} (hp : h.zone.addr p ∈ chain o') :
    Disjoint (⟨p, SLAB_BLOCK_ORDER⟩ : Block).places (⟨page, SLAB_BLOCK_ORDER⟩ : Block).places := by
  have hp' : (⟨p, SLAB_BLOCK_ORDER⟩ : Block) ∈ slabBlocks h.zone chain ∪ P := .inl ⟨rfl, o', hp⟩
  exact hb.buddy.tiles.disjoint (.inl (.inr (Set.mem_insert_of_mem _ hp')))
    (.inl (.inr (Set.mem_insert _ _))) fun e => hb.fresh (e ▸ hp')

include hi

theorem FreshBlock.far (hs' : slab' ∈ chain o') :
    slab' + SLAB_INIT_SIZE ≤ z.addr page ∨ z.addr page + SLAB_INIT_SIZE ≤ slab' := by
  obtain ⟨p, rfl⟩ := hi.base hs'
  have hdisj := Block.le_of_disjoint (hb.disjoint hs')
  have hsize := slab_size_eq
  have h4 := page_size_eq
  simp only [Block.size, SLAB_BLOCK_ORDER, h4] at hdisj hsize
  rw [hb.addr]
  simp only [Zone.addr, h4]
  omega

theorem FreshBlock.ne (hs' : slab' ∈ chain o') : slab' ≠ z.addr page := by
  have := hb.far hi hs'
  have hsize : 0 < SLAB_INIT_SIZE := by decide
  omega

/-- The words of the other slabs are kept. -/
theorem FreshBlock.word (hs' : slab' ∈ chain o') (hx : x < SLAB_INIT_SIZE) :
    mem (slab' + x) = h.mem (slab' + x) := by
  refine hb.outside _ ?_
  rcases hb.far hi hs' with hle | hle
  · exact .inl (by omega)
  · exact .inr (by omega)

theorem FreshBlock.list (hs' : slab' ∈ chain o') : Chain 0 mem (mem slab') (free slab') := by
  have hsize : 0 < SLAB_INIT_SIZE := by decide
  show Chain 0 mem (mem (slab' + 0)) _
  rw [hb.word hi hs' hsize]
  refine (hi.list hs').congr fun s hs => ?_
  obtain ⟨hlow, hhigh⟩ := (hi.slot hs' s hs).bounds (hi.range hs').1
  have hpos := Nat.two_pow_pos o'
  have hoff : slab' + (s - slab') = s := by omega
  rw [← hoff]
  exact hb.word hi hs' (by omega)

/-- The new slab is in front of the slabs of its order. -/
theorem FreshBlock.chained (hnext : mem (z.addr page + 8) = h.slabs o) :
    Chain 0 (fun slab => mem (slab + 8)) (update h.slabs o (z.addr page) o')
      (update chain o (z.addr page :: chain o) o') := by
  have hsize : 8 < SLAB_INIT_SIZE := by decide
  have hold : Chain 0 (fun slab => mem (slab + 8)) (h.slabs o') (chain o') :=
    (hi.chained o').congr fun c hc => hb.word hi hc hsize
  by_cases hoo : o' = o
  · subst hoo
    simp only [update_self]
    refine ⟨rfl, ?_, ?_⟩
    · have := hi.start
      rw [hb.addr]
      unfold Zone.addr
      omega
    · show Chain 0 _ (mem (z.addr page + 8)) _
      rwa [hnext]
  · simpa only [update_of_ne hoo] using hold

theorem FreshBlock.inSlab {p i : Nat} (hp : z.addr p ∈ update chain o (z.addr page :: chain o) o')
    (hip : i ∈ (⟨p, SLAB_BLOCK_ORDER⟩ : Block).places) :
    (marked z page (2 ^ SLAB_BLOCK_ORDER) i).slab = z.addr p := by
  rw [marked_slab]
  rcases mem_addSlab.mp hp with ⟨_, e⟩ | hc
  · cases Zone.addr_inj (z := z) e
    exact if_pos (Block.mem_places.mp hip)
  have hc' : h.zone.addr p ∈ chain o' := hb.addr p ▸ hc
  have hin : ¬(page ≤ i ∧ i < page + 2 ^ SLAB_BLOCK_ORDER) := fun hin =>
    Set.disjoint_left.mp (hb.disjoint hc') hip (Block.mem_places.mpr hin)
  rw [if_neg hin, hb.kept.slab, hb.addr]
  exact hi.inSlab hc' hip

theorem FreshBlock.noSlab {i : Nat} (hslab : (marked z page (2 ^ SLAB_BLOCK_ORDER) i).slab ≠ 0) :
    ∃ o' p, z.addr p ∈ update chain o (z.addr page :: chain o) o' ∧
      i ∈ (⟨p, SLAB_BLOCK_ORDER⟩ : Block).places := by
  by_cases hin : page ≤ i ∧ i < page + 2 ^ SLAB_BLOCK_ORDER
  · exact ⟨o, page, mem_addSlab.mpr (.inl ⟨rfl, rfl⟩), Block.mem_places.mpr hin⟩
  rw [marked_slab, if_neg hin, hb.kept.slab] at hslab
  obtain ⟨o', p, hp, hip⟩ := hi.noSlab i hslab
  exact ⟨o', p, mem_addSlab.mpr (.inr (hb.addr p ▸ hp)), hip⟩

/-- **A new slab**: the block is marked, its header and its list are set up, and it is put in front
    of the slabs of its order. -/
theorem inv_addSlab {l : List Nat} (ho : HasSlabs o)
    (hnext : mem (z.addr page + 8) = h.slabs o) (horder : mem (z.addr page + 16) = o)
    (hlist : Chain 0 mem (mem (z.addr page)) l) (hslot : ∀ s ∈ l, IsSlot (z.addr page) o s) :
    HeapInv ⟨{ z with pages := marked z page (2 ^ SLAB_BLOCK_ORDER) }, mem,
        update h.slabs o (z.addr page)⟩ P
      (update chain o (z.addr page :: chain o)) (update free (z.addr page) l) := by
  constructor
  case start => exact hb.kept.startAddr ▸ hi.start
  case buddy =>
    rw [hb.slabBlocks_eq, Set.insert_union]
    refine inv_pages hb.buddy (fun i => ?_) fun c _ => ?_
    · unfold marked
      split <;> rfl
    · unfold marked
      split <;> rfl
  case apart =>
    rw [hb.slabBlocks_eq, Set.disjoint_insert_left]
    exact ⟨fun hm => hb.fresh (.inr hm), hi.apart⟩
  case chained => exact fun _ => hb.chained hi hnext
  case base =>
    intro o' c hc
    rcases mem_addSlab.mp hc with ⟨_, rfl⟩ | hc
    · exact ⟨page, rfl⟩
    · obtain ⟨p, rfl⟩ := hi.base hc
      exact ⟨p, (hb.addr p).symm⟩
  case range =>
    intro o' c hc
    rcases mem_addSlab.mp hc with ⟨rfl, _⟩ | hc
    · exact ho
    · exact hi.range hc
  case order =>
    intro o' c hc
    rcases mem_addSlab.mp hc with ⟨rfl, rfl⟩ | hc
    · exact horder
    · exact (hb.word hi hc (by decide)).trans (hi.order hc)
  case list =>
    intro o' c hc
    rcases mem_addSlab.mp hc with ⟨rfl, rfl⟩ | hc
    · rw [update_self]
      exact hlist
    · rw [update_of_ne (hb.ne hi hc)]
      exact hb.list hi hc
  case slot =>
    intro o' c hc
    rcases mem_addSlab.mp hc with ⟨rfl, rfl⟩ | hc
    · rw [update_self]
      exact hslot
    · rw [update_of_ne (hb.ne hi hc)]
      exact hi.slot hc
  case inSlab => exact fun hp hip => hb.inSlab hi hp hip
  case noSlab => exact fun _ hslab => hb.noSlab hi hslab

end FreshBlock

/-- The slab at `slab` is put in front of the list that starts at `next`. -/
def addSlab (h : Heap) (order slab next : Nat) : Heap :=
  { h.store (slab + 8) next with slabs := update h.slabs order slab }

theorem slot_count (ho : HasSlabs o) :
    (SLAB_INIT_SIZE / 2 ^ o - 1 - 1 + 2) * 2 ^ o = SLAB_INIT_SIZE := by
  have hsize : SLAB_INIT_SIZE = 2 ^ 21 := by decide
  have ho' : o + 1 ≤ 21 := Nat.succ_le_succ (ho.2.trans (by decide))
  have hdvd : 2 ^ o ∣ SLAB_INIT_SIZE := hsize ▸ pow_dvd_pow 2 (Nat.le_of_succ_le ho')
  have htwo : 2 ≤ SLAB_INIT_SIZE / 2 ^ o := by
    rw [Nat.le_div_iff_mul_le (Nat.two_pow_pos o), ← Nat.pow_succ']
    exact Nat.pow_le_pow_right (Nat.succ_pos 1) ho'
  rw [Nat.sub_sub, Nat.sub_add_cancel htwo]
  exact Nat.div_mul_cancel hdvd

/-- The memory after `init_slab_cache` at `a`. -/
def cacheMem (mem : Nat → Nat) (a o : Nat) : Nat → Nat :=
  linkSlots (2 ^ o) (SLAB_INIT_SIZE / 2 ^ o - 1 - 1)
    (update (update (update mem a (a + 2 ^ o)) (a + 8) 0) (a + 16) o)
    (a + 2 ^ o)

section NewSlab

variable (mem : Nat → Nat) (a : Nat) {o : Nat}

theorem cacheMem_header (ho : SLAB_MIN_ORDER ≤ o) : cacheMem mem a o a = a + 2 ^ o ∧
    cacheMem mem a o (a + 8) = 0 ∧ cacheMem mem a o (a + 16) = o := by
  have hpow := slot_size ho
  have hlow : ∀ {x}, x < 32 → cacheMem mem a o (a + x) =
      update (update (update mem a (a + 2 ^ o)) (a + 8) 0) (a + 16) o
        (a + x) := fun hx => linkSlots_of_lt (by omega)
  refine ⟨(hlow (x := 0) (by decide)).trans ?_, (hlow (by decide)).trans ?_,
    (hlow (by decide)).trans (update_self ..)⟩
  · rw [update_of_ne (by omega), update_of_ne (by omega)]
    exact update_self ..
  · rw [update_of_ne (by omega)]
    exact update_self ..

theorem cacheMem_out (ho : HasSlabs o) {w : Nat}
    (hw : w < a ∨ a + SLAB_INIT_SIZE ≤ w) : cacheMem mem a o w = mem w := by
  have hsize : 32 < SLAB_INIT_SIZE := by decide
  have hcount := slot_count ho
  rw [add_mul] at hcount
  have hlink : ∀ m, linkSlots (2 ^ o) (SLAB_INIT_SIZE / 2 ^ o - 1 - 1) m (a + 2 ^ o) w = m w := by
    intro m
    have hpos := Nat.two_pow_pos o
    rcases hw with hw | hw
    · exact linkSlots_of_lt (by omega)
    · exact linkSlots_of_gt (by omega)
  rw [cacheMem, hlink, update_of_ne (by omega), update_of_ne (by omega), update_of_ne (by omega)]

/-- **The free list of a new slab** runs through all its slots. -/
theorem cacheMem_list (ho : HasSlabs o) :
    ∃ l, l ≠ [] ∧ Chain 0 (cacheMem mem a o) (a + 2 ^ o) l ∧ ∀ s ∈ l, IsSlot a o s := by
  have hpos := Nat.two_pow_pos o
  refine ⟨slotList (2 ^ o) (SLAB_INIT_SIZE / 2 ^ o - 1 - 1) (a + 2 ^ o), ?_,
    linkSlots_chain hpos (by omega), fun s hs => ?_⟩
  · cases SLAB_INIT_SIZE / 2 ^ o - 1 - 1 <;> exact cons_ne_nil _ _
  obtain ⟨i, hi, rfl⟩ := mem_slotList.mp hs
  refine ⟨i + 1, Nat.le_add_left 1 i, ?_, by ring⟩
  calc (i + 1 + 1) * 2 ^ o ≤ (SLAB_INIT_SIZE / 2 ^ o - 1 - 1 + 2) * 2 ^ o :=
        Nat.mul_le_mul_right _ (by omega)
    _ = SLAB_INIT_SIZE := slot_count ho

end NewSlab

/-- What a new slab at `slab` brings. -/
structure NewSlab (h : Heap) (P : Set Block) (chain free : Nat → List Nat) (o slab : Nat)
    (h' : Heap) : Prop where
  startAddr : h'.zone.startAddr = h.zone.startAddr
  pageNum : h'.zone.pageNum = h.zone.pageNum
  next : h'.mem (slab + 8) = 0
  slabs : h'.slabs = h.slabs
  fresh : ∀ o', slab ∉ chain o'
  inv : ∃ l, l ≠ [] ∧ HeapInv (addSlab h' o slab (h.slabs o)) P
    (update chain o (slab :: chain o)) (update free slab l)

theorem sizeToOrder_slab : sizeToOrder (SLAB_INIT_SIZE / BUDDY_PAGE_SIZE) = SLAB_BLOCK_ORDER := by
  decide

theorem allocSlabMemory_of_none (hget : buddyGetPages h.zone SLAB_BLOCK_ORDER = some (none, h.zone)) :
    allocSlabMemory h SLAB_INIT_SIZE = none := by
  simp only [allocSlabMemory, sizeToOrder_slab, hget]

theorem allocSlabMemory_of_some (hget : buddyGetPages h.zone SLAB_BLOCK_ORDER = some (some page, z))
    (hin : page + 2 ^ SLAB_BLOCK_ORDER ≤ z.pageNum) :
    allocSlabMemory h SLAB_INIT_SIZE =
      some (z.addr page, ⟨{ z with pages := marked z page (2 ^ SLAB_BLOCK_ORDER) }, h.mem, h.slabs⟩) := by
  have hsize : orderToSize SLAB_BLOCK_ORDER = 2 ^ SLAB_BLOCK_ORDER := by decide
  have hmark : markSlab z (pageToVirt z (some page)) (orderToSize SLAB_BLOCK_ORDER) =
      some { z with pages := marked z page (2 ^ SLAB_BLOCK_ORDER) } := by
    exact markSlab_eq hin
  simp only [allocSlabMemory, sizeToOrder_slab, hget, hmark, bind_eq_bind, bind_some]
  rfl

/-- **`init_slab_cache`** sets up a new slab, or there is no block for it. -/
theorem initSlabCache_spec (hi : HeapInv h P chain free) (ho : HasSlabs o) :
    (initSlabCache h o SLAB_INIT_SIZE = none ∧ ∀ b ∈ h.zone.free, b.order < SLAB_BLOCK_ORDER) ∨
      ∃ slab h', initSlabCache h o SLAB_INIT_SIZE = some (slab, h') ∧
        NewSlab h P chain free o slab h' := by
  have hmax : SLAB_BLOCK_ORDER < BUDDY_MAX_ORDER := by decide
  obtain ⟨r, z, hget, hkept, hr⟩ := buddyGetPages_spec hi.buddy hmax
  cases r with
  | none =>
    obtain ⟨rfl, hfree⟩ := hr
    refine .inl ⟨?_, hfree⟩
    rw [initSlabCache, allocSlabMemory_of_none hget]
    rfl
  | some page =>
  obtain ⟨hnew, hbuddy⟩ := hr
  have hin : page + 2 ^ SLAB_BLOCK_ORDER ≤ z.pageNum :=
    hbuddy.tiles.inside ⟨page, SLAB_BLOCK_ORDER⟩ (.inl (.inr (Set.mem_insert _ _)))
  have hshift : orderToSize o = 2 ^ o := Nat.one_shiftLeft o
  have hcache : initSlabCache h o SLAB_INIT_SIZE = some (z.addr page,
      ⟨{ z with pages := marked z page (2 ^ SLAB_BLOCK_ORDER) }, cacheMem h.mem (z.addr page) o,
        h.slabs⟩) := by
    rw [initSlabCache, allocSlabMemory_of_some hget hin]
    simp only [bind_eq_bind, bind_some, hshift]
    rfl
  obtain ⟨hhead, hnext, horder⟩ := cacheMem_header h.mem (z.addr page) ho.1
  obtain ⟨l, hl, hlist, hslot⟩ := cacheMem_list h.mem (z.addr page) ho
  refine .inr ⟨z.addr page, _, hcache, hkept.startAddr, hkept.pageNum, hnext, rfl,
    fun o' hm => ?_, l, hl, ?_⟩
  · refine hnew (.inl ⟨rfl, o', ?_⟩)
    rwa [← Zone.addr_congr hkept.startAddr]
  -- the link to the next slab is the only word that is stored afterwards
  · have hkeep : ∀ {w}, w ≠ z.addr page + 8 →
        update (cacheMem h.mem (z.addr page) o) (z.addr page + 8) (h.slabs o) w =
          cacheMem h.mem (z.addr page) o w := fun hw => update_of_ne hw ..
    have hsize : 32 < SLAB_INIT_SIZE := by decide
    refine inv_addSlab hi ⟨hkept, hnew, hbuddy, fun w hw => ?_⟩ ho (update_self ..)
      ((hkeep (by omega)).trans horder) ?_ hslot
    · exact (hkeep (by omega)).trans (cacheMem_out h.mem (z.addr page) ho hw)
    simp only [Heap.store]
    rw [hkeep (by omega), hhead]
    refine hlist.congr fun s hs => hkeep ?_
    have := ((hslot s hs).bounds ho.1).1
    omega

/-! ## 5. The functions of the slab allocator -/

/-- A slot `s` of order `o` is taken from the slab `slab`; slabs may come, free slots only go. -/
structure Took (h : Heap) (chain free : Nat → List Nat) (o s slab : Nat) (h' : Heap)
    (chain' free' : Nat → List Nat) : Prop where
  startAddr : h'.zone.startAddr = h.zone.startAddr
  pageNum : h'.zone.pageNum = h.zone.pageNum
  held : slab ∈ chain' o
  slot : IsSlot slab o s
  taken : s ∉ free' slab
  was : ∀ {o'}, slab ∈ chain o' → s ∈ free slab
  slabs : ∀ {o' c}, c ∈ chain o' → c ∈ chain' o'
  slots : ∀ {o' c}, c ∈ chain o' → ∀ r ∈ free' c, r ∈ free c

theorem took_take (hi : HeapInv h P chain free) (hs : slab ∈ chain o)
    (hfree : free slab = s :: rest) :
    Took h chain free o s slab (h.store slab (h.mem s)) chain (update free slab rest) where
  startAddr := rfl
  pageNum := rfl
  held := hs
  slot := hi.slot hs s (hfree ▸ mem_cons_self)
  taken := by
    rw [update_self]
    exact (nodup_cons.mp (hfree ▸ (hi.list hs).nodup)).1
  was _ := hfree ▸ mem_cons_self
  slabs hc := hc
  slots {o' c} _ r hr := by
    by_cases hc : c = slab
    · subst hc
      rw [update_self] at hr
      exact hfree ▸ mem_cons_of_mem s hr
    · rwa [update_of_ne hc] at hr

/-- The first slot of a new slab. -/
theorem took_new {h' h'' : Heap} {l : List Nat} {free' : Nat → List Nat}
    (hnew : NewSlab h P chain free o slab h')
    (htook : Took (addSlab h' o slab (h.slabs o)) (update chain o (slab :: chain o)) (update free slab l) o s slab h'' (update chain o (slab :: chain o)) free') :
    Took h chain free o s slab h'' (update chain o (slab :: chain o)) free' where
  __ := htook
  startAddr := htook.startAddr.trans hnew.startAddr
  pageNum := htook.pageNum.trans hnew.pageNum
  was hs := absurd hs (hnew.fresh _)
  slabs hc := mem_addSlab.mpr (.inr hc)
  slots {o' c} hc r hr := by
    have hne : c ≠ slab := fun e => hnew.fresh o' (e ▸ hc)
    have hold := htook.slots (mem_addSlab.mpr (.inr hc)) r hr
    rwa [update_of_ne hne] at hold

/-- **One call of `_alloc_in_slab_nolock`** takes a slot from the first slab from the header on that
    has one; if none has, a new slab is put in front of the header. -/
theorem allocInSlabNolock_succ (hi : HeapInv h P chain free) {header : Nat}
    (hchain : Chain 0 (fun slab => h.mem (slab + 8)) header (header :: rest))
    (hsub : ∀ c ∈ header :: rest, c ∈ chain o) (calls : Nat) :
    ((∀ c ∈ header :: rest, free c = []) ∧ allocInSlabNolock (calls + 1) h header o =
        (initSlabCache h o SLAB_INIT_SIZE).bind fun r =>
          allocInSlabNolock calls (addSlab r.2 o r.1 header) r.1 o) ∨
      ∃ slab ∈ header :: rest, ∃ s l, free slab = s :: l ∧
        allocInSlabNolock (calls + 1) h header o = some (s, slab, h.store slab (h.mem s)) := by
  have hheader : header ∈ chain o := hsub header mem_cons_self
  rcases takeSlot_spec hi hheader with ⟨hempty, htake⟩ | ⟨s, l, hfree, htake⟩
  · have hfuel : rest.length < h.zone.pageNum + 1 := by
      have hlen := (hchain.nodup.subperm hsub).length_le.trans (hi.chain_length o)
      rw [length_cons] at hlen
      omega
    have hrest : ∀ c ∈ rest, c ∈ chain o := fun c hc => hsub c (mem_cons_of_mem header hc)
    rcases searchSlabs_spec hi hrest hchain.2.2 hfuel with
      ⟨hnone, hsearch⟩ | ⟨slab, hs, s, l, hfree, hsearch⟩
    · refine .inl ⟨forall_mem_cons.mpr ⟨hempty, hnone⟩, ?_⟩
      simp only [allocInSlabNolock, htake, hsearch]
      rfl
    · refine .inr ⟨slab, mem_cons_of_mem header hs, s, l, hfree, ?_⟩
      simp only [allocInSlabNolock, htake, hsearch]
  · refine .inr ⟨header, mem_cons_self, s, l, hfree, ?_⟩
    simp only [allocInSlabNolock, htake]

/-- The second call finds the first slot of the new slab, whatever it is put in front of. -/
theorem NewSlab.first {h' : Heap} (hnew : NewSlab h P chain free o slab h') :
    ∃ s l, HeapInv (addSlab h' o slab (h.slabs o)) P (update chain o (slab :: chain o))
        (update free slab (s :: l)) ∧
      ∀ header calls, allocInSlabNolock (calls + 1) (addSlab h' o slab header) slab o =
        some (s, slab, (addSlab h' o slab header).store slab ((addSlab h' o slab header).mem s)) := by
  obtain ⟨l, hl, hinv⟩ := hnew.inv
  obtain ⟨s, l, rfl⟩ := exists_cons_of_ne_nil hl
  refine ⟨s, l, hinv, fun header calls => ?_⟩
  have hlist := hinv.list (mem_addSlab.mpr (.inl ⟨rfl, rfl⟩))
  rw [update_self] at hlist
  have hword : ∀ next, (addSlab h' o slab next).mem slab = h'.mem slab := fun next =>
    update_of_ne (by omega) ..
  have hfirst : (addSlab h' o slab header).mem slab = s :=
    (hword header).trans ((hword (h.slabs o)).symm.trans hlist.1)
  have htake : takeSlot (addSlab h' o slab header) slab = some (s,
      (addSlab h' o slab header).store slab ((addSlab h' o slab header).mem s)) := by
    unfold takeSlot
    simp only [hfirst]
    exact if_pos hlist.2.1
  simp only [allocInSlabNolock, htake]

/-- The slabs of order `o` are as before, or they were full and `slab` is the new first one. -/
def SlabsGrow (h : Heap) (chain free : Nat → List Nat) (o slab : Nat) (h' : Heap)
    (chain' : Nat → List Nat) : Prop :=
  (chain' = chain ∧ h'.slabs = h.slabs) ∨
    (chain' = update chain o (slab :: chain o) ∧
      h'.slabs = update h.slabs o slab ∧ slab ∉ chain o ∧ ∀ c ∈ chain o, free c = [])

/-- **`_alloc_in_slab_nolock`** takes a slot from the first slab from the header on that has one; if
    the header is the first slab of all, it takes one from a new slab. It fails only when there is no
    block for a new slab. -/
theorem allocInSlabNolock_spec (hi : HeapInv h P chain free) {header : Nat} (ho : HasSlabs o)
    (hchain : Chain 0 (fun slab => h.mem (slab + 8)) header (header :: rest))
    (hsub : ∀ c ∈ header :: rest, c ∈ chain o)
    (hheader : header = h.slabs o ∨ ∃ c ∈ header :: rest, free c ≠ []) :
    (allocInSlabNolock 2 h header o = none ∧ ∀ b ∈ h.zone.free, b.order < SLAB_BLOCK_ORDER) ∨
      ∃ s slab h' chain' free', allocInSlabNolock 2 h header o = some (s, slab, h') ∧
        HeapInv h' P chain' free' ∧ Took h chain free o s slab h' chain' free' ∧
        SlabsGrow h chain free o slab h' chain' := by
  rcases allocInSlabNolock_succ hi hchain hsub 1 with ⟨hempty, hcall⟩ | ⟨slab, hs, s, l, hfree, hcall⟩
  · rcases hheader with rfl | ⟨c, hc, hne⟩
    · have hall : h.slabs o :: rest = chain o := hchain.unique (hi.chained o)
      rcases initSlabCache_spec hi ho with ⟨hcache, hblocks⟩ | ⟨slab, h', hcache, hnew⟩
      · refine .inl ⟨?_, hblocks⟩
        rw [hcall, hcache]
        rfl
      obtain ⟨s, l, hinv, hagain⟩ := hnew.first
      have hmem : slab ∈ update chain o (slab :: chain o) o :=
        mem_addSlab.mpr (.inl ⟨rfl, rfl⟩)
      have hfree : update free slab (s :: l) slab = s :: l := update_self ..
      refine .inr ⟨s, slab, _, _, _, ?_, inv_take hinv hmem hfree,
        took_new hnew (took_take hinv hmem hfree),
        .inr ⟨rfl, ?_, hnew.fresh o, hall ▸ hempty⟩⟩
      · rw [hcall, hcache]
        exact hagain (h.slabs o) 0
      · exact congrArg (update · o slab) hnew.slabs
    · exact absurd (hempty c hc) hne
  · exact .inr ⟨s, slab, _, _, _, hcall, inv_take hi (hsub slab hs) hfree,
      took_take hi (hsub slab hs) hfree, .inl ⟨rfl, rfl⟩⟩

/-- An address in a slab leads to a page that names the slab. -/
theorem HeapInv.page_of_word (hi : HeapInv h P chain free) (hs : slab ∈ chain o)
    (hx : x < SLAB_INIT_SIZE) :
    ∃ i, virtToPage h.zone (slab + x) = some i ∧ (h.zone.page i).slab = slab := by
  obtain ⟨page, rfl⟩ := hi.base hs
  have hsize := slab_size_eq
  have h4 := page_size_eq
  have hin : page + 2 ^ SLAB_BLOCK_ORDER ≤ h.zone.pageNum :=
    hi.buddy.tiles.inside ⟨page, SLAB_BLOCK_ORDER⟩ (.inl (.inr (.inl ⟨rfl, o, hs⟩)))
  rw [hsize, h4] at hx
  have hlt : page + x / 4096 < page + 2 ^ SLAB_BLOCK_ORDER := by omega
  have hword : h.zone.addr page + x = h.zone.addr (page + x / 4096) + x % 4096 := by
    simp only [Zone.addr, h4]
    omega
  refine ⟨page + x / 4096, ?_, ?_⟩
  · rw [hword]
    exact virtToPage_addr (hlt.trans_le hin) (h4 ▸ Nat.mod_lt x (by decide))
  · rw [Zone.page_of_lt (hlt.trans_le hin)]
    exact hi.inSlab hs (Block.mem_places.mpr ⟨Nat.le_add_right _ _, hlt⟩)

/-- **`free_in_slab`** puts the slot back on the list of the slab it lies in. -/
theorem freeInSlab_eq (hi : HeapInv h P chain free) (hs : slab ∈ chain o) (hslot : IsSlot slab o s) :
    freeInSlab h s = some ((h.store s (h.mem slab)).store slab s) := by
  obtain ⟨hlow, hhigh⟩ := hslot.bounds (hi.range hs).1
  have hpos := Nat.two_pow_pos o
  have hoff : slab + (s - slab) = s := by omega
  obtain ⟨i, hvirt, hslab⟩ := hi.page_of_word (x := s - slab) hs (by omega)
  rw [hoff] at hvirt
  simp only [freeInSlab, hvirt, hslab, bind_eq_bind, bind_some]

end Inv

/-! ## 6. Orders -/

theorem shiftLoop_eq : ∀ {fuel tmp order : Nat}, tmp < 2 ^ fuel →
    shiftLoop fuel tmp order = order + Nat.log2 tmp
  | 0, tmp, order, h => by
    obtain rfl : tmp = 0 := by omega
    rfl
  | fuel + 1, tmp, order, h => by
    unfold shiftLoop
    by_cases htmp : 2 ≤ tmp
    · have hhalf : tmp >>> 1 < 2 ^ fuel := by
        rw [Nat.shiftRight_eq_div_pow]
        omega
      rw [if_pos (show tmp > 1 from htmp), shiftLoop_eq hhalf, Nat.log2_def tmp, if_pos htmp,
        Nat.shiftRight_eq_div_pow, Nat.pow_one]
      omega
    · rw [if_neg (show ¬tmp > 1 from htmp), Nat.log2_def, if_neg htmp]
      rfl

/-- **`size_to_order`** is the least order with room for `size`. -/
theorem sizeToOrder_spec (size : Nat) (hsize : size < 2 ^ 64) :
    size ≤ 2 ^ sizeToOrder size ∧ ∀ k, size ≤ 2 ^ k → sizeToOrder size ≤ k := by
  have hloop : shiftLoop 64 size 0 = Nat.log2 size := by
    rw [shiftLoop_eq hsize, zero_add]
  have hlt : size < 2 ^ (Nat.log2 size + 1) := Nat.lt_log2_self
  simp only [sizeToOrder, hloop, Nat.one_shiftLeft]
  by_cases hbig : size > 2 ^ Nat.log2 size
  · rw [if_pos hbig]
    refine ⟨le_of_lt hlt, fun k hk => ?_⟩
    exact (Nat.pow_lt_pow_iff_right (Nat.lt_succ_self 1)).mp (hbig.trans_le hk)
  rw [if_neg hbig]
  refine ⟨not_lt.mp hbig, fun k hk => ?_⟩
  rcases Nat.eq_zero_or_pos size with rfl | hpos
  · exact Nat.zero_le k
  · exact (Nat.pow_le_pow_iff_right (Nat.lt_succ_self 1)).mp
      ((Nat.log2_self_le (Nat.ne_of_gt hpos)).trans hk)

theorem slabOrder_spec (size : Nat) (hsize : size ≤ 2 ^ SLAB_MAX_ORDER) : size ≤ 2 ^ slabOrder size ∧
    SLAB_MIN_ORDER ≤ slabOrder size ∧ slabOrder size ≤ SLAB_MAX_ORDER := by
  obtain ⟨hroom, hleast⟩ := sizeToOrder_spec size (hsize.trans_lt (by decide))
  have hmax := hleast SLAB_MAX_ORDER hsize
  unfold slabOrder
  simp only
  split
  · rename_i hlt
    exact ⟨hroom.trans (Nat.pow_le_pow_right (Nat.succ_pos 1) (le_of_lt hlt)), le_rfl, by decide⟩
  · rename_i hge
    exact ⟨hroom, not_lt.mp hge, hmax⟩

/-! ## 7. The start -/

/-- The slabs after the first `n` rounds of `init_slab`: one for each order so far. -/
structure FirstSlabs (z : Zone) (n : Nat) (h : Heap) (chain free : Nat → List Nat) : Prop where
  startAddr : h.zone.startAddr = z.startAddr
  pageNum : h.zone.pageNum = z.pageNum
  inv : HeapInv h ∅ chain free
  one : ∀ {o}, SLAB_MIN_ORDER ≤ o → o < SLAB_MIN_ORDER + n → ∃ slab, chain o = [slab]
  none : ∀ {o}, SLAB_MIN_ORDER + n ≤ o → chain o = []

theorem firstSlabs_zero {mem : Nat → Nat} (hz : BuddyInv z ∅ ∅) (hstart : 0 < z.startAddr)
    (hslab : ∀ i, (z.pages i).slab = 0) :
    FirstSlabs z 0 ⟨z, mem, fun _ => 0⟩ (fun _ => []) (fun _ => []) := by
  have hblocks : slabBlocks z (fun _ => []) = ∅ :=
    Set.eq_empty_of_forall_notMem fun b hb => by
      obtain ⟨_, o, hm⟩ := hb
      cases hm
  refine ⟨rfl, rfl, ?_, fun _ _ => by omega, fun _ => rfl⟩
  constructor
  case start => exact hstart
  case buddy =>
    rw [hblocks, Set.union_empty]
    exact hz
  case apart => exact Set.disjoint_empty _
  case chained => exact fun _ => rfl
  case noSlab => exact fun i hi => absurd (hslab i) hi
  case base => exact nofun
  case range => exact nofun
  case order => exact nofun
  case list => exact nofun
  case slot => exact nofun
  case inSlab => exact nofun

/-- **There is room for one more slab** while there are fewer slabs than blocks of their size. -/
theorem HeapInv.room {h : Heap} (hi : HeapInv h ∅ chain free) {slabs : List Nat}
    (hall : ∀ {o slab}, slab ∈ chain o → slab ∈ slabs)
    (hn : (slabs.length + 1) * 2 ^ SLAB_BLOCK_ORDER ≤ h.zone.pageNum) :
    ∃ b ∈ h.zone.free, SLAB_BLOCK_ORDER ≤ b.order := by
  by_contra hno
  have hbuddy := hi.buddy
  rw [Set.union_empty] at hbuddy
  -- without a free block of the size every block in question is a slab
  let start : Nat → Nat := fun j => h.zone.addr (j * 2 ^ SLAB_BLOCK_ORDER)
  have hinj : ∀ i ∈ List.range (slabs.length + 1), ∀ j ∈ List.range (slabs.length + 1),
      start i = start j → i = j := fun i _ j _ e =>
    Nat.eq_of_mul_eq_mul_right (Nat.two_pow_pos _) (Zone.addr_inj e)
  have hslab : (List.range (slabs.length + 1)).map start ⊆ slabs := by
    intro a ha
    obtain ⟨j, hj, rfl⟩ := mem_map.mp ha
    have hin : j * 2 ^ SLAB_BLOCK_ORDER + 2 ^ SLAB_BLOCK_ORDER ≤ h.zone.pageNum := by
      have hmul := Nat.mul_le_mul_right (2 ^ SLAB_BLOCK_ORDER) (mem_range.mp hj)
      rw [Nat.succ_mul] at hmul
      exact hmul.trans hn
    obtain ⟨b, hb, hbo, hsubset⟩ := hbuddy.covered (k := SLAB_BLOCK_ORDER) (by decide)
      (fun b hb => le_of_eq hb.1.symm) le_rfl
      (p := j * 2 ^ SLAB_BLOCK_ORDER) (Nat.dvd_mul_left _ _) hin
    have hslab : b ∈ slabBlocks h.zone chain := hb.resolve_left fun hm => hno ⟨b, hm, hbo⟩
    have hbe := Block.eq_of_subset hsubset hslab.1
    obtain ⟨_, o, ho⟩ := hslab
    rw [hbe] at ho
    exact hall ho
  have hlen := ((List.Nodup.map_on hinj nodup_range).subperm hslab).length_le
  rw [length_map, length_range] at hlen
  exact Nat.not_succ_le_self _ hlen

/-- The first slabs, as a list. -/
theorem FirstSlabs.all {n : Nat} {h : Heap} (hf : FirstSlabs z n h chain free) :
    ∃ slabs : List Nat, slabs.length = n ∧ ∀ {o slab}, slab ∈ chain o → slab ∈ slabs := by
  refine ⟨(List.range n).flatMap fun i => chain (SLAB_MIN_ORDER + i), ?_, fun {o slab} hs => ?_⟩
  · have hone : ∀ i ∈ List.range n, (chain (SLAB_MIN_ORDER + i)).length = 1 := by
      intro i hi
      obtain ⟨slab, hone⟩ := hf.one (Nat.le_add_right _ i) (Nat.add_lt_add_left (mem_range.mp hi) _)
      rw [hone]
      rfl
    rw [length_flatMap, map_congr_left hone, map_const', sum_replicate,
      length_range, smul_eq_mul, mul_one]
  have hlow := (hf.inv.range hs).1
  have hhigh : o < SLAB_MIN_ORDER + n := by
    by_contra hge
    rw [hf.none (not_lt.mp hge)] at hs
    cases hs
  refine mem_flatMap.mpr ⟨o - SLAB_MIN_ORDER, mem_range.mpr (by omega), ?_⟩
  rwa [Nat.add_sub_cancel' hlow]

theorem FirstSlabs.room {n : Nat} {h : Heap} (hf : FirstSlabs z n h chain free)
    (hn : (n + 1) * 2 ^ SLAB_BLOCK_ORDER ≤ z.pageNum) :
    ∃ b ∈ h.zone.free, SLAB_BLOCK_ORDER ≤ b.order := by
  obtain ⟨slabs, hlen, hall⟩ := hf.all
  rw [← hf.pageNum, ← hlen] at hn
  exact hf.inv.room hall hn

/-- **The loop of `init_slab`** sets up one slab for each order, if there is memory for them. -/
theorem initSlabs_spec (mem : Nat → Nat) (hz : BuddyInv z ∅ ∅) (hstart : 0 < z.startAddr)
    (hslab : ∀ i, (z.pages i).slab = 0) {n : Nat} (hn : SLAB_MIN_ORDER + n ≤ SLAB_MAX_ORDER + 1) :
    (initSlabs ⟨z, mem, fun _ => 0⟩ n = none ∧ z.pageNum < n * 2 ^ SLAB_BLOCK_ORDER) ∨
      ∃ h chain free, initSlabs ⟨z, mem, fun _ => 0⟩ n = some h ∧ FirstSlabs z n h chain free := by
  induction n with
  | zero => exact .inr ⟨_, _, _, rfl, firstSlabs_zero hz hstart hslab⟩
  | succ n ih =>
    rcases ih (by omega) with ⟨hnone, hfew⟩ | ⟨h, chain, free, hsome, hf⟩
    · refine .inl ⟨?_, ?_⟩
      · rw [initSlabs, hnone]
        rfl
      · rw [Nat.succ_mul]
        exact Nat.lt_add_right _ hfew
    have ho : SLAB_MIN_ORDER ≤ SLAB_MIN_ORDER + n ∧ SLAB_MIN_ORDER + n ≤ SLAB_MAX_ORDER := by omega
    rcases initSlabCache_spec hf.inv ho with ⟨hcache, hfew⟩ | ⟨slab, h', hcache, hnew⟩
    · refine .inl ⟨?_, ?_⟩
      · simp only [initSlabs, hsome, hcache, bind_eq_bind, bind_some, bind_none]
      · by_contra hge
        obtain ⟨b, hb, hbo⟩ := hf.room (not_lt.mp hge)
        exact absurd (hfew b hb) (Nat.not_lt_of_le hbo)
    have hempty := hf.none (le_refl (SLAB_MIN_ORDER + n))
    have hzero : h.slabs (SLAB_MIN_ORDER + n) = 0 := by
      have hchain := hf.inv.chained (SLAB_MIN_ORDER + n)
      rwa [hempty] at hchain
    -- `next_slab` is `NULL` already
    have hadd : addSlab h' (SLAB_MIN_ORDER + n) slab 0 =
        { h' with slabs := update h'.slabs (SLAB_MIN_ORDER + n) slab } := by
      rw [addSlab, Heap.store, ← hnew.next, update_eq_self]
    obtain ⟨l, _, hinv⟩ := hnew.inv
    rw [hzero, hempty, hadd] at hinv
    have hround : initSlabs ⟨z, mem, fun _ => 0⟩ (n + 1) =
        some { h' with slabs := update h'.slabs (SLAB_MIN_ORDER + n) slab } := by
      simp only [initSlabs, hsome, hcache, bind_eq_bind, bind_some]
    refine .inr ⟨_, _, _, hround, hnew.startAddr.trans hf.startAddr,
      hnew.pageNum.trans hf.pageNum, hinv, fun {o} hlow hhigh => ?_, fun {o} hge => ?_⟩
    · by_cases hoo : o = SLAB_MIN_ORDER + n
      · exact ⟨slab, by rw [hoo, update_self]⟩
      · rw [update_of_ne hoo]
        exact hf.one hlow (by omega)
    · rw [update_of_ne (by omega)]
      exact hf.none (by omega)

end ChCore.Mm
