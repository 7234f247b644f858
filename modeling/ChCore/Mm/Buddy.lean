/-
  File: ChCore/Mm/Buddy.lean
  Subject: The buddy allocator (`kernel/mm/buddy.c`).

  Pages are named by their index in the metadata array; a read of metadata outside the array finds
  what stands behind it, a write outside stops the run (`none`). A free list is the list of the pages
  on it, first page first.

  * `buddy_run` -- the invariant after every call of every run.
-/
import ChCore.Lib.Blocks
import ChCore.Lib.Run

namespace ChCore.Mm

open Lib Function Option List Set

/-! ## 1. The source -/

def BUDDY_PAGE_SHIFT : Nat := 12

def BUDDY_PAGE_SIZE : Nat := 1 <<< BUDDY_PAGE_SHIFT

def BUDDY_MAX_ORDER : Nat := 14

/-- `struct page`, with the flags `PG_head` and `PG_buddy`. The field `slab` is an address, 0 is
    `NULL`. -/
structure Page where
  head : Bool
  buddy : Bool
  order : Nat
  slab : Nat
  deriving DecidableEq, Repr

/-- `struct free_list`. -/
structure FreeList where
  pages : List Nat
  nrFree : Nat
  deriving DecidableEq, Repr

/-- `struct global_mem`, and what the words behind the metadata array read as. -/
structure Zone where
  pageNum : Nat
  startAddr : Nat
  pages : Nat → Page
  lists : Nat → FreeList
  behind : Page

def Page.zero : Page := ⟨false, false, 0, 0⟩

variable (z : Zone) (startAddr pageNum : Nat) (order : Nat) (i : Nat)

/-- A read of the metadata of page `i`. -/
def Zone.page : Page := if i < z.pageNum then z.pages i else z.behind

def Zone.setPage (p : Page) : Option Zone :=
  if i < z.pageNum then some { z with pages := update z.pages i p } else none

def setPageOrderBuddy (i order : Nat) : Option Zone :=
  z.setPage i { z.page i with order := order, buddy := true }

def clearPageOrderBuddy : Option Zone :=
  z.setPage i { z.page i with order := 0, buddy := false }

def Zone.setList (l : FreeList) : Zone :=
  { z with lists := update z.lists order l }

/-- `list_add` of a page to the list of this order. -/
def listAdd (i order : Nat) : Zone :=
  z.setList order { z.lists order with pages := i :: (z.lists order).pages }

/-- `list_del` takes a page off the list it is on. -/
def listDel : Option Zone :=
  if ∃ k, k < BUDDY_MAX_ORDER ∧ i ∈ (z.lists k).pages then
    some { z with lists := fun k => { z.lists k with pages := (z.lists k).pages.erase i } }
  else none

def incFree : Zone :=
  z.setList order { z.lists order with nrFree := (z.lists order).nrFree + 1 }

def decFree : Zone :=
  z.setList order { z.lists order with nrFree := (z.lists order).nrFree - 1 }

def getBuddyPage (page order : Nat) : Nat := page ^^^ 1 <<< order

def getMergePage (page order : Nat) : Nat := Nat.ldiff page (1 <<< order)

/-- `split`. The recursion is on `high_order`; `size` is its power of two. -/
def split (z : Zone) (page lowOrder : Nat) : Nat → Option Zone
  | 0 => some z
  | highOrder + 1 =>
    if highOrder + 1 > lowOrder then do
      let size := 2 ^ highOrder
      let z := incFree (listAdd z (page + size) highOrder) highOrder
      let z ← setPageOrderBuddy z (page + size) highOrder
      split z page lowOrder highOrder
    else some z

/-- The loop of `__alloc_page`, with `rounds` orders left to look at. -/
def allocLoop (z : Zone) (order : Nat) : Nat → Option (Option Nat × Zone)
  | 0 => some (none, z)
  | rounds + 1 =>
    let currentOrder := BUDDY_MAX_ORDER - (rounds + 1)
    match (z.lists currentOrder).pages with
    | [] => allocLoop z order rounds
    | page :: _ => do
      let z ← listDel z page
      let z := decFree z currentOrder
      let z ← clearPageOrderBuddy z page
      let z ← split z page order currentOrder
      let z ← z.setPage page { z.page page with order := order, head := true }
      some (some page, z)

def allocPage : Option (Option Nat × Zone) :=
  allocLoop z order (BUDDY_MAX_ORDER - order)

def checkBuddy (page order : Nat) : Bool :=
  (z.page page).buddy && (z.page page).order == order

def buddyGetPages : Option (Option Nat × Zone) :=
  if order ≥ BUDDY_MAX_ORDER then none else allocPage z order

/-- The loop of `buddy_free_pages`, with `rounds` orders left below the last one. -/
def mergeLoop (z : Zone) (page order : Nat) : Nat → Option (Zone × Nat × Nat)
  | 0 => some (z, page, order)
  | rounds + 1 =>
    let buddy := getBuddyPage page order
    if checkBuddy z buddy order then do
      let z ← listDel z buddy
      let z := decFree z order
      let z ← clearPageOrderBuddy z buddy
      mergeLoop z (getMergePage page order) (order + 1) rounds
    else some (z, page, order)

def buddyFreePages (page : Nat) : Option Zone := do
  let order := (z.page page).order
  let z ← z.setPage page { z.page page with head := false }
  let (z, page, order) ← mergeLoop z page order (BUDDY_MAX_ORDER - 1 - order)
  if order ≥ BUDDY_MAX_ORDER then none
  else
    let z ← setPageOrderBuddy z page order
    some (incFree (listAdd z page order) order)

/-- The loop of `init_buddy`. -/
def initLoop (z : Zone) : Nat → Option Zone
  | 0 => some z
  | i + 1 => do
    let z ← initLoop z i
    buddyFreePages z i

/-- The zone before the pages are freed. -/
def zoneZero : Zone := ⟨pageNum, startAddr, fun _ => Page.zero, fun _ => ⟨[], 0⟩, Page.zero⟩

def initBuddy : Option Zone := initLoop (zoneZero startAddr pageNum) pageNum

/-- `page_to_virt`; 0 is `NULL`. -/
def pageToVirt : Option Nat → Nat
  | none => 0
  | some page => z.startAddr + page * BUDDY_PAGE_SIZE

/-- `virt_to_page`, for an address inside the memory of the zone. -/
def virtToPage (addr : Nat) : Option Nat :=
  if addr < z.startAddr ∨ addr > z.startAddr + z.pageNum * BUDDY_PAGE_SIZE then none
  else some ((addr - z.startAddr) >>> BUDDY_PAGE_SHIFT)

/-! ## 2. The invariant -/

/-- The free blocks. -/
def Zone.free : Set Block := {b | b.start ∈ (z.lists b.order).pages}

/-- **The invariant**, for the allocated blocks `A` and the blocks `H` in hand: those a function has
    taken off the lists, or is about to put there. -/
structure BuddyInv (z : Zone) (A H : Set Block) : Prop where
  tiles : Tiles (z.free ∪ A ∪ H) z.pageNum
  freeA : Disjoint z.free A
  restH : Disjoint (z.free ∪ A) H
  aligned : ∀ b ∈ z.free ∪ A ∪ H, b.Aligned ∧ b.order < BUDDY_MAX_ORDER
  flag : ∀ i, (z.pages i).buddy = true ↔ ∃ k, i ∈ (z.lists k).pages
  order : ∀ {i k}, i ∈ (z.lists k).pages → (z.pages i).order = k
  marked : ∀ b ∈ A, (z.pages b.start).order = b.order
  count : ∀ k, (z.lists k).nrFree = (z.lists k).pages.length
  nodup : ∀ k, (z.lists k).pages.Nodup
  merged : ∀ b ∈ z.free, b.order < BUDDY_MAX_ORDER - 1 → b.buddy ∉ z.free
  outside : z.behind.buddy = false ∨ 2 ^ (BUDDY_MAX_ORDER - 1) ∣ z.pageNum

/-- What the functions leave alone. -/
structure Kept (z z' : Zone) : Prop where
  pageNum : z'.pageNum = z.pageNum
  startAddr : z'.startAddr = z.startAddr
  slab : ∀ i, (z'.pages i).slab = (z.pages i).slab

theorem Kept.refl : Kept z z := ⟨rfl, rfl, fun _ => rfl⟩

theorem Kept.trans {z z' z'' : Zone} (h : Kept z z') (h' : Kept z' z'') : Kept z z'' :=
  ⟨h'.pageNum.trans h.pageNum, h'.startAddr.trans h.startAddr,
    fun i => (h'.slab i).trans (h.slab i)⟩

/-- The block is put on its list. -/
def linked (b : Block) : Zone :=
  { z with
    pages := update z.pages b.start
      { z.pages b.start with order := b.order, buddy := true }
    lists := update z.lists b.order
      ⟨b.start :: (z.lists b.order).pages, (z.lists b.order).nrFree + 1⟩ }

/-- The block is taken off its list. -/
def unlinked (b : Block) : Zone :=
  { z with
    pages := update z.pages b.start { z.pages b.start with order := 0, buddy := false }
    lists := update z.lists b.order
      ⟨(z.lists b.order).pages.erase b.start, (z.lists b.order).nrFree - 1⟩ }

section Links

variable {z : Zone} {A H : Set Block} {b : Block}

variable {i : Nat} {c : Block}

theorem mem_free : c ∈ z.free ↔ c.start ∈ (z.lists c.order).pages := Iff.rfl

theorem kept_update (z : Zone) (lists : Nat → FreeList) {p : Page}
    (hp : p.slab = (z.pages i).slab) :
    Kept z { z with pages := update z.pages i p, lists := lists } := by
  refine ⟨rfl, rfl, fun j => ?_⟩
  by_cases hj : j = i
  · subst hj
    exact (congrArg Page.slab (update_self ..)).trans hp
  · exact congrArg Page.slab (update_of_ne hj ..)

theorem kept_linked : Kept z (linked z b) := kept_update z _ rfl

theorem kept_unlinked : Kept z (unlinked z b) := kept_update z _ rfl

theorem linked_lists {i k : Nat} :
    i ∈ ((linked z b).lists k).pages ↔ i ∈ (z.lists k).pages ∨ (⟨i, k⟩ : Block) = b := by
  by_cases hk : k = b.order
  · subst hk
    simp only [linked, update_self, mem_cons, Block.ext_iff, and_true]
    exact or_comm
  · simp [linked, Block.ext_iff, hk]

theorem unlinked_lists (h : BuddyInv z A H) {i k : Nat} :
    i ∈ ((unlinked z b).lists k).pages ↔ i ∈ (z.lists k).pages ∧ (⟨i, k⟩ : Block) ≠ b := by
  by_cases hk : k = b.order
  · subst hk
    simp only [unlinked, update_self, (h.nodup _).mem_erase_iff, ne_eq, Block.ext_iff, and_true]
    exact and_comm
  · simp [unlinked, Block.ext_iff, hk]

theorem free_linked : (linked z b).free = insert b z.free := by
  ext c
  rw [mem_free, linked_lists, mem_insert_iff]
  exact or_comm

theorem free_unlinked (h : BuddyInv z A H) : (unlinked z b).free = z.free \ {b} := by
  ext c
  rw [mem_free, unlinked_lists h]
  rfl

theorem BuddyInv.free_start (h : BuddyInv z A H) (hc : c ∈ z.free ∪ A ∪ H) {k : Nat}
    (hk : c.start ∈ (z.lists k).pages) : c = ⟨c.start, k⟩ :=
  h.tiles.start_unique hc (.inl (.inl hk)) rfl

/-- **A block in hand goes to its list.** Its buddy must not be free. -/
theorem inv_linked (h : BuddyInv z A (insert b H)) (hb : b ∉ H)
    (hbuddy : b.order < BUDDY_MAX_ORDER - 1 → b.buddy ∉ z.free) : BuddyInv (linked z b) A H := by
  have hU : (linked z b).free ∪ A ∪ H = z.free ∪ A ∪ insert b H := by
    rw [free_linked, insert_union, insert_union, union_insert]
  have hbU : b ∈ z.free ∪ A ∪ insert b H := .inr (mem_insert b H)
  have hnew : b ∉ z.free ∪ A := fun hm => disjoint_left.mp h.restH hm (mem_insert b H)
  have hstart : ∀ {c}, c ∈ z.free ∪ A → c.start ≠ b.start := fun hc e =>
    hnew (h.tiles.start_unique (.inl hc) hbU e ▸ hc)
  have hpage : ∀ {i}, i ≠ b.start → (linked z b).pages i = z.pages i := fun hi =>
    update_of_ne hi ..
  have hself : (linked z b).pages b.start = { z.pages b.start with order := b.order, buddy := true } :=
    update_self ..
  constructor
  case tiles =>
    rw [hU]
    exact h.tiles
  case freeA =>
    rw [free_linked, disjoint_insert_left]
    exact ⟨fun hm => hnew (.inr hm), h.freeA⟩
  case restH =>
    rw [free_linked, insert_union, disjoint_insert_left]
    exact ⟨hb, h.restH.mono_right (subset_insert b H)⟩
  case aligned =>
    rw [hU]
    exact h.aligned
  case flag =>
    intro i
    simp only [linked_lists]
    by_cases hi : i = b.start
    · subst hi
      rw [hself]
      exact iff_of_true rfl ⟨b.order, .inr rfl⟩
    · rw [hpage hi, h.flag]
      refine exists_congr fun k => (or_iff_left fun e => hi ?_).symm
      rw [← e]
  case order =>
    intro i k hik
    rcases linked_lists.mp hik with hik | rfl
    · rw [hpage (hstart (.inl (show (⟨i, k⟩ : Block) ∈ z.free from hik)))]
      exact h.order hik
    · rw [hself]
  case marked =>
    intro c hc
    rw [hpage (hstart (.inr hc))]
    exact h.marked c hc
  case count =>
    intro k
    by_cases hk : k = b.order
    · subst hk
      simp [linked, h.count]
    · simp [linked, hk, h.count]
  case nodup =>
    intro k
    by_cases hk : k = b.order
    · subst hk
      simp only [linked, update_self, nodup_cons]
      exact ⟨fun hm => hnew (.inl hm), h.nodup _⟩
    · simp only [linked, update_of_ne hk]
      exact h.nodup k
  case merged =>
    rw [free_linked]
    rintro c (rfl | hc) hlt (e | hm)
    · exact Block.buddy_ne (h.aligned c hbU).1 e
    · exact hbuddy hlt hm
    · rw [← e, Block.buddy_buddy] at hbuddy
      exact hbuddy hlt hc
    · exact h.merged c hc hlt hm
  case outside => exact h.outside

/-- **A free block is taken in hand.** -/
theorem inv_unlinked (h : BuddyInv z A H) (hb : b ∈ z.free) :
    BuddyInv (unlinked z b) A (insert b H) := by
  have hU : (unlinked z b).free ∪ A ∪ insert b H = z.free ∪ A ∪ H := by
    rw [free_unlinked h, union_insert, ← insert_union, ← insert_union, insert_sdiff_singleton,
      insert_eq_of_mem hb]
  have hbU : b ∈ z.free ∪ A ∪ H := .inl (.inl hb)
  have hpage : ∀ {i}, i ≠ b.start → (unlinked z b).pages i = z.pages i := fun hi =>
    update_of_ne hi ..
  have hother : ∀ {i k}, i ∈ ((unlinked z b).lists k).pages → i ≠ b.start ∧ i ∈ (z.lists k).pages := by
    intro i k hik
    obtain ⟨hik, hne⟩ := (unlinked_lists h).mp hik
    refine ⟨fun e => hne ?_, hik⟩
    subst e
    exact (h.free_start hbU hik).symm
  constructor
  case tiles =>
    rw [hU]
    exact h.tiles
  case freeA =>
    rw [free_unlinked h]
    exact h.freeA.mono_left sdiff_subset
  case restH =>
    rw [free_unlinked h, disjoint_insert_right]
    refine ⟨?_, h.restH.mono_left (union_subset_union_left A sdiff_subset)⟩
    rintro (hm | hm)
    · exact hm.2 rfl
    · exact disjoint_left.mp h.freeA hb hm
  case aligned =>
    rw [hU]
    exact h.aligned
  case flag =>
    intro i
    by_cases hi : i = b.start
    · subst hi
      refine iff_of_false ?_ fun ⟨k, hk⟩ => (hother hk).1 rfl
      rw [show (unlinked z b).pages b.start = _ from update_self ..]
      exact Bool.false_ne_true
    · rw [hpage hi, h.flag]
      refine exists_congr fun k => ⟨fun hk => (unlinked_lists h).mpr ⟨hk, fun e => hi ?_⟩,
        fun hk => (hother hk).2⟩
      rw [← e]
  case order =>
    intro i k hik
    rw [hpage (hother hik).1]
    exact h.order (hother hik).2
  case marked =>
    intro c hc
    rw [hpage fun e => disjoint_left.mp h.freeA hb
      (h.tiles.start_unique (.inl (.inr hc)) hbU e ▸ hc)]
    exact h.marked c hc
  case count =>
    intro k
    by_cases hk : k = b.order
    · subst hk
      simp [unlinked, h.count, length_erase_of_mem (mem_free.mp hb)]
    · simp [unlinked, hk, h.count]
  case nodup =>
    intro k
    by_cases hk : k = b.order
    · subst hk
      simp only [unlinked, update_self]
      exact (h.nodup _).erase _
    · simp only [unlinked, update_of_ne hk]
      exact h.nodup k
  case merged =>
    rw [free_unlinked h]
    exact fun c hc hlt hm => h.merged c hc.1 hlt hm.1
  case outside => exact h.outside

/-- **The blocks in hand are exchanged** for others over the same pages. -/
theorem inv_exchange {T : Set Block} (h : BuddyInv z A H) (hT : T.PairwiseDisjoint Block.places)
    (hplaces : ⋃ b ∈ T, b.places = ⋃ b ∈ H, b.places)
    (haligned : ∀ b ∈ T, b.Aligned ∧ b.order < BUDDY_MAX_ORDER) : BuddyInv z A T where
  __ := h
  tiles := h.tiles.exchange h.restH hT hplaces
  restH := h.tiles.exchange_disjoint h.restH hplaces
  aligned := by
    rintro b (hb | hb)
    · exact h.aligned b (.inl hb)
    · exact haligned b hb

/-! ## 3. The functions -/

theorem Zone.page_of_lt (hi : i < z.pageNum) : z.page i = z.pages i := if_pos hi

theorem Zone.setPage_of_lt (hi : i < z.pageNum) (p : Page) :
    z.setPage i p = some { z with pages := update z.pages i p } := if_pos hi

theorem BuddyInv.lt (h : BuddyInv z A H) (hc : c ∈ z.free ∪ A ∪ H) :
    c.start < z.pageNum := h.tiles.start_lt hc

theorem listDel_eq (h : BuddyInv z A H) (hb : b ∈ z.free) :
    (listDel z b.start).map (decFree · b.order) = some { z with lists := (unlinked z b).lists } := by
  have hex : ∃ k, k < BUDDY_MAX_ORDER ∧ b.start ∈ (z.lists k).pages :=
    ⟨b.order, (h.aligned b (.inl (.inl hb))).2, hb⟩
  rw [listDel, if_pos hex]
  refine congrArg some ?_
  simp only [decFree, Zone.setList, unlinked]
  congr 1
  funext k
  by_cases hk : k = b.order
  · subst hk
    simp
  · have hnot : b.start ∉ (z.lists k).pages := fun hm =>
      hk (congrArg Block.order (h.free_start (.inl (.inl hb)) hm)).symm
    simp [hk, erase_of_not_mem hnot]

/-- `list_del`, `nr_free--` and `clear_page_order_buddy` of a free block. -/
theorem takeOff_eq (h : BuddyInv z A H) (hb : b ∈ z.free) :
    ((listDel z b.start).bind fun z => clearPageOrderBuddy (decFree z b.order) b.start) =
      some (unlinked z b) := by
  have hlt := h.lt (.inl (.inl hb))
  have hmap := listDel_eq h hb
  cases hd : listDel z b.start with
  | none =>
    rw [hd] at hmap
    cases hmap
  | some z1 =>
  rw [hd] at hmap
  have hz : decFree z1 b.order = { z with lists := (unlinked z b).lists } := some.inj hmap
  have hlt' : b.start < ({ z with lists := (unlinked z b).lists } : Zone).pageNum := hlt
  rw [bind_some, hz, clearPageOrderBuddy, Zone.page_of_lt hlt', Zone.setPage_of_lt hlt']
  rfl

/-- `set_page_order_buddy`, `list_add` and `nr_free++`, in the order of `split`. -/
theorem putOn_eq (hlt : b.start < z.pageNum) :
    setPageOrderBuddy (incFree (listAdd z b.start b.order) b.order) b.start b.order =
      some (linked z b) := by
  have hlt' : b.start < (incFree (listAdd z b.start b.order) b.order).pageNum := hlt
  rw [setPageOrderBuddy, Zone.page_of_lt hlt', Zone.setPage_of_lt hlt']
  simp [incFree, listAdd, Zone.setList, linked]

/-- The same, in the order of `buddy_free_pages`. -/
theorem putOn_eq' (hlt : b.start < z.pageNum) :
    ((setPageOrderBuddy z b.start b.order).map fun z =>
      incFree (listAdd z b.start b.order) b.order) = some (linked z b) := by
  rw [setPageOrderBuddy, Zone.page_of_lt hlt, Zone.setPage_of_lt hlt]
  simp [incFree, listAdd, Zone.setList, linked]

/-- **`split`** keeps the low part in hand and frees the rest. -/
theorem split_spec {page low : Nat} : ∀ {high : Nat} {z : Zone}, low ≤ high →
    BuddyInv z A {⟨page, high⟩} →
      ∃ z', split z page low high = some z' ∧ BuddyInv z' A {⟨page, low⟩} ∧ Kept z z'
  | 0, z, hle, h => by
    obtain rfl : low = 0 := Nat.le_zero.mp hle
    exact ⟨z, rfl, h, Kept.refl z⟩
  | high + 1, z, hle, h => by
    unfold split
    by_cases hlow : high + 1 > low
    · rw [if_pos hlow]
      obtain ⟨halign, horder⟩ := h.aligned ⟨page, high + 1⟩ (.inr rfl)
      have hlt : high < BUDDY_MAX_ORDER := Nat.lt_of_succ_lt horder
      -- the block in hand is cut into its halves, and the upper one is put on its list
      have hcut : BuddyInv z A {⟨page + 2 ^ high, high⟩, ⟨page, high⟩} := by
        rw [pair_comm]
        refine inv_exchange h (disjoint_low_high page high) (places_low_high page high) ?_
        rintro b (rfl | rfl)
        · exact ⟨Block.low_aligned halign, hlt⟩
        · exact ⟨Block.high_aligned halign, hlt⟩
      have hne : (⟨page + 2 ^ high, high⟩ : Block) ∉ ({⟨page, high⟩} : Set Block) := by
        have := Nat.two_pow_pos high
        simp [Block.ext_iff]
      have hlinked : BuddyInv (linked z ⟨page + 2 ^ high, high⟩) A {⟨page, high⟩} := by
        refine inv_linked hcut hne fun _ hm => ?_
        rw [Block.high_buddy halign] at hm
        exact disjoint_left.mp hcut.restH (.inl hm) (by simp)
      obtain ⟨z', hs, hinv, hkept⟩ := split_spec (Nat.le_of_lt_succ hlow) hlinked
      have hput : setPageOrderBuddy (incFree (listAdd z (page + 2 ^ high) high) high)
          (page + 2 ^ high) high = some (linked z ⟨page + 2 ^ high, high⟩) :=
        putOn_eq (hcut.lt (.inr (.inl rfl)))
      exact ⟨z', by simp only [hput, bind_eq_bind, bind_some, hs], hinv, kept_linked.trans hkept⟩
    · obtain rfl : low = high + 1 := by omega
      rw [if_neg hlow]
      exact ⟨z, rfl, h, Kept.refl z⟩

/-- **`check_buddy` finds the free buddies**: it does not look behind the array, or finds nothing
    there. -/
theorem checkBuddy_buddy (h : BuddyInv z A H) (hb : b ∈ z.free ∪ A ∪ H)
    (ho : b.order < BUDDY_MAX_ORDER - 1) :
    checkBuddy z b.buddy.start b.order = true ↔ b.buddy ∈ z.free := by
  unfold checkBuddy Zone.page
  rw [Bool.and_eq_true, beq_iff_eq]
  by_cases hlt : b.buddy.start < z.pageNum
  · rw [if_pos hlt]
    constructor
    · rintro ⟨hf, hk⟩
      obtain ⟨k, hk'⟩ := (h.flag _).mp hf
      rw [h.order hk'] at hk
      subst hk
      exact hk'
    · exact fun hm => ⟨(h.flag _).mpr ⟨_, hm⟩, h.order hm⟩
  · rw [if_neg hlt]
    refine iff_of_false (fun hf => ?_) fun hm => hlt (h.lt (.inl (.inl hm)))
    rcases h.outside with hq | hdvd
    · rw [hq] at hf
      cases hf.1
    · exact hlt (Block.buddy_inside (h.aligned b hb).1 (h.tiles.inside b hb)
        ((pow_dvd_pow 2 ho).trans hdvd)).1

theorem takeOff_buddy (h : BuddyInv z A {b}) (ho : b.order < BUDDY_MAX_ORDER - 1)
    (hc : checkBuddy z b.buddy.start b.order = true) :
    ((listDel z b.buddy.start).bind fun z =>
      clearPageOrderBuddy (decFree z b.order) b.buddy.start) = some (unlinked z b.buddy) :=
  takeOff_eq h ((checkBuddy_buddy h (.inr rfl) ho).mp hc)

theorem inv_merged (h : BuddyInv z A {b}) (hb : b.buddy ∈ z.free)
    (ho : b.order < BUDDY_MAX_ORDER - 1) : BuddyInv (unlinked z b.buddy) A {b.merged} := by
  obtain ⟨halign, _⟩ := h.aligned b (.inr rfl)
  have hpair : BuddyInv (unlinked z b.buddy) A {b, b.buddy} := by
    rw [pair_comm]
    exact inv_unlinked h hb
  refine inv_exchange hpair (pairwiseDisjoint_singleton _ _) (places_buddy halign) ?_
  rintro c rfl
  exact ⟨(Block.halves halign).1, Nat.add_lt_of_lt_sub ho⟩

/-- **One round of the merge loop**: the buddy is free and joined, or the loop ends. -/
theorem mergeLoop_succ (h : BuddyInv z A {b}) (ho : b.order < BUDDY_MAX_ORDER - 1) (rounds : Nat) :
    mergeLoop z b.start b.order (rounds + 1) =
      if checkBuddy z b.buddy.start b.order then
        mergeLoop (unlinked z b.buddy) b.merged.start b.merged.order rounds
      else some (z, b.start, b.order) := by
  conv_lhs => unfold mergeLoop
  rw [show getBuddyPage b.start b.order = b.buddy.start from rfl]
  cases hc : checkBuddy z b.buddy.start b.order with
  | false => simp only [hc, Bool.false_eq_true, if_false]
  | true =>
    simp only [hc, if_true]
    refine Eq.trans (bind_assoc ..).symm ?_
    rw [takeOff_buddy h ho hc]
    rfl

/-- **The merge loop** joins the block in hand with its free buddies. -/
theorem mergeLoop_spec : ∀ {rounds : Nat} {z : Zone} {b : Block},
    b.order + rounds = BUDDY_MAX_ORDER - 1 → BuddyInv z A {b} →
      ∃ z' b', mergeLoop z b.start b.order rounds = some (z', b'.start, b'.order) ∧
        BuddyInv z' A {b'} ∧ Kept z z' ∧ (b'.order < BUDDY_MAX_ORDER - 1 → b'.buddy ∉ z'.free)
  | 0, z, b, hr, h => ⟨z, b, rfl, h, Kept.refl z, fun hlt => absurd hlt (by omega)⟩
  | rounds + 1, z, b, hr, h => by
    have ho : b.order < BUDDY_MAX_ORDER - 1 := by omega
    have hcheck := checkBuddy_buddy h (.inr rfl) ho
    rw [mergeLoop_succ h ho]
    by_cases hb : b.buddy ∈ z.free
    · rw [if_pos (hcheck.mpr hb)]
      have hr' : b.merged.order + rounds = BUDDY_MAX_ORDER - 1 := by
        show b.order + 1 + rounds = _
        omega
      obtain ⟨z', b', hs, hinv, hkept, hend⟩ :=
        mergeLoop_spec hr' (inv_merged h hb ho)
      exact ⟨z', b', hs, hinv, kept_unlinked.trans hkept, hend⟩
    · rw [if_neg (mt hcheck.mp hb)]
      exact ⟨z, b, rfl, h, Kept.refl z, fun _ => hb⟩

/-- Metadata may change where it is not the order of a free or allocated block or `PG_buddy`. -/
theorem inv_pages (h : BuddyInv z A H) {pages : Nat → Page}
    (hflag : ∀ i, (pages i).buddy = (z.pages i).buddy)
    (horder : ∀ b ∈ z.free ∪ A, (pages b.start).order = (z.pages b.start).order) :
    BuddyInv { z with pages := pages } A H where
  __ := h
  flag i := by
    rw [hflag]
    exact h.flag i
  order {i k} hik := (horder ⟨i, k⟩ (.inl hik)).trans (h.order hik)
  marked b hb := (horder b (.inr hb)).trans (h.marked b hb)

/-- **A block in hand is handed out**: its first page gets its order. -/
theorem inv_mark (h : BuddyInv z A {b}) {p : Page} (hbuddy : p.buddy = (z.pages b.start).buddy)
    (horder : p.order = b.order) :
    BuddyInv { z with pages := update z.pages b.start p } (insert b A) ∅ := by
  have hbU : b ∈ z.free ∪ A ∪ {b} := .inr rfl
  have hnew : b ∉ z.free ∪ A := fun hm => disjoint_left.mp h.restH hm rfl
  have hstart : ∀ c ∈ z.free ∪ A, c.start ≠ b.start := fun c hc e =>
    hnew (h.tiles.start_unique (.inl hc) hbU e ▸ hc)
  have hU : z.free ∪ insert b A ∪ ∅ = z.free ∪ A ∪ {b} := by
    rw [union_empty, union_insert, union_singleton]
  have h' : BuddyInv { z with pages := update z.pages b.start p } A {b} := by
    refine inv_pages h (fun i => ?_) fun c hc => ?_
    · by_cases hi : i = b.start
      · rw [hi, update_self]
        exact hbuddy
      · rw [update_of_ne hi]
    · rw [update_of_ne (hstart c hc)]
  refine { h' with tiles := hU ▸ h'.tiles, freeA := ?_, restH := disjoint_empty _
                   aligned := hU ▸ h'.aligned, marked := ?_ }
  · exact disjoint_insert_right.mpr ⟨fun hm => hnew (.inl hm), h.freeA⟩
  · rintro c (rfl | hc)
    · exact (congrArg Page.order (update_self ..)).trans horder
    · exact h'.marked c hc

/-- **An allocated block comes back in hand.** -/
theorem inv_unmark (h : BuddyInv z A ∅) (hb : b ∈ A) : BuddyInv z (A \ {b}) {b} := by
  have hU : z.free ∪ A \ {b} ∪ {b} = z.free ∪ A ∪ ∅ := by
    rw [union_empty, union_assoc, sdiff_union_of_subset (singleton_subset_iff.mpr hb)]
  refine ⟨hU ▸ h.tiles, h.freeA.mono_right sdiff_subset, ?_, hU ▸ h.aligned, h.flag, h.order,
    fun c hc => h.marked c hc.1, h.count, h.nodup, h.merged, h.outside⟩
  rw [disjoint_singleton_right]
  rintro (hm | hm)
  · exact disjoint_left.mp h.freeA hm hb
  · exact hm.2 rfl

/-- **The search for a free block.** It takes a block off a list and hands out a part of the order
    asked for, or finds nothing and changes nothing. -/
theorem allocLoop_spec {order : Nat} (h : BuddyInv z A ∅) : ∀ {rounds : Nat},
    order + rounds ≤ BUDDY_MAX_ORDER →
      ∃ r z', allocLoop z order rounds = some (r, z') ∧ Kept z z' ∧
        match r with
        | none => z' = z ∧ ∀ b ∈ z.free, b.order < BUDDY_MAX_ORDER - rounds
        | some page => (⟨page, order⟩ : Block) ∉ A ∧ BuddyInv z' (insert ⟨page, order⟩ A) ∅
  | 0, _ => ⟨none, z, rfl, Kept.refl z, rfl, fun b hb => (h.aligned b (.inl (.inl hb))).2⟩
  | rounds + 1, hr => by
    unfold allocLoop
    simp only
    split
    · rename_i hempty
      have hle : order + rounds ≤ BUDDY_MAX_ORDER := by omega
      obtain ⟨r, z', hs, hkept, hr'⟩ := allocLoop_spec h hle
      refine ⟨r, z', hs, hkept, ?_⟩
      cases r with
      | some page => exact hr'
      | none =>
      refine ⟨hr'.1, fun b hb => ?_⟩
      have hlt := hr'.2 b hb
      have hne : b.order ≠ BUDDY_MAX_ORDER - (rounds + 1) := fun e => by
        rw [mem_free, e, hempty] at hb
        cases hb
      omega
    rename_i page rest hpages
    have hb : (⟨page, BUDDY_MAX_ORDER - (rounds + 1)⟩ : Block) ∈ z.free := by
      rw [mem_free, hpages]
      exact mem_cons_self
    have htaken := inv_unlinked h hb
    rw [insert_empty_eq] at htaken
    obtain ⟨z2, hsplit, h2, hkept⟩ :=
      split_spec (show order ≤ BUDDY_MAX_ORDER - (rounds + 1) by omega) htaken
    have hlt : page < z2.pageNum := h2.lt (c := ⟨page, order⟩) (.inr rfl)
    have hmark := inv_mark h2 (p := { z2.pages page with order := order, head := true }) rfl rfl
    refine ⟨some page, _, ?_, (kept_unlinked.trans hkept).trans ?_, ?_, hmark⟩
    · refine Eq.trans (bind_assoc ..).symm ?_
      rw [takeOff_eq h hb]
      simp only [bind_some, bind_eq_bind, hsplit, Zone.page_of_lt hlt, Zone.setPage_of_lt hlt]
    · exact kept_update z2 z2.lists rfl
    · exact fun hm => disjoint_left.mp h2.restH (.inr hm) rfl

theorem buddyGetPages_spec {order : Nat} (h : BuddyInv z A ∅) (ho : order < BUDDY_MAX_ORDER) :
    ∃ r z', buddyGetPages z order = some (r, z') ∧ Kept z z' ∧
      match r with
      | none => z' = z ∧ ∀ b ∈ z.free, b.order < order
      | some page => (⟨page, order⟩ : Block) ∉ A ∧ BuddyInv z' (insert ⟨page, order⟩ A) ∅ := by
  have hrounds : BUDDY_MAX_ORDER - (BUDDY_MAX_ORDER - order) = order :=
    Nat.sub_sub_self (le_of_lt ho)
  have hspec := allocLoop_spec h (le_of_eq (Nat.add_sub_cancel' (le_of_lt ho)))
  rw [hrounds] at hspec
  rw [buddyGetPages, if_neg (Nat.not_le_of_lt ho)]
  exact hspec

/-- **Free memory is merged**: where no small block is allocated, every aligned block inside the
    memory lies in one block of the tiling. -/
theorem BuddyInv.covered (h : BuddyInv z A ∅) {k : Nat} (hk : k < BUDDY_MAX_ORDER)
    (hA : ∀ b ∈ A, k ≤ b.order) : ∀ {j p : Nat}, j ≤ k → (⟨p, j⟩ : Block).Aligned →
      p + 2 ^ j ≤ z.pageNum →
        ∃ b ∈ z.free ∪ A, j ≤ b.order ∧ (⟨p, j⟩ : Block).places ⊆ b.places := by
  have hunion : z.free ∪ A ∪ ∅ = z.free ∪ A := union_empty _
  have htiles := hunion ▸ h.tiles
  have haligned := hunion ▸ h.aligned
  intro j
  induction j with
  | zero =>
    intro p _ _ hin
    obtain ⟨b, hb, hpb⟩ := htiles.covers p (by omega)
    refine ⟨b, hb, Nat.zero_le _, fun q hq => ?_⟩
    have hq' := Block.mem_places.mp hq
    simp only [Block.size, pow_zero] at hq'
    obtain rfl : q = p := by omega
    exact hpb
  | succ j ih =>
    intro p hj halign hin
    have hpos := Nat.two_pow_pos j
    have hlow := Block.low_aligned halign
    have hhigh := Block.high_aligned halign
    obtain ⟨b, hb, hbj, hbp⟩ := ih (Nat.le_of_succ_le hj) hlow (by omega)
    obtain ⟨c, hc, hcj, hcp⟩ := ih (Nat.le_of_succ_le hj) hhigh (by omega)
    have hmid : p + 2 ^ j ∈ (⟨p, j + 1⟩ : Block).places :=
      Block.mem_places.mpr ⟨by simp, by simp only [Block.size]; omega⟩
    -- a block of the tiling that is larger than one half holds both
    rcases lt_or_ge j b.order with hlt | hge
    · exact ⟨b, hb, hlt, Block.places_subset halign (haligned b hb).1 hlt (Block.start_mem ⟨p, j + 1⟩)
        (hbp (Block.start_mem ⟨p, j⟩))⟩
    rcases lt_or_ge j c.order with hlt | hge'
    · exact ⟨c, hc, hlt, Block.places_subset halign (haligned c hc).1 hlt hmid
        (hcp (Block.start_mem ⟨p + 2 ^ j, j⟩))⟩
    -- otherwise the halves themselves are blocks, free ones, and would have been merged
    have hbe : b = ⟨p, j⟩ := Block.eq_of_subset hbp (le_antisymm hge hbj)
    have hce : c = ⟨p + 2 ^ j, j⟩ := Block.eq_of_subset hcp (le_antisymm hge' hcj)
    subst hbe hce
    have hfree : ∀ d ∈ z.free ∪ A, d.order = j → d ∈ z.free := fun d hd e =>
      hd.resolve_right fun hm => absurd (hA d hm) (by omega)
    exact absurd (Block.high_buddy halign ▸ hfree _ hb rfl)
      (h.merged _ (hfree _ hc rfl) (by simp only; omega))

/-- The places of the free blocks. -/
def Zone.freePlaces (z : Zone) : Set Nat := {p | ∃ b ∈ z.free, p ∈ b.places}

theorem BuddyInv.mem_freePlaces (h : BuddyInv z A ∅) {p : Nat} :
    p ∈ z.freePlaces ↔ p < z.pageNum ∧ ∀ b ∈ A, p ∉ b.places := by
  constructor
  · rintro ⟨b, hb, hp⟩
    have hbU : b ∈ z.free ∪ A ∪ ∅ := .inl (.inl hb)
    refine ⟨(Block.mem_places.mp hp).2.trans_le (h.tiles.inside b hbU), fun c hc hpc => ?_⟩
    have hbc := h.tiles.unique hbU (.inl (.inr hc)) hp hpc
    exact disjoint_left.mp h.freeA hb (hbc ▸ hc)
  · rintro ⟨hp, hA⟩
    obtain ⟨b, (hb | hb) | hb, hpb⟩ := h.tiles.covers p hp
    · exact ⟨b, hb, hpb⟩
    · exact absurd hpb (hA b hb)
    · exact absurd hb (notMem_empty b)

/-- A block that is allocated no more is free, and nothing else changes. -/
theorem freePlaces_erase {z' : Zone} (h : BuddyInv z A ∅) (h' : BuddyInv z' (A \ {b}) ∅)
    (hb : b ∈ A) (hkept : Kept z z') : z'.freePlaces = z.freePlaces ∪ b.places := by
  have hbU : b ∈ z.free ∪ A ∪ ∅ := .inl (.inr hb)
  ext p
  rw [mem_union, h'.mem_freePlaces, h.mem_freePlaces, hkept.pageNum]
  constructor
  · rintro ⟨hp, hA⟩
    by_cases hpb : p ∈ b.places
    · exact .inr hpb
    refine .inl ⟨hp, fun c hc hpc => ?_⟩
    by_cases hcb : c = b
    · exact hpb (hcb ▸ hpc)
    · exact hA c ⟨hc, hcb⟩ hpc
  · rintro (⟨hp, hA⟩ | hpb)
    · exact ⟨hp, fun c hc => hA c hc.1⟩
    · refine ⟨(Block.mem_places.mp hpb).2.trans_le (h.tiles.inside b hbU), fun c hc hpc => hc.2 ?_⟩
      exact h.tiles.unique (.inl (.inr hc.1)) hbU hpc hpb

/-- `PG_head` is cleared in the metadata of a page. -/
def headCleared (z : Zone) (i : Nat) : Zone :=
  { z with pages := update z.pages i { z.pages i with head := false } }

theorem inv_headCleared (h : BuddyInv z A ∅) (hb : b ∈ A) :
    BuddyInv (headCleared z b.start) (A \ {b}) {b} := by
  refine inv_pages (inv_unmark h hb) (fun i => ?_) fun c _ => ?_
  · by_cases hi : i = b.start
    · rw [hi, update_self]
    · rw [update_of_ne hi]
  · by_cases hc : c.start = b.start
    · rw [hc, update_self]
    · rw [update_of_ne hc]

theorem setPage_headCleared (hi : i < z.pageNum) :
    z.setPage i { z.page i with head := false } = some (headCleared z i) := by
  rw [Zone.setPage_of_lt hi, Zone.page_of_lt hi]
  rfl

/-- **`buddy_free_pages`** of an allocated block returns, and the block is allocated no more. -/
theorem buddyFreePages_spec (h : BuddyInv z A ∅) (hb : b ∈ A) :
    ∃ z', buddyFreePages z b.start = some z' ∧ BuddyInv z' (A \ {b}) ∅ ∧ Kept z z' := by
  have hlt := h.lt (.inl (.inr hb))
  have hbo := (h.aligned b (.inl (.inr hb))).2
  obtain ⟨z1, c, hs, hinv, hkept, hend⟩ :=
    mergeLoop_spec (show b.order + (BUDDY_MAX_ORDER - 1 - b.order) = _ by omega) (inv_headCleared h hb)
  have hc := hinv.aligned c (.inr rfl)
  have hput := putOn_eq' (hinv.lt (c := c) (.inr rfl))
  have hkept0 : Kept z (headCleared z b.start) := kept_update z z.lists rfl
  refine ⟨linked z1 c, ?_, inv_linked (by rw [insert_empty_eq]; exact hinv) (notMem_empty c) hend,
    (hkept0.trans hkept).trans kept_linked⟩
  obtain ⟨z2, hset, hz2⟩ := map_eq_some_iff.mp hput
  simp only [buddyFreePages, setPage_headCleared hlt, bind_eq_bind, bind_some]
  rw [← h.marked b hb, ← Zone.page_of_lt hlt] at hs
  refine (congrArg (fun o => Option.bind o _) hs).trans ?_
  simp only [bind_some, if_neg (Nat.not_le_of_lt hc.2), hset, hz2]

end Links

/-- The pages from `i` on, as blocks of order 0. -/
def pagesFrom (n i : Nat) : Set Block := {b | b.order = 0 ∧ i ≤ b.start ∧ b.start < n}

theorem tiles_pages (n : Nat) : Tiles (pagesFrom n 0) n := by
  have hsize : ∀ {b : Block}, b.order = 0 → b.size = 1 := fun h => by rw [Block.size, h]; rfl
  refine ⟨fun b hb => ?_, fun p hp => ⟨⟨p, 0⟩, ⟨rfl, Nat.zero_le p, hp⟩, Block.start_mem _⟩, ?_⟩
  · rw [hsize hb.1]
    exact hb.2.2
  intro b hb c hc hne
  refine disjoint_left.mpr fun p hpb hpc => hne ?_
  rw [Block.mem_places, hsize hb.1] at hpb
  rw [Block.mem_places, hsize hc.1] at hpc
  exact Block.ext (by omega) (hb.1.trans hc.1.symm)

/-- Before `init_buddy` frees them, all pages count as allocated blocks of order 0. -/
theorem inv_zero (startAddr n : Nat) : BuddyInv (zoneZero startAddr n) (pagesFrom n 0) ∅ := by
  have hfree : (zoneZero startAddr n).free = ∅ :=
    eq_empty_of_forall_notMem fun b hb => not_mem_nil hb
  constructor
  case tiles =>
    rw [hfree, empty_union, union_empty]
    exact tiles_pages n
  case freeA =>
    rw [hfree]
    exact empty_disjoint _
  case restH => exact disjoint_empty _
  case aligned =>
    rw [hfree, empty_union, union_empty]
    intro b hb
    refine ⟨?_, by rw [hb.1]; decide⟩
    rw [Block.Aligned, Block.size, hb.1]
    exact Nat.one_dvd _
  case flag =>
    exact fun i => iff_of_false Bool.false_ne_true fun h => h.elim fun _ hk => not_mem_nil hk
  case order => exact fun h => absurd h not_mem_nil
  case marked => exact fun b hb => hb.1.symm
  case count => exact fun _ => rfl
  case nodup => exact fun _ => nodup_nil
  case merged =>
    rw [hfree]
    exact fun b hb => absurd hb (notMem_empty b)
  case outside => exact .inl rfl

theorem initLoop_spec (startAddr n : Nat) : ∀ i, i ≤ n →
    ∃ z, initLoop (zoneZero startAddr n) i = some z ∧
      BuddyInv z (pagesFrom n i) ∅ ∧
      Kept (zoneZero startAddr n) z
  | 0, _ => ⟨_, rfl, inv_zero startAddr n, Kept.refl _⟩
  | i + 1, hi => by
    obtain ⟨z, hz, hinv, hkept⟩ := initLoop_spec startAddr n i (Nat.le_of_succ_le hi)
    have hb : (⟨i, 0⟩ : Block) ∈ pagesFrom n i := ⟨rfl, le_refl i, hi⟩
    obtain ⟨z', hz', hinv', hkept'⟩ := buddyFreePages_spec hinv hb
    have hrest : pagesFrom n i \ {⟨i, 0⟩} = pagesFrom n (i + 1) := by
      ext b
      simp only [pagesFrom, mem_sdiff, mem_ofPred_eq, mem_singleton_iff, Block.ext_iff]
      constructor
      · rintro ⟨⟨ho, hle, hlt⟩, hne⟩
        exact ⟨ho, Nat.lt_of_le_of_ne hle fun e => hne ⟨e.symm, ho⟩, hlt⟩
      · rintro ⟨ho, hle, hlt⟩
        exact ⟨⟨ho, Nat.le_of_succ_le hle, hlt⟩, fun e => by omega⟩
    refine ⟨z', ?_, hrest ▸ hinv', hkept.trans hkept'⟩
    rw [initLoop, hz]
    exact hz'

/-- **`init_buddy`** returns, with every page free and no slab. -/
theorem initBuddy_spec :
    ∃ z, initBuddy startAddr pageNum = some z ∧ BuddyInv z ∅ ∅ ∧ z.pageNum = pageNum ∧
      z.startAddr = startAddr ∧ ∀ i, (z.pages i).slab = 0 := by
  obtain ⟨z, hz, hinv, hkept⟩ := initLoop_spec startAddr pageNum pageNum le_rfl
  have hnone : pagesFrom pageNum pageNum = ∅ :=
    eq_empty_of_forall_notMem fun b hb => by
      have := hb.2
      omega
  rw [hnone] at hinv
  exact ⟨z, hz, hinv, hkept.pageNum, hkept.startAddr, hkept.slab⟩

/-! ## 4. Runs -/

/-- The allocator with its clients: `allocated` is the order of the block handed out at a page. -/
structure Buddy where
  zone : Zone
  allocated : Nat → Option Nat

inductive BuddyAct where
  | getPages (order : Nat)
  | freePages (page : Nat)

/-- **One call.** A client frees only what it was given. -/
def Buddy.step (s : Buddy) : BuddyAct → Option Buddy
  | .getPages order =>
    match buddyGetPages s.zone order with
    | none => none
    | some (none, z) => some { s with zone := z }
    | some (some page, z) => some ⟨z, update s.allocated page (some order)⟩
  | .freePages page =>
    match s.allocated page with
    | none => none
    | some _ => (buddyFreePages s.zone page).map fun z => ⟨z, update s.allocated page none⟩

/-- The allocated blocks. -/
def blocksOf (allocated : Nat → Option Nat) : Set Block := {b | allocated b.start = some b.order}

/-- **The allocator is in order**: the free blocks and the allocated blocks partition the pages, are
    aligned and inside; `PG_buddy` marks the first pages of free blocks, with their order; the
    counters are the lengths of the lists; below the last order no two buddies are free. -/
structure BuddyOk (s : Buddy) : Prop where
  covered : ∀ p, p < s.zone.pageNum →
    ∃! b : Block, b ∈ s.zone.free ∪ blocksOf s.allocated ∧ p ∈ b.places
  disjoint : ∀ b ∈ s.zone.free, b ∉ blocksOf s.allocated
  block : ∀ b ∈ s.zone.free ∪ blocksOf s.allocated,
    b.order < BUDDY_MAX_ORDER ∧ 2 ^ b.order ∣ b.start ∧ b.start + 2 ^ b.order ≤ s.zone.pageNum
  flag : ∀ i, i < s.zone.pageNum →
    ((s.zone.page i).buddy = true ↔ ∃ k, i ∈ (s.zone.lists k).pages)
  order : ∀ i k, i ∈ (s.zone.lists k).pages → (s.zone.page i).order = k
  count : ∀ k, (s.zone.lists k).nrFree = (s.zone.lists k).pages.length ∧
    (s.zone.lists k).pages.Nodup
  merged : ∀ b ∈ s.zone.free, b.order < BUDDY_MAX_ORDER - 1 → b.buddy ∉ s.zone.free

/-- No call of a client is stopped. -/
def Buddy.CallsReturn (s : Buddy) : Prop :=
  (∀ order, order < BUDDY_MAX_ORDER → (s.step (.getPages order)).isSome = true) ∧
    ∀ page, (s.allocated page).isSome = true → (s.step (.freePages page)).isSome = true

section Runs

variable {s s' : Buddy}

theorem buddyOk_of_inv (h : BuddyInv s.zone (blocksOf s.allocated) ∅) : BuddyOk s := by
  have htiles := h.tiles
  have haligned := h.aligned
  rw [union_empty] at htiles haligned
  refine ⟨fun p hp => ?_, fun b hb => disjoint_left.mp h.freeA hb,
    fun b hb => ⟨(haligned b hb).2, (haligned b hb).1, htiles.inside b hb⟩, fun i hi => ?_,
    fun i k hik => ?_, fun k => ⟨h.count k, h.nodup k⟩, h.merged⟩
  · obtain ⟨b, hb, hpb⟩ := htiles.covers p hp
    exact ⟨b, ⟨hb, hpb⟩, fun c hc => htiles.unique hc.1 hb hc.2 hpb⟩
  · rw [Zone.page_of_lt hi]
    exact h.flag i
  · rw [Zone.page_of_lt (htiles.start_lt (b := ⟨i, k⟩) (.inl hik))]
    exact h.order hik

theorem blocksOf_insert {allocated : Nat → Option Nat} {page order : Nat}
    (hnew : allocated page = none) :
    blocksOf (update allocated page (some order)) = insert ⟨page, order⟩ (blocksOf allocated) := by
  ext b
  simp only [blocksOf, mem_ofPred_eq, mem_insert_iff, Block.ext_iff]
  by_cases hb : b.start = page
  · rw [hb, hnew]
    simp [eq_comm]
  · simp [hb]

theorem blocksOf_erase {allocated : Nat → Option Nat} {page order : Nat}
    (hold : allocated page = some order) :
    blocksOf (update allocated page none) = blocksOf allocated \ {⟨page, order⟩} := by
  ext b
  simp only [blocksOf, mem_ofPred_eq, mem_sdiff, mem_singleton_iff, Block.ext_iff]
  by_cases hb : b.start = page
  · rw [hb, hold]
    simp [eq_comm]
  · simp [hb]

/-- **Every call keeps the invariant.** -/
theorem Buddy.step_inv {a : BuddyAct} (h : BuddyInv s.zone (blocksOf s.allocated) ∅)
    (hs : s.step a = some s') : BuddyInv s'.zone (blocksOf s'.allocated) ∅ := by
  cases a with
  | getPages order =>
    have ho : order < BUDDY_MAX_ORDER := by
      by_contra hge
      simp [Buddy.step, buddyGetPages, not_lt.mp hge] at hs
    obtain ⟨r, z, hget, _, hr⟩ := buddyGetPages_spec h ho
    simp only [Buddy.step, hget] at hs
    cases r with
    | none =>
      cases hs
      rw [hr.1]
      exact h
    | some page =>
    cases hs
    obtain ⟨hnew, hinv⟩ := hr
    have hnone : s.allocated page = none := by
      refine eq_none_iff_forall_not_mem.mpr fun k hk => hnew ?_
      have hk' : (⟨page, k⟩ : Block) ∈ blocksOf s.allocated := hk
      exact hinv.tiles.start_unique (.inl (.inr (.inl rfl)))
        (.inl (.inr (.inr hk'))) rfl ▸ hk'
    rw [blocksOf_insert hnone]
    exact hinv
  | freePages page =>
  simp only [Buddy.step] at hs
  split at hs
  · cases hs
  rename_i order ho
  obtain ⟨z, hfree, hinv, _⟩ := buddyFreePages_spec h (b := ⟨page, order⟩) ho
  rw [hfree] at hs
  cases hs
  rw [blocksOf_erase ho]
  exact hinv

/-- **Every call returns.** -/
theorem Buddy.step_total (h : BuddyInv s.zone (blocksOf s.allocated) ∅) : s.CallsReturn := by
  refine ⟨fun order ho => ?_, fun page hp => ?_⟩
  · obtain ⟨r, z, hget, _⟩ := buddyGetPages_spec h ho
    cases r <;> simp [Buddy.step, hget]
  obtain ⟨order, ho⟩ := isSome_iff_exists.mp hp
  obtain ⟨z, hfree, _⟩ := buddyFreePages_spec h (b := ⟨page, order⟩) ho
  have hfree' : buddyFreePages s.zone page = some z := hfree
  simp [Buddy.step, ho, hfree']

end Runs

/-- **The buddy allocator over a run**: for every number of pages `init_buddy` returns, and after
    it and after each call the allocator is in order and every call returns. -/
theorem buddy_run :
    ∃ z, initBuddy startAddr pageNum = some z ∧ z.pageNum = pageNum ∧
      BuddyOk ⟨z, fun _ => none⟩ ∧ Buddy.CallsReturn ⟨z, fun _ => none⟩ ∧
      ∀ as, ∀ tr ∈ trace Buddy.step ⟨z, fun _ => none⟩ as, BuddyOk tr.post ∧ tr.post.CallsReturn := by
  obtain ⟨z, hz, hinv, hnum, _⟩ := initBuddy_spec startAddr pageNum
  have hempty : blocksOf (fun _ => none) = ∅ :=
    eq_empty_of_forall_notMem nofun
  have h₀ : BuddyInv z (blocksOf fun _ => none) ∅ := hempty ▸ hinv
  refine ⟨z, hz, hnum, buddyOk_of_inv h₀, Buddy.step_total h₀, fun as tr htr => ?_⟩
  have hpost := (trace_inv (I := fun s : Buddy => BuddyInv s.zone (blocksOf s.allocated) ∅)
    (C := fun _ _ => True) (fun _ _ _ hI _ hs => Buddy.step_inv hI hs) as ⟨z, fun _ => none⟩ h₀
    (fun _ _ => trivial) tr htr).2
  exact ⟨buddyOk_of_inv hpost, Buddy.step_total hpost⟩

end ChCore.Mm
