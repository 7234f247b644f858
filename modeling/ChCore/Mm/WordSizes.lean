/-
  File: ChCore/Mm/WordSizes.lean
  Subject: Sizes and addresses as the 64-bit words of the source (`kernel/mm/mm.c`,
    `kernel/mm/kmalloc.c`).

  The allocators are modelled on natural numbers; what they are given is computed with words that
  wrap around. Here are the two computations: the layout of the free memory in `mm_init`, and the
  order for a size in `kmalloc`.

  * **`layout_right_iff`** -- metadata and pages lie inside the free memory exactly if there is
    room left for the gap between them;
  * `kmallocWord_eq` -- for the sizes of a run the word version is `kmalloc`;
  * **`kmalloc_right_iff`** -- the memory handed out has the size asked for exactly if `ROUND_UP` of
    the size does not wrap around.
-/
import ChCore.Lib.Words
import ChCore.Mm.Kmalloc

namespace ChCore.Mm

open Lib Nat BitVec

/-! ## 1. Rounding -/

/-- `ROUND_UP(x, PAGE_SIZE)` of a 64-bit word. -/
def wordRoundUp (x : BitVec 64) : BitVec 64 := (x + 0x1000 - 1) &&& ~~~(0x1000 - 1)

theorem wordRoundUp_toNat (x : BitVec 64) :
    (wordRoundUp x).toNat = (x.toNat + 4095) % 2 ^ 64 / 4096 * 4096 := by
  have hsum : (x + 0x1000 - 1).toNat = (x.toNat + 4095) % 2 ^ 64 := by
    have hx : x + 0x1000 - 1 = x + 4095#64 := by bv_omega
    rw [hx]
    rfl
  rw [← hsum]
  exact toNat_keepFrom (k := 12) (by decide) (x + 0x1000 - 1)

/-! ## 2. The layout of `mm_init` -/

/-- `sizeof(struct page)`: a list node, the flags, the order and the slab. -/
def SIZEOF_PAGE : BitVec 64 := 40

/-- The free memory that `mm_init` finds. -/
structure FreeMem where
  start : BitVec 64
  stop : BitVec 64
  le : start.toNat ≤ stop.toNat

namespace FreeMem

variable (m : FreeMem)

def npages : BitVec 64 := (m.stop - m.start) / (0x1000 + SIZEOF_PAGE)

def startVaddr : BitVec 64 := wordRoundUp (m.start + m.npages * SIZEOF_PAGE)

/-- The free memory, the metadata and the pages, as addresses. -/
def whole : Set Nat := Set.Ico m.start.toNat m.stop.toNat

def metadata : Set Nat :=
  Set.Ico m.start.toNat (m.start.toNat + m.npages.toNat * SIZEOF_PAGE.toNat)

def pages : Set Nat :=
  Set.Ico m.startVaddr.toNat (m.startVaddr.toNat + m.npages.toNat * BUDDY_PAGE_SIZE)

/-- **The layout is right.** -/
def LayoutRight : Prop :=
  Disjoint m.metadata m.pages ∧ m.metadata ⊆ m.whole ∧ m.pages ⊆ m.whole

/-- The bytes of the free memory. -/
def len : Nat := m.stop.toNat - m.start.toNat

/-- The bytes from an address to the next page. -/
def gap (addr : Nat) : Nat := (4096 - addr % 4096) % 4096

theorem npages_toNat : m.npages.toNat = m.len / 4136 := by
  have hsub : (m.stop - m.start).toNat = m.len := toNat_sub_of_le m.le
  rw [npages, toNat_udiv, hsub]
  rfl

/-- If there is a page, the start of the pages is the end of the metadata, rounded up: nothing wraps
    around. -/
theorem startVaddr_toNat (hn : 0 < m.len / 4136) :
    m.startVaddr.toNat = m.start.toNat + m.len / 4136 * 40 +
      gap (m.start.toNat + m.len / 4136 * 40) := by
  have hlen : m.len = m.stop.toNat - m.start.toNat := rfl
  have hmul : (m.npages * SIZEOF_PAGE).toNat = m.len / 4136 * 40 := by
    rw [toNat_mul, npages_toNat]
    exact mod_eq_of_lt (by show m.len / 4136 * 40 < _; omega)
  have hsum : (m.start + m.npages * SIZEOF_PAGE).toNat = m.start.toNat + m.len / 4136 * 40 := by
    rw [toNat_add, hmul]
    exact mod_eq_of_lt (by omega)
  rw [startVaddr, wordRoundUp_toNat, gap]
  omega

/-- **The layout is right** exactly if there is no page at all, or the bytes that the division leaves
    over are enough for the gap before the first page. -/
theorem layout_right_iff :
    m.LayoutRight ↔ m.len < 4136 ∨ gap (m.start.toNat + m.len / 4136 * 40) ≤ m.len % 4136 := by
  have hlen : m.len = m.stop.toNat - m.start.toNat := rfl
  have hpage : BUDDY_PAGE_SIZE = 4096 := rfl
  have hmeta : SIZEOF_PAGE.toNat = 40 := rfl
  simp only [LayoutRight, metadata, pages, whole, npages_toNat, hpage, hmeta]
  rcases Nat.eq_zero_or_pos (m.len / 4136) with hn | hn
  · -- both ranges are empty
    refine iff_of_true ?_ (.inl (by omega))
    simp [hn]
  rw [m.startVaddr_toNat hn]
  have hpages : ∀ a : Nat, Set.Ico a (a + m.len / 4136 * 4096) ⊆
      Set.Ico m.start.toNat m.stop.toNat ↔
        m.start.toNat ≤ a ∧ a + m.len / 4136 * 4096 ≤ m.stop.toNat := fun a =>
    Set.Ico_subset_Ico_iff (by omega)
  rw [hpages]
  constructor
  · intro h
    right
    omega
  intro h
  refine ⟨Set.disjoint_left.mpr fun a ha ha' => ?_, ?_, by omega, by omega⟩
  · rw [Set.mem_Ico] at ha ha'
    omega
  · exact Set.Ico_subset_Ico_right (by omega)

/-- An aligned start and room for exactly one page and its metadata: the page lies behind the end. -/
theorem layout_not_right : ¬ LayoutRight ⟨0xffffff0000100000, 0xffffff0000101028, by decide⟩ := by
  rw [layout_right_iff]
  decide

end FreeMem

/-! ## 3. The size of `kmalloc` -/

/-- `1 << order`, an `int`: the count of the shift is taken modulo 32, and the comparison with a
    64-bit word extends the sign. -/
def intShift (order : Nat) : BitVec 64 := (1#32 <<< (order % 32)).signExtend 64

/-- `size_to_page_order`. -/
def wordToPageOrder (size : BitVec 64) : Nat :=
  let pgNum := wordRoundUp size / 0x1000
  let order := shiftLoop 64 pgNum.toNat 0
  if pgNum > intShift order then order + 1 else order

/-- The order of the pages for a size that is too large for a slot. -/
def wordLargeOrder (size : BitVec 64) : Nat := if size ≤ 0x1000 then 0 else wordToPageOrder size

/-- `kmalloc`, for every 64-bit size. -/
def kmallocWord (h : Heap) (size : BitVec 64) : Option (Nat × Origin × Heap) :=
  if size.toNat ≤ KMALLOC_SLAB_SIZE then do
    let (slot, slab, h) ← allocInSlab h size.toNat
    some (slot, .slot slab (slabOrder size.toNat), h)
  else getPages h (wordLargeOrder size)

/-- The size of the buffers of `sys_transfer_caps`: `sizeof(int) * nr_caps`, where the `int` is
    converted to a 64-bit word. -/
def transferCapsSize (nrCaps : BitVec 32) : BitVec 64 := 4 * nrCaps.signExtend 64

/-- The least order with room for a size. -/
def Origin.Least (size : Nat) : Origin → Prop
  | .slot _ order => SLAB_MIN_ORDER ≤ order ∧ ∀ o, SLAB_MIN_ORDER ≤ o → size ≤ 2 ^ o → order ≤ o
  | .block order => ∀ o, size ≤ 2 ^ o * BUDDY_PAGE_SIZE → order ≤ o

/-- **`kmalloc` is right** in a state: what it returns has room for the size, and no smaller order
    has. -/
def KmallocRight (h : Heap) (size : BitVec 64) : Prop :=
  ∀ ptr origin h', kmallocWord h size = some (ptr, origin, h') → ptr ≠ 0 →
    size.toNat ≤ origin.len ∧ origin.Least size.toNat

/-- The states of the allocators after `mm_init` and any calls. -/
def Heap.Reachable (h : Heap) : Prop :=
  ∃ m mem h₀ acts s, mmInit m mem = some h₀ ∧ exec MmState.step ⟨h₀, []⟩ acts = some s ∧ s.heap = h

theorem intShift_toNat {order : Nat} (ho : order < 31) : (intShift order).toNat = 2 ^ order := by
  have hall : ∀ o : Fin 31, (intShift o).toNat = 2 ^ o.val := by decide
  exact hall ⟨order, ho⟩

variable {size : BitVec 64}

theorem pages_toNat (hsize : size.toNat ≤ 2 ^ 64 - 4096) :
    (wordRoundUp size / 0x1000).toNat = (size.toNat + 4095) / 4096 := by
  rw [toNat_udiv, wordRoundUp_toNat, mod_eq_of_lt (by omega)]
  exact Nat.mul_div_cancel _ (by decide)

/-- The order for a size that does not wrap around, where the `int` of the comparison has room for
    the power of two. -/
theorem wordToPageOrder_eq (hsize : size.toNat ≤ 2 ^ 64 - 4096)
    (hloop : shiftLoop 64 ((size.toNat + 4095) / 4096) 0 < 31) :
    wordToPageOrder size = sizeToOrder ((size.toNat + 4095) / 4096) := by
  simp only [wordToPageOrder, sizeToOrder, pages_toNat hsize, gt_iff_lt, lt_def,
    intShift_toNat hloop, one_shiftLeft]

theorem shiftLoop_of_order (hsize : size.toNat ≤ 2 ^ 64 - 4096)
    (ho : wordToPageOrder size < BUDDY_MAX_ORDER) :
    shiftLoop 64 ((size.toNat + 4095) / 4096) 0 < 31 := by
  have hmax : BUDDY_MAX_ORDER = 14 := rfl
  simp only [wordToPageOrder, pages_toNat hsize] at ho
  split at ho
  · omega
  · omega

/-- **For the sizes of a run** the word version is `kmalloc`. -/
theorem kmallocWord_eq (h : Heap) (hsize : size.toNat ≤ MAX_SIZE) :
    kmallocWord h size = kmalloc h size.toNat := by
  have hmax : MAX_SIZE = 2 ^ 13 * 4096 := by decide
  have horder : wordLargeOrder size = largeOrder size.toNat := by
    have hle : size ≤ 0x1000 ↔ size.toNat ≤ BUDDY_PAGE_SIZE := le_def
    simp only [wordLargeOrder, largeOrder, hle]
    split
    · rfl
    have hlog : shiftLoop 64 ((size.toNat + 4095) / 4096) 0 < 31 := by
      rw [shiftLoop_eq (by omega), zero_add]
      exact (log2_lt (by omega)).mpr (by omega)
    have heq : sizeToPageOrder size.toNat =
        sizeToOrder (roundUp size.toNat BUDDY_PAGE_SIZE / BUDDY_PAGE_SIZE) := rfl
    rw [wordToPageOrder_eq (by omega) hlog, heq, roundUp_div]
    rfl
  rw [kmallocWord, horder]
  rfl

theorem kmallocWord_eq_page : 4097 ≤ MAX_SIZE ∧ ∀ h, kmallocWord h 4097 = kmalloc h 4097 :=
  ⟨by decide, fun h => kmallocWord_eq h (by decide)⟩

theorem slabOrder_least {size : Nat} (hsize : size < 2 ^ 64) {o : Nat} (ho : SLAB_MIN_ORDER ≤ o)
    (hroom : size ≤ 2 ^ o) : slabOrder size ≤ o := by
  unfold slabOrder
  simp only
  split
  · exact ho
  · exact (sizeToOrder_spec size hsize).2 o hroom

theorem getPages_order {h : Heap} {order : Nat} {r : Nat × Origin × Heap}
    (hr : getPages h order = some r) : order < BUDDY_MAX_ORDER ∧ r.2.1 = .block order := by
  have ho : order < BUDDY_MAX_ORDER := by
    by_contra hge
    simp [getPages, buddyGetPages, not_lt.mp hge] at hr
  obtain ⟨⟨page, z⟩, _, hr⟩ := Option.bind_eq_some_iff.mp hr
  cases hr
  exact ⟨ho, rfl⟩

/-- **A size that does not wrap around** gets the memory it asks for. -/
theorem kmallocRight_of_le (h : Heap) (hsize : size.toNat ≤ 2 ^ 64 - 4096) :
    KmallocRight h size := by
  intro ptr origin h' hk _
  unfold kmallocWord at hk
  split at hk
  · rename_i hsmall
    obtain ⟨⟨slot, slab, h1⟩, _, hk⟩ := Option.bind_eq_some_iff.mp hk
    cases hk
    obtain ⟨hroom, hmin, _⟩ := slabOrder_spec size.toNat hsmall
    exact ⟨hroom, hmin, fun o ho hle => slabOrder_least size.isLt ho hle⟩
  obtain ⟨ho, horigin⟩ := getPages_order hk
  cases horigin
  have h4 : BUDDY_PAGE_SIZE = 4096 := rfl
  unfold wordLargeOrder at ho ⊢
  split at ho
  · rename_i hle
    rw [if_pos hle]
    rw [le_def] at hle
    refine ⟨?_, fun o _ => zero_le o⟩
    simpa [Origin.len, h4] using hle
  rename_i hgt
  rw [if_neg hgt, wordToPageOrder_eq hsize (shiftLoop_of_order hsize ho)]
  obtain ⟨hroom, hleast⟩ := sizeToOrder_spec ((size.toNat + 4095) / 4096) (by omega)
  refine ⟨?_, fun o hle => hleast o ?_⟩
  · simp only [Origin.len, h4]
    omega
  · rw [h4] at hle
    omega

/-- **A size that wraps around** is taken for no page at all, and gets a page. -/
theorem wordLargeOrder_wrap (hsize : 2 ^ 64 - 4096 < size.toNat) : wordLargeOrder size = 0 := by
  have hpg : (wordRoundUp size / 0x1000).toNat = 0 := by
    rw [toNat_udiv, wordRoundUp_toNat]
    have hzero : (size.toNat + 4095) % 2 ^ 64 / 4096 = 0 := by omega
    rw [hzero]
    rfl
  have hbig : ¬ size ≤ 0x1000 := by
    show ¬ size.toNat ≤ 4096
    omega
  rw [wordLargeOrder, if_neg hbig]
  simp only [wordToPageOrder, hpg]
  have hno : ¬ wordRoundUp size / 0x1000 > intShift (shiftLoop 64 0 0) := by
    rw [gt_iff_lt, lt_def, hpg]
    exact Nat.not_lt_zero _
  rw [if_neg hno]
  rfl

theorem exists_reachable : ∃ h : Heap, h.Reachable ∧ (∃ chain free, MmInv ⟨h, []⟩ chain free) ∧
    ∃ b ∈ h.zone.free, SLAB_BLOCK_ORDER ≤ b.order := by
  let m : Memory := ⟨0xffffff0000100000, 8 * 2 ^ SLAB_BLOCK_ORDER, by decide, by decide⟩
  rcases mmInit_firstSlabs m (fun _ => 0) with ⟨_, hfew⟩ | ⟨z, h, chain, free, hsome, hnum, hf⟩
  · exact absurd hfew (by decide)
  · exact ⟨h, ⟨m, _, h, [], _, hsome, rfl, rfl⟩, ⟨chain, free, hf.mmInv⟩,
      hf.room (le_of_eq hnum.symm)⟩

/-- In such a state a size that wraps around gets one page. -/
theorem kmallocWord_wrap {h : Heap} {chain free : Nat → List Nat} (hi : MmInv ⟨h, []⟩ chain free)
    (hfree : ∃ b ∈ h.zone.free, SLAB_BLOCK_ORDER ≤ b.order) (hsize : 2 ^ 64 - 4096 < size.toNat) :
    ∃ ptr h', kmallocWord h size = some (ptr, .block 0, h') ∧ ptr ≠ 0 := by
  obtain ⟨r, hr, _, hne⟩ := getPages_spec hi .kfree (show 0 < BUDDY_MAX_ORDER by decide)
    (zero_le (2 ^ 0 * BUDDY_PAGE_SIZE))
  have hptr : r.1 ≠ 0 := by
    rcases hne with hne | hfew
    · exact hne
    · obtain ⟨b, hb, _⟩ := hfree
      exact absurd (hfew b hb) (Nat.not_lt_zero _)
  have hbig : ¬ size.toNat ≤ KMALLOC_SLAB_SIZE := by
    show ¬ size.toNat ≤ 2048
    omega
  obtain ⟨_, horigin⟩ := getPages_order hr
  obtain ⟨ptr, origin, h'⟩ := r
  refine ⟨ptr, h', ?_, hptr⟩
  rw [kmallocWord, if_neg hbig, wordLargeOrder_wrap hsize, hr, ← horigin]

theorem transferCapsSize_toNat (nrCaps : BitVec 32) :
    (transferCapsSize nrCaps).toNat ≤ 2 ^ 64 - 4096 ↔ 0 ≤ nrCaps.toInt ∨ nrCaps.toInt ≤ -1024 := by
  have hint : (nrCaps.signExtend 64).toInt = nrCaps.toInt := toInt_signExtend_of_le (by decide)
  have hmul : (transferCapsSize nrCaps).toNat = 4 * (nrCaps.signExtend 64).toNat % 2 ^ 64 := by
    rfl
  have hlow := le_toInt nrCaps
  have hhigh := toInt_lt (x := nrCaps)
  rw [toInt_eq_toNat_cond] at hint
  split at hint
  · omega
  · omega

/-- **`kmalloc` is right** in every state exactly if rounding the size up to pages does not wrap
    around. So the buffers of `sys_transfer_caps` are too small exactly for `nr_caps` from -1023
    to -1. -/
theorem kmalloc_right_iff (size : BitVec 64) (nrCaps : BitVec 32) :
    ((∀ h : Heap, h.Reachable → KmallocRight h size) ↔ size.toNat ≤ 2 ^ 64 - 4096) ∧
    ((∀ h : Heap, h.Reachable → KmallocRight h (transferCapsSize nrCaps)) ↔
      0 ≤ nrCaps.toInt ∨ nrCaps.toInt ≤ -1024) := by
  have hall : ∀ size : BitVec 64,
      (∀ h : Heap, h.Reachable → KmallocRight h size) ↔ size.toNat ≤ 2 ^ 64 - 4096 := by
    intro size
    refine ⟨fun hright => ?_, fun hsize h _ => kmallocRight_of_le h hsize⟩
    by_contra hwrap
    obtain ⟨h, hreach, ⟨chain, free, hi⟩, hfree⟩ := exists_reachable
    obtain ⟨ptr, h', hk, hne⟩ := kmallocWord_wrap hi hfree (not_le.mp hwrap)
    have hlen : size.toNat ≤ 4096 := (hright h hreach ptr _ h' hk hne).1
    omega
  exact ⟨hall size, (hall _).trans (transferCapsSize_toNat nrCaps)⟩

/-- `sys_transfer_caps` with -1 capabilities gets a page for 2 ^ 64 - 4 bytes. -/
theorem transferCaps_too_small : (transferCapsSize (-1)).toNat = 2 ^ 64 - 4 ∧
    ∃ h : Heap, h.Reachable ∧ ∃ ptr h', kmallocWord h (transferCapsSize (-1)) =
      some (ptr, .block 0, h') ∧ ptr ≠ 0 ∧ (Origin.block 0).len = 4096 := by
  obtain ⟨h, hreach, ⟨chain, free, hi⟩, hfree⟩ := exists_reachable
  have hsize : (transferCapsSize (-1)).toNat = 2 ^ 64 - 4 := by decide
  have hwrap : 2 ^ 64 - 4096 < (transferCapsSize (-1)).toNat := by omega
  obtain ⟨ptr, h', hk, hne⟩ := kmallocWord_wrap hi hfree hwrap
  exact ⟨hsize, h, hreach, ptr, h', hk, hne, rfl⟩

end ChCore.Mm
