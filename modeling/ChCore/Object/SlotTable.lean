/-
  File: ChCore/Object/SlotTable.lean
  Subject: The slot table of a cap_group (`kernel/object/cap_group.c`,
    `kernel/include/object/cap_group.h`).

  A slot table is three arrays: `slots` (slot id → slot), `slots_bmp` (which ids are allocated)
  and `full_slots_bmp` (meant to say which words of `slots_bmp` are full). The arrays are the
  lists of cells that were allocated; a read past the end of one returns a word of the heap
  behind it (`Beyond`), a store past the end changes none of the three. Every operation returns
  the accesses it made, each with the length of its array, so that "inside the array" is a
  statement about them.

  * `allocSlotId_spec` -- what one allocation does to a well-formed table: its two rounds of the
    `while (true)` loop are enough, the id was free, no other bit of `slots_bmp` changes.
-/
import ChCore.Common.Errno
import ChCore.Common.Bitops
import ChCore.Lib.Run

namespace ChCore.Capability

open Lib Common List

/-! ## 1. The arrays and their accesses -/

inductive TableArray where
  | slots
  | slotsBmp
  | fullSlotsBmp
  deriving DecidableEq, Repr

/-- One access: the array, the index used, and the length of the array as allocated. -/
structure Access where
  array : TableArray
  index : Nat
  length : Nat
  deriving DecidableEq, Repr

def Access.Inside (a : Access) : Prop := a.index < a.length
  deriving Decidable

/-- `struct slot_table`; `P` is the type of slot pointers, `none` is `NULL`. -/
structure SlotTable (P : Type) where
  slotsSize : Nat
  slots : List (Option P)
  slotsBmp : List Word
  fullSlotsBmp : List Word
  deriving DecidableEq, Repr

/-- The words of the heap behind `slots_bmp` and `full_slots_bmp`. -/
structure Beyond where
  bmp : Nat → Word
  full : Nat → Word

/-- Zeros behind the arrays. -/
def Beyond.zero : Beyond := ⟨fun _ => 0#64, fun _ => 0#64⟩

/-- Which of the three `kzalloc` calls of `slot_table_init` succeed. -/
structure Kzalloc where
  slots : Bool
  bmp : Bool
  full : Bool
  deriving DecidableEq, Repr

def Kzalloc.ok : Kzalloc := ⟨true, true, true⟩

variable {P : Type}

/-! ## 2. Creating and growing a table -/

/-- The largest request `kmalloc` serves: `2^13` pages. A larger one stops in `buddy_get_pages`
    (`BUG_ON(order >= BUDDY_MAX_ORDER)`). -/
def kmallocMax : Nat := 2 ^ 13 * 4096

/-- A table of `size` slots with every array zeroed. -/
def zeroTable (size : Nat) : SlotTable P where
  slotsSize := size
  slots := replicate size none
  slotsBmp := replicate (bitsToLongs size) 0#64
  fullSlotsBmp := replicate (bitsToLongs (bitsToLongs size)) 0#64

/-- `slot_table_init`. The rounded size is stored in an `unsigned int`. `none` = the kernel
    stops. -/
def slotTableInit (k : Kzalloc) (size : Nat) : Option (Except Int (SlotTable P)) :=
  let size := divRoundUp size 64 * 64 % 2 ^ 32
  if size * 8 > kmallocMax then none
  else if !k.slots then some (.error (-ENOMEM))
  -- out_free_slots
  else if !k.bmp then some (.error (-ENOMEM))
  -- out_free_slots_bmp
  else if !k.full then some (.error (-ENOMEM))
  else some (.ok (zeroTable size))

/-- `memcpy(dst, src, n)` on arrays of cells. -/
def memcpy {α : Type} (dst src : List α) (n : Nat) : List α := src.take n ++ dst.drop n

/-- The accesses of a `memcpy` of `n` cells. -/
def memcpyAccesses (arr : TableArray) (dstLen srcLen n : Nat) : List Access :=
  (range n).flatMap (fun i => [⟨arr, i, srcLen⟩, ⟨arr, i, dstLen⟩])

/-- `expand_slot_table`: the new table and the accesses, or an error that leaves the table. -/
def expandSlotTable (k : Kzalloc) (t : SlotTable P) :
    Option (Except Int (SlotTable P × List Access)) :=
  let oldSize := t.slotsSize
  let newSize := oldSize + 64
  match slotTableInit k newSize with
  | none => none
  | some (.error r) => some (.error r)
  | some (.ok n) =>
    let words := bitsToLongs oldSize
    let fullWords := bitsToLongs (bitsToLongs oldSize)
    some (.ok (
      { slotsSize := newSize
        slots := memcpy n.slots t.slots oldSize
        slotsBmp := memcpy n.slotsBmp t.slotsBmp words
        fullSlotsBmp := memcpy n.fullSlotsBmp t.fullSlotsBmp fullWords },
      memcpyAccesses .slots n.slots.length t.slots.length oldSize ++
        memcpyAccesses .slotsBmp n.slotsBmp.length t.slotsBmp.length words ++
        memcpyAccesses .fullSlotsBmp n.fullSlotsBmp.length t.fullSlotsBmp.length fullWords))

/-! ## 3. Slot ids -/

/-- What a search reads, as accesses. -/
def readsOf (arr : TableArray) (len : Nat) (idx : List Nat) : List Access :=
  idx.map (fun i => ⟨arr, i, len⟩)

/-- One round of the search of `alloc_slot_id`: `none` where it goes to `expand`. -/
def findEmpty (b : Beyond) (t : SlotTable P) : Option Nat × List Access :=
  let bmpSize := t.slotsSize
  let fullBmpSize := bitsToLongs bmpSize
  let r := findNextZeroBit (view t.fullSlotsBmp b.full) fullBmpSize 0
  let acc := readsOf .fullSlotsBmp t.fullSlotsBmp.length r.2
  if r.1 ≥ fullBmpSize then (none, acc)
  else
    let r' := findNextZeroBit (view t.slotsBmp b.bmp) bmpSize (r.1 * 64)
    let acc' := acc ++ readsOf .slotsBmp t.slotsBmp.length r'.2
    if r'.1 ≥ bmpSize then (none, acc') else (some r'.1, acc')

/-- The `while (true)` loop of `alloc_slot_id`, for at most `fuel` rounds. -/
def findLoop (k : Kzalloc) (b : Beyond) :
    Nat → SlotTable P → Option (Except Int Nat × SlotTable P × List Access)
  | 0, _ => none
  | fuel + 1, t =>
    match findEmpty b t with
    | (some idx, acc) => some (.ok idx, t, acc)
    | (none, acc) =>
      match expandSlotTable k t with
      | none => none
      | some (.error r) => some (.error r, t, acc)
      | some (.ok (t', acc')) =>
        match findLoop k b fuel t' with
        | none => none
        | some (res, t'', acc'') => some (res, t'', acc ++ acc' ++ acc'')

/-- The result of `alloc_slot_id`: the returned `int`, the table, the accesses. -/
structure AllocResult (P : Type) where
  ret : Int
  table : SlotTable P
  accesses : List Access

/-- The end of `alloc_slot_id`: `set_bit` on `slots_bmp`, and on `full_slots_bmp` if the word
    the source looks at is all ones -- it is a word of `full_slots_bmp`. -/
def takeSlotId (b : Beyond) (t : SlotTable P) (idx : Nat) (acc : List Access) : AllocResult P :=
  let bmp := setBit t.slotsBmp idx
  let acc := acc ++ [⟨.slotsBmp, idx / 64, t.slotsBmp.length⟩,
    ⟨.fullSlotsBmp, idx / 64, t.fullSlotsBmp.length⟩]
  if view t.fullSlotsBmp b.full (idx / 64) = BitVec.allOnes 64 then
    { ret := idx
      table := { t with slotsBmp := bmp, fullSlotsBmp := setBit t.fullSlotsBmp (idx / 64) }
      accesses := acc ++ [⟨.fullSlotsBmp, idx / 64 / 64, t.fullSlotsBmp.length⟩] }
  else { ret := idx, table := { t with slotsBmp := bmp }, accesses := acc }

/-- `alloc_slot_id` (`none` = the kernel stops while growing the table). -/
def allocSlotId (k : Kzalloc) (b : Beyond) (t : SlotTable P) : Option (AllocResult P) :=
  match findLoop k b 2 t with
  | none => none
  | some (.error r, t', acc) => some { ret := r, table := t', accesses := acc }
  | some (.ok idx, t', acc) => some (takeSlotId b t' idx acc)

/-- `free_slot_id` of an allocated id. -/
def freeSlotId (t : SlotTable P) (id : Nat) : SlotTable P :=
  { t with
    slotsBmp := clearBit t.slotsBmp id
    fullSlotsBmp := clearBit t.fullSlotsBmp (id / 64)
    slots := t.slots.set id none }

def freeSlotIdAccesses (t : SlotTable P) (id : Nat) : List Access :=
  [⟨.slotsBmp, id / 64, t.slotsBmp.length⟩, ⟨.fullSlotsBmp, id / 64 / 64, t.fullSlotsBmp.length⟩,
   ⟨.slots, id, t.slots.length⟩]

/-- A C `int` converted to `unsigned int`. -/
def toUnsigned (i : Int) : Nat := (i % 2 ^ 32).toNat

def getSlot (t : SlotTable P) (slotId : Int) : Option P :=
  if slotId < 0 ∨ slotId ≥ t.slotsSize then none else (t.slots[slotId.toNat]?).join

/-- `install_slot`: `none` where its `BUG_ON` stops the kernel. A store at an index outside the
    array changes no slot of the table. -/
def installSlot (b : Beyond) (t : SlotTable P) (slotId : Int) (slot : P) : Option (SlotTable P) :=
  if getBit (toUnsigned slotId) (view t.slotsBmp b.bmp) = false then none
  else if slotId < 0 then some t
  else some { t with slots := t.slots.set slotId.toNat (some slot) }

/-- `is_valid_slot_id`, with its accesses. The comparison with the `unsigned` `slots_size`
    converts `slot_id` to `unsigned`; `none` where the `BUG` stops the kernel. The cell of
    `slots` past the end of the array is `NULL` or not, as the heap has it (`wild`). -/
def isValidSlotId (b : Beyond) (wild : Bool) (t : SlotTable P) (slotId : Int) :
    Option Bool × List Access :=
  if slotId < 0 ∧ toUnsigned slotId ≥ t.slotsSize then (some false, [])
  else
    let bit : Access := ⟨.slotsBmp, toUnsigned slotId / 64, t.slotsBmp.length⟩
    if getBit (toUnsigned slotId) (view t.slotsBmp b.bmp) = false then (some false, [bit])
    else
      let cell : Access := ⟨.slots, toUnsigned slotId, t.slots.length⟩
      let isNull := match t.slots[toUnsigned slotId]? with
        | some c => c.isNone
        | none => !wild
      if isNull then (none, [bit, cell]) else (some true, [bit, cell])

/-! ## 4. Well-formed tables -/

/-- The sizes agree, and `full_slots_bmp` has no bit past the words of `slots_bmp`. -/
structure TableWf (t : SlotTable P) : Prop where
  size_mod : t.slotsSize % 64 = 0
  size_le : t.slotsSize * 8 ≤ kmallocMax
  slots_len : t.slots.length = t.slotsSize
  bmp_len : t.slotsBmp.length = bitsToLongs t.slotsSize
  full_len : t.fullSlotsBmp.length = bitsToLongs (bitsToLongs t.slotsSize)
  full_beyond : ∀ w, bitsToLongs t.slotsSize ≤ w → bitIn t.fullSlotsBmp w = false

variable {t t' : SlotTable P} {k : Kzalloc} {acc : List Access} {n : Nat} {b : Beyond}
  {r : AllocResult P}

theorem TableWf.words (h : TableWf t) : 64 * bitsToLongs t.slotsSize = t.slotsSize := by
  have h1 := h.size_mod
  unfold bitsToLongs divRoundUp
  omega

theorem TableWf.lt_int (h : TableWf t) : t.slotsSize < 2 ^ 31 := by
  have h1 := h.size_le
  unfold kmallocMax at h1
  omega

theorem TableWf.bmp_word (h : TableWf t) {i : Nat} :
    i / 64 < t.slotsBmp.length ↔ i < t.slotsSize := by
  have h1 := h.words
  rw [h.bmp_len]
  omega

theorem TableWf.full_word (h : TableWf t) {i : Nat} (hi : i < t.slotsSize) :
    i / 64 / 64 < t.fullSlotsBmp.length := by
  have h1 := h.words
  rw [h.full_len, lt_bitsToLongs_iff]
  omega

theorem TableWf.bit_beyond (h : TableWf t) {i : Nat} (hi : t.slotsSize ≤ i) :
    bitIn t.slotsBmp i = false := by
  refine bitIn_of_ge ?_
  have := h.bmp_word (i := i)
  omega

variable {size : Nat}

theorem zeroTable_wf (hm : size % 64 = 0) (hle : size * 8 ≤ kmallocMax) :
    TableWf (zeroTable size : SlotTable P) where
  size_mod := hm
  size_le := hle
  slots_len := by simp [zeroTable]
  bmp_len := by simp [zeroTable]
  full_len := by simp [zeroTable]
  full_beyond w _ := bitIn_replicate_zero _ w

/-- **What `slot_table_init` returns**: an error, or the zeroed table of the rounded size. -/
theorem slotTableInit_ok (h : slotTableInit k size = some (.ok t)) :
    ∃ n, n % 64 = 0 ∧ n * 8 ≤ kmallocMax ∧ t = zeroTable n ∧
      (size % 64 = 0 → size < 2 ^ 32 → n = size) := by
  unfold slotTableInit at h
  simp only at h
  split at h
  · cases h
  split at h
  · cases h
  split at h
  · cases h
  split at h
  · cases h
  simp only [Option.some.injEq, Except.ok.injEq] at h
  refine ⟨divRoundUp size 64 * 64 % 2 ^ 32, ?_, by omega, h.symm, fun hm hlt => ?_⟩
  · omega
  · unfold divRoundUp
    omega

/-! ## 5. Growing a table -/

theorem memcpy_replicate {α : Type} (src : List α) (x : α) (n m : Nat) (h : src.length = n) :
    memcpy (replicate (n + m) x) src n = src ++ replicate m x := by
  unfold memcpy
  rw [take_of_length_le (le_of_eq h), drop_replicate]
  congr 2
  omega

/-- The fields of a grown table, in terms of the old ones. -/
structure Grown (t t' : SlotTable P) : Prop where
  size : t'.slotsSize = t.slotsSize + 64
  slots : t'.slots = t.slots ++ replicate 64 none
  bmp : t'.slotsBmp = t.slotsBmp ++ [0#64]
  full : ∃ m, t'.fullSlotsBmp = t.fullSlotsBmp ++ replicate m 0#64
  wf : TableWf t'

theorem memcpyAccesses_inside {arr : TableArray} {dstLen srcLen : Nat} (hd : n ≤ dstLen)
    (hs : n ≤ srcLen) : ∀ a ∈ memcpyAccesses arr dstLen srcLen n, a.Inside := by
  intro a ha
  obtain ⟨i, hi, ha⟩ := mem_flatMap.mp ha
  have hi' := mem_range.mp hi
  simp only [mem_cons, not_mem_nil, or_false] at ha
  rcases ha with rfl | rfl
  · exact lt_of_lt_of_le hi' hs
  · exact lt_of_lt_of_le hi' hd

/-- **Growing a well-formed table** adds one block of 64 clear ids and keeps every cell; every
    access is inside its array. -/
theorem expandSlotTable_ok (hwf : TableWf t) (h : expandSlotTable k t = some (.ok (t', acc))) :
    Grown t t' ∧ ∀ a ∈ acc, a.Inside := by
  unfold expandSlotTable at h
  simp only at h
  split at h
  · cases h
  · cases h
  rename_i n hn
  obtain ⟨size, hm, hle, rfl, hsize⟩ := slotTableInit_ok hn
  have hlt := hwf.lt_int
  have hmod := hwf.size_mod
  obtain rfl := hsize (by omega) (by omega)
  obtain ⟨rfl, rfl⟩ := h
  have hslots : memcpy (zeroTable (P := P) (t.slotsSize + 64)).slots t.slots t.slotsSize =
      t.slots ++ replicate 64 none := memcpy_replicate _ _ _ _ hwf.slots_len
  have hbmp : memcpy (zeroTable (P := P) (t.slotsSize + 64)).slotsBmp t.slotsBmp
      (bitsToLongs t.slotsSize) = t.slotsBmp ++ [0#64] := by
    simp only [zeroTable, bitsToLongs_add_64]
    exact memcpy_replicate _ _ _ _ hwf.bmp_len
  -- the second level grows by a word only every 64 blocks
  obtain ⟨m, hm'⟩ : ∃ m, bitsToLongs (bitsToLongs (t.slotsSize + 64)) =
      bitsToLongs (bitsToLongs t.slotsSize) + m :=
    Nat.exists_eq_add_of_le (by unfold bitsToLongs divRoundUp; omega)
  have hfull : memcpy (zeroTable (P := P) (t.slotsSize + 64)).fullSlotsBmp t.fullSlotsBmp
      (bitsToLongs (bitsToLongs t.slotsSize)) = t.fullSlotsBmp ++ replicate m 0#64 := by
    simp only [zeroTable, hm']
    exact memcpy_replicate _ _ _ _ hwf.full_len
  constructor
  · refine ⟨rfl, hslots, hbmp, ⟨m, hfull⟩, ?_⟩
    exact
    { size_mod := hm
      size_le := hle
      slots_len := by
        simp only [hslots, length_append, length_replicate, hwf.slots_len]
      bmp_len := by
        simp only [hbmp, length_append, length_singleton, hwf.bmp_len, bitsToLongs_add_64]
      full_len := by
        simp only [hfull, length_append, length_replicate, hwf.full_len, hm']
      full_beyond := fun w hw => by
        simp only [hfull, bitIn_append_zero]
        refine hwf.full_beyond w ?_
        simp only [bitsToLongs_add_64] at hw
        omega }
  intro a ha
  rcases mem_append.mp ha with ha | ha
  · rcases mem_append.mp ha with ha | ha
    · refine memcpyAccesses_inside ?_ (le_of_eq hwf.slots_len.symm) a ha
      simp [zeroTable]
    · refine memcpyAccesses_inside ?_ (le_of_eq hwf.bmp_len.symm) a ha
      simp [zeroTable, bitsToLongs_add_64]
  · refine memcpyAccesses_inside ?_ (le_of_eq hwf.full_len.symm) a ha
    simp [zeroTable, hm']

theorem Grown.bit (h : Grown t t') (i : Nat) : bitIn t'.slotsBmp i = bitIn t.slotsBmp i := by
  rw [h.bmp]
  exact bitIn_append_zero t.slotsBmp 1 i

theorem Grown.fullBit (h : Grown t t') (i : Nat) :
    bitIn t'.fullSlotsBmp i = bitIn t.fullSlotsBmp i := by
  obtain ⟨m, hm⟩ := h.full
  rw [hm, bitIn_append_zero]

/-! ## 6. Searching a table -/

/-- The word `w` the search starts at: every word before it is marked full, it is not. -/
structure StartWord (t : SlotTable P) (w : Nat) : Prop where
  lt : w < bitsToLongs t.slotsSize
  clear : bitIn t.fullSlotsBmp w = false
  marked : ∀ v < w, bitIn t.fullSlotsBmp v = true

/-- A search of `full_slots_bmp`, in terms of its bits. -/
theorem findFull_spec (hwf : TableWf t) (b : Beyond) :
    let r := (findNextZeroBit (view t.fullSlotsBmp b.full) (bitsToLongs t.slotsSize) 0).1
    (r < bitsToLongs t.slotsSize → StartWord t r) ∧
    (bitsToLongs t.slotsSize ≤ r → ∀ v < bitsToLongs t.slotsSize, bitIn t.fullSlotsBmp v = true) := by
  intro r
  have h : IsNextBit (view t.fullSlotsBmp b.full) (bitsToLongs t.slotsSize) 0 (BitVec.allOnes 64) r :=
    findNextBit_spec (Nat.zero_le _)
  have hbit : ∀ i, i < bitsToLongs t.slotsSize →
      bitAt (fun k => view t.fullSlotsBmp b.full k ^^^ BitVec.allOnes 64) i =
        !bitIn t.fullSlotsBmp i := by
    intro i hi
    rw [bitAt_xor_allOnes, bitAt_view]
    rw [hwf.full_len, lt_bitsToLongs_iff]
    omega
  refine ⟨fun hr => ⟨hr, ?_, fun v hv => ?_⟩, fun hr v hv => ?_⟩
  · have := h.hit hr
    rw [hbit r hr] at this
    simpa using this
  · have := h.below v (Nat.zero_le _) hv
    rw [hbit v (by omega)] at this
    simpa using this
  · have := h.below v (Nat.zero_le _) (by omega)
    rw [hbit v hv] at this
    simpa using this

/-- A search of `slots_bmp` from `start`, in terms of its bits. -/
theorem findSlot_spec (hwf : TableWf t) (b : Beyond) {start : Nat} (hs : start ≤ t.slotsSize) :
    let r := (findNextZeroBit (view t.slotsBmp b.bmp) t.slotsSize start).1
    r ≤ t.slotsSize ∧ start ≤ r ∧ (r < t.slotsSize → bitIn t.slotsBmp r = false) ∧
      ∀ i, start ≤ i → i < r → bitIn t.slotsBmp i = true := by
  intro r
  have h : IsNextBit (view t.slotsBmp b.bmp) t.slotsSize start (BitVec.allOnes 64) r :=
    findNextBit_spec hs
  have hbit : ∀ i, i < t.slotsSize →
      bitAt (fun k => view t.slotsBmp b.bmp k ^^^ BitVec.allOnes 64) i = !bitIn t.slotsBmp i := by
    intro i hi
    rw [bitAt_xor_allOnes, bitAt_view _ (hwf.bmp_word.mpr hi)]
  refine ⟨h.le, h.ge, fun hr => ?_, fun i hi hlt => ?_⟩
  · have := h.hit hr
    rw [hbit r hr] at this
    simpa using this
  · have hle := h.le
    have := h.below i hi hlt
    rw [hbit i (by omega)] at this
    simpa using this

/-- The search found `e`: the first clear bit from the start word on. -/
structure FoundIn (t : SlotTable P) (w e : Nat) : Prop where
  start : StartWord t w
  lt : e < t.slotsSize
  ge : 64 * w ≤ e
  free : bitIn t.slotsBmp e = false
  taken : ∀ i, 64 * w ≤ i → i < e → bitIn t.slotsBmp i = true

/-- The search found nothing: every word is marked full, or from the start word on every bit is
    set. -/
def NothingFree (t : SlotTable P) : Prop :=
  (∀ v < bitsToLongs t.slotsSize, bitIn t.fullSlotsBmp v = true) ∨
  ∃ w, StartWord t w ∧ ∀ i, 64 * w ≤ i → i < t.slotsSize → bitIn t.slotsBmp i = true

theorem findEmpty_spec (hwf : TableWf t) (b : Beyond) :
    (∀ e, (findEmpty b t).1 = some e → ∃ w, FoundIn t w e) ∧
    ((findEmpty b t).1 = none → NothingFree t) := by
  unfold findEmpty
  simp only
  obtain ⟨hsome, hnone⟩ := findFull_spec hwf b
  split
  · rename_i hge
    exact ⟨nofun, fun _ => .inl (hnone hge)⟩
  have hstart := hsome (by omega)
  have hw := hwf.words
  have hs : (findNextZeroBit (view t.fullSlotsBmp b.full) (bitsToLongs t.slotsSize) 0).1 * 64 ≤
      t.slotsSize := by omega
  obtain ⟨hle, hge, hfree, htaken⟩ := findSlot_spec hwf b hs
  split
  · refine ⟨nofun, fun _ => .inr ⟨_, hstart, fun i hi hlt => ?_⟩⟩
    exact htaken i (by omega) (by omega)
  refine ⟨fun e he => ?_, nofun⟩
  simp only [Option.some.injEq] at he
  subst he
  exact ⟨_, hstart, by omega, by omega, hfree (by omega), fun i hi hlt => htaken i (by omega) hlt⟩

theorem readsOf_inside {arr : TableArray} {len : Nat} {idx : List Nat} (h : ∀ i ∈ idx, i < len) :
    ∀ a ∈ readsOf arr len idx, a.Inside := by
  intro a ha
  obtain ⟨i, hi, rfl⟩ := mem_map.mp ha
  exact h i hi

theorem findEmpty_inside (hwf : TableWf t) (b : Beyond) : ∀ a ∈ (findEmpty b t).2, a.Inside := by
  set word := findNextZeroBit (view t.fullSlotsBmp b.full) (bitsToLongs t.slotsSize) 0
  have hfull : ∀ i ∈ word.2, i < t.fullSlotsBmp.length := by
    intro i hi
    rw [hwf.full_len, lt_bitsToLongs_iff]
    exact findNextBit_reads _ _ _ _ i hi
  have hbmp : ∀ start, ∀ i ∈ (findNextZeroBit (view t.slotsBmp b.bmp) t.slotsSize start).2,
      i < t.slotsBmp.length := by
    intro start i hi
    rw [hwf.bmp_len, lt_bitsToLongs_iff]
    exact findNextBit_reads _ _ _ _ i hi
  unfold findEmpty
  simp only
  intro a ha
  split at ha
  · exact readsOf_inside hfull a ha
  have ha' : a ∈ readsOf .fullSlotsBmp t.fullSlotsBmp.length word.2 ++
      readsOf .slotsBmp t.slotsBmp.length
        (findNextZeroBit (view t.slotsBmp b.bmp) t.slotsSize (word.1 * 64)).2 := by
    split at ha <;> exact ha
  rcases mem_append.mp ha' with h | h
  · exact readsOf_inside hfull a h
  · exact readsOf_inside (hbmp _) a h

/-- **After one block is added the search finds its first id**, and nothing else. -/
theorem findEmpty_grown (hwf : TableWf t) (hn : NothingFree t) (hg : Grown t t') (b : Beyond) :
    (findEmpty b t').1 = some t.slotsSize := by
  have hwords := hwf.words
  have hwords' := hg.wf.words
  have hsize := hg.size
  have hclear : bitIn t.slotsBmp t.slotsSize = false := hwf.bit_beyond le_rfl
  cases hf : (findEmpty b t').1 with
  | none =>
    rcases (findEmpty_spec hg.wf b).2 hf with hall | ⟨w, hw, hset⟩
    · have h := hall (bitsToLongs t.slotsSize) (by omega)
      rw [hg.fullBit, hwf.full_beyond _ le_rfl] at h
      cases h
    · have hlt := hw.lt
      have h := hset t.slotsSize (by omega) (by omega)
      rw [hg.bit, hclear] at h
      cases h
  | some e =>
  obtain ⟨w, hf'⟩ := (findEmpty_spec hg.wf b).1 e hf
  have hlt := hf'.start.lt
  have hge := hf'.ge
  congr 1
  -- the found bit is clear, so it cannot lie in the old blocks the search left out
  rcases Nat.lt_trichotomy e t.slotsSize with hlt' | heq | hgt
  · have hfree := hf'.free
    rw [hg.bit] at hfree
    rcases hn with hall | ⟨v, hv, hset⟩
    · have h1 := hf'.start.clear
      rw [hg.fullBit, hall w (by omega)] at h1
      cases h1
    have hwv : v ≤ w := by
      by_contra hcon
      have h1 := hf'.start.clear
      rw [hg.fullBit, hv.marked w (by omega)] at h1
      cases h1
    rw [hset e (by omega) hlt'] at hfree
    cases hfree
  · exact heq
  have h := hf'.taken t.slotsSize (by omega) hgt
  rw [hg.bit, hclear] at h
  cases h

/-! ## 7. Allocating a slot id -/

/-- **What `alloc_slot_id` does to a well-formed table**: it fails and leaves the table; or it
    takes a free id of the table; or it takes the first id of a new block. -/
inductive AllocOutcome (b : Beyond) (t : SlotTable P) : AllocResult P → Prop where
  | fail (acc : List Access) : AllocOutcome b t ⟨-ENOMEM, t, acc⟩
  | found (acc : List Access) (w e : Nat) (hacc : ∀ a ∈ acc, a.Inside) (h : FoundIn t w e) :
      AllocOutcome b t (takeSlotId b t e acc)
  | grown (acc : List Access) (t' : SlotTable P) (hacc : ∀ a ∈ acc, a.Inside) (hn : NothingFree t)
      (hg : Grown t t') : AllocOutcome b t (takeSlotId b t' t.slotsSize acc)

theorem slotTableInit_error {r : Int}
    (h : slotTableInit (P := P) k size = some (.error r)) : r = -ENOMEM ∧ k ≠ Kzalloc.ok := by
  obtain ⟨k1, k2, k3⟩ := k
  unfold slotTableInit at h
  simp only at h
  split at h
  · cases h
  · cases k1 <;> cases k2 <;> cases k3 <;> simp [Kzalloc.ok] at h ⊢ <;> exact h.symm

theorem expandSlotTable_error {r : Int} (h : expandSlotTable k t = some (.error r)) :
    r = -ENOMEM ∧ k ≠ Kzalloc.ok := by
  unfold expandSlotTable at h
  simp only at h
  split at h
  · cases h
  · rename_i r' hr
    cases h
    exact slotTableInit_error hr
  · cases h

/-- The loop runs twice at most: the second round finds the new block's first id. -/
theorem findLoop_cases (hwf : TableWf t) {res : Except Int Nat}
    (h : findLoop k b 2 t = some (res, t', acc)) :
    (res = .error (-ENOMEM) ∧ t' = t ∧ k ≠ Kzalloc.ok) ∨
    ((∀ a ∈ acc, a.Inside) ∧
      ((∃ w e, res = .ok e ∧ t' = t ∧ FoundIn t w e) ∨
        (res = .ok t.slotsSize ∧ NothingFree t ∧ Grown t t'))) := by
  rw [findLoop] at h
  have hin := findEmpty_inside hwf b
  obtain ⟨hsome, hnone⟩ := findEmpty_spec hwf b
  cases hf : findEmpty b t with
  | mk found acc0 =>
  rw [hf] at h hin hsome hnone
  cases found with
  | some e =>
    obtain ⟨rfl, rfl, rfl⟩ := h
    obtain ⟨w, hw⟩ := hsome e rfl
    exact .inr ⟨hin, .inl ⟨w, e, rfl, rfl, hw⟩⟩
  | none =>
  have hn := hnone rfl
  simp only at h
  split at h
  · cases h
  · rename_i r hr
    obtain ⟨rfl, rfl, -⟩ := h
    obtain ⟨rfl, hk⟩ := expandSlotTable_error hr
    exact .inl ⟨rfl, rfl, hk⟩
  rename_i t1 acc1 ht1
  obtain ⟨hg, hin1⟩ := expandSlotTable_ok hwf ht1
  have hin2 := findEmpty_inside hg.wf b
  have hfound := findEmpty_grown hwf hn hg b
  rw [findLoop] at h
  cases hf2 : findEmpty b t1 with
  | mk found2 acc2 =>
    rw [hf2] at hfound hin2 h
    subst hfound
    obtain ⟨rfl, rfl, rfl⟩ := h
    refine .inr ⟨fun a ha => ?_, .inr ⟨rfl, hn, hg⟩⟩
    rcases mem_append.mp ha with ha | ha
    · rcases mem_append.mp ha with ha | ha
      · exact hin a ha
      · exact hin1 a ha
    · exact hin2 a ha

theorem allocSlotId_cases (hwf : TableWf t) (h : allocSlotId k b t = some r) :
    AllocOutcome b t r := by
  unfold allocSlotId at h
  split at h
  · cases h
  · rename_i r' t' acc hl
    cases h
    rcases findLoop_cases hwf hl with ⟨he, rfl, _⟩ | ⟨_, ⟨w, e, he, _⟩ | ⟨he, _⟩⟩
    · cases he
      exact .fail acc
    · cases he
    · cases he
  rename_i idx t' acc hl
  cases h
  rcases findLoop_cases hwf hl with ⟨he, _⟩ | ⟨hacc, ⟨w, e, he, rfl, hf⟩ | ⟨he, hn, hg⟩⟩
  · cases he
  · cases he
    exact .found acc w idx hacc hf
  · cases he
    exact .grown acc t' hacc hn hg

/-- The slot a table holds under an id. -/
def SlotTable.cell (t : SlotTable P) (i : Nat) : Option P := (t.slots[i]?).join

/-- `t'` is `t` with the free id `e` marked in `slots_bmp`, maybe grown, with the same slots. -/
structure Taken (t t' : SlotTable P) (e : Nat) : Prop where
  wf : TableWf t'
  lt : e < t'.slotsSize
  size : t.slotsSize ≤ t'.slotsSize
  free : bitIn t.slotsBmp e = false
  bit : ∀ i, bitIn t'.slotsBmp i = (decide (i = e) || bitIn t.slotsBmp i)
  cell : ∀ i, t'.cell i = t.cell i

theorem takeSlotId_ret (b : Beyond) (t : SlotTable P) (e : Nat) (acc : List Access) :
    (takeSlotId b t e acc).ret = e := by
  unfold takeSlotId
  split <;> rfl

variable {e : Nat}

theorem takeSlotId_taken (hwf : TableWf t) (b : Beyond) (acc : List Access)
    (he : e < t.slotsSize) (hfree : bitIn t.slotsBmp e = false) :
    Taken t (takeSlotId b t e acc).table e := by
  have hbit := bitIn_setBit (w := 64) (by omega) (hwf.bmp_word.mpr he)
  have hwords := hwf.words
  unfold takeSlotId
  split
  · refine ⟨?_, he, le_rfl, hfree, hbit, fun _ => rfl⟩
    exact
      { hwf with
        bmp_len := by simpa using hwf.bmp_len
        full_len := by simpa using hwf.full_len
        full_beyond := fun w hw => by
          have hw' : bitsToLongs t.slotsSize ≤ w := hw
          have hne : w ≠ e / 64 := by omega
          rw [bitIn_setBit (by omega) (hwf.full_word he)]
          simp [hne, hwf.full_beyond w hw'] }
  · refine ⟨?_, he, le_rfl, hfree, hbit, fun _ => rfl⟩
    exact { hwf with bmp_len := by simpa using hwf.bmp_len }

theorem Grown.cell (h : Grown t t') (i : Nat) : t'.cell i = t.cell i := by
  unfold SlotTable.cell
  rw [h.slots]
  by_cases hi : i < t.slots.length
  · rw [getElem?_append_left hi]
  · have hi' : t.slots.length ≤ i := not_lt.mp hi
    rw [getElem?_append_right hi', getElem?_eq_none hi', getElem?_replicate]
    split <;> rfl

/-- **`alloc_slot_id` on a well-formed table** fails and leaves it, or takes one free id. -/
theorem allocSlotId_spec (hwf : TableWf t) (h : allocSlotId k b t = some r) :
    (r.ret = -ENOMEM ∧ r.table = t) ∨ ∃ e : Nat, r.ret = e ∧ Taken t r.table e := by
  cases allocSlotId_cases hwf h with
  | fail acc => exact .inl ⟨rfl, rfl⟩
  | found acc w e _ hf =>
    exact .inr ⟨e, takeSlotId_ret b t e acc, takeSlotId_taken hwf b acc hf.lt hf.free⟩
  | grown acc t' _ hn hg =>
  have hlt : t.slotsSize < t'.slotsSize := by rw [hg.size]; omega
  have hfree : bitIn t.slotsBmp t.slotsSize = false := hwf.bit_beyond le_rfl
  have ht := takeSlotId_taken hg.wf b acc hlt (by rw [hg.bit]; exact hfree)
  refine .inr ⟨t.slotsSize, takeSlotId_ret b t' _ acc, ht.wf, ht.lt, ?_, hfree, fun i => ?_,
    fun i => ?_⟩
  · exact le_trans (le_of_lt hlt) ht.size
  · rw [ht.bit i, hg.bit]
  · rw [ht.cell i, hg.cell]

/-- `alloc_slot_id` fails only where the search found nothing and memory for a larger table is
    missing. -/
theorem allocSlotId_neg (hwf : TableWf t) (h : allocSlotId k b t = some r) (hneg : r.ret < 0) :
    (findEmpty b t).1 = none ∧ k ≠ Kzalloc.ok := by
  unfold allocSlotId at h
  split at h
  · cases h
  · rename_i r' t' acc hl
    have hk : k ≠ Kzalloc.ok := by
      rcases findLoop_cases hwf hl with ⟨_, _, hk⟩ | ⟨_, ⟨w, e, he, _⟩ | ⟨he, _⟩⟩
      · exact hk
      · cases he
      · cases he
    refine ⟨?_, hk⟩
    rw [findLoop] at hl
    cases hf : findEmpty b t with
    | mk found acc0 =>
      rw [hf] at hl
      cases found with
      | none => rfl
      | some e => cases hl
  · cases h
    rw [takeSlotId_ret] at hneg
    exact absurd hneg (by omega)

/-- A table whose growing would ask `kmalloc` for more than it serves. -/
def AtLimit (t : SlotTable P) : Prop := kmallocMax < (t.slotsSize + 64) * 8

theorem slotTableInit_grow (hwf : TableWf t) :
    (slotTableInit (P := P) k (t.slotsSize + 64) = none ↔ AtLimit t) ∧
    (k ≠ Kzalloc.ok → ¬ AtLimit t →
      slotTableInit (P := P) k (t.slotsSize + 64) = some (.error (-ENOMEM))) := by
  have hmod := hwf.size_mod
  have hlt := hwf.lt_int
  have hsize : divRoundUp (t.slotsSize + 64) 64 * 64 % 2 ^ 32 = t.slotsSize + 64 := by
    unfold divRoundUp
    omega
  obtain ⟨k1, k2, k3⟩ := k
  unfold slotTableInit AtLimit
  simp only [hsize]
  refine ⟨⟨fun h => ?_, fun h => if_pos h⟩, fun hk h => ?_⟩
  · by_contra hno
    rw [if_neg hno] at h
    cases k1 <;> cases k2 <;> cases k3 <;> cases h
  · rw [if_neg h]
    cases k1 <;> cases k2 <;> cases k3 <;> first | rfl | exact absurd rfl hk

/-- **`alloc_slot_id` stops** only where the search found nothing and the table is at its limit. -/
theorem allocSlotId_eq_none (hwf : TableWf t) :
    allocSlotId k b t = none ↔ (findEmpty b t).1 = none ∧ AtLimit t := by
  unfold allocSlotId
  rw [findLoop]
  cases hf : findEmpty b t with
  | mk found acc =>
  cases found with
  | some e => exact ⟨nofun, fun h => (by cases h.1)⟩
  | none =>
  have hn := (findEmpty_spec hwf b).2 (by rw [hf])
  simp only
  cases he : expandSlotTable k t with
  | none =>
    refine ⟨fun _ => ⟨trivial, (slotTableInit_grow (k := k) hwf).1.mp ?_⟩, fun _ => rfl⟩
    unfold expandSlotTable at he
    simp only at he
    split at he
    · assumption
    · cases he
    · cases he
  | some r =>
  have hno : ¬ AtLimit t := by
    intro hlim
    unfold expandSlotTable at he
    simp only [(slotTableInit_grow (k := k) hwf).1.mpr hlim] at he
    cases he
  refine ⟨fun h => ?_, fun h => absurd h.2 hno⟩
  cases r with
  | error e => cases h
  | ok r =>
  obtain ⟨t', acc'⟩ := r
  have hfound := findEmpty_grown hwf hn (expandSlotTable_ok hwf he).1 b
  have hf' : findEmpty b t' = (some t.slotsSize, _) := Prod.ext hfound rfl
  simp only at h
  rw [findLoop, hf'] at h
  cases h

/-- **`alloc_slot_id` fails** where the search found nothing and no memory is left. -/
theorem allocSlotId_fails (hwf : TableWf t) (hf : (findEmpty b t).1 = none) (hk : k ≠ Kzalloc.ok)
    (hlim : ¬ AtLimit t) : ∃ acc, allocSlotId k b t = some ⟨-ENOMEM, t, acc⟩ := by
  unfold allocSlotId
  rw [findLoop]
  have he : findEmpty b t = (none, _) := Prod.ext hf rfl
  have hexp : expandSlotTable k t = some (.error (-ENOMEM)) := by
    unfold expandSlotTable
    simp only [(slotTableInit_grow hwf).2 hk hlim]
  rw [he]
  simp only [hexp]
  exact ⟨_, rfl⟩

theorem allocSlotId_found (hf : (findEmpty b t).1 = some e) :
    ∃ acc, allocSlotId k b t = some (takeSlotId b t e acc) := by
  unfold allocSlotId
  rw [findLoop]
  have he : findEmpty b t = (some e, _) := Prod.ext hf rfl
  rw [he]
  exact ⟨_, rfl⟩

/-- **`alloc_slot_id` grows the table** where the search found nothing and there is memory. -/
theorem allocSlotId_grows (hwf : TableWf t) (hf : (findEmpty b t).1 = none) (hlim : ¬ AtLimit t) :
    ∃ t' acc, Grown t t' ∧
      allocSlotId .ok b t = some (takeSlotId b t' t.slotsSize acc) := by
  obtain ⟨⟨t', acc'⟩, hexp⟩ : ∃ r, expandSlotTable .ok t = some (.ok r) := by
    unfold expandSlotTable
    simp only
    cases hn : slotTableInit (P := P) .ok (t.slotsSize + 64) with
    | none => exact absurd ((slotTableInit_grow hwf).1.mp hn) hlim
    | some r =>
      cases r with
      | error r => exact absurd rfl (slotTableInit_error hn).2
      | ok n => exact ⟨_, rfl⟩
  have hg := (expandSlotTable_ok hwf hexp).1
  have hfound := findEmpty_grown hwf ((findEmpty_spec hwf b).2 hf) hg b
  refine ⟨t', ?_⟩
  unfold allocSlotId
  rw [findLoop]
  have he : findEmpty b t = (none, _) := Prod.ext hf rfl
  have he' : findEmpty b t' = (some t.slotsSize, _) := Prod.ext hfound rfl
  rw [he]
  simp only [hexp]
  rw [findLoop, he']
  exact ⟨_, hg, rfl⟩

/-- `get_slot` answers the cell of an id, `NULL` for any other `int`. -/
theorem getSlot_eq_some (hwf : TableWf t) {id : Int} {p : P} :
    getSlot t id = some p ↔ ∃ n : Nat, id = n ∧ t.cell n = some p := by
  unfold getSlot
  split
  · refine ⟨nofun, ?_⟩
    rintro ⟨n, rfl, hc⟩
    have hge : t.slots.length ≤ n := by
      have := hwf.slots_len
      omega
    unfold SlotTable.cell at hc
    rw [getElem?_eq_none hge] at hc
    cases hc
  · refine ⟨fun h => ⟨id.toNat, by omega, h⟩, ?_⟩
    rintro ⟨n, rfl, hc⟩
    exact hc

theorem toUnsigned_natCast (hn : n < 2 ^ 31) : toUnsigned (n : Int) = n := by
  unfold toUnsigned
  omega

/-- `is_valid_slot_id` of a negative `int`: as an `unsigned` it is past every table. -/
theorem isValidSlotId_neg (hwf : TableWf t) (b : Beyond) (wild : Bool) {id : Int} (hneg : id < 0)
    (hint : -2 ^ 31 ≤ id) : isValidSlotId b wild t id = (some false, []) := by
  have hlt := hwf.lt_int
  have hge : t.slotsSize ≤ toUnsigned id := by
    unfold toUnsigned
    omega
  unfold isValidSlotId
  rw [if_pos ⟨hneg, hge⟩]

/-- The two reads `is_valid_slot_id` makes for an `int` that is not negative. -/
def slotReads (t : SlotTable P) (n : Nat) : List Access :=
  [⟨.slotsBmp, n / 64, t.slotsBmp.length⟩, ⟨.slots, n, t.slots.length⟩]

theorem slotReads_inside (hwf : TableWf t) (hn : n < t.slotsSize) :
    ∀ a ∈ slotReads t n, a.Inside := by
  intro a ha
  simp only [slotReads, mem_cons, not_mem_nil, or_false] at ha
  rcases ha with rfl | rfl
  · exact hwf.bmp_word.mpr hn
  · rw [hwf.slots_len]
    exact hn

/-- `is_valid_slot_id` of an id of the table, where the bitmap agrees with the slots. -/
theorem isValidSlotId_of_lt (hwf : TableWf t) (hbc : ∀ i, bitIn t.slotsBmp i = (t.cell i).isSome)
    (b : Beyond) (wild : Bool) (hn : n < t.slotsSize) :
    isValidSlotId b wild t (n : Int) =
      if (t.cell n).isSome then (some true, slotReads t n)
      else (some false, [⟨.slotsBmp, n / 64, t.slotsBmp.length⟩]) := by
  have hlt := hwf.lt_int
  have hlen : n < t.slots.length := by rw [hwf.slots_len]; exact hn
  unfold isValidSlotId
  rw [toUnsigned_natCast (by omega), getBit_eq_bitAt,
    bitAt_view _ (hwf.bmp_word.mpr hn), hbc n]
  unfold SlotTable.cell
  rw [getElem?_eq_getElem hlen]
  cases hc : t.slots[n] with
  | none => rfl
  | some p => rfl

/-- `is_valid_slot_id` of an `int` past the table reads `slots_bmp` outside: the range check of
    the source asks for both ends at once. -/
theorem isValidSlotId_past (hwf : TableWf t) (b : Beyond) (wild : Bool) (hn : t.slotsSize ≤ n)
    (hint : n < 2 ^ 31) : ∃ a ∈ (isValidSlotId b wild t (n : Int)).2, ¬ a.Inside := by
  refine ⟨⟨.slotsBmp, n / 64, t.slotsBmp.length⟩, ?_, ?_⟩
  · unfold isValidSlotId
    rw [if_neg (by omega), toUnsigned_natCast hint]
    simp only
    split
    · exact mem_singleton_self _
    · split <;> (split <;> exact mem_cons_self)
  · intro h
    have h' : n / 64 < t.slotsBmp.length := h
    have := hwf.bmp_word.mp h'
    omega

theorem set_cell (hwf : TableWf t) (hn : n < t.slotsSize) (p : P) (i : Nat) :
    ({ t with slots := t.slots.set n (some p) } : SlotTable P).cell i =
      if i = n then some p else t.cell i := by
  show ((t.slots.set n (some p))[i]?).join = _
  rw [getElem?_set]
  have hlen := hwf.slots_len
  by_cases h : i = n
  · subst h
    rw [if_pos rfl, if_pos (by omega), if_pos rfl]
    rfl
  · rw [if_neg (Ne.symm h), if_neg h]
    rfl

theorem set_wf (hwf : TableWf t) (n : Nat) (p : P) :
    TableWf ({ t with slots := t.slots.set n (some p) } : SlotTable P) :=
  { hwf with slots_len := by simpa using hwf.slots_len }

/-- `install_slot` stores under an id; the error code of `alloc_slot_id` hits no array. -/
theorem installSlot_cases {id : Int} {p : P} (h : installSlot b t id p = some t') :
    (id < 0 ∧ t' = t) ∨
    ∃ n : Nat, id = n ∧ t' = { t with slots := t.slots.set n (some p) } := by
  unfold installSlot at h
  split at h
  · cases h
  split at h
  · rename_i hneg
    cases h
    exact .inl ⟨hneg, rfl⟩
  · cases h
    exact .inr ⟨id.toNat, by omega, rfl⟩

theorem installSlot_taken (ht : Taken t t' e) (p : P) :
    ∃ t'', installSlot b t' (e : Int) p = some t'' := by
  have hlt := ht.wf.lt_int
  have he := ht.lt
  have hbit : getBit (toUnsigned (e : Int)) (view t'.slotsBmp b.bmp) = true := by
    rw [toUnsigned_natCast (by omega), getBit_eq_bitAt, bitAt_view _ (ht.wf.bmp_word.mpr he), ht.bit]
    simp
  unfold installSlot
  rw [hbit, if_neg (by decide)]
  exact ⟨_, rfl⟩

/-- **`free_slot_id` of an allocated id** clears its bit and its slot, nothing else. -/
theorem freeSlotId_wf (hwf : TableWf t) (id : Nat) : TableWf (freeSlotId t id) where
  __ := hwf
  slots_len := by simpa [freeSlotId] using hwf.slots_len
  bmp_len := by simpa [freeSlotId] using hwf.bmp_len
  full_len := by simpa [freeSlotId] using hwf.full_len
  full_beyond w hw := by
    have hw' : bitsToLongs t.slotsSize ≤ w := hw
    show bitIn (clearBit t.fullSlotsBmp (id / 64)) w = false
    rw [bitIn_clearBit _ _ (by omega), hwf.full_beyond w hw', Bool.and_false]

theorem freeSlotId_bit (t : SlotTable P) (id i : Nat) :
    bitIn (freeSlotId t id).slotsBmp i = (!decide (i = id) && bitIn t.slotsBmp i) :=
  bitIn_clearBit t.slotsBmp id (by omega) i

theorem freeSlotId_cell (t : SlotTable P) (id i : Nat) :
    (freeSlotId t id).cell i = if i = id then none else t.cell i := by
  show ((t.slots.set id none)[i]?).join = _
  rw [getElem?_set]
  by_cases h : i = id
  · subst h
    simp only [if_true]
    split <;> rfl
  · rw [if_neg (Ne.symm h), if_neg h]
    rfl

/-- **An id that is given back** leaves the table as it was, up to the bit of its word in
    `full_slots_bmp`, which is clear afterwards. -/
theorem freeSlotId_takeSlotId_iff (hwf : TableWf t) (b : Beyond) (acc : List Access)
    (he : e < t.slotsSize) (hfree : bitIn t.slotsBmp e = false) (hcell : t.cell e = none) :
    freeSlotId (takeSlotId b t e acc).table e = t ↔ bitIn t.fullSlotsBmp (e / 64) = false := by
  have hword := hwf.bmp_word.mpr he
  have hfword := hwf.full_word he
  have hbmp : clearBit (setBit t.slotsBmp e) e = t.slotsBmp := by
    refine words_ext (by simp) fun i => ?_
    rw [bitIn_clearBit _ _ (by omega), bitIn_setBit (by omega) hword]
    by_cases hi : i = e
    · simp [hi, hfree]
    · simp [hi]
  have hslots : t.slots.set e none = t.slots := by
    have hlen : e < t.slots.length := by rw [hwf.slots_len]; exact he
    have hget : t.slots[e] = none := by
      simpa [SlotTable.cell, hlen] using hcell
    rw [← hget, set_getElem_self]
  have hfull : ∀ ws : List Word, ws = t.fullSlotsBmp ∨ ws = setBit t.fullSlotsBmp (e / 64) →
      (clearBit ws (e / 64) = t.fullSlotsBmp ↔ bitIn t.fullSlotsBmp (e / 64) = false) := by
    intro ws hws
    refine ⟨fun h => ?_, fun h => words_ext ?_ fun i => ?_⟩
    · rw [← h, bitIn_clearBit _ _ (by omega)]
      simp
    · rcases hws with rfl | rfl <;> simp
    rw [bitIn_clearBit _ _ (by omega)]
    by_cases hi : i = e / 64
    · simp [hi, h]
    rcases hws with rfl | rfl
    · simp [hi]
    · rw [bitIn_setBit (by omega) hfword]
      simp [hi]
  have htable : ∀ ws : List Word, (ws = t.fullSlotsBmp ∨ ws = setBit t.fullSlotsBmp (e / 64)) →
      (freeSlotId { t with slotsBmp := setBit t.slotsBmp e, fullSlotsBmp := ws } e = t ↔
        bitIn t.fullSlotsBmp (e / 64) = false) := by
    intro ws hws
    rw [← hfull ws hws]
    refine ⟨fun h => congrArg SlotTable.fullSlotsBmp h, fun h => ?_⟩
    show SlotTable.mk _ (t.slots.set e none) (clearBit (setBit t.slotsBmp e) e)
      (clearBit ws (e / 64)) = t
    rw [hbmp, hslots, h]
  unfold takeSlotId
  split
  · exact htable _ (.inr rfl)
  · exact htable _ (.inl rfl)

end ChCore.Capability
