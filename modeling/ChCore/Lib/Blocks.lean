/-
  File: ChCore/Lib/Blocks.lean
  Subject: Aligned blocks of a power of two and tilings of an interval by such blocks.

  A block of order `k` is `2 ^ k` places from a start. Two blocks of order `k` that make up an
  aligned block of order `k + 1` are buddies; the start of the buddy and the start of the block
  they make up are bit operations on the start.

  * `Block.halves` -- the bit operations give the two halves of one aligned block;
  * `Tiles.exchange` -- a part of a tiling may be exchanged for blocks over the same places;
    `places_low_high` and `places_buddy` are the two cases a buddy allocator needs.
-/
import Mathlib

namespace ChCore.Lib

open Nat Set

/-- `2 ^ order` places from `start` on. -/
@[ext] structure Block where
  start : Nat
  order : Nat
  deriving DecidableEq, Repr

namespace Block

variable (b : Block)

def size : Nat := 2 ^ b.order

def places : Set Nat := Set.Ico b.start (b.start + b.size)

def Aligned : Prop := b.size ∣ b.start

/-- The other half of the block that `b` is a half of. -/
def buddy : Block := ⟨b.start ^^^ 1 <<< b.order, b.order⟩

/-- The block that `b` and its buddy make up. -/
def merged : Block := ⟨Nat.ldiff b.start (1 <<< b.order), b.order + 1⟩

/-- The two halves of a block of order `order + 1` at `start`. -/
def low : Block := ⟨b.start, b.order - 1⟩

def high : Block := ⟨b.start + 2 ^ (b.order - 1), b.order - 1⟩

theorem size_pos : 0 < b.size := Nat.two_pow_pos b.order

theorem mem_places {b : Block} {p : Nat} : p ∈ b.places ↔ b.start ≤ p ∧ p < b.start + b.size :=
  mem_Ico

theorem start_mem : b.start ∈ b.places :=
  mem_places.mpr ⟨le_rfl, Nat.lt_add_of_pos_right b.size_pos⟩

/-! ## 1. Buddies -/

theorem shiftLeft_ldiff_one (m k : Nat) : Nat.ldiff (m <<< k) (1 <<< k) = (Nat.ldiff m 1) <<< k := by
  refine eq_of_testBit_eq fun i => ?_
  by_cases h : k ≤ i <;> simp [h]

theorem ldiff_one (m : Nat) : Nat.ldiff m 1 = 2 * (m / 2) := by
  refine eq_of_testBit_eq fun i => ?_
  rw [testBit_ldiff]
  cases i with
  | zero => simp
  | succ i => simp [testBit_succ]

/-- **Buddies are the halves of the block they make up.** -/
theorem halves {b : Block} (h : b.Aligned) :
    b.merged.Aligned ∧ (b = b.merged.low ∧ b.buddy = b.merged.high ∨
      b = b.merged.high ∧ b.buddy = b.merged.low) := by
  obtain ⟨start, k⟩ := b
  obtain ⟨m, hm⟩ := h
  have hstart : start = m <<< k := by
    rw [shiftLeft_eq, mul_comm]
    exact hm
  have hbuddy : start ^^^ 1 <<< k = (m ^^^ 1) <<< k := by
    rw [hstart, shiftLeft_xor_distrib]
  have hmerged : Nat.ldiff start (1 <<< k) = (2 * (m / 2)) <<< k := by
    rw [hstart, shiftLeft_ldiff_one, ldiff_one]
  simp only [Aligned, size, merged, low, high, buddy, hbuddy, hmerged, mk.injEq,
    Nat.add_sub_cancel, and_true]
  refine ⟨⟨m / 2, by rw [shiftLeft_eq]; ring⟩, ?_⟩
  rcases even_or_odd m with he | ho
  · refine .inl ?_
    have hdiv : 2 * (m / 2) = m := two_mul_div_two_of_even he
    rw [hdiv, xor_one_of_even he, hstart, shiftLeft_eq, shiftLeft_eq]
    exact ⟨rfl, by ring⟩
  refine .inr ?_
  have hdiv : 2 * (m / 2) = m - 1 := by
    have := two_mul_div_two_add_one_of_odd ho
    omega
  have hpos : 0 < m := pos_of_ne_zero fun e => by simp [e] at ho
  rw [hdiv, xor_one_of_odd ho, hstart, shiftLeft_eq, shiftLeft_eq]
  refine ⟨?_, rfl⟩
  calc m * 2 ^ k = (m - 1 + 1) * 2 ^ k := by rw [Nat.sub_add_cancel hpos]
    _ = (m - 1) * 2 ^ k + 2 ^ k := by ring

/-- **The buddy of a block is inside** the memory if the block they make up is. -/
theorem buddy_inside {b : Block} {n : Nat} (halign : b.Aligned) (hin : b.start + b.size ≤ n)
    (hdvd : 2 ^ (b.order + 1) ∣ n) :
    b.buddy.start < n ∧ b.merged.start < n ∧ b.merged.start + b.merged.size ≤ n := by
  obtain ⟨hmerged, hhalf⟩ := halves halign
  have hpos := b.size_pos
  have hsize : b.merged.size = b.size + b.size := by
    simp only [size, merged, pow_succ]
    ring
  have hstart : b.merged.start ≤ b.start ∧ b.buddy.start ≤ b.merged.start + b.size := by
    obtain ⟨hb, hb'⟩ | ⟨hb, hb'⟩ := hhalf
    · rw [congrArg start hb, hb']
      exact ⟨le_rfl, le_rfl⟩
    · rw [congrArg start hb, hb']
      exact ⟨Nat.le_add_right .., Nat.le_add_right ..⟩
  have hend : b.merged.start + b.merged.size ≤ n := by
    obtain ⟨m, hm⟩ := hdvd
    obtain ⟨j, hj⟩ := hmerged
    have hlt : j < m := by
      refine Nat.lt_of_mul_lt_mul_left (a := b.merged.size) ?_
      calc b.merged.size * j = b.merged.start := hj.symm
        _ < n := by omega
        _ = b.merged.size * m := hm
    calc b.merged.start + b.merged.size = b.merged.size * (j + 1) := by rw [hj]; ring
      _ ≤ b.merged.size * m := Nat.mul_le_mul_left _ hlt
      _ = n := hm.symm
  exact ⟨by omega, by omega, hend⟩

variable {p k : Nat}

theorem low_aligned (h : (⟨p, k + 1⟩ : Block).Aligned) : (⟨p, k⟩ : Block).Aligned :=
  (pow_dvd_pow 2 (le_succ k)).trans h

theorem high_aligned (h : (⟨p, k + 1⟩ : Block).Aligned) : (⟨p + 2 ^ k, k⟩ : Block).Aligned :=
  Nat.dvd_add (low_aligned h) (Nat.dvd_refl _)

@[simp] theorem buddy_buddy : b.buddy.buddy = b := by
  simp [buddy]

theorem buddy_ne {b : Block} (h : b.Aligned) : b.buddy ≠ b := by
  intro e
  have hpos := Nat.two_pow_pos b.order
  obtain ⟨_, ⟨hb, hb'⟩ | ⟨hb, hb'⟩⟩ := halves h
  all_goals
    have hs := congrArg start ((hb.symm.trans e.symm).trans hb')
    simp only [low, high, merged, Nat.add_sub_cancel] at hs
    omega

theorem high_buddy (h : (⟨p, k + 1⟩ : Block).Aligned) :
    (⟨p + 2 ^ k, k⟩ : Block).buddy = ⟨p, k⟩ := by
  obtain ⟨m, hm⟩ := h
  have hp : p = 2 ^ (k + 1) * m := hm
  have hstart : p + 2 ^ k = (2 * m + 1) <<< k := by
    rw [shiftLeft_eq, hp]
    ring
  simp only [buddy, mk.injEq, and_true]
  rw [hstart, ← shiftLeft_xor_distrib, xor_one_of_odd ⟨m, rfl⟩, Nat.add_sub_cancel,
    shiftLeft_eq, hp]
  ring

/-! ## 2. Places -/

/-- **A block is the union of its halves.** -/
theorem places_halves (p k : Nat) :
    (⟨p, k + 1⟩ : Block).places = (⟨p, k⟩ : Block).places ∪ (⟨p + 2 ^ k, k⟩ : Block).places := by
  ext q
  simp only [mem_union, mem_places, size, pow_succ]
  omega

theorem disjoint_halves (p k : Nat) :
    Disjoint (⟨p, k⟩ : Block).places (⟨p + 2 ^ k, k⟩ : Block).places := by
  rw [disjoint_left]
  intro q hq hq'
  rw [mem_places] at hq hq'
  simp only [size] at hq hq'
  omega

theorem le_of_disjoint {b c : Block} (h : Disjoint b.places c.places) :
    b.start + b.size ≤ c.start ∨ c.start + c.size ≤ b.start := by
  by_contra hno
  rcases le_total b.start c.start with hle | hle
  · exact disjoint_left.mp h (mem_places.mpr ⟨hle, by omega⟩) c.start_mem
  · exact disjoint_left.mp h b.start_mem (mem_places.mpr ⟨hle, by omega⟩)

/-- **Aligned blocks are nested**: a block that meets one of at least its size lies inside it. -/
theorem places_subset {b c : Block} (hb : b.Aligned) (hc : c.Aligned) (ho : b.order ≤ c.order) {p : Nat}
    (hpb : p ∈ b.places) (hpc : p ∈ c.places) : b.places ⊆ c.places := by
  obtain ⟨i, hi⟩ := hb
  obtain ⟨j, hj⟩ := hc
  have hsize : c.size = b.size * 2 ^ (c.order - b.order) := by
    rw [size, size, ← pow_add, Nat.add_sub_cancel' ho]
  rw [mem_places, hi] at hpb
  rw [mem_places, hj, hsize] at hpc
  -- both starts are multiples of the size of the smaller block
  have hlow : 2 ^ (c.order - b.order) * j < i + 1 := by
    refine Nat.lt_of_mul_lt_mul_left (a := b.size) ?_
    calc b.size * (2 ^ (c.order - b.order) * j) = b.size * 2 ^ (c.order - b.order) * j := by ring
      _ ≤ p := hpc.1
      _ < b.size * i + b.size := hpb.2
      _ = b.size * (i + 1) := by ring
  have hhigh : i < 2 ^ (c.order - b.order) * (j + 1) := by
    refine Nat.lt_of_mul_lt_mul_left (a := b.size) ?_
    calc b.size * i ≤ p := hpb.1
      _ < b.size * 2 ^ (c.order - b.order) * j + b.size * 2 ^ (c.order - b.order) := hpc.2
      _ = b.size * (2 ^ (c.order - b.order) * (j + 1)) := by ring
  have hstart : c.start ≤ b.start := by
    calc c.start = b.size * (2 ^ (c.order - b.order) * j) := by rw [hj, hsize]; ring
      _ ≤ b.size * i := Nat.mul_le_mul_left _ (le_of_lt_succ hlow)
      _ = b.start := hi.symm
  have hend : b.start + b.size ≤ c.start + c.size := by
    calc b.start + b.size = b.size * (i + 1) := by rw [hi]; ring
      _ ≤ b.size * (2 ^ (c.order - b.order) * (j + 1)) := Nat.mul_le_mul_left _ hhigh
      _ = c.start + c.size := by rw [hj, hsize]; ring
  intro q hq
  rw [mem_places] at hq ⊢
  omega

theorem eq_of_subset {b c : Block} (h : b.places ⊆ c.places) (ho : c.order = b.order) : c = b := by
  have hsize : c.size = b.size := congrArg (2 ^ ·) ho
  have hfirst := mem_places.mp (h b.start_mem)
  have hlast := mem_places.mp (h (mem_places.mpr
    (⟨by omega, by omega⟩ : b.start ≤ b.start + b.size - 1 ∧ _ < b.start + b.size)))
  exact Block.ext (by omega) ho

end Block

/-! ## 3. Tilings -/

/-- **The blocks of `S` tile `[0, n)`.** -/
structure Tiles (S : Set Block) (n : Nat) : Prop where
  inside : ∀ b ∈ S, b.start + b.size ≤ n
  covers : ∀ p < n, ∃ b ∈ S, p ∈ b.places
  disjoint : S.PairwiseDisjoint Block.places

namespace Tiles

variable {S R T : Set Block} {n : Nat}

theorem unique (h : Tiles S n) {b c : Block} (hb : b ∈ S) (hc : c ∈ S) {p : Nat} (hpb : p ∈ b.places)
    (hpc : p ∈ c.places) : b = c := by
  by_contra hne
  exact disjoint_left.mp (h.disjoint hb hc hne) hpb hpc

/-- **No two blocks start at one place.** -/
theorem start_unique (h : Tiles S n) {b c : Block} (hb : b ∈ S) (hc : c ∈ S)
    (hstart : b.start = c.start) : b = c :=
  h.unique hb hc b.start_mem (hstart ▸ c.start_mem)

theorem start_lt (h : Tiles S n) {b : Block} (hb : b ∈ S) : b.start < n := by
  have := h.inside b hb
  have := b.size_pos
  omega

/-- **Blocks over the same places may be exchanged.** -/
theorem exchange (h : Tiles (S ∪ R) n) (hSR : Disjoint S R) (hT : T.PairwiseDisjoint Block.places)
    (hplaces : ⋃ b ∈ T, b.places = ⋃ b ∈ R, b.places) : Tiles (S ∪ T) n := by
  have hback : ∀ {b p}, b ∈ T → p ∈ b.places → ∃ c ∈ R, p ∈ c.places := by
    intro b p hb hp
    have : p ∈ ⋃ b ∈ R, b.places := hplaces ▸ mem_biUnion hb hp
    simpa using this
  refine ⟨?_, fun p hp => ?_, ?_⟩
  · rintro b (hb | hb)
    · exact h.inside b (.inl hb)
    -- the last place of the block lies in one of the blocks that go
    have hpos := b.size_pos
    have hlast : b.start + b.size - 1 ∈ b.places := Block.mem_places.mpr ⟨by omega, by omega⟩
    obtain ⟨c, hc, hpc⟩ := hback hb hlast
    have := h.inside c (.inr hc)
    have := Block.mem_places.mp hpc
    omega
  · obtain ⟨c, hc | hc, hpc⟩ := h.covers p hp
    · exact ⟨c, .inl hc, hpc⟩
    have : p ∈ ⋃ b ∈ T, b.places := hplaces ▸ mem_biUnion hc hpc
    simp only [mem_iUnion, exists_prop] at this
    obtain ⟨b, hb, hpb⟩ := this
    exact ⟨b, .inr hb, hpb⟩
  have hmixed : ∀ {b c}, b ∈ S → c ∈ T → Disjoint b.places c.places := by
    intro b c hb hc
    rw [disjoint_left]
    intro p hpb hpc
    obtain ⟨d, hd, hpd⟩ := hback hc hpc
    have hbd := h.unique (.inl hb) (.inr hd) hpb hpd
    exact disjoint_left.mp hSR hb (hbd ▸ hd)
  rintro b (hb | hb) c (hc | hc) hne
  · exact h.disjoint (.inl hb) (.inl hc) hne
  · exact hmixed hb hc
  · exact (hmixed hc hb).symm
  · exact hT hb hc hne

theorem exchange_disjoint (h : Tiles (S ∪ R) n) (hSR : Disjoint S R)
    (hplaces : ⋃ b ∈ T, b.places = ⋃ b ∈ R, b.places) : Disjoint S T := by
  rw [disjoint_left]
  intro b hb hbT
  have : b.start ∈ ⋃ b ∈ R, b.places := hplaces ▸ mem_biUnion hbT b.start_mem
  simp only [mem_iUnion, exists_prop] at this
  obtain ⟨c, hc, hbc⟩ := this
  have hbc := h.unique (.inl hb) (.inr hc) b.start_mem hbc
  exact disjoint_left.mp hSR hb (hbc ▸ hc)

end Tiles

/-! ## 4. Halves as a set of blocks -/

theorem disjoint_low_high (p k : Nat) :
    ({⟨p, k⟩, ⟨p + 2 ^ k, k⟩} : Set Block).PairwiseDisjoint Block.places := by
  rw [pairwiseDisjoint_insert]
  refine ⟨pairwiseDisjoint_singleton _ _, fun c hc _ => ?_⟩
  rw [mem_singleton_iff.mp hc]
  exact Block.disjoint_halves p k

/-- **The halves cover what the block covers.** -/
theorem places_low_high (p k : Nat) :
    ⋃ b ∈ ({⟨p, k⟩, ⟨p + 2 ^ k, k⟩} : Set Block), b.places =
      ⋃ b ∈ ({⟨p, k + 1⟩} : Set Block), b.places := by
  rw [biUnion_pair, biUnion_singleton, Block.places_halves]

/-- **A block and its buddy cover what they make up.** -/
theorem places_buddy {b : Block} (hb : b.Aligned) :
    ⋃ c ∈ ({b.merged} : Set Block), c.places = ⋃ c ∈ ({b, b.buddy} : Set Block), c.places := by
  have hpair : ({b, b.buddy} : Set Block) = {b.merged.low, b.merged.high} := by
    rcases (Block.halves hb).2 with ⟨h1, h2⟩ | ⟨h1, h2⟩
    · rw [← h1, ← h2]
    · rw [← h1, ← h2, pair_comm]
  rw [hpair]
  exact (places_low_high _ _).symm

end ChCore.Lib
