/-
  File: ChCore/Common/Bitops.lean
  Subject: `kernel/include/common/bitops.h`: bit operations on an array of `unsigned long`.

  A pointer to `unsigned long` is the function from an index to the word there; a search returns
  its result together with the indexes of the words it read, in order, so that an access past
  the end of an array can be told from one inside it.

  * **`find_next_bit_right`** -- a search gives the next set or clear bit, or `size`, and reads no
    word behind the bits; `for_each_set_bit` visits the set bits in increasing order.
-/
import ChCore.Lib.Words

namespace ChCore.Common

open Lib BitVec List

/-- `unsigned long`. -/
abbrev Word := BitVec 64

/-- `DIV_ROUND_UP(n, d)`. -/
def divRoundUp (n d : Nat) : Nat := (n + d - 1) / d

variable (nr : Nat)

/-- `BITS_TO_LONGS(nr)`. -/
def bitsToLongs : Nat := divRoundUp nr 64

theorem lt_bitsToLongs_iff (nr b : Nat) : b < bitsToLongs nr ↔ 64 * b < nr := by
  unfold bitsToLongs divRoundUp
  omega

theorem bitsToLongs_add_64 : bitsToLongs (nr + 64) = bitsToLongs nr + 1 := by
  unfold bitsToLongs divRoundUp
  omega

variable {x : Word} (p : Nat → Word)

def getBit : Bool := ((p (nr / 64) >>> (nr % 64)) &&& 1#64) == 1#64

theorem getBit_eq_bitAt : getBit nr p = bitAt p nr := by
  unfold getBit bitAt
  rw [and_one_eq_setWidth_ofBool_getLsbD, getLsbD_ushiftRight, add_zero]
  cases (p (nr / 64)).getLsbD (nr % 64) <;> rfl

/-- `ctzl`: on zero it answers `sizeof(x)`, the size in bytes. -/
def ctzl (x : Word) : Nat := if x = 0#64 then 8 else x.ctz.toNat

/-- The loop of `__find_next_bit`, from the word at `start` whose remaining bits are `tmp`. The
    first argument bounds the iterations; `findNextBit` starts with more than the bitmap has
    words left. -/
def findNextBitLoop (p : Nat → Word) (size : Nat) (invert : Word) :
    Nat → Nat → Word → Nat × List Nat
  | 0, _, _ => (size, [])
  | fuel + 1, start, tmp =>
    if tmp = 0#64 then
      if start + 64 ≥ size then (size, [])
      else
        let r := findNextBitLoop p size invert fuel (start + 64) (p ((start + 64) / 64) ^^^ invert)
        (r.1, (start + 64) / 64 :: r.2)
    else (min (start + ctzl tmp) size, [])

variable (size start : Nat) (invert : Word)

/-- `__find_next_bit`: the result and the indexes of the words read. -/
def findNextBit : Nat × List Nat :=
  if size ≤ start then (size, [])
  else
    let tmp := (p (start / 64) ^^^ invert) &&& ~~~((1#64 <<< (start % 64)) - 1#64)
    -- `start = ROUND_DOWN(start, BITS_PER_LONG)`
    let r := findNextBitLoop p size invert (size / 64 + 1) (64 * (start / 64)) tmp
    (r.1, start / 64 :: r.2)

def findNextZeroBit : Nat × List Nat :=
  findNextBit p size start (allOnes 64)

/-! ## 1. Trailing zeros -/

theorem ctzl_lt (hx : x ≠ 0#64) : ctzl x < 64 := by
  have h := (ctz_lt_iff_ne_zero (x := x)).mpr hx
  rw [lt_def] at h
  simpa [ctzl, hx] using h

theorem getLsbD_ctzl (hx : x ≠ 0#64) : x.getLsbD (ctzl x) = true := by
  simpa [ctzl, hx] using getLsbD_true_ctz_of_ne_zero hx

theorem getLsbD_lt_ctzl (hx : x ≠ 0#64) {k : Nat} (hk : k < ctzl x) : x.getLsbD k = false := by
  apply getLsbD_false_of_lt_ctz
  simpa [ctzl, hx] using hk

/-! ## 2. What the search finds -/

/-- `r` is the answer of a search from `start`: the first position below `size` whose bit is set
    after the inversion, or `size`. -/
structure IsNextBit (p : Nat → Word) (size start : Nat) (invert : Word) (r : Nat) : Prop where
  le : r ≤ size
  ge : start ≤ r
  hit : r < size → bitAt (fun k => p k ^^^ invert) r = true
  below : ∀ i, start ≤ i → i < r → bitAt (fun k => p k ^^^ invert) i = false

/-- What the loop knows at its head: `tmp` holds the bits of the word at `base` from `start` on,
    and no earlier bit is set. -/
structure LoopHead (p : Nat → Word) (start : Nat) (invert : Word) (base : Nat) (tmp : Word) :
    Prop where
  aligned : base % 64 = 0
  bits : ∀ k < 64, tmp.getLsbD k =
    (decide (start ≤ base + k) && bitAt (fun k => p k ^^^ invert) (base + k))
  past : start < base + 64
  below : ∀ i, start ≤ i → i < base → bitAt (fun k => p k ^^^ invert) i = false

theorem LoopHead.none {p : Nat → Word} {start base : Nat} {invert : Word}
    (h : LoopHead p start invert base 0#64) :
    ∀ i, start ≤ i → i < base + 64 → bitAt (fun k => p k ^^^ invert) i = false := by
  intro i hi hlt
  by_cases hb : i < base
  · exact h.below i hi hb
  · obtain ⟨k, rfl⟩ := Nat.exists_eq_add_of_le (not_lt.mp hb)
    have hk := h.bits k (by omega)
    simpa [hi] using hk.symm

theorem LoopHead.next {p : Nat → Word} {start base : Nat} {invert : Word}
    (h : LoopHead p start invert base 0#64) :
    LoopHead p start invert (base + 64) (p ((base + 64) / 64) ^^^ invert) where
  aligned := by have := h.aligned; omega
  bits k hk := by
    have h1 := h.aligned
    have h2 := h.past
    have hd : (base + 64 + k) / 64 = (base + 64) / 64 := by omega
    have hm : (base + 64 + k) % 64 = k := by omega
    have hle : start ≤ base + 64 + k := by omega
    simp only [bitAt, hd, hm, hle, decide_true, Bool.true_and]
  past := by have := h.past; omega
  below := h.none

/-- **The loop finds the next bit**, given one iteration for each word left. -/
theorem findNextBitLoop_spec {p : Nat → Word} {size start : Nat} {invert : Word}
    (hs : start < size) :
    ∀ (fuel base : Nat) (tmp : Word), LoopHead p start invert base tmp → base < size →
      size < base + 64 * fuel →
      IsNextBit p size start invert (findNextBitLoop p size invert fuel base tmp).1
  | 0, base, tmp, _, hb, hf => by omega
  | fuel + 1, base, tmp, h, hb, hf => by
    rw [findNextBitLoop]
    split
    · rename_i htmp
      subst htmp
      split
      · exact ⟨le_rfl, le_of_lt hs, fun hlt => absurd hlt (lt_irrefl _),
          fun i hi hlt => h.none i hi (by omega)⟩
      · exact findNextBitLoop_spec hs fuel (base + 64) _ h.next (by omega) (by omega)
    rename_i htmp
    have hlt := ctzl_lt htmp
    have hat := h.bits _ hlt
    rw [getLsbD_ctzl htmp] at hat
    obtain ⟨hge, hset⟩ := Bool.and_eq_true_iff.mp hat.symm
    have hge' : start ≤ base + ctzl tmp := of_decide_eq_true hge
    refine ⟨min_le_right _ _, Nat.le_min.mpr ⟨hge', le_of_lt hs⟩, fun hr => ?_,
      fun i hi hlt' => ?_⟩
    · have hmin : min (base + ctzl tmp) size = base + ctzl tmp := by omega
      rw [hmin]
      exact hset
    -- below the first bit left in the word: either an earlier word or a zero of `tmp`
    by_cases hi' : i < base
    · exact h.below i hi hi'
    obtain ⟨k, rfl⟩ := Nat.exists_eq_add_of_le (not_lt.mp hi')
    have hk : k < ctzl tmp := by omega
    have hb' := h.bits k (by omega)
    rw [getLsbD_lt_ctzl htmp hk] at hb'
    simpa [hi] using hb'.symm

theorem findNextBitLoop_reads {p : Nat → Word} {size : Nat} {invert : Word} :
    ∀ (fuel base : Nat) (tmp : Word), base % 64 = 0 →
      ∀ b ∈ (findNextBitLoop p size invert fuel base tmp).2, 64 * b < size
  | 0, _, _, _, b, hb => by simp [findNextBitLoop] at hb
  | fuel + 1, base, tmp, ha, b, hb => by
    rw [findNextBitLoop] at hb
    split at hb
    · split at hb
      · simp at hb
      · rcases List.mem_cons.mp hb with rfl | hb'
        · omega
        · exact findNextBitLoop_reads fuel (base + 64) _ (by omega) b hb'
    · simp at hb

theorem loopHead_first (start : Nat) (invert : Word) :
    LoopHead p start invert (64 * (start / 64))
      ((p (start / 64) ^^^ invert) &&& ~~~((1#64 <<< (start % 64)) - 1#64)) where
  aligned := by omega
  bits k hk := by
    have hd : (64 * (start / 64) + k) / 64 = start / 64 := by omega
    have hm : (64 * (start / 64) + k) % 64 = k := by omega
    have hle : (start ≤ 64 * (start / 64) + k) ↔ start % 64 ≤ k := by omega
    rw [getLsbD_and, getLsbD_keepFrom (Nat.mod_lt start (by omega))]
    simp only [bitAt, hd, hm, hle, hk, decide_true, Bool.true_and]
    rw [Bool.and_comm]
  past := by omega
  below i hi hlt := by omega

/-- **`__find_next_bit` returns the least position `start ≤ i < size` whose bit is set after the
    inversion, or `size`.** -/
theorem findNextBit_spec {p : Nat → Word} {size start : Nat} {invert : Word}
    (hs : start ≤ size) : IsNextBit p size start invert (findNextBit p size start invert).1 := by
  unfold findNextBit
  split
  · exact ⟨le_rfl, hs, fun hlt => absurd hlt (lt_irrefl _), fun i hi hlt => by omega⟩
  · exact findNextBitLoop_spec (by omega) _ _ _ (loopHead_first p start invert) (by omega)
      (by omega)

/-- **Every word the search reads holds a position below `size`.** -/
theorem findNextBit_reads : ∀ b ∈ (findNextBit p size start invert).2, 64 * b < size := by
  intro b hb
  unfold findNextBit at hb
  split at hb
  · simp at hb
  · rcases List.mem_cons.mp hb with rfl | hb'
    · omega
    · exact findNextBitLoop_reads _ _ _ (by omega) b hb'

theorem bitAt_xor_allOnes (i : Nat) : bitAt (fun k => p k ^^^ allOnes 64) i = !bitAt p i := by
  have hi : i % 64 < 64 := Nat.mod_lt i (by omega)
  simp only [bitAt, getLsbD_xor, getLsbD_allOnes, hi, decide_true, Bool.xor_true]

/-! ## 3. Every set bit -/

/-- `__find_next_bit`, as the `int` it returns. -/
def findNextBitInt : Int :=
  ((findNextBit p size start invert).1 : Int).bmod (2 ^ 32)

/-- `for_each_set_bit`: the positions visited from `pos` on, in at most as many iterations as the
    first number. -/
def forEachSetBit (p : Nat → Word) (size : Nat) : Nat → Int → List Int
  | 0, _ => []
  | fuel + 1, pos =>
    -- the `int` is compared with, and passed as, an `unsigned long`
    if pos % 2 ^ 64 < size then
      pos :: forEachSetBit p size fuel (findNextBitInt p size ((pos + 1) % 2 ^ 64).toNat 0)
    else []

section Visits

variable {p : Nat → Word} {size : Nat} (hsize : size < 2 ^ 31)
include hsize

theorem findNextBitInt_eq (start : Nat) (invert : Word) :
    findNextBitInt p size start invert = (findNextBit p size start invert).1 := by
  have h : (findNextBit p size start invert).1 ≤ size := by
    rcases le_total start size with hs | hs
    · exact (findNextBit_spec hs).le
    · rw [findNextBit, if_pos hs]
  exact Int.bmod_eq_of_le (by omega) (by omega)

/-- **From the next set bit on the set bits are visited**, each once: between two of them none is
    set. -/
theorem forEachSetBit_eq (fuel : Nat) : ∀ start ≤ size, size - start < fuel →
    forEachSetBit p size fuel (findNextBitInt p size start 0) =
      ((range' start (size - start)).filter (bitAt p)).map (↑) := by
  induction fuel with
  | zero => nofun
  | succ fuel ih =>
    intro start hs hfuel
    have h : IsNextBit p size start 0 _ := findNextBit_spec hs
    rw [findNextBitInt_eq hsize]
    generalize (findNextBit p size start 0).1 = r at h ⊢
    obtain ⟨k, rfl⟩ := Nat.exists_eq_add_of_le h.ge
    have hsplit : range' start (size - start) =
        range' start k ++ range' (start + k) (size - (start + k)) := by
      rw [range'_append_1]
      congr 1
      have := h.le
      omega
    have hnone : (range' start k).filter (bitAt p) = [] := by
      refine filter_eq_nil_iff.mpr fun i hi => ?_
      obtain ⟨hge, hlt⟩ := mem_range'_1.mp hi
      simpa using h.below i hge hlt
    rw [hsplit, filter_append, hnone, nil_append, forEachSetBit]
    by_cases hlt : start + k < size
    · obtain ⟨m, hm⟩ : ∃ m, size - (start + k) = m + 1 := ⟨size - (start + k) - 1, by omega⟩
      have hset : bitAt p (start + k) = true := by simpa using h.hit hlt
      have hnext : (((start + k : Nat) : Int) + 1) % 2 ^ 64 = (start + k + 1 : Nat) := by omega
      rw [if_pos (by omega), hnext, Int.toNat_natCast, ih _ hlt (by omega), hm, range'_succ,
        List.filter_cons_of_pos hset, List.map_cons]
      congr 4
      omega
    · have := h.le
      rw [if_neg (by omega), Nat.sub_eq_zero_of_le (not_lt.mp hlt)]
      rfl

end Visits

/-- **Only words of the bitmap are read, the least bit is returned, every set bit is visited once**,
    for every bitmap of less than `2 ^ 31` bits: there no sum wraps. -/
theorem find_next_bit_right (hsize : size < 2 ^ 31) :
    (∀ b ∈ (findNextBit p size start invert).2, b < bitsToLongs size) ∧
    (∃ r : Nat, findNextBitInt p size start invert = r ∧ r ≤ size ∧
      (r < size → start ≤ r ∧ bitAt (fun k => p k ^^^ invert) r = true) ∧
      ∀ i, start ≤ i → i < r → bitAt (fun k => p k ^^^ invert) i = false) ∧
    ∀ fuel, size < fuel → forEachSetBit p size fuel (findNextBitInt p size 0 0) =
      ((List.range size).filter (bitAt p)).map (↑) := by
  refine ⟨fun b hb => (lt_bitsToLongs_iff size b).mpr (findNextBit_reads p size start invert b hb),
    ?_, fun fuel hfuel => ?_⟩
  · refine ⟨_, findNextBitInt_eq hsize start invert, ?_⟩
    rcases lt_or_ge size start with hs | hs
    · rw [findNextBit, if_pos hs.le]
      exact ⟨le_rfl, fun hlt => absurd hlt (lt_irrefl _), fun i hi hlt => by omega⟩
    · have h : IsNextBit p size start invert _ := findNextBit_spec hs
      exact ⟨h.le, fun hlt => ⟨h.ge, h.hit hlt⟩, h.below⟩
  · rw [range_eq_range']
    exact forEachSetBit_eq hsize fuel 0 (Nat.zero_le _) hfuel

theorem find_next_bit_five :
    forEachSetBit (fun _ => 5) 3 4 (findNextBitInt (fun _ => 5) 3 0 0) = [0, 2] :=
  ((find_next_bit_right (fun _ => 5) 3 0 0 (by omega)).2.2 4 (by decide)).trans (by decide)

end ChCore.Common
