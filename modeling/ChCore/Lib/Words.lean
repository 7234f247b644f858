/-
  File: ChCore/Lib/Words.lean
  Subject: Bits stored in an array of machine words.

  Bit `i` of a word array is bit `i % w` of word `i / w`. The array is read either as a pointer
  (`Nat → BitVec w`, every index has a word, also those past the end) or as the list of words
  that was allocated (`bitIn`, a bit past the end is clear); `view` reads a list as a pointer,
  with the words past its end supplied from outside.

  * `bitIn_setBit`, `bitIn_clearBit` -- one store changes one bit;
  * `getField`, `setField` -- bit fields of one word.
-/
import Mathlib

namespace ChCore.Lib

open List BitVec Nat

variable {w : Nat}

/-! ## 1. Masks -/

variable {k i : Nat} {ws : List (BitVec w)}

theorem getLsbD_one_shiftLeft (hk : k < w) (j : Nat) : (1#w <<< k).getLsbD j = decide (j = k) := by
  rw [← twoPow_eq]
  simp [hk, eq_comm]

/-- `~((1 << k) - 1)` keeps the bits from position `k` on. -/
theorem getLsbD_keepFrom (hk : k < w) (j : Nat) :
    (~~~((1#w <<< k) - 1#w)).getLsbD j = (decide (j < w) && decide (k ≤ j)) := by
  have hpow : (2 : Nat) ^ k < 2 ^ w := Nat.pow_lt_pow_right (by omega) hk
  have hpos : 0 < (2 : Nat) ^ k := Nat.two_pow_pos k
  have hw : (1 : Nat) < 2 ^ w := lt_of_le_of_lt hpos hpow
  have hmask : ((1#w <<< k) - 1#w).toNat = 2 ^ k - 1 := by
    rw [← twoPow_eq, toNat_sub_of_le]
    · rw [toNat_twoPow, toNat_ofNat, mod_eq_of_lt hpow, mod_eq_of_lt hw]
    · rw [le_def, toNat_twoPow, toNat_ofNat, mod_eq_of_lt hpow, mod_eq_of_lt hw]
      exact hpos
  rw [getLsbD_not]
  rw [← testBit_toNat, hmask]
  by_cases h : j < k
  · simp [h]
  · simp [h, not_lt.mp h]

/-- Clearing the bits below `k` rounds down to a multiple of `2^k`. -/
theorem toNat_keepFrom (hk : k < w) (x : BitVec w) :
    (x &&& ~~~((1#w <<< k) - 1#w)).toNat = x.toNat / 2 ^ k * 2 ^ k := by
  have hshift : x &&& ~~~((1#w <<< k) - 1#w) = x >>> k <<< k := by
    refine eq_of_getLsbD_eq fun i hi => ?_
    rw [getLsbD_and, getLsbD_keepFrom hk, getLsbD_shiftLeft]
    by_cases h : i < k
    · simp [h]
    · have hki : k + (i - k) = i := by omega
      simp [h, hi, hki, not_lt.mp h]
  have hle := div_mul_le_self x.toNat (2 ^ k)
  rw [hshift, toNat_shiftLeft, toNat_ushiftRight, Nat.shiftRight_eq_div_pow,
    Nat.shiftLeft_eq, mod_eq_of_lt (lt_of_le_of_lt hle x.isLt)]

theorem eq_allOnes_iff (x : BitVec w) : x = allOnes w ↔ ∀ k < w, x.getLsbD k = true := by
  constructor
  · rintro rfl k hk
    simp [hk]
  intro h
  apply eq_of_getLsbD_eq
  intro k hk
  rw [h k hk]
  simp [hk]

/-! ## 2. Positions -/

theorem pos_eq_iff (i j : Nat) : i = j ↔ i / w = j / w ∧ i % w = j % w := by
  constructor
  · rintro rfl
    exact ⟨rfl, rfl⟩
  · rintro ⟨hd, hm⟩
    rw [← div_add_mod i w, ← div_add_mod j w, hd, hm]

theorem word_bit_div {b : Nat} (hk : k < w) : (w * b + k) / w = b := by
  have hw : 0 < w := by omega
  rw [mul_add_div hw, div_eq_of_lt hk, add_zero]

theorem word_bit_mod {b : Nat} (hk : k < w) : (w * b + k) % w = k := by
  rw [mul_add_mod, mod_eq_of_lt hk]

/-! ## 3. Words behind a pointer -/

/-- Bit `i` of the words behind a pointer. -/
def bitAt (p : Nat → BitVec w) (i : Nat) : Bool := (p (i / w)).getLsbD (i % w)

/-- An allocated word array, read through its pointer: the words past the end are whatever lies
    behind the array. -/
def view (ws : List (BitVec w)) (beyond : Nat → BitVec w) : Nat → BitVec w :=
  fun i => (ws[i]?).getD (beyond i)

theorem view_of_lt (beyond : Nat → BitVec w) (hi : i < ws.length) : view ws beyond i = ws[i] := by
  simp [view, hi]

/-! ## 4. Allocated word arrays -/

/-- Bit `i` of an allocated word array; past its end every bit reads as clear. -/
def bitIn (ws : List (BitVec w)) (i : Nat) : Bool := ((ws[i / w]?).getD 0#w).getLsbD (i % w)

theorem bitIn_of_lt (hi : i / w < ws.length) : bitIn ws i = (ws[i / w]).getLsbD (i % w) := by
  simp [bitIn, hi]

theorem bitIn_of_ge (hi : ws.length ≤ i / w) : bitIn ws i = false := by
  simp [bitIn, hi]

theorem bitAt_view (beyond : Nat → BitVec w) (hi : i / w < ws.length) :
    bitAt (view ws beyond) i = bitIn ws i := by
  rw [bitAt, view_of_lt beyond hi, bitIn_of_lt hi]

theorem bitIn_replicate_zero (n i : Nat) : bitIn (List.replicate n 0#w) i = false := by
  by_cases h : i / w < n
  · rw [bitIn_of_lt (by simpa using h)]
    simp
  · exact bitIn_of_ge (by simpa using h)

theorem bitIn_append_zero (ws : List (BitVec w)) (n i : Nat) :
    bitIn (ws ++ List.replicate n 0#w) i = bitIn ws i := by
  by_cases h : i / w < ws.length
  · simp [bitIn, List.getElem?_append_left h]
  have h' : ws.length ≤ i / w := not_lt.mp h
  rw [bitIn_of_ge h']
  simp only [bitIn, List.getElem?_append_right h', List.getElem?_replicate]
  split <;> simp

/-- Arrays of one length with the same bits are the same. -/
theorem words_ext {ws' : List (BitVec w)} (hlen : ws.length = ws'.length)
    (hbits : ∀ i, bitIn ws i = bitIn ws' i) : ws = ws' := by
  refine ext_getElem hlen fun n h h' => eq_of_getLsbD_eq fun k hk => ?_
  have hbit := hbits (w * n + k)
  simpa [bitIn, word_bit_div hk, word_bit_mod hk, h, h'] using hbit

/-- The store `p[i / w] |= 1 << (i % w)` on an allocated array. -/
def setBit (ws : List (BitVec w)) (i : Nat) : List (BitVec w) :=
  ws.modify (i / w) (fun x => x ||| (1#w <<< (i % w)))

/-- The store `p[i / w] &= ~(1 << (i % w))` on an allocated array. -/
def clearBit (ws : List (BitVec w)) (i : Nat) : List (BitVec w) :=
  ws.modify (i / w) (fun x => x &&& ~~~(1#w <<< (i % w)))

@[simp] theorem length_setBit (ws : List (BitVec w)) (i : Nat) :
    (setBit ws i).length = ws.length := by
  simp [setBit]

@[simp] theorem length_clearBit (ws : List (BitVec w)) (i : Nat) :
    (clearBit ws i).length = ws.length := by
  simp [clearBit]

theorem eq_iff_mod (hword : j / w = i / w) : j = i ↔ j % w = i % w := by
  rw [pos_eq_iff (w := w)]
  exact ⟨fun h => h.2, fun h => ⟨hword, h⟩⟩

/-- **Setting a bit inside the array sets that bit and no other.** -/
theorem bitIn_setBit (hw : 0 < w) (hi : i / w < ws.length) (j : Nat) :
    bitIn (setBit ws i) j = (decide (j = i) || bitIn ws j) := by
  by_cases hword : j / w = i / w
  · have hj : j / w < ws.length := hword ▸ hi
    have hmod := getLsbD_one_shiftLeft (mod_lt i hw) (j % w)
    rw [bitIn_of_lt hj, bitIn_of_lt (by simpa using hj)]
    simp only [setBit, getElem_modify, hword, if_true, getLsbD_or, hmod, eq_iff_mod hword]
    rw [Bool.or_comm]
  · have hne : j ≠ i := fun e => hword (by rw [e])
    have hget : (setBit ws i)[j / w]? = ws[j / w]? := by
      simp [setBit, Ne.symm hword]
    rw [bitIn, hget]
    simp [bitIn, hne]

/-- **Clearing a bit clears that bit and no other.** -/
theorem bitIn_clearBit (ws : List (BitVec w)) (i : Nat) (hw : 0 < w) (j : Nat) :
    bitIn (clearBit ws i) j = (!decide (j = i) && bitIn ws j) := by
  by_cases hword : j / w = i / w
  · have hmod := getLsbD_one_shiftLeft (mod_lt i hw) (j % w)
    by_cases hj : j / w < ws.length
    · rw [bitIn_of_lt hj, bitIn_of_lt (by simpa using hj)]
      simp only [clearBit, getElem_modify, hword, if_true, getLsbD_and,
        getLsbD_not, hmod, eq_iff_mod hword, mod_lt j hw, decide_true, Bool.true_and]
      rw [Bool.and_comm]
    · have hj' : ws.length ≤ j / w := Nat.le_of_not_lt hj
      rw [bitIn_of_ge hj', bitIn_of_ge (by simpa using hj'), Bool.and_false]
  · have hne : j ≠ i := fun e => hword (by rw [e])
    have hget : (clearBit ws i)[j / w]? = ws[j / w]? := by
      simp [clearBit, Ne.symm hword]
    rw [bitIn, hget]
    simp [bitIn, hne]

/-- **A word of the array is all ones exactly when its `w` bits are set.** -/
theorem allOnes_iff_bitIn {b : Nat} (hb : b < ws.length) :
    ws[b] = allOnes w ↔ ∀ k < w, bitIn ws (w * b + k) = true := by
  rw [eq_allOnes_iff]
  constructor <;> intro h k hk <;> have := h k hk
  · simpa [bitIn, word_bit_div hk, word_bit_mod hk, hb] using this
  · simpa [bitIn, word_bit_div hk, word_bit_mod hk, hb] using this

/-! ## 5. Fields of a word -/

section
variable {lo : Nat}

/-- The `k` bits of a word from position `lo` on. -/
def getField (lo k : Nat) (x : BitVec w) : BitVec k := x.extractLsb' lo k

/-- The word with the bits from position `lo` on replaced by `v`. -/
def setField (lo : Nat) {k : Nat} (v : BitVec k) (x : BitVec w) : BitVec w :=
  (x &&& ~~~((allOnes k).setWidth w <<< lo)) ||| (v.setWidth w <<< lo)

theorem getLsbD_getField (lo k : Nat) (x : BitVec w) (i : Nat) :
    (getField lo k x).getLsbD i = (decide (i < k) && x.getLsbD (lo + i)) := by
  simp [getField, getLsbD_extractLsb']

theorem getLsbD_setField {k : Nat} (v : BitVec k) (x : BitVec w) {i : Nat} (hi : i < w) :
    (setField lo v x).getLsbD i =
      if lo ≤ i ∧ i < lo + k then v.getLsbD (i - lo) else x.getLsbD i := by
  simp only [setField, getLsbD_or, getLsbD_and, getLsbD_not,
    getLsbD_shiftLeft, getLsbD_setWidth, getLsbD_allOnes, hi]
  by_cases hlo : i < lo
  · simp [hlo]
  by_cases hhi : i < lo + k
  · have hk : i - lo < k := by omega
    have hw : i - lo < w := by omega
    simp [hlo, hhi, hk, hw]
  · have hk : ¬ i - lo < k := by omega
    have hv : v.getLsbD (i - lo) = false := getLsbD_of_ge _ _ (by omega)
    simp [hlo, hhi, hk, hv]

theorem getField_set_same {k : Nat} (h : lo + k ≤ w) (v : BitVec k) (x : BitVec w) :
    getField lo k (setField lo v x) = v := by
  apply eq_of_getLsbD_eq
  intro i hi
  rw [getLsbD_getField, getLsbD_setField v x (by omega)]
  simp [hi]

theorem setField_of_getField {k : Nat} {v : BitVec k} {x : BitVec w} (h : getField lo k x = v) :
    setField lo v x = x := by
  apply eq_of_getLsbD_eq
  intro i hi
  rw [getLsbD_setField v x hi]
  split
  · rename_i hin
    rw [← h, getLsbD_getField, Nat.add_sub_cancel' hin.1]
    have hk : i - lo < k := by omega
    simp [hk]
  · rfl

/-- **The other fields stay.** -/
theorem getField_set_disjoint {k lo' k' : Nat} (h : lo' + k' ≤ w)
    (hd : lo' + k' ≤ lo ∨ lo + k ≤ lo') (v : BitVec k) (x : BitVec w) :
    getField lo' k' (setField lo v x) = getField lo' k' x := by
  apply eq_of_getLsbD_eq
  intro i hi
  rw [getLsbD_getField, getLsbD_getField, getLsbD_setField v x (by omega), if_neg (by omega)]

end

end ChCore.Lib
