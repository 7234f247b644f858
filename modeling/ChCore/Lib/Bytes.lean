/-
  File: ChCore/Lib/Bytes.lean
  Subject: Copying lists into and out of a memory.

  A memory is a function from places to values. `patch` is `memcpy` of a list into it, `slice` is
  `memcpy` out of it.

  * `patch_of_lt`, `patch_of_ge`, `patch_inside` -- what a copy changes and what not;
  * `getD_splice` -- overwriting a part of a list is a copy into it.
-/
import Mathlib

namespace ChCore.Lib

open Function List Nat

universe w

variable {α : Type w}

/-! ## 1. Copying in -/

/-- The memory with the list `l` copied to the places from `off` on. -/
def patch (f : Nat → α) (off : Nat) (l : List α) (i : Nat) : α :=
  if i < off then f i else l.getD (i - off) (f i)

variable {f g : Nat → α} {off i : Nat} {l : List α} {place : Nat → Nat}

theorem patch_of_lt (l : List α) (h : i < off) : patch f off l i = f i := if_pos h

theorem patch_of_ge (h : off + l.length ≤ i) : patch f off l i = f i := by
  unfold patch
  split
  · rfl
  · rw [getD_eq_default]
    omega

theorem patch_shift (f : Nat → α) (base off : Nat) (l : List α) (i : Nat) :
    patch f (base + off) l (base + i) = patch (fun j => f (base + j)) off l i := by
  simp only [patch, Nat.add_lt_add_iff_left, Nat.add_sub_add_left]

theorem patch_start (f : Nat → α) (base : Nat) (l : List α) (i : Nat) :
    patch f base l (base + i) = patch (fun j => f (base + j)) 0 l i :=
  patch_shift f base 0 l i

theorem patch_congr (h : f i = g i) (off : Nat) (l : List α) :
    patch f off l i = patch g off l i := by
  simp only [patch, h]

@[simp] theorem patch_nil (f : Nat → α) (off : Nat) : patch f off [] = f :=
  funext fun i => by simp [patch]

theorem patch_inside (h : off ≤ i) (hl : i < off + l.length) (d : α) :
    patch f off l i = l.getD (i - off) d := by
  have hlt : i - off < l.length := by omega
  rw [patch, if_neg (not_lt.mpr h), getD_eq_getElem _ _ hlt, getD_eq_getElem _ _ hlt]

theorem patch_append (f : Nat → α) (off : Nat) (l m : List α) :
    patch (patch f off l) (off + l.length) m = patch f off (l ++ m) := by
  funext i
  by_cases h1 : i < off
  · rw [patch_of_lt _ h1, patch_of_lt _ (by omega), patch_of_lt _ h1]
  by_cases h2 : i < off + l.length
  · rw [patch_of_lt _ h2, patch_inside (by omega) h2 (f i),
      patch_inside (by omega) (by rw [length_append]; omega) (f i),
      getD_append _ _ _ _ (by omega)]
  · have hoff : i - (off + l.length) = i - off - l.length := by omega
    rw [patch, if_neg h2, patch_of_ge (by omega), patch, if_neg h1,
      getD_append_right _ _ _ _ (by omega), hoff]

/-! ## 2. Copying out -/

/-- The `n` values from `off` on. -/
def slice (f : Nat → α) (off n : Nat) : List α := (List.range n).map fun k => f (off + k)

@[simp] theorem length_slice (f : Nat → α) (off n : Nat) : (slice f off n).length = n := by
  simp [slice]

@[simp] theorem slice_zero (f : Nat → α) (off : Nat) : slice f off 0 = [] := rfl

theorem slice_add (f : Nat → α) (off m n : Nat) :
    slice f off (m + n) = slice f off m ++ slice f (off + m) n := by
  simp [slice, range_add, add_assoc, Function.comp_def]

theorem slice_congr {n : Nat} (h : ∀ i, off ≤ i → i < off + n → f i = g i) :
    slice f off n = slice g off n := by
  refine map_congr_left fun k hk => h _ (Nat.le_add_right _ _) ?_
  exact Nat.add_lt_add_left (mem_range.mp hk) off

theorem slice_getD (l : List α) (d : α) (off n : Nat) (h : off + n ≤ l.length) :
    slice (fun i => l.getD i d) off n = (l.drop off).take n := by
  refine ext_getElem ?_ fun k h1 h2 => ?_
  · simp only [length_slice, length_take, length_drop]
    omega
  · rw [length_slice] at h1
    simp only [slice, getElem_map, getElem_range, getElem_take, getElem_drop]
    exact getD_eq_getElem _ _ (by omega)

theorem slice_patch (f : Nat → α) (l : List α) : slice (patch f 0 l) 0 l.length = l := by
  have hread := slice_getD l (f 0) 0 l.length (le_of_eq (zero_add _))
  rw [drop_zero, take_length] at hread
  refine (slice_congr fun i _ hi => ?_).trans hread
  exact patch_inside (zero_le i) hi (f 0)

/-! ## 3. Copying value by value -/

/-- The values `g 0`, ..., `g (n - 1)` are stored one after the other, `g i` at `place i`. -/
def scatter (f : Nat → α) (place : Nat → Nat) (g : Nat → α) : Nat → Nat → α
  | 0 => f
  | n + 1 => update (scatter f place g n) (place n) (g n)

theorem scatter_congr {f' : Nat → α} (h : f i = f' i) (place : Nat → Nat) (g : Nat → α) (n : Nat) :
    scatter f place g n i = scatter f' place g n i := by
  induction n with
  | zero => exact h
  | succ n ih =>
    by_cases hi : i = place n
    · simp only [scatter, hi, update_self]
    · simp only [scatter, update_of_ne hi, ih]

theorem scatter_of_ne {n : Nat} (h : ∀ k < n, place k ≠ i) : scatter f place g n i = f i := by
  induction n with
  | zero => rfl
  | succ n ih =>
    have hne : i ≠ place n := (h n (lt_succ_self n)).symm
    simp only [scatter, update_of_ne hne]
    exact ih fun k hk => h k (lt_succ_of_lt hk)

theorem scatter_place_congr {place' : Nat → Nat} {n : Nat} (h : ∀ k < n, place k = place' k) :
    scatter f place g n = scatter f place' g n := by
  induction n with
  | zero => rfl
  | succ n ih =>
    simp only [scatter, h n (lt_succ_self n), ih fun k hk => h k (lt_succ_of_lt hk)]

/-- **Values that go to places next to each other** are one copy. -/
theorem scatter_add {m n base : Nat} (h : ∀ k < n, place (m + k) = base + k) :
    scatter f place g (m + n) = patch (scatter f place g m) base (slice g m n) := by
  induction n with
  | zero => simp
  | succ n ih =>
    have hlast : place (m + n) = base + n := h n (lt_succ_self n)
    have hslice : slice g m (n + 1) = slice g m n ++ [g (m + n)] := by
      rw [slice_add]
      simp [slice]
    rw [hslice, ← patch_append, length_slice, ← ih fun k hk => h k (lt_succ_of_lt hk)]
    have hstep : scatter f place g (m + (n + 1)) =
        update (scatter f place g (m + n)) (base + n) (g (m + n)) := by
      rw [← hlast]
      rfl
    rw [hstep]
    funext i
    by_cases hi : i = base + n
    · subst hi
      rw [patch_inside le_rfl (by simp) (g (m + n))]
      simp
    · rw [update_of_ne hi]
      rcases Nat.lt_or_gt_of_ne hi with hlt | hgt
      · rw [patch_of_lt _ hlt]
      · rw [patch_of_ge (by simp only [length_singleton]; omega)]

/-- A copy to one place goes on with a copy value by value. -/
theorem scatter_extend (f : Nat → α) (place : Nat → Nat) (g : Nat → α) (m n base : Nat) :
    ∃ place' : Nat → Nat, (∀ i < m, place' i = place i) ∧ (∀ k < n, place' (m + k) = base + k) ∧
      scatter f place' g (m + n) = patch (scatter f place g m) base (slice g m n) := by
  have hold : ∀ i < m, (if i < m then place i else base + (i - m)) = place i :=
    fun i hi => if_pos hi
  have hnew : ∀ k < n, (if m + k < m then place (m + k) else base + (m + k - m)) = base + k := by
    intro k _
    rw [if_neg (by omega), Nat.add_sub_cancel_left]
  refine ⟨fun i => if i < m then place i else base + (i - m), hold, hnew, ?_⟩
  rw [scatter_add hnew, scatter_place_congr hold]

/-! ## 4. Overwriting a part of a list -/

/-- The list with `m` written at `off`; it grows if `m` reaches past its end. -/
def splice (l : List α) (off : Nat) (m : List α) : List α :=
  l.take off ++ m ++ l.drop (off + m.length)

theorem length_splice (m : List α) (h : off ≤ l.length) :
    (splice l off m).length = max l.length (off + m.length) := by
  simp only [splice, length_append, length_take, length_drop]
  omega

theorem getD_splice (m : List α) (d : α) (h : off ≤ l.length) (i : Nat) :
    (splice l off m).getD i d = patch (fun j => l.getD j d) off m i := by
  have htake : (l.take off).length = off := by rw [length_take]; omega
  unfold splice
  by_cases h1 : i < off
  · rw [patch_of_lt _ h1, append_assoc, getD_append _ _ _ _ (by omega)]
    simp [getD_eq_getElem?_getD, h1]
  by_cases h2 : i < off + m.length
  · rw [patch_inside (by omega) h2 d, getD_append _ _ _ _ (by rw [length_append]; omega),
      getD_append_right _ _ _ _ (by omega), htake]
  · have hidx : off + m.length + (i - (off + m.length)) = i := by omega
    rw [patch_of_ge (by omega), getD_append_right _ _ _ _ (by rw [length_append]; omega)]
    simp [getD_eq_getElem?_getD, length_append, htake, hidx]

end ChCore.Lib
