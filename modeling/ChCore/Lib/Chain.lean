/-
  File: ChCore/Lib/Chain.lean
  Subject: Linked lists in memory: the cells reached from a pointer through a `next` field.

  * `Chain null next p l` -- from `p` the cells of `l` are reached in this order, then `null`;
  * `Chain.start_eq`, `Chain.next_eq` -- the list determines the pointer and the `next` fields.
-/
import Mathlib

namespace ChCore.Lib

open List

universe u

variable {α : Type u} {null : α} {next : α → α}

/-- **The list of cells** reached from a pointer, up to `null`. -/
def Chain (null : α) (next : α → α) : α → List α → Prop
  | p, [] => p = null
  | p, x :: xs => p = x ∧ x ≠ null ∧ Chain null next (next x) xs

variable {p : α} {l : List α} {next' : α → α}

section

variable (h : Chain null next p l)

include h

theorem Chain.eq_nil (hp : p = null) : l = [] := by
  cases l with
  | nil => rfl
  | cons x xs => exact absurd (h.1.symm.trans hp) h.2.1

theorem Chain.eq_cons (hp : p ≠ null) : ∃ xs, l = p :: xs ∧ Chain null next (next p) xs := by
  cases l with
  | nil => exact absurd h hp
  | cons x xs =>
    obtain ⟨rfl, _, h⟩ := h
    exact ⟨xs, rfl, h⟩

theorem Chain.ne_null {x : α} (hx : x ∈ l) : x ≠ null := by
  induction l generalizing p with
  | nil => cases hx
  | cons y ys ih =>
    rcases mem_cons.mp hx with rfl | hx
    · exact h.2.1
    · exact ih h.2.2 hx

/-- **Only the cells of the list matter.** -/
theorem Chain.congr (hnext : ∀ x ∈ l, next' x = next x) : Chain null next' p l := by
  induction l generalizing p with
  | nil => exact h
  | cons x xs ih =>
    refine ⟨h.1, h.2.1, ?_⟩
    rw [hnext x mem_cons_self]
    exact ih h.2.2 fun y hy => hnext y (mem_cons_of_mem x hy)

/-- **The pointer determines the list.** -/
theorem Chain.unique {l' : List α} (h' : Chain null next p l') : l = l' := by
  induction l generalizing p l' with
  | nil => exact (h'.eq_nil h).symm
  | cons x xs ih =>
    obtain ⟨rfl, hne, h⟩ := h
    obtain ⟨ys, rfl, hys⟩ := h'.eq_cons hne
    rw [ih h hys]

/-- A cell of the list is the start of the rest of it. -/
theorem Chain.suffix {x : α} (hx : x ∈ l) : ∃ xs, Chain null next x (x :: xs) ∧ x :: xs <:+ l := by
  induction l generalizing p with
  | nil => cases hx
  | cons y ys ih =>
    rcases mem_cons.mp hx with rfl | hx
    · exact ⟨ys, ⟨rfl, h.2⟩, suffix_refl _⟩
    · obtain ⟨xs, hc, hsuf⟩ := ih h.2.2 hx
      exact ⟨xs, hc, hsuf.trans (suffix_cons y ys)⟩

/-- **No cell comes twice**: the list behind it would be longer than itself. -/
theorem Chain.nodup : l.Nodup := by
  induction l generalizing p with
  | nil => exact nodup_nil
  | cons x xs ih =>
    refine nodup_cons.mpr ⟨fun hx => ?_, ih h.2.2⟩
    obtain ⟨ys, hc, hsuf⟩ := h.2.2.suffix hx
    have heq : x :: ys = x :: xs := hc.unique ⟨rfl, h.2⟩
    have hle := hsuf.length_le
    rw [heq] at hle
    exact Nat.not_succ_le_self _ hle

theorem Chain.start_eq {p' : α} (h' : Chain null next' p' l) : p = p' := by
  cases l with
  | nil => exact h.trans h'.symm
  | cons x xs => exact h.1.trans h'.1.symm

theorem Chain.next_eq {p' : α} (h' : Chain null next' p' l) : ∀ x ∈ l, next x = next' x := by
  induction l generalizing p p' with
  | nil => exact nofun
  | cons x xs ih =>
    exact forall_mem_cons.mpr ⟨h.2.2.start_eq h'.2.2, ih h.2.2 h'.2.2⟩

end

end ChCore.Lib
