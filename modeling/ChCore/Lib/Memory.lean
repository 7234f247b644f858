/-
  File: ChCore/Lib/Memory.lean
  Subject: A memory of bytes under 64-bit addresses.

  Addresses go around: the bytes from an address on are those at a small distance modulo `2 ^ 64`.

  * `span a n` -- the `n` bytes from `a` on; `mem_span_add` reads a span near a base as offsets;
  * `load64_store64`, `load64_write` -- a word that was stored, and one that is not touched.
-/
import Mathlib

namespace ChCore.Lib

open BitVec

abbrev Mem := BitVec 64 → BitVec 8

/-- The `n` bytes from `a` on. -/
def span (a : BitVec 64) (n : Nat) : Set (BitVec 64) := { x | (x - a).toNat < n }

variable {a p : BitVec 64} {n : Nat}

variable (m : Mem) {x : BitVec 64}

theorem mem_span : x ∈ span a n ↔ (x - a).toNat < n := Iff.rfl

/-- **A span near a base**, as offsets. -/
theorem mem_span_add {o : Nat} (h : o + n ≤ 2 ^ 64) :
    x ∈ span (p + BitVec.ofNat 64 o) n ↔ o ≤ (x - p).toNat ∧ (x - p).toNat < o + n := by
  have hd := (x - p).isLt
  rw [mem_span, sub_add_eq_sub_sub, toNat_sub, toNat_ofNat]
  omega

theorem disjoint_span_add {o o' n' : Nat} (h : o + n ≤ 2 ^ 64) (h' : o' + n' ≤ 2 ^ 64)
    (hoff : o + n ≤ o' ∨ o' + n' ≤ o) :
    Disjoint (span (p + BitVec.ofNat 64 o) n) (span (p + BitVec.ofNat 64 o') n') := by
  refine Set.disjoint_left.mpr fun x hx hx' => ?_
  rw [mem_span_add h] at hx
  rw [mem_span_add h'] at hx'
  omega

theorem span_add_mono {o o' n' : Nat} (ho : o' ≤ o) (h : o + n ≤ o' + n') (h' : o' + n' ≤ 2 ^ 64) :
    span (p + BitVec.ofNat 64 o) n ⊆ span (p + BitVec.ofNat 64 o') n' := by
  intro x hx
  rw [mem_span_add (le_trans h h')] at hx
  rw [mem_span_add h']
  omega

theorem span_add_subset {o m : Nat} (h : o + n ≤ m) (hm : m ≤ 2 ^ 64) :
    span (p + BitVec.ofNat 64 o) n ⊆ span p m := by
  intro x hx
  rw [mem_span_add (le_trans h hm)] at hx
  exact lt_of_lt_of_le hx.2 h

/-- A copy of `n` bytes to `a`. -/
def Mem.write (a : BitVec 64) (bytes : Nat → BitVec 8) (n : Nat) : Mem :=
  fun x => if (x - a).toNat < n then bytes (x - a).toNat else m x

theorem Mem.write_of_notMem {m : Mem} (bytes : Nat → BitVec 8) (h : x ∉ span a n) :
    m.write a bytes n x = m x := if_neg h

/-- The bytes of a word. -/
def wordBytes (v : BitVec 64) (i : Nat) : BitVec 8 := BitVec.ofNat 8 (v.toNat / 256 ^ i)

def Mem.store64 (a v : BitVec 64) : Mem := m.write a (wordBytes v) 8

def Mem.load64 (a : BitVec 64) : BitVec 64 :=
  BitVec.ofNat 64 ((m a).toNat + 256 * ((m (a + 1#64)).toNat + 256 * ((m (a + 2#64)).toNat +
    256 * ((m (a + 3#64)).toNat + 256 * ((m (a + 4#64)).toNat + 256 * ((m (a + 5#64)).toNat +
    256 * ((m (a + 6#64)).toNat + 256 * (m (a + 7#64)).toNat)))))))

theorem mem_span_ofNat {i : Nat} (hi : i < n) (hn : n ≤ 2 ^ 64) :
    a + BitVec.ofNat 64 i ∈ span a n := by
  have hsub : (a + BitVec.ofNat 64 i - a).toNat = i := by
    rw [add_sub_cancel_left, toNat_ofNat, Nat.mod_eq_of_lt (lt_of_lt_of_le hi hn)]
  rw [mem_span, hsub]
  exact hi

/-- **A word that is not touched.** -/
theorem load64_congr {m m' : Mem} (h : ∀ x ∈ span a 8, m' x = m x) : m'.load64 a = m.load64 a := by
  have hb : ∀ i : Nat, i < 8 → m' (a + BitVec.ofNat 64 i) = m (a + BitVec.ofNat 64 i) :=
    fun i hi => h _ (mem_span_ofNat hi (by decide))
  have h0 := hb 0 (by decide)
  rw [BitVec.add_zero] at h0
  unfold Mem.load64
  rw [h0, hb 1 (by decide), hb 2 (by decide), hb 3 (by decide), hb 4 (by decide),
    hb 5 (by decide), hb 6 (by decide), hb 7 (by decide)]

theorem load64_write {m : Mem} {b : BitVec 64} (bytes : Nat → BitVec 8)
    (h : Disjoint (span a 8) (span b n)) : (m.write b bytes n).load64 a = m.load64 a :=
  load64_congr fun _ hx => Mem.write_of_notMem bytes (Set.disjoint_left.mp h hx)

/-- **A word that was stored.** -/
theorem load64_store64 (a v : BitVec 64) : (m.store64 a v).load64 a = v := by
  have hb : ∀ i : Nat, i < 8 →
      (m.store64 a v (a + BitVec.ofNat 64 i)).toNat = v.toNat / 256 ^ i % 256 := by
    intro i hi
    have hsub : (a + BitVec.ofNat 64 i - a).toNat = i := by
      rw [add_sub_cancel_left, toNat_ofNat, Nat.mod_eq_of_lt (by omega)]
    have hbyte : m.store64 a v (a + BitVec.ofNat 64 i) = wordBytes v i := by
      rw [Mem.store64, Mem.write, hsub, if_pos hi]
    rw [hbyte, wordBytes, toNat_ofNat]
  have h0 := hb 0 (by decide)
  rw [BitVec.add_zero] at h0
  apply eq_of_toNat_eq
  rw [Mem.load64, h0, hb 1 (by decide), hb 2 (by decide), hb 3 (by decide), hb 4 (by decide),
    hb 5 (by decide), hb 6 (by decide), hb 7 (by decide), toNat_ofNat]
  omega

end ChCore.Lib
