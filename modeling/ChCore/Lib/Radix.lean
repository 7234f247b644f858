/-
  File: ChCore/Lib/Radix.lean
  Subject: Radix trees that live in a memory of tables.

  A memory is a map from tables and indices to entries. What an entry says depends on how many
  levels of tables lie below it (`kind n`): nothing, a value, or the table of the next level. A
  search follows a list of indices from a root; it ends at the first entry that is no table.

  * `walk` is the table a list of indices leads to, `lookup` the value a search finds;
  * `lookup_install`, `Tree.install` -- an empty table put into a hole changes no search.
-/
import Mathlib

namespace ChCore.Lib

open List

universe u v

/-- What an entry says. -/
inductive Kind (φ : Type u) where
  | hole
  | leaf
  | table (f : φ)

/-- The entries of all tables. -/
abbrev Tables (φ : Type u) (ε : Type v) := φ → Nat → ε

variable {φ : Type u} {ε : Type v}

section
variable [DecidableEq φ]

/-- One store. -/
def Tables.set (m : Tables φ ε) (f : φ) (i : Nat) (e : ε) : Tables φ ε :=
  fun g j => if g = f ∧ j = i then e else m g j

/-- All entries of one table set to the same value. -/
def Tables.fill (m : Tables φ ε) (f : φ) (e : ε) : Tables φ ε :=
  fun g j => if g = f then e else m g j

@[simp] theorem Tables.set_same (m : Tables φ ε) (f : φ) (i : Nat) (e : ε) : m.set f i e f i = e := by
  simp [Tables.set]

theorem Tables.set_of_ne (m : Tables φ ε) {f g : φ} {i j : Nat} (e : ε) (h : ¬ (g = f ∧ j = i)) :
    m.set f i e g j = m g j := if_neg h

@[simp] theorem Tables.fill_same (m : Tables φ ε) (f : φ) (e : ε) (j : Nat) : m.fill f e f j = e := by
  simp [Tables.fill]

theorem Tables.fill_of_ne (m : Tables φ ε) {f g : φ} (e : ε) (h : g ≠ f) (j : Nat) :
    m.fill f e g j = m g j := if_neg h

end

/-! ## 1. Searches -/

section
variable (kind : Nat → ε → Kind φ)

/-- **The table** that a list of indices leads to from `f`, which has `n` levels of tables below
    it. -/
def walk (m : Tables φ ε) : Nat → φ → List Nat → Option φ
  | _, f, [] => some f
  | 0, _, _ :: _ => none
  | n + 1, f, i :: p =>
    match kind (n + 1) (m f i) with
    | .table g => walk m n g p
    | _ => none

/-- **The value** a search finds, with the number of levels that lie below its entry. -/
def lookup (m : Tables φ ε) : Nat → φ → List Nat → Option (Nat × ε)
  | _, _, [] => none
  | 0, f, i :: _ =>
    match kind 0 (m f i) with
    | .leaf => some (0, m f i)
    | _ => none
  | n + 1, f, i :: p =>
    match kind (n + 1) (m f i) with
    | .leaf => some (n + 1, m f i)
    | .table g => lookup m n g p
    | .hole => none

/-- **A tree**: no table is reached on two ways. -/
def Tree (m : Tables φ ε) (n : Nat) (r : φ) : Prop :=
  ∀ p q f, walk kind m n r p = some f → walk kind m n r q = some f → p = q

end

variable {kind : Nat → ε → Kind φ} {m m' : Tables φ ε} {n : Nat} {r f g : φ} {p q : List Nat}
  {i : Nat} {e z : ε}

@[simp] theorem walk_nil : walk kind m n f [] = some f := by
  cases n <;> rfl

theorem walk_cons_table (h : kind (n + 1) (m f i) = .table g) (p : List Nat) :
    walk kind m (n + 1) f (i :: p) = walk kind m n g p := by
  simp only [walk, h]

theorem walk_cons_some (h : walk kind m n f (i :: p) = some g) :
    ∃ k f', n = k + 1 ∧ kind (k + 1) (m f i) = .table f' ∧ walk kind m k f' p = some g := by
  cases n with
  | zero => cases h
  | succ k =>
  unfold walk at h
  split at h
  · rename_i f' hk
    exact ⟨k, f', rfl, hk, h⟩
  · cases h

theorem walk_length (h : walk kind m n f p = some g) : p.length ≤ n := by
  induction p generalizing n f with
  | nil => exact Nat.zero_le n
  | cons i p ih =>
    obtain ⟨k, f', rfl, -, hw⟩ := walk_cons_some h
    exact Nat.succ_le_succ (ih hw)

theorem walk_append (h : walk kind m n f p = some g) (q : List Nat) :
    walk kind m n f (p ++ q) = walk kind m (n - p.length) g q := by
  induction p generalizing n f with
  | nil =>
    rw [walk_nil] at h
    cases h
    rfl
  | cons i p ih =>
    obtain ⟨k, f', rfl, hk, hw⟩ := walk_cons_some h
    rw [cons_append, walk_cons_table hk, ih hw, length_cons, Nat.add_sub_add_right]

theorem walk_append_none (h : walk kind m n f p = none) (q : List Nat) :
    walk kind m n f (p ++ q) = none := by
  induction p generalizing n f with
  | nil =>
    rw [walk_nil] at h
    cases h
  | cons i p ih =>
    cases n with
    | zero => rfl
    | succ n =>
    rw [cons_append]
    unfold walk at h ⊢
    split
    · rename_i g hk
      rw [hk] at h
      exact ih h
    · rfl

theorem lookup_cons_table (h : kind (n + 1) (m f i) = .table g) (p : List Nat) :
    lookup kind m (n + 1) f (i :: p) = lookup kind m n g p := by
  simp only [lookup, h]

theorem lookup_cons_hole (h : kind n (m f i) = .hole) (p : List Nat) :
    lookup kind m n f (i :: p) = none := by
  cases n <;> simp only [lookup, h]

theorem lookup_cons_leaf (h : kind n (m f i) = .leaf) (p : List Nat) :
    lookup kind m n f (i :: p) = some (n, m f i) := by
  cases n <;> simp only [lookup, h]

theorem lookup_append (h : walk kind m n f p = some g) (q : List Nat) :
    lookup kind m n f (p ++ q) = lookup kind m (n - p.length) g q := by
  induction p generalizing n f with
  | nil =>
    rw [walk_nil] at h
    cases h
    rfl
  | cons i p ih =>
    obtain ⟨k, f', rfl, hk, hw⟩ := walk_cons_some h
    rw [cons_append, lookup_cons_table hk, ih hw, length_cons, Nat.add_sub_add_right]

/-- Where the walk ends before its end and no leaf is on its way, nothing is found. -/
theorem lookup_of_walk_none (h : walk kind m n f p = none)
    (hleaf : ∀ q g i, walk kind m n f q = some g → q ++ [i] <+: p →
      kind (n - q.length) (m g i) ≠ .leaf) (q : List Nat) :
    lookup kind m n f (p ++ q) = none := by
  induction p generalizing n f with
  | nil =>
    rw [walk_nil] at h
    cases h
  | cons i p ih =>
    have hhere : kind n (m f i) ≠ .leaf := hleaf [] f i walk_nil ⟨p, rfl⟩
    rw [cons_append]
    cases hk : kind n (m f i) with
    | hole => exact lookup_cons_hole hk _
    | leaf => exact absurd hk hhere
    | table f' =>
    cases n with
    | zero => simp only [lookup, hk]
    | succ n =>
    rw [walk_cons_table hk] at h
    rw [lookup_cons_table hk]
    refine ih h fun q g j hw hpre => ?_
    have hrest := hleaf (i :: q) g j (by rw [walk_cons_table hk]; exact hw)
      (cons_prefix_cons.mpr ⟨rfl, hpre⟩)
    rwa [length_cons, Nat.add_sub_add_right] at hrest

theorem lookup_empty (hempty : ∀ k j, kind k (m g j) = .hole) (n : Nat) (q : List Nat) :
    lookup kind m n g q = none := by
  cases q with
  | nil => cases n <;> rfl
  | cons j q => exact lookup_cons_hole (hempty n j) q

theorem walk_empty (hempty : ∀ k j, kind k (m g j) = .hole) (n : Nat) {q : List Nat} (hq : q ≠ []) :
    walk kind m n g q = none := by
  cases q with
  | nil => exact absurd rfl hq
  | cons j q =>
    cases n with
    | zero => rfl
    | succ n => simp only [walk, hempty]

/-! ## 2. Keys and listings -/

/-- The `n` lowest digits of a key, the highest first. -/
def digits (b : Nat) : Nat → Nat → List Nat
  | 0, _ => []
  | n + 1, k => k / b ^ n % b :: digits b n k

@[simp] theorem length_digits (b n k : Nat) : (digits b n k).length = n := by
  induction n with
  | zero => rfl
  | succ n ih => rw [digits, length_cons, ih]

theorem digits_succ_eq (b n k : Nat) : digits b (n + 1) k = digits b n (k / b) ++ [k % b] := by
  induction n with
  | zero => simp [digits]
  | succ n ih =>
    rw [digits, ih, digits, Nat.div_div_eq_div_mul, ← pow_succ', cons_append]

section Listing

variable (kind : Nat → ε → Kind φ) (m : Tables φ ε) (b : Nat)

/-- The values of the last level below entry `i` of a table of the key `base`, with their keys. -/
def entriesAt : Nat → φ → Nat → Nat → List (Nat × ε)
  | 0, f, base, i =>
    match kind 0 (m f i) with
    | .leaf => [(base * b + i, m f i)]
    | _ => []
  | n + 1, f, base, i =>
    match kind (n + 1) (m f i) with
    | .table g => (List.range b).flatMap (entriesAt n g (base * b + i))
    | _ => []

/-- The values below a table, in the order of the indices. -/
def entries (n : Nat) (f : φ) (base : Nat) : List (Nat × ε) :=
  (List.range b).flatMap (entriesAt kind m b n f base)

end Listing

section Keys

variable {b base k : Nat} {e : ε}

theorem block_digit {k c : Nat} (hi : i < b) (h : k / c = base * b + i) :
    k / c % b = i ∧ k / c / b = base := by
  rw [h, mul_comm, Nat.mul_add_mod, Nat.mod_eq_of_lt hi, Nat.mul_add_div (by omega),
    Nat.div_eq_of_lt hi]
  exact ⟨rfl, add_zero _⟩

theorem entriesAt_table (h : kind (n + 1) (m f i) = .table g) :
    entriesAt kind m b (n + 1) f base i = entries kind m b n g (base * b + i) := by
  simp only [entriesAt, entries, h]

variable {x : Nat × ε}

theorem mem_entriesAt_succ : x ∈ entriesAt kind m b (n + 1) f base i ↔
    ∃ g, kind (n + 1) (m f i) = .table g ∧ x ∈ entries kind m b n g (base * b + i) := by
  cases h : kind (n + 1) (m f i) with
  | hole | leaf => simp [entriesAt, h]
  | table g => simp [entriesAt, entries, h]

theorem mem_entriesAt_zero : x ∈ entriesAt kind m b 0 f base i ↔
    kind 0 (m f i) = .leaf ∧ x = (base * b + i, m f i) := by
  cases h : kind 0 (m f i) with
  | hole | leaf | table g => simp [entriesAt, h]

theorem mem_entries_iff : x ∈ entries kind m b n f base ↔
    ∃ i < b, x ∈ entriesAt kind m b n f base i := by
  simp only [entries, mem_flatMap, mem_range]

/-- **A listing has the keys that a search finds.** -/
theorem mem_entries (hb : 0 < b) : (k, e) ∈ entries kind m b n f base ↔
    k / b ^ (n + 1) = base ∧ lookup kind m n f (digits b (n + 1) k) = some (0, e) := by
  induction n generalizing f base with
  | zero =>
    rw [mem_entries_iff, digits, pow_zero, Nat.div_one, pow_one]
    constructor
    · rintro ⟨i, hi, hmem⟩
      obtain ⟨hleaf, hx⟩ := mem_entriesAt_zero.mp hmem
      cases hx
      obtain ⟨hmod, hdiv⟩ := block_digit hi (Nat.div_one (base * b + i))
      rw [Nat.div_one] at hmod hdiv
      rw [hmod, lookup_cons_leaf hleaf]
      exact ⟨hdiv, rfl⟩
    rintro ⟨rfl, hl⟩
    refine ⟨k % b, Nat.mod_lt k hb, mem_entriesAt_zero.mpr ?_⟩
    rw [lookup] at hl
    split at hl
    · rename_i hleaf
      cases hl
      exact ⟨hleaf, by rw [Nat.div_add_mod']⟩
    · cases hl
  | succ n ih =>
    rw [mem_entries_iff, digits]
    constructor
    · rintro ⟨i, hi, hmem⟩
      obtain ⟨g, hg, hmem⟩ := mem_entriesAt_succ.mp hmem
      obtain ⟨hk, hl⟩ := ih.mp hmem
      obtain ⟨hmod, hdiv⟩ := block_digit hi hk
      rw [hmod, lookup_cons_table hg, pow_succ, ← Nat.div_div_eq_div_mul]
      exact ⟨hdiv, hl⟩
    rintro ⟨hk, hl⟩
    refine ⟨k / b ^ (n + 1) % b, Nat.mod_lt _ hb, mem_entriesAt_succ.mpr ?_⟩
    rw [lookup] at hl
    split at hl
    · cases hl
    · rename_i g hg
      refine ⟨g, hg, ih.mpr ⟨?_, hl⟩⟩
      rw [← hk, pow_succ b (n + 1), ← Nat.div_div_eq_div_mul, Nat.div_add_mod']
    · cases hl

theorem entriesAt_block (hb : 0 < b) (hx : x ∈ entriesAt kind m b n f base i) :
    x.1 / b ^ n = base * b + i := by
  cases n with
  | zero =>
    obtain ⟨-, rfl⟩ := mem_entriesAt_zero.mp hx
    exact Nat.div_one _
  | succ n =>
    obtain ⟨g, -, hmem⟩ := mem_entriesAt_succ.mp hx
    exact ((mem_entries hb).mp hmem).1

/-- **A listing is in the order of the keys.** -/
theorem entries_sorted (hb : 0 < b) (n : Nat) (f : φ) (base : Nat) :
    (entries kind m b n f base).Pairwise (fun x y => x.1 < y.1) := by
  induction n generalizing f base with
  | zero =>
    refine pairwise_flatMap.mpr ⟨fun i _ => ?_, ?_⟩
    · cases h : kind 0 (m f i) <;> simp [entriesAt, h]
    refine pairwise_lt_range.imp fun {i j} hij x hx y hy => ?_
    obtain ⟨-, rfl⟩ := mem_entriesAt_zero.mp hx
    obtain ⟨-, rfl⟩ := mem_entriesAt_zero.mp hy
    exact Nat.add_lt_add_left hij _
  | succ n ih =>
    refine pairwise_flatMap.mpr ⟨fun i _ => ?_, ?_⟩
    · cases h : kind (n + 1) (m f i) with
      | table g =>
        rw [entriesAt_table h]
        exact ih g _
      | hole | leaf => simp [entriesAt, h]
    · refine pairwise_lt_range.imp fun {i j} hij x hx y hy => ?_
      refine Nat.lt_of_div_lt_div (c := b ^ (n + 1)) ?_
      rw [entriesAt_block hb hx, entriesAt_block hb hy]
      exact Nat.add_lt_add_left hij _

/-- **The listing from a key on**: part of what lies below one entry, and all that comes after. -/
theorem entries_filter {d x : Nat} (hb : 0 < b) (hd : d < b) (hlo : (base * b + d) * b ^ n ≤ x)
    (hhi : x ≤ (base * b + d + 1) * b ^ n) :
    (entries kind m b n f base).filter (x ≤ ·.1) =
      (entriesAt kind m b n f base d).filter (x ≤ ·.1) ++
        (List.range' (d + 1) (b - (d + 1))).flatMap (entriesAt kind m b n f base) := by
  have hpow : 0 < b ^ n := Nat.pow_pos hb
  have hsplit : List.range b = List.range' 0 d ++ d :: List.range' (d + 1) (b - (d + 1)) := by
    have hcons : d :: List.range' (d + 1) (b - (d + 1)) = List.range' d (b - d) := by
      rw [← List.range'_succ]
      congr 1
      omega
    have happ := @List.range'_append 0 d (b - d) 1
    rw [one_mul, zero_add] at happ
    rw [hcons, happ, range_eq_range']
    congr 1
    omega
  have hbefore : ((List.range' 0 d).flatMap (entriesAt kind m b n f base)).filter (x ≤ ·.1) = [] := by
    refine filter_eq_nil_iff.mpr fun y hy => ?_
    obtain ⟨i, hi, hy⟩ := mem_flatMap.mp hy
    have hlt : i < d := by simpa using mem_range'_1.mp hi
    have hblock := entriesAt_block hb hy
    have hmul : (base * b + i + 1) * b ^ n ≤ (base * b + d) * b ^ n := Nat.mul_le_mul_right _ (by omega)
    have hkey : y.1 < (base * b + i + 1) * b ^ n := by
      rw [← Nat.div_lt_iff_lt_mul hpow, hblock]
      exact Nat.lt_succ_self _
    simp only [decide_eq_true_eq, not_le]
    omega
  have hafter : ((List.range' (d + 1) (b - (d + 1))).flatMap (entriesAt kind m b n f base)).filter
      (x ≤ ·.1) = (List.range' (d + 1) (b - (d + 1))).flatMap (entriesAt kind m b n f base) := by
    refine filter_eq_self.mpr fun y hy => ?_
    obtain ⟨i, hi, hy⟩ := mem_flatMap.mp hy
    have hlt : d + 1 ≤ i := (mem_range'_1.mp hi).1
    have hblock := entriesAt_block hb hy
    have hmul : (base * b + d + 1) * b ^ n ≤ (base * b + i) * b ^ n := Nat.mul_le_mul_right _ (by omega)
    have hkey : (base * b + i) * b ^ n ≤ y.1 := by
      rw [← Nat.le_div_iff_mul_le hpow, hblock]
    simp only [decide_eq_true_eq]
    omega
  rw [entries, hsplit, flatMap_append, flatMap_cons, filter_append, filter_append,
    hbefore, hafter, nil_append]

end Keys

/-! ## 3. Memories that agree where a search reads -/

/-- The two memories have the same entries wherever a search along `q` reads. -/
def AgreeOn (kind : Nat → ε → Kind φ) (m m' : Tables φ ε) (n : Nat) (r : φ) (q : List Nat) : Prop :=
  ∀ p i rest f, q = p ++ i :: rest → walk kind m n r p = some f → m' f i = m f i

theorem AgreeOn.head (h : AgreeOn kind m m' n r (i :: q)) : m' r i = m r i :=
  h [] i q r rfl walk_nil

theorem AgreeOn.tail (h : AgreeOn kind m m' (n + 1) r (i :: q))
    (hk : kind (n + 1) (m r i) = .table f) : AgreeOn kind m m' n f q := by
  rintro p j rest g rfl hw
  refine h (i :: p) j rest g rfl ?_
  rw [walk_cons_table hk]
  exact hw

theorem AgreeOn.lookup_eq (h : AgreeOn kind m m' n r q) :
    lookup kind m' n r q = lookup kind m n r q := by
  induction q generalizing n r with
  | nil => cases n <;> rfl
  | cons i q ih =>
    have hh := h.head
    cases n with
    | zero => simp only [lookup, hh]
    | succ n =>
    simp only [lookup, hh]
    split
    · rfl
    · rename_i g hk
      exact ih (h.tail hk)
    · rfl

theorem AgreeOn.walk_eq (h : AgreeOn kind m m' n r q) :
    walk kind m' n r q = walk kind m n r q := by
  induction q generalizing n r with
  | nil => cases n <;> rfl
  | cons i q ih =>
    have hh := h.head
    cases n with
    | zero => rfl
    | succ n =>
    simp only [walk, hh]
    split
    · rename_i g hk
      exact ih (h.tail hk)
    · rfl

variable [DecidableEq φ]

theorem agreeOn_fill (hg : ∀ p, walk kind m n r p ≠ some g) (z : ε) (q : List Nat) :
    AgreeOn kind m (m.fill g z) n r q := by
  rintro p i rest f - hw
  refine Tables.fill_of_ne m z (fun hfg => hg p ?_) i
  rw [hw, hfg]

/-! ## 4. One store -/

section

variable (ht : Tree kind m n r) (hp : walk kind m n r p = some f) (hq : ¬ p ++ [i] <+: q)

include ht hp hq

theorem Tree.agreeOn_set (e : ε) : AgreeOn kind m (m.set f i e) n r q := by
  rintro p' j rest g rfl hw
  refine Tables.set_of_ne m e ?_
  rintro ⟨rfl, rfl⟩
  refine hq ?_
  rw [ht p p' g hp hw]
  exact ⟨rest, by simp⟩

/-- **A store changes the searches through its entry only.** -/
theorem Tree.lookup_set_off (e : ε) : lookup kind (m.set f i e) n r q = lookup kind m n r q :=
  (ht.agreeOn_set hp hq e).lookup_eq

theorem Tree.walk_set_off (e : ε) : walk kind (m.set f i e) n r q = walk kind m n r q :=
  (ht.agreeOn_set hp hq e).walk_eq

end

theorem not_prefix_self (p : List Nat) (i : Nat) : ¬ p ++ [i] <+: p := by
  intro h
  have hlen := h.length_le
  rw [length_append] at hlen
  exact absurd hlen (Nat.not_succ_le_self _)

theorem Tree.walk_set_self (ht : Tree kind m n r) (hp : walk kind m n r p = some f) (i : Nat)
    (e : ε) : walk kind (m.set f i e) n r p = some f := by
  rw [ht.walk_set_off hp (not_prefix_self p i)]
  exact hp

section

variable (ht : Tree kind m n r) (hp : walk kind m n r p = some f) (hlen : p.length = n)

include ht hp hlen

/-- **The search that ends at the entry**, at the last level. -/
theorem Tree.lookup_set_last (i : Nat) (e : ε) :
    lookup kind (m.set f i e) n r (p ++ [i]) =
      match kind 0 e with
      | .leaf => some (0, e)
      | _ => none := by
  rw [lookup_append (ht.walk_set_self hp i e), hlen, Nat.sub_self]
  simp only [lookup, Tables.set_same]

theorem Tree.walk_set_last (i : Nat) (e : ε) (q : List Nat) :
    walk kind (m.set f i e) n r q = walk kind m n r q := by
  by_cases hq : p ++ [i] <+: q
  · -- both walks are longer than the tree is deep
    have hlong : ¬ q.length ≤ n := by
      have hle := hq.length_le
      rw [length_append, length_singleton] at hle
      omega
    rw [Option.eq_none_iff_forall_ne_some.mpr fun g hw => hlong (walk_length hw),
      Option.eq_none_iff_forall_ne_some.mpr fun g hw => hlong (walk_length hw)]
  · exact ht.walk_set_off hp hq e

theorem Tree.set_last (i : Nat) (e : ε) : Tree kind (m.set f i e) n r := by
  intro p' q' g hp' hq'
  rw [ht.walk_set_last hp hlen] at hp' hq'
  exact ht p' q' g hp' hq'

end

/-! ## 5. A new table -/

/-- The memory after the empty table `g` has been put into the entry `i` of `f`. -/
def Tables.install (m : Tables φ ε) (g : φ) (z : ε) (f : φ) (i : Nat) (e : ε) : Tables φ ε :=
  (m.fill g z).set f i e

section Install

variable (ht : Tree kind m n r) (hg : ∀ p, walk kind m n r p ≠ some g)
  (hz : ∀ k, kind k z = .hole) (hp : walk kind m n r p = some f)
  (hhole : kind (n - p.length) (m f i) = .hole) (hlt : p.length < n)
  (he : kind (n - p.length) e = .table g)

include hg in
theorem walk_fill (z : ε) (q : List Nat) : walk kind (m.fill g z) n r q = walk kind m n r q :=
  (agreeOn_fill hg z q).walk_eq

include hg in
include ht hg in
theorem Tree.fill (z : ε) : Tree kind (m.fill g z) n r := by
  intro p q f hp hq
  rw [walk_fill hg] at hp hq
  exact ht p q f hp hq

include hg hz hp in
theorem install_empty (k j : Nat) : kind k (m.install g z f i e g j) = .hole := by
  have hne : g ≠ f := fun h => hg p (h ▸ hp)
  unfold Tables.install
  rw [Tables.set_of_ne _ e (fun h => hne h.1), Tables.fill_same]
  exact hz k

include ht hg hp hlt he in
theorem Tree.walk_install_new : walk kind (m.install g z f i e) n r (p ++ [i]) = some g := by
  have hp' : walk kind (m.fill g z) n r p = some f := (walk_fill hg z p).trans hp
  unfold Tables.install
  rw [walk_append ((ht.fill hg z).walk_set_self hp' i e)]
  obtain ⟨k, hk⟩ : ∃ k, n - p.length = k + 1 := ⟨n - p.length - 1, by omega⟩
  rw [hk] at he ⊢
  rw [walk_cons_table (g := g) (by rw [Tables.set_same]; exact he)]
  cases k <;> rfl

include ht hg hz hp hhole hlt he in
/-- **Every other walk is as before.** -/
theorem Tree.walk_install {q : List Nat} (hq : q ≠ p ++ [i]) :
    walk kind (m.install g z f i e) n r q = walk kind m n r q := by
  have hp' : walk kind (m.fill g z) n r p = some f := (walk_fill hg z p).trans hp
  by_cases hpre : p ++ [i] <+: q
  · -- past the new table there is nothing, and before it there was a hole
    obtain ⟨rest, rfl⟩ := hpre
    have hrest : rest ≠ [] := fun h => hq (by rw [h, append_nil])
    rw [walk_append (ht.walk_install_new hg hp hlt he), walk_empty (install_empty hg hz hp) _ hrest]
    obtain ⟨k, hk⟩ : ∃ k, n - p.length = k + 1 := ⟨n - p.length - 1, by omega⟩
    have hnone : walk kind m n r (p ++ [i]) = none := by
      rw [walk_append hp, hk]
      rw [hk] at hhole
      simp only [walk, hhole]
    rw [walk_append_none hnone]
  · exact ((ht.fill hg z).walk_set_off hp' hpre e).trans (walk_fill hg z q)

include ht hg hz hp hhole hlt he in
/-- **An empty table put into a hole changes no search.** -/
theorem Tree.lookup_install (q : List Nat) :
    lookup kind (m.install g z f i e) n r q = lookup kind m n r q := by
  have hp' : walk kind (m.fill g z) n r p = some f := (walk_fill hg z p).trans hp
  by_cases hpre : p ++ [i] <+: q
  · obtain ⟨rest, rfl⟩ := hpre
    rw [lookup_append (ht.walk_install_new hg hp hlt he),
      lookup_empty (install_empty hg hz hp), append_assoc, lookup_append hp]
    exact (lookup_cons_hole hhole rest).symm
  · exact ((ht.fill hg z).lookup_set_off hp' hpre e).trans (agreeOn_fill hg z q).lookup_eq

include ht hg hz hp hhole hlt he in
/-- **The tree stays a tree.** -/
theorem Tree.install : Tree kind (m.install g z f i e) n r := by
  intro p1 p2 h hw1 hw2
  by_cases h1 : p1 = p ++ [i]
  · by_cases h2 : p2 = p ++ [i]
    · rw [h1, h2]
    · rw [h1, ht.walk_install_new hg hp hlt he] at hw1
      rw [ht.walk_install hg hz hp hhole hlt he h2, ← hw1] at hw2
      exact absurd hw2 (hg p2)
  rw [ht.walk_install hg hz hp hhole hlt he h1] at hw1
  by_cases h2 : p2 = p ++ [i]
  · rw [h2, ht.walk_install_new hg hp hlt he] at hw2
    rw [← hw2] at hw1
    exact absurd hw1 (hg p1)
  · rw [ht.walk_install hg hz hp hhole hlt he h2] at hw2
    exact ht p1 p2 h hw1 hw2

end Install

end ChCore.Lib
