/-
  File: ChCore/Musl/Radix.lean
  Subject: The radix tree of user programs (user/musl-1.1.24/include/chcore/container/radix.h), and
    `radix_scan` over it.

  The tree is the kernel's with 9 bits a level: eight levels, of which the first has one bit of a key.
  `radix_scan` reads the index at which a level starts with a mask that is an `int`, shifted by up to
  63 bits. What a shift by 32 or more gives is left open (`wide`); at level 4 the shift by 27 is
  sign-extended, and all bits from 27 on are seen.

  * **`radix_scan_iff`** -- the callback gets the values of the keys from the start on exactly
    when no key lies between the start and `effStart`, and no node is read before its first entry.
-/
import ChCore.Common.RadixRuns

namespace ChCore.Musl

open Lib Option List
open Common (Radix RadixSys radixGetLoop radixAddLoop radixKind radixKind_table radixKind_leaf
  radixKind_zero initRadix found FreshFor lookup_radix_iff)

/-! ## 1. The source -/

def RADIX_NODE_BITS : Nat := 9

def RADIX_NODE_SIZE : Nat := 512

def RADIX_NODE_MASK : Nat := 511

/-- `DIV_UP(RADIX_MAX_BITS, RADIX_NODE_BITS)` -/
def RADIX_LEVELS : Nat := 8

/-- The array `index`, from its last place to its first. -/
def radixIndex : Nat → Nat → List Nat
  | 0, _ => []
  | levels + 1, key => radixIndex levels (key >>> RADIX_NODE_BITS) ++ [key &&& RADIX_NODE_MASK]

variable (r : Radix)

def radixGet (key : Nat) : Nat :=
  if r.root = 0 then 0 else radixGetLoop r.nodes r.root (radixIndex RADIX_LEVELS key)

/-- `radix_add` from the root on. An existing value is overwritten. -/
def radixAddFrom (key value : Nat) (fresh : List Nat) : Radix × Int × List Nat :=
  let index := radixIndex RADIX_LEVELS key
  match radixAddLoop r.nodes r.root fresh index.dropLast with
  | (nodes, none, fresh) => ({ r with nodes := nodes }, -ENOMEM, fresh)
  | (nodes, some node, fresh) => ({ r with nodes := nodes.set node (index.getLastD 0) value }, 0, fresh)

def radixAdd (key value : Nat) (fresh : List Nat) : Radix × Int × List Nat :=
  if r.root = 0 then
    match fresh with
    | [] => (r, -ENOMEM, [])
    | new :: fresh => radixAddFrom ⟨new, r.nodes.fill new 0⟩ key value fresh
  else radixAddFrom r key value fresh

/-- The loop of `radix_del` over the intermediate levels. -/
def radixDelLoop (nodes : Tables Nat Nat) (node : Nat) : List Nat → Option Nat
  | [] => some node
  | k :: ks => if nodes node k = 0 then none else radixDelLoop nodes (nodes node k) ks

/-- `radix_del`; the deleter leaves the tree alone. -/
def radixDel (key : Nat) : Radix × Int :=
  if r.root = 0 then (r, -1)
  else
    let index := radixIndex RADIX_LEVELS key
    match radixDelLoop r.nodes r.root index.dropLast with
    | none => (r, -1)
    | some node => ({ r with nodes := r.nodes.set node (index.getLastD 0) 0 }, 0)

/-- `mask = RADIX_NODE_MASK << shift` of an `int`; a shift by 32 or more is undefined, and `wide` is
    what it gives. -/
def scanMask (wide : Nat → BitVec 64) (shift : Nat) : BitVec 64 :=
  if shift < 32 then (511#32 <<< shift).signExtend 64 else wide shift

/-- `start_i = (start & mask) >> shift` in a node with `n` levels below. -/
def startIndex (wide : Nat → BitVec 64) (n : Nat) (start : BitVec 64) : Int :=
  let shift := n * RADIX_NODE_BITS
  (((start &&& scanMask wide shift) >>> shift).setWidth 32).toInt

section Scan

variable {σ : Type} (wide : Nat → BitVec 64) (nodes : Tables Nat Nat) (cb : Nat → σ → Int × σ)

/-- The loop of `__radix_scan` over the values of a leaf. -/
def scanValues (node : Nat) : List Nat → σ → Int × σ
  | [], st => (0, st)
  | i :: is, st =>
    if nodes node i = 0 then scanValues node is st
    else if (cb (nodes node i) st).1 ≠ 0 then cb (nodes node i) st
    else scanValues node is (cb (nodes node i) st).2

/-- The loop of `__radix_scan` over the children of a node. -/
def scanChildren (scan : Nat → BitVec 64 → σ → Option (Int × σ)) (node : Nat) :
    List Nat → BitVec 64 → σ → Option (Int × σ)
  | [], _, st => some (0, st)
  | i :: is, start, st =>
    if nodes node i = 0 then scanChildren scan node is 0 st
    else (scan (nodes node i) start st).bind fun r =>
      if r.1 ≠ 0 then some r else scanChildren scan node is 0 r.2

/-- The indices of the loops of `__radix_scan`. -/
def indicesFrom (i : Nat) : List Nat := range' i (RADIX_NODE_SIZE - i)

/-- `__radix_scan` of a node with `n` levels below. `none`: the node is read before its first entry. -/
def scanNode : Nat → Nat → BitVec 64 → σ → Option (Int × σ)
  | 0, node, start, st =>
    if startIndex wide 0 start < 0 then none
    else some (scanValues nodes cb node (indicesFrom (startIndex wide 0 start).toNat) st)
  | n + 1, node, start, st =>
    if startIndex wide (n + 1) start < 0 then none
    else scanChildren nodes (scanNode n) node (indicesFrom (startIndex wide (n + 1) start).toNat)
      start st

/-- `radix_scan`: what it returns, and what has become of the data of the callback. -/
def radixScan (r : Radix) (start : BitVec 64) (cb : Nat → σ → Int × σ) (st : σ) : Option (Int × σ) :=
  if r.root = 0 then none else scanNode wide r.nodes cb (RADIX_LEVELS - 1) r.root start st

end Scan

inductive RadixAct where
  | add (key : BitVec 64) (value memory : Nat)
  | del (key : BitVec 64)

/-- One call; the allocator grants `memory` requests. -/
def radixStep (s : RadixSys) : RadixAct → Option RadixSys
  | .add key value memory =>
    let r := radixAdd s.radix key.toNat value (s.ready.take memory)
    some ⟨r.1, r.2.2 ++ s.ready.drop memory⟩
  | .del key => some ⟨(radixDel s.radix key.toNat).1, s.ready⟩

/-! ## 2. What is to hold -/

/-- The callback is called on the values of a list, until it returns something. -/
def callUntil {σ : Type} (cb : Nat → σ → Int × σ) : List Nat → σ → Int × σ
  | [], st => (0, st)
  | v :: vs, st => if (cb v st).1 ≠ 0 then cb v st else callUntil cb vs (cb v st).2

section

variable (wide : Nat → BitVec 64) (r : Radix) (start : BitVec 64)

/-- **A scan as it should be**: the values of the keys from the start on, in order, for any callback. -/
def ScanRight : Prop :=
  ∃ keys : List Nat, keys.Pairwise (· < ·) ∧
    (∀ k, k ∈ keys ↔ start.toNat ≤ k ∧ k < 2 ^ 64 ∧ radixGet r k ≠ 0) ∧
    ∀ (σ : Type) (cb : Nat → σ → Int × σ) (st : σ),
      radixScan wide r start cb st = some (callUntil cb (keys.map (radixGet r)) st)

/-- **Where a scan starts** in a node with `n` levels below: at the key whose digits are the indices of
    the levels, and behind the node where an index is past it. -/
def effStart : Nat → Nat
  | 0 => min (startIndex wide 0 start).toNat 512
  | n + 1 =>
    if (startIndex wide (n + 1) start).toNat < 512 then
      (startIndex wide (n + 1) start).toNat * 512 ^ (n + 1) + effStart n
    else 512 ^ (n + 2)

/-- The indices lead to a node that has a negative one. -/
def WildStart (nodes : Tables Nat Nat) : Nat → Nat → Prop
  | 0, _ => startIndex wide 0 start < 0
  | n + 1, node => startIndex wide (n + 1) start < 0 ∨
      (startIndex wide (n + 1) start).toNat < 512 ∧
        nodes node (startIndex wide (n + 1) start).toNat ≠ 0 ∧
          WildStart nodes n (nodes node (startIndex wide (n + 1) start).toNat)

/-- **The starts for which a scan is as it should be.** -/
def ScanClean : Prop :=
  ¬ WildStart wide start r.nodes (RADIX_LEVELS - 1) r.root ∧
    ∀ k, k < 2 ^ 64 → radixGet r k ≠ 0 →
      (effStart wide start (RADIX_LEVELS - 1) ≤ k ↔ start.toNat ≤ k)

end

/-! ## 3. The index a level starts at -/

variable {wide : Nat → BitVec 64}

theorem shift_pow (n : Nat) : 2 ^ (n * RADIX_NODE_BITS) = 512 ^ n := by
  rw [mul_comm, pow_mul]
  rfl

theorem bmod_small {x : Nat} (h : x < 2 ^ 31) : Int.bmod (x : Nat) (2 ^ 32) = x := by
  rw [Int.bmod_eq_of_le]
  · omega
  · omega

/-- The mask of a level, shifted back, has the lowest `k` bits. -/
theorem startIndex_eq {n k : Nat}
    (hm : scanMask wide (n * RADIX_NODE_BITS) >>> (n * RADIX_NODE_BITS) = BitVec.ofNat 64 (2 ^ k - 1))
    (hk : k ≤ 64) (start : BitVec 64) :
    startIndex wide n start = Int.bmod (start.toNat / 512 ^ n % 2 ^ k : Nat) (2 ^ 32) := by
  have hlt : 2 ^ k - 1 < 2 ^ 64 := by
    have := Nat.pow_le_pow_right (show 0 < 2 by decide) hk
    omega
  rw [startIndex, BitVec.ushiftRight_and_distrib, hm, BitVec.toInt_eq_toNat_bmod, BitVec.toNat_setWidth,
    BitVec.toNat_and, BitVec.toNat_ushiftRight, BitVec.toNat_ofNat, Nat.mod_eq_of_lt hlt,
    Nat.and_two_pow_sub_one_eq_mod, Nat.shiftRight_eq_div_pow, shift_pow]
  rw [Int.natCast_mod]
  exact Int.emod_bmod _ _

/-- **Below `2 ^ 36` every level sees its digit**: the bits that the undefined masks keep or drop are
    zero. -/
theorem startIndex_of_lt {n : Nat} (hn : n ≤ 7) {start : BitVec 64} (h : start.toNat < 2 ^ 36) :
    startIndex wide n start = (start.toNat / 512 ^ n % 512 : Nat) := by
  have hsmall : start.toNat / 512 ^ n % 512 < 2 ^ 31 := lt_of_lt_of_le (Nat.mod_lt _ (by decide)) (by decide)
  rcases (by omega : n ≤ 2 ∨ n = 3 ∨ 4 ≤ n) with hlow | rfl | hhigh
  · have hm : scanMask wide (n * RADIX_NODE_BITS) >>> (n * RADIX_NODE_BITS) =
        BitVec.ofNat 64 (2 ^ 9 - 1) := by
      rw [scanMask, if_pos (show n * RADIX_NODE_BITS < 32 by rw [RADIX_NODE_BITS]; omega)]
      interval_cases n
      · rfl
      · rfl
      · rfl
    rw [startIndex_eq hm (by decide)]
    exact bmod_small hsmall
  · have hm : scanMask wide 27 >>> 27 = BitVec.ofNat 64 (2 ^ 37 - 1) := by
      rw [scanMask, if_pos (by decide)]
      rfl
    rw [startIndex_eq hm (by decide), Nat.mod_eq_of_lt (by omega), Nat.mod_eq_of_lt (by omega)]
    exact bmod_small (by omega)
  · -- the digit is 0 under every mask
    have hle : 512 ^ 4 ≤ 512 ^ n := Nat.pow_le_pow_right (by decide) hhigh
    have hdigit : start.toNat / 512 ^ n = 0 := Nat.div_eq_of_lt (by omega)
    have hzero : start >>> (n * RADIX_NODE_BITS) = 0#64 := by
      rw [← BitVec.toNat_inj, BitVec.toNat_ushiftRight, Nat.shiftRight_eq_div_pow, shift_pow]
      exact hdigit
    rw [startIndex, BitVec.ushiftRight_and_distrib, hzero, BitVec.zero_and, hdigit]
    rfl

@[simp] theorem startIndex_zero (n : Nat) : startIndex wide n 0 = 0 := by
  simp [startIndex]

/-! ## 4. The lists of a scan -/

theorem callUntil_append {σ : Type} (cb : Nat → σ → Int × σ) (l l' : List Nat) (st : σ) :
    callUntil cb (l ++ l') st = if (callUntil cb l st).1 ≠ 0 then callUntil cb l st
      else callUntil cb l' (callUntil cb l st).2 := by
  induction l generalizing st with
  | nil => rfl
  | cons v l ih =>
    rw [cons_append, callUntil, callUntil]
    by_cases hv : (cb v st).1 ≠ 0
    · rw [if_pos hv, if_pos hv, if_pos hv]
    · rw [if_neg hv, if_neg hv]
      exact ih _

section Lists

variable {nodes : Tables Nat Nat} {n node base d x : Nat} {start : BitVec 64} {l : List Nat}

/-- **The scan of a node is a list of values**, whatever the callback. -/
def Scans (wide : Nat → BitVec 64) (nodes : Tables Nat Nat) (n node : Nat) (start : BitVec 64)
    (l : List Nat) : Prop :=
  ∀ (σ : Type) (cb : Nat → σ → Int × σ) (st : σ),
    scanNode wide nodes cb n node start st = some (callUntil cb l st)

variable {σ : Type}

theorem scanValues_eq (cb : Nat → σ → Int × σ) (node base : Nat) (is : List Nat) (st : σ) :
    scanValues nodes cb node is st =
      callUntil cb ((is.flatMap (entriesAt radixKind nodes 512 0 node base)).map Prod.snd) st := by
  induction is generalizing st with
  | nil => rfl
  | cons i is ih =>
    rw [scanValues, flatMap_cons, map_append, callUntil_append, ih]
    by_cases hi : nodes node i = 0
    · simp [entriesAt, hi, callUntil]
    have hone : (entriesAt radixKind nodes 512 0 node base i).map Prod.snd = [nodes node i] := by
      simp [entriesAt, radixKind_leaf hi]
    rw [if_neg hi, hone, callUntil, ih]
    by_cases hv : (cb (nodes node i) st).1 ≠ 0
    · rw [if_pos hv, if_pos hv, if_pos hv]
    · rw [if_neg hv, if_neg hv]
      rfl

theorem entriesAt_null (hd : nodes node d = 0) : entriesAt radixKind nodes 512 n node base d = [] := by
  cases n <;> simp [entriesAt, hd]

/-- The children after the first are scanned from 0. -/
theorem scanChildren_zero (cb : Nat → σ → Int × σ)
    (h : ∀ child base, Scans wide nodes n child 0 ((entries radixKind nodes 512 n child base).map Prod.snd))
    (node base : Nat) (is : List Nat) (st : σ) :
    scanChildren nodes (scanNode wide nodes cb n) node is 0 st =
      some (callUntil cb
        ((is.flatMap (entriesAt radixKind nodes 512 (n + 1) node base)).map Prod.snd) st) := by
  induction is generalizing st with
  | nil => rfl
  | cons i is ih =>
    rw [scanChildren, flatMap_cons, map_append, callUntil_append]
    by_cases hi : nodes node i = 0
    · rw [if_pos hi, ih, entriesAt_null hi]
      rfl
    rw [if_neg hi, entriesAt_table (radixKind_table hi), h _ (base * 512 + i), bind_some, ih]
    split
    · rfl
    · rfl

theorem indicesFrom_zero : indicesFrom 0 = range 512 := range_eq_range'.symm

theorem scans_zero (nodes : Tables Nat Nat) (n node base : Nat) :
    Scans wide nodes n node 0 ((entries radixKind nodes 512 n node base).map Prod.snd) := by
  induction n generalizing node base with
  | zero =>
    intro σ cb st
    rw [scanNode, startIndex_zero, if_neg (by decide), Int.toNat_zero, indicesFrom_zero,
      scanValues_eq cb node base, entries]
  | succ n ih =>
    intro σ cb st
    rw [scanNode, startIndex_zero, if_neg (by decide), Int.toNat_zero, indicesFrom_zero,
      scanChildren_zero cb ih node base, entries]

theorem indicesFrom_cons (hd : d < 512) : indicesFrom d = d :: range' (d + 1) (512 - (d + 1)) := by
  rw [← range'_succ]
  show range' d (512 - d) = _
  congr 1
  omega

theorem indicesFrom_ge (hd : 512 ≤ d) : indicesFrom d = [] := by
  show range' d (512 - d) = []
  rw [Nat.sub_eq_zero_of_le hd]
  rfl

theorem entries_past (hx : (base + 1) * 512 ^ (n + 1) ≤ x) :
    (entries radixKind nodes 512 n node base).filter (x ≤ ·.1) = [] := by
  refine filter_eq_nil_iff.mpr fun y hy => ?_
  have hblock := ((mem_entries (by decide)).mp hy).1
  have hpow : 0 < 512 ^ (n + 1) := Nat.pow_pos (by decide)
  simp only [decide_eq_true_eq, not_le]
  refine lt_of_lt_of_le ?_ hx
  rw [← Nat.div_lt_iff_lt_mul hpow, hblock]
  exact Nat.lt_succ_self base

/-- The values from a key on. -/
def valuesFrom (nodes : Tables Nat Nat) (n node base x : Nat) : List Nat :=
  ((entries radixKind nodes 512 n node base).filter (x ≤ ·.1)).map Prod.snd

theorem scans_leaf (hs : startIndex wide 0 start = d) (base : Nat) :
    Scans wide nodes 0 node start (valuesFrom nodes 0 node base (base * 512 + min d 512)) := by
  intro σ cb st
  rw [scanNode, hs, if_neg (by omega), Int.toNat_natCast, scanValues_eq cb node base, valuesFrom]
  by_cases hd : d < 512
  · have hall : (entriesAt radixKind nodes 512 0 node base d).filter (base * 512 + d ≤ ·.1) =
        entriesAt radixKind nodes 512 0 node base d := by
      refine filter_eq_self.mpr fun y hy => ?_
      obtain ⟨-, rfl⟩ := mem_entriesAt_zero.mp hy
      simp
    rw [min_eq_left hd.le, entries_filter (by decide) hd (by omega) (by omega), hall, indicesFrom_cons hd]
    rfl
  · rw [min_eq_right (not_lt.mp hd), indicesFrom_ge (not_lt.mp hd), entries_past (by omega)]
    rfl

/-- **A node from its index on**: the child of the index from the start on, and the others whole. -/
theorem scans_node (hs : startIndex wide (n + 1) start = d) (hd : d < 512)
    (hlo : (base * 512 + d) * 512 ^ (n + 1) ≤ x) (hhi : x ≤ (base * 512 + d + 1) * 512 ^ (n + 1))
    (hchild : nodes node d ≠ 0 →
      Scans wide nodes n (nodes node d) start (valuesFrom nodes n (nodes node d) (base * 512 + d) x)) :
    Scans wide nodes (n + 1) node start (valuesFrom nodes (n + 1) node base x) := by
  intro σ cb st
  rw [scanNode, hs, if_neg (by omega), Int.toNat_natCast, indicesFrom_cons hd, scanChildren, valuesFrom,
    entries_filter (by decide) hd hlo hhi, map_append, callUntil_append]
  by_cases hnull : nodes node d = 0
  · rw [if_pos hnull, entriesAt_null hnull, scanChildren_zero cb (scans_zero nodes n) node base]
    rfl
  rw [if_neg hnull, entriesAt_table (radixKind_table hnull), hchild hnull, bind_some,
    scanChildren_zero cb (scans_zero nodes n) node base]
  split
  · rename_i hne
    rw [valuesFrom] at hne ⊢
    rw [if_pos hne]
  · rename_i heq
    rw [valuesFrom] at heq ⊢
    rw [if_neg heq]

/-! ## 5. Where a scan starts -/

theorem effStart_le (n : Nat) : effStart wide start n ≤ 512 ^ (n + 1) := by
  induction n with
  | zero => exact min_le_right _ _
  | succ n ih =>
    unfold effStart
    split
    · rename_i hd
      calc (startIndex wide (n + 1) start).toNat * 512 ^ (n + 1) + effStart wide start n
        _ ≤ (startIndex wide (n + 1) start).toNat * 512 ^ (n + 1) + 512 ^ (n + 1) :=
          Nat.add_le_add_left ih _
        _ = ((startIndex wide (n + 1) start).toNat + 1) * 512 ^ (n + 1) := (Nat.succ_mul _ _).symm
        _ ≤ 512 * 512 ^ (n + 1) := Nat.mul_le_mul_right _ hd
        _ = 512 ^ (n + 2) := (pow_succ' ..).symm
    · exact le_rfl

/-- **The keys from `effStart` on**, if no node on the way has a negative index. -/
theorem scans_eff (hw : ¬ WildStart wide start nodes n node) (base : Nat) :
    Scans wide nodes n node start
      (valuesFrom nodes n node base (base * 512 ^ (n + 1) + effStart wide start n)) := by
  induction n generalizing node base with
  | zero =>
    obtain ⟨d, hd⟩ := Int.eq_ofNat_of_zero_le (not_lt.mp hw)
    have hleaf : Scans wide nodes 0 node start _ := scans_leaf hd base
    rwa [← Int.toNat_natCast d, ← hd] at hleaf
  | succ n ih =>
    obtain ⟨hneg, hbelow⟩ := not_or.mp hw
    obtain ⟨d, hs⟩ := Int.eq_ofNat_of_zero_le (not_lt.mp hneg)
    rw [hs, Int.toNat_natCast] at hbelow
    unfold effStart
    rw [hs, Int.toNat_natCast]
    split
    · rename_i hd
      have hx : base * 512 ^ (n + 2) + (d * 512 ^ (n + 1) + effStart wide start n) =
          (base * 512 + d) * 512 ^ (n + 1) + effStart wide start n := by
        ring
      rw [hx]
      refine scans_node hs hd (Nat.le_add_right _ _) ?_ fun hnull => ?_
      · rw [Nat.succ_mul]
        exact Nat.add_le_add_left (effStart_le n) _
      · exact ih (fun hwild => hbelow ⟨hd, hnull, hwild⟩) _
    · rename_i hd
      rw [← Nat.succ_mul, valuesFrom, entries_past le_rfl]
      intro σ cb st
      rw [scanNode, hs, if_neg (by omega), Int.toNat_natCast, indicesFrom_ge (not_lt.mp hd)]
      rfl

theorem scanNode_wild (hw : WildStart wide start nodes n node) (cb : Nat → σ → Int × σ)
    (st : σ) : scanNode wide nodes cb n node start st = none := by
  induction n generalizing node with
  | zero => exact if_pos hw
  | succ n ih =>
    rcases hw with hneg | ⟨hd, hnull, hw⟩
    · exact if_pos hneg
    · rw [scanNode, indicesFrom_cons hd, scanChildren, if_neg hnull, ih hw, bind_none, ite_self]

/-- The digits of a start up to one level. -/
theorem effStart_of_lt (h : start.toNat < 2 ^ 36) (hn : n ≤ 7) :
    effStart wide start n = start.toNat % 512 ^ (n + 1) ∧ ¬ WildStart wide start nodes n node := by
  induction n generalizing node with
  | zero =>
    have hs : startIndex wide _ start = _ := startIndex_of_lt hn h
    rw [pow_zero, Nat.div_one] at hs
    unfold effStart WildStart
    rw [hs, Int.toNat_natCast]
    exact ⟨min_eq_left (Nat.mod_lt _ (by decide)).le, by omega⟩
  | succ n ih =>
    have hs : startIndex wide _ start = _ := startIndex_of_lt hn h
    obtain ⟨heff, -⟩ : _ ∧ ¬ WildStart wide start nodes n node := ih (by omega)
    have hd : start.toNat / 512 ^ (n + 1) % 512 < 512 := Nat.mod_lt _ (by decide)
    unfold effStart WildStart
    rw [hs, Int.toNat_natCast, if_pos hd, heff]
    refine ⟨?_, ?_⟩
    · rw [pow_succ 512 (n + 1), Nat.mod_mul]
      ring
    · rintro (hneg | ⟨-, -, hw⟩)
      · omega
      · exact (ih (by omega)).2 hw

/-- **A start below `2 ^ 36` is a clean one** on every tree. -/
theorem scanClean_of_lt (r : Radix) (h : start.toNat < 2 ^ 36) : ScanClean wide r start := by
  obtain ⟨heff, hwild⟩ : _ ∧ ¬ WildStart wide start r.nodes 7 r.root := effStart_of_lt h (le_refl 7)
  refine ⟨hwild, fun k _ _ => ?_⟩
  rw [RADIX_LEVELS, heff, Nat.mod_eq_of_lt (by omega)]

end Lists

/-! ## 6. Trees that are built -/

theorem radixIndex_eq_digits (levels key : Nat) : radixIndex levels key = digits 512 levels key := by
  induction levels generalizing key with
  | zero => rfl
  | succ levels ih =>
    have hshift : key >>> RADIX_NODE_BITS = key / 512 := Nat.shiftRight_eq_div_pow key 9
    have hmask : key &&& RADIX_NODE_MASK = key % 512 := Nat.and_two_pow_sub_one_eq_mod key 9
    rw [radixIndex, ih, hshift, hmask, digits_succ_eq]

/-- The path to the leaf of a key: seven digits, the first of which is a bit. -/
theorem path_eq (key : BitVec 64) : ∃ top rest,
    (radixIndex RADIX_LEVELS key.toNat).dropLast = top :: rest ∧ top < 2 ∧
      (top :: rest).length = RADIX_LEVELS - 1 := by
  have hpath : (radixIndex RADIX_LEVELS key.toNat).dropLast = digits 512 7 (key.toNat / 512) := by
    rw [radixIndex_eq_digits, RADIX_LEVELS, digits_succ_eq, dropLast_concat]
  refine ⟨key.toNat / 512 / 512 ^ 6 % 512, digits 512 6 (key.toNat / 512), hpath, by omega, ?_⟩
  rfl

/-- **The invariant of a tree**: no node is reached on two ways, the allocator has unused memory, and
    the first level has no third child. -/
structure RadixInv (s : RadixSys) : Prop where
  root : s.radix.root ≠ 0
  tree : Tree radixKind s.radix.nodes (RADIX_LEVELS - 1) s.radix.root
  fresh : FreshFor s.radix.nodes (RADIX_LEVELS - 1) s.radix.root s.ready
  top : ∀ i, 2 ≤ i → s.radix.nodes s.radix.root i = 0

section Built

variable {s s' : RadixSys}

variable {nodes : Tables Nat Nat}

/-- A store at the end of a path keeps the invariant: the leaf is not the root. -/
theorem radixInv_set {root leaf : Nat} {ready path : List Nat}
    (h : RadixInv ⟨⟨root, nodes⟩, ready⟩) (hlen : path.length = RADIX_LEVELS - 1)
    (hw : walk radixKind nodes (RADIX_LEVELS - 1) root path = some leaf) (i value : Nat) :
    RadixInv ⟨⟨root, nodes.set leaf i value⟩, ready⟩ := by
  refine ⟨h.root, h.tree.set_last hw hlen i value, ?_, fun j hj => ?_⟩
  · refine ⟨h.fresh.nodup, h.fresh.notNull, fun g hg q hq => h.fresh.unused g hg q ?_⟩
    rw [← hq]
    exact (h.tree.walk_set_last hw hlen i value q).symm
  · refine (Tables.set_of_ne nodes value fun e => ?_).trans (h.top j hj)
    have hnil := h.tree path [] root (hw.trans (congrArg some e.1.symm)) walk_nil
    rw [hnil] at hlen
    cases hlen

theorem root_null_iff {root i : Nat} :
    nodes root i = 0 ↔ walk radixKind nodes (RADIX_LEVELS - 1) root [i] = none := by
  show _ ↔ walk radixKind nodes (6 + 1) root [i] = none
  by_cases hi : nodes root i = 0
  · simp [walk, hi]
  · rw [walk_cons_table (radixKind_table hi)]
    exact iff_of_false hi (Option.some_ne_none _)

theorem RadixInv.add (h : RadixInv s) (key : BitVec 64) (value memory : Nat) :
    RadixInv ⟨(radixAdd s.radix key.toNat value (s.ready.take memory)).1,
      (radixAdd s.radix key.toNat value (s.ready.take memory)).2.2 ++ s.ready.drop memory⟩ := by
  obtain ⟨top, rest, hpath, htop, hlen⟩ := path_eq key
  have hlen' : ([] : List Nat).length + (top :: rest).length = RADIX_LEVELS - 1 := by
    rw [length_nil, zero_add, hlen]
  obtain ⟨nodes, o, left, hs, ht, hf, hsuf, -, -, hoff, hold, ho⟩ :=
    Common.addLoop_spec h.tree (h.fresh.take memory) walk_nil hlen'
  have hinv : RadixInv ⟨⟨s.radix.root, nodes⟩, left ++ s.ready.drop memory⟩ := by
    refine ⟨h.root, ht, h.fresh.left hold hf hsuf, fun i hi => root_null_iff.mpr ?_⟩
    have hno : ¬ [i] <+: [] ++ top :: rest := by
      rw [nil_append, cons_prefix_cons]
      rintro ⟨rfl, -⟩
      omega
    rw [hoff [i] hno]
    exact root_null_iff.mp (h.top i hi)
  have hcall : radixAdd s.radix key.toNat value (s.ready.take memory) =
      radixAddFrom s.radix key.toNat value (s.ready.take memory) := if_neg h.root
  rw [hcall, radixAddFrom, hpath, hs]
  cases o with
  | none => exact hinv
  | some leaf => exact radixInv_set hinv hlen ho _ value

theorem radixDelLoop_eq {n node leaf : Nat} {ks : List Nat}
    (hlen : ks.length ≤ n) (h : radixDelLoop nodes node ks = some leaf) :
    walk radixKind nodes n node ks = some leaf := by
  induction ks generalizing n node with
  | nil =>
    rw [walk_nil]
    exact h
  | cons k ks ih =>
    obtain ⟨n, rfl⟩ := Nat.exists_eq_succ_of_ne_zero (by
      rw [length_cons] at hlen
      omega : n ≠ 0)
    obtain ⟨hk, h⟩ := ite_none_left_eq_some.mp h
    rw [walk_cons_table (radixKind_table hk)]
    exact ih (Nat.le_of_succ_le_succ hlen) h

theorem RadixInv.del (h : RadixInv s) (key : BitVec 64) :
    RadixInv ⟨(radixDel s.radix key.toNat).1, s.ready⟩ := by
  obtain ⟨top, rest, hpath, -, hlen⟩ := path_eq key
  rw [radixDel, if_neg h.root]
  simp only [hpath]
  cases hloop : radixDelLoop s.radix.nodes s.radix.root (top :: rest) with
  | none => exact h
  | some leaf =>
    have hw := radixDelLoop_eq (le_of_eq hlen) hloop
    exact radixInv_set h hlen hw _ 0

theorem radixStep_inv {a : RadixAct} (h : RadixInv s) (hs : radixStep s a = some s') :
    RadixInv s' := by
  cases a with
  | add key value memory =>
    cases hs
    exact h.add key value memory
  | del key =>
    cases hs
    exact h.del key

theorem radixInv_init (nodes : Tables Nat Nat) {new : Nat} {ready : List Nat}
    (hnodup : (new :: ready).Nodup) (hnull : 0 ∉ new :: ready) :
    RadixInv ⟨initRadix nodes new, ready⟩ := by
  have hne : new ≠ 0 := fun e => hnull (e ▸ mem_cons_self)
  exact ⟨hne, fun _ _ _ hp hq => (Common.initRadix_walk hp).1.trans (Common.initRadix_walk hq).1.symm,
    Common.initRadix_fresh nodes (RADIX_LEVELS - 1) hnodup hnull, fun i _ => Tables.fill_same ..⟩

end Built

/-! ## 7. The scan of a tree -/

section Whole

variable {s : RadixSys} {start : BitVec 64}

theorem RadixInv.get_eq (h : RadixInv s) (k : Nat) : radixGet s.radix k =
    found (lookup radixKind s.radix.nodes (RADIX_LEVELS - 1) s.radix.root (digits 512 RADIX_LEVELS k)) := by
  rw [radixGet, if_neg h.root, radixIndex_eq_digits]
  exact Common.radixGetLoop_eq (length_digits _ _ _)

/-- The keys and values of a tree from a key on. -/
def listFrom (s : RadixSys) (x : Nat) : List (Nat × Nat) :=
  (entries radixKind s.radix.nodes 512 (RADIX_LEVELS - 1) s.radix.root 0).filter (x ≤ ·.1)

/-- **The listing has the keys with a value.** -/
theorem RadixInv.mem_listFrom (h : RadixInv s) {x k e : Nat} :
    (k, e) ∈ listFrom s x ↔ x ≤ k ∧ k < 2 ^ 64 ∧ radixGet s.radix k = e ∧ e ≠ 0 := by
  have hmem : (k, e) ∈ listFrom s x ↔
      (k / 512 ^ 8 = 0 ∧ radixGet s.radix k = e ∧ e ≠ 0) ∧ x ≤ k := by
    rw [listFrom, mem_filter, Lib.mem_entries (by decide), h.get_eq, ← lookup_radix_iff,
      decide_eq_true_eq]
    rfl
  rw [hmem]
  refine ⟨fun ⟨hk, hx⟩ => ⟨hx, ?_, hk.2⟩, fun ⟨hx, hk⟩ => ⟨⟨by omega, hk.2⟩, hx⟩⟩
  -- a larger key has no child of the root
  by_contra hge
  have htop : s.radix.nodes s.radix.root (k / 512 ^ 7 % 512) = 0 := h.top _ (by omega)
  have hnone : radixGet s.radix k = 0 := by
    rw [h.get_eq, RADIX_LEVELS, digits, lookup_cons_hole (by rw [htop, radixKind_zero])]
    rfl
  exact hk.2.2 (hk.2.1.symm.trans hnone)

/-- **What a scan goes through**: the keys from `effStart` on. -/
theorem scans_from (hw : ¬ WildStart wide start s.radix.nodes (RADIX_LEVELS - 1) s.radix.root) :
    Scans wide s.radix.nodes (RADIX_LEVELS - 1) s.radix.root start
      (valuesFrom s.radix.nodes (RADIX_LEVELS - 1) s.radix.root 0
        (effStart wide start (RADIX_LEVELS - 1))) := by
  have heff := scans_eff hw 0
  rwa [Nat.zero_mul, Nat.zero_add] at heff

theorem callUntil_log (l st : List Nat) :
    callUntil (fun v st => ((0 : Int), st ++ [v])) l st = (0, st ++ l) := by
  induction l generalizing st with
  | nil => rw [callUntil, append_nil]
  | cons v l ih =>
    rw [callUntil, if_neg (fun h => h rfl), ih, append_assoc, singleton_append]

theorem radixScan_eq (h : RadixInv s) {l : List Nat}
    (hs : Scans wide s.radix.nodes (RADIX_LEVELS - 1) s.radix.root start l) {σ : Type}
    (cb : Nat → σ → Int × σ) (st : σ) :
    radixScan wide s.radix start cb st = some (callUntil cb l st) := by
  rw [radixScan, if_neg h.root]
  exact hs σ cb st

theorem RadixInv.mem_from (h : RadixInv s) {x k : Nat} :
    k ∈ (listFrom s x).map Prod.fst ↔ x ≤ k ∧ k < 2 ^ 64 ∧ radixGet s.radix k ≠ 0 := by
  rw [List.mem_map]
  constructor
  · rintro ⟨⟨k', e⟩, hmem, rfl⟩
    obtain ⟨hx, hk, hget, hne⟩ := h.mem_listFrom.mp hmem
    exact ⟨hx, hk, hget.symm ▸ hne⟩
  · rintro ⟨hx, hk, hne⟩
    exact ⟨(k, _), h.mem_listFrom.mpr ⟨hx, hk, rfl, hne⟩, rfl⟩

theorem sorted_from (s : RadixSys) (x : Nat) : ((listFrom s x).map Prod.fst).Pairwise (· < ·) :=
  pairwise_map.mpr ((entries_sorted (by decide) _ _ _).filter _)

theorem RadixInv.valuesFrom_eq (h : RadixInv s) (x : Nat) :
    valuesFrom s.radix.nodes (RADIX_LEVELS - 1) s.radix.root 0 x =
      ((listFrom s x).map Prod.fst).map (radixGet s.radix) := by
  rw [List.map_map]
  refine List.map_congr_left fun y hy => ?_
  exact (h.mem_listFrom.mp hy).2.2.1.symm

theorem scanRight_of_clean (h : RadixInv s) (hc : ScanClean wide s.radix start) :
    ScanRight wide s.radix start := by
  -- no key lies between
  have hsame : listFrom s (effStart wide start (RADIX_LEVELS - 1)) = listFrom s start.toNat := by
    refine filter_congr fun ⟨k, e⟩ hy => ?_
    obtain ⟨-, hk, hget, hne⟩ := h.mem_listFrom.mp (mem_filter.mpr ⟨hy, decide_eq_true (Nat.zero_le k)⟩)
    rw [decide_eq_decide]
    exact hc.2 k hk (hget.symm ▸ hne)
  refine ⟨_, sorted_from s start.toNat, fun k => h.mem_from, fun σ cb st => ?_⟩
  rw [radixScan_eq h (scans_from hc.1), h.valuesFrom_eq, hsame]

theorem listFrom_sublist {x y : Nat} (h : x ≤ y) : (listFrom s y).Sublist (listFrom s x) :=
  monotone_filter_right _ fun _ hy => decide_eq_true (le_trans h (of_decide_eq_true hy))

theorem clean_of_scanRight (h : RadixInv s) (hr : ScanRight wide s.radix start) :
    ScanClean wide s.radix start := by
  obtain ⟨keys, hsorted, hmem, hscan⟩ := hr
  have hwild : ¬ WildStart wide start s.radix.nodes (RADIX_LEVELS - 1) s.radix.root := by
    intro hw
    have hnone := hscan Unit (fun _ _ => (0, ())) ()
    rw [radixScan, if_neg h.root, scanNode_wild hw] at hnone
    cases hnone
  refine ⟨hwild, fun k hk hne => ?_⟩
  -- both scans write down the same values
  have hlog := hscan (List Nat) (fun v st => (0, st ++ [v])) []
  rw [radixScan_eq h (scans_from hwild), callUntil_log, callUntil_log, h.valuesFrom_eq] at hlog
  have hvalues := congrArg length (Prod.mk.inj (some.inj hlog)).2
  simp only [nil_append, length_map] at hvalues
  -- so that there are as many keys from `effStart` on as from the start on
  have hperm : keys.Perm ((listFrom s start.toNat).map Prod.fst) := by
    refine (perm_ext_iff_of_nodup hsorted.nodup (sorted_from s _).nodup).mpr fun k => ?_
    rw [hmem, h.mem_from]
  rw [hperm.length_eq, length_map] at hvalues
  have heq : listFrom s (effStart wide start (RADIX_LEVELS - 1)) = listFrom s start.toNat := by
    rcases le_total (effStart wide start (RADIX_LEVELS - 1)) start.toNat with hle | hle
    · exact ((listFrom_sublist hle).eq_of_length hvalues.symm).symm
    · exact (listFrom_sublist hle).eq_of_length hvalues
  have hfrom : ∀ x, k ∈ (listFrom s x).map Prod.fst ↔ x ≤ k := fun x =>
    h.mem_from.trans ⟨And.left, fun hx => ⟨hx, hk, hne⟩⟩
  rw [← hfrom, heq, hfrom]

end Whole

/-- **`radix_scan` is as it should be exactly when `ScanClean` holds**, on every tree that is built by
    additions and deletions, for every start and whatever the undefined shifts give. -/
theorem radix_scan_iff (nodes : Tables Nat Nat) (new : Nat) (ready : List Nat)
    (hnodup : (new :: ready).Nodup) (hnull : 0 ∉ new :: ready) (as : List RadixAct) (s : RadixSys)
    (hrun : exec radixStep ⟨initRadix nodes new, ready⟩ as = some s) (wide : Nat → BitVec 64)
    (start : BitVec 64) : ScanRight wide s.radix start ↔ ScanClean wide s.radix start := by
  have h : RadixInv s := exec_inv (fun _ _ _ hI hs => radixStep_inv hI hs) as _ _
    (radixInv_init nodes hnodup hnull) hrun
  exact ⟨clean_of_scanRight h, scanRight_of_clean h⟩

/-- Three keys, in a new tree. -/
def threeKeys : List RadixAct :=
  [.add 3 5 7, .add (BitVec.ofNat 64 (2 ^ 36)) 7 7, .add (BitVec.ofNat 64 (2 ^ 37)) 8 7]

theorem radix_scan_small : ∃ s,
    exec radixStep ⟨initRadix (fun _ _ => 0) 1, range' 2 20⟩ threeKeys = some s ∧
      radixGet s.radix (2 ^ 36) = 7 ∧ ∀ wide, ScanRight wide s.radix 4 := by
  obtain ⟨s, hs⟩ : ∃ s, exec radixStep ⟨initRadix (fun _ _ => 0) 1, range' 2 20⟩ threeKeys = some s :=
    ⟨_, rfl⟩
  have hget : (exec radixStep ⟨initRadix (fun _ _ => 0) 1, range' 2 20⟩ threeKeys).any (fun s =>
      radixGet s.radix (2 ^ 36) = 7) = true := by
    decide +kernel
  rw [hs] at hget
  refine ⟨s, hs, of_decide_eq_true hget, fun wide => ?_⟩
  exact (radix_scan_iff (fun _ _ => 0) 1 (range' 2 20) (by decide) (by decide) threeKeys s hs wide
    4).mpr (scanClean_of_lt _ (by decide))

/-- A level of the start `2 ^ 37`, under any mask. -/
theorem startIndex_twoPow (wide : Nat → BitVec 64) (n : Nat) :
    startIndex wide n (BitVec.twoPow 64 37) = 0 ∨
      startIndex wide n (BitVec.twoPow 64 37) =
        ((BitVec.twoPow 64 37 >>> (n * RADIX_NODE_BITS)).setWidth 32).toInt := by
  rw [startIndex, BitVec.and_comm, BitVec.and_twoPow]
  split
  · exact Or.inr rfl
  · refine Or.inl ?_
    rw [BitVec.zero_ushiftRight]
    rfl

theorem effStart_twoPow (wide : Nat → BitVec 64) :
    effStart wide (BitVec.twoPow 64 37) 7 = 2 ^ 36 ∨
      effStart wide (BitVec.twoPow 64 37) 7 = 3 * 2 ^ 36 := by
  have h3 : startIndex wide 3 (BitVec.twoPow 64 37) = 1024 := by
    rw [startIndex, scanMask, if_pos (by decide)]
    rfl
  have hup : ∀ n, startIndex wide (n + 5) (BitVec.twoPow 64 37) = 0 := by
    intro n
    refine (startIndex_twoPow wide (n + 5)).elim id fun h => h.trans ?_
    have hzero : BitVec.twoPow 64 37 >>> ((n + 5) * RADIX_NODE_BITS) = 0#64 := by
      rw [← BitVec.toNat_inj, BitVec.toNat_ushiftRight, Nat.shiftRight_eq_div_pow, shift_pow,
        BitVec.toNat_twoPow]
      refine Nat.div_eq_of_lt (lt_of_lt_of_le ?_ (Nat.pow_le_pow_right (by decide) (Nat.le_add_left 5 n)))
      decide
    rw [hzero]
    rfl
  have htop : effStart wide (BitVec.twoPow 64 37) 7 = effStart wide (BitVec.twoPow 64 37) 4 := by
    rw [effStart, hup 2, effStart, hup 1, effStart, hup 0]
    simp
  have hpast : effStart wide (BitVec.twoPow 64 37) 3 = 2 ^ 36 := by
    rw [effStart, h3]
    rfl
  rw [htop, effStart, hpast]
  rcases startIndex_twoPow wide 4 with h4 | h4
  · exact Or.inl (by rw [h4]; rfl)
  · exact Or.inr (by rw [h4]; rfl)

/-- **A scan that is wrong whatever the undefined shifts give**: from `2 ^ 37` on, the level of the bits
    from 27 on has index 1024, past its node. The level above it has index 0 or 2, so that the key
    `2 ^ 36`, before the start, is found, or the key `2 ^ 37` is not. -/
theorem radix_scan_before : ∃ s,
    exec radixStep ⟨initRadix (fun _ _ => 0) 1, range' 2 20⟩ threeKeys = some s ∧
      ∀ wide, ¬ ScanRight wide s.radix (BitVec.twoPow 64 37) := by
  obtain ⟨s, hs⟩ : ∃ s, exec radixStep ⟨initRadix (fun _ _ => 0) 1, range' 2 20⟩ threeKeys = some s :=
    ⟨_, rfl⟩
  have hget : (exec radixStep ⟨initRadix (fun _ _ => 0) 1, range' 2 20⟩ threeKeys).any (fun s =>
      radixGet s.radix (2 ^ 36) = 7 ∧ radixGet s.radix (2 ^ 37) = 8) = true := by
    decide +kernel
  rw [hs] at hget
  obtain ⟨hbefore, hfirst⟩ : radixGet s.radix (2 ^ 36) = 7 ∧ radixGet s.radix (2 ^ 37) = 8 :=
    of_decide_eq_true hget
  have h : RadixInv s := exec_inv (fun _ _ _ hI hs => radixStep_inv hI hs) threeKeys _ _
    (radixInv_init _ (by decide) (by decide)) hs
  refine ⟨s, hs, fun wide hr => ?_⟩
  have hc := (clean_of_scanRight h hr).2
  have h36 := hc (2 ^ 36) (by decide) (by rw [hbefore]; decide)
  have h37 := hc (2 ^ 37) (by decide) (by rw [hfirst]; decide)
  rw [BitVec.toNat_twoPow] at h36 h37
  rcases effStart_twoPow wide with heff | heff
  · exact absurd (h36.mp (by rw [RADIX_LEVELS, heff])) (by decide)
  · exact absurd (h37.mpr (by decide)) (by rw [RADIX_LEVELS, heff]; decide)

end ChCore.Musl
