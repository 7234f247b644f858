/-
  File: ChCore/Common/RadixRuns.lean
  Subject: The kernel's radix tree over whole runs, and `radix_free` (`kernel/lib/radix.c`).

  * **`radix_map_run`** -- after any run the tree is the map, the next call answers as the map does,
    and `radix_free` has the values of the map, each key once.
-/
import ChCore.Common.Radix
import ChCore.Lib.Run

namespace ChCore.Common

open Lib Function List

/-! ## 1. The source -/

/-- `1 << RADIX_NODE_BITS` -/
def RADIX_NODE_SIZE : Nat := 16

/-- `radix_free_node` of a node with `n` levels below (`node_level` is `RADIX_LEVELS - 1 - n`). -/
def radixFreeNode (nodes : Tables Nat Nat) (deleter : Bool) : Nat → Nat → List Nat
  | 0, node =>
    if deleter then
      (List.range RADIX_NODE_SIZE).flatMap fun i =>
        if nodes node i ≠ 0 then [nodes node i] else []
    else []
  | n + 1, node =>
    (List.range RADIX_NODE_SIZE).flatMap fun i =>
      if nodes node i ≠ 0 then radixFreeNode nodes deleter n (nodes node i) else []

/-- `radix_free`: what it returns, and the calls of the deleter. -/
def radixFree (r : Radix) (deleter : Bool) : Int × List Nat :=
  if r.root = 0 then (-EINVAL, [])
  else (0, radixFreeNode r.nodes deleter (RADIX_LEVELS - 1) r.root)

/-- A tree, and the addresses that the allocator will hand out next. -/
structure RadixSys where
  radix : Radix
  ready : List Nat

/-- A call; `memory` is how many requests the allocator grants meanwhile. -/
inductive RadixCall where
  | add (key : BitVec 64) (value memory : Nat)
  | del (key : BitVec 64) (memory : Nat)
  | get (key : BitVec 64)

variable (nodes : Tables Nat Nat) {r : Radix} (s : RadixSys)

/-- `radix_add`, for a deletion with the value `NULL`. -/
def RadixSys.store (key : BitVec 64) (value memory : Nat) : Option (RadixSys × Int) := do
  let (r, ret, left) ← radixAdd s.radix key.toNat value (s.ready.take memory)
  some (⟨r, left ++ s.ready.drop memory⟩, ret)

/-- One call and what it returns. -/
def RadixSys.call : RadixCall → Option (RadixSys × Int)
  | .add key value memory => s.store key value memory
  | .del key memory => s.store key 0 memory
  | .get key => some (s, radixGet s.radix key.toNat)

/-! ## 2. The map -/

/-- A map from keys to values; 0 is `NULL`. -/
abbrev KeyMap := BitVec 64 → Nat

variable (m : KeyMap)

/-- The map after a call that returned `ret`. -/
def KeyMap.after (c : RadixCall) (ret : Int) : KeyMap :=
  match c with
  | .add key value _ => if ret = 0 then update m key value else m
  | .del key _ => if ret = 0 then update m key 0 else m
  | .get _ => m

/-- An addition is one of a value to a key without one. -/
def KeyMap.Proper : RadixCall → Prop
  | .add key value _ => value ≠ 0 ∧ m key = 0
  | _ => True

/-- **The answer of a call**: a read is a read of the map; an addition fails only without memory for a
    way to the leaf, and a deletion only where there is nothing to delete. -/
def Answers (ret : Int) : RadixCall → Prop
  | .add _ _ memory =>
    ret = 0 ∨ ret = -ENOMEM ∧ (s.ready.take memory).length < RADIX_LEVELS - 1
  | .del key memory => ret = 0 ∨
      ret = -ENOMEM ∧ (s.ready.take memory).length < RADIX_LEVELS - 1 ∧ m key = 0
  | .get key => ret = m key

/-- A tree and the map it is to be. -/
def radixStep (s : RadixSys × KeyMap) (c : RadixCall) : Option (RadixSys × KeyMap) := do
  let (sys, ret) ← s.1.call c
  some (sys, s.2.after c ret)

/-- `init_radix` in a memory. -/
def RadixSys.init (new : Nat) (ready : List Nat) : RadixSys × KeyMap :=
  (⟨initRadix nodes new, ready⟩, fun _ => 0)

/-! ## 3. `radix_free` -/

theorem radixIndex_eq_digits (levels key : Nat) : radixIndex levels key = digits 16 levels key := by
  induction levels generalizing key with
  | zero => rfl
  | succ levels ih =>
    have hshift : key >>> RADIX_NODE_BITS = key / 16 := Nat.shiftRight_eq_div_pow key 4
    have hmask : key &&& RADIX_NODE_MASK = key % 16 := Nat.and_two_pow_sub_one_eq_mod key 4
    rw [radixIndex, ih, hshift, hmask, digits_succ_eq]

theorem radixFreeNode_eq_entries (n node base : Nat) :
    radixFreeNode nodes true n node = (entries radixKind nodes 16 n node base).map Prod.snd := by
  induction n generalizing node base with
  | zero =>
    rw [entries, map_flatMap]
    refine flatMap_congr fun i _ => ?_
    by_cases hi : nodes node i = 0
    · simp [entriesAt, hi]
    · simp [entriesAt, hi, radixKind_leaf hi]
  | succ n ih =>
    rw [entries, map_flatMap]
    refine flatMap_congr fun i _ => ?_
    by_cases hi : nodes node i = 0
    · simp [entriesAt, hi]
    · rw [if_pos hi, entriesAt_table (radixKind_table hi)]
      exact ih _ _

/-- A search ends at a value of the last level. -/
theorem lookup_radix {nodes : Tables Nat Nat} {n node l e : Nat} {p : List Nat}
    (h : lookup radixKind nodes n node p = some (l, e)) : l = 0 ∧ e ≠ 0 := by
  induction n generalizing node p with
  | zero =>
    cases p with
    | nil => cases h
    | cons i p =>
    by_cases hi : nodes node i = 0
    · rw [lookup_cons_hole (by rw [hi, radixKind_zero])] at h
      cases h
    · rw [lookup_cons_leaf (radixKind_leaf hi)] at h
      cases h
      exact ⟨rfl, hi⟩
  | succ n ih =>
    cases p with
    | nil => cases h
    | cons i p =>
    by_cases hi : nodes node i = 0
    · rw [lookup_cons_hole (by rw [hi, radixKind_zero])] at h
      cases h
    · rw [lookup_cons_table (radixKind_table hi)] at h
      exact ih h

theorem lookup_radix_iff {nodes : Tables Nat Nat} {n node e : Nat} {p : List Nat} :
    lookup radixKind nodes n node p = some (0, e) ↔
      found (lookup radixKind nodes n node p) = e ∧ e ≠ 0 := by
  cases hl : lookup radixKind nodes n node p with
  | none =>
    refine ⟨nofun, fun ⟨h, hne⟩ => absurd h.symm hne⟩
  | some x =>
  obtain ⟨l, e'⟩ := x
  obtain ⟨rfl, hne⟩ := lookup_radix hl
  have hfound : found (some (0, e')) = e' := rfl
  rw [Option.some.injEq, Prod.mk.injEq]
  exact ⟨fun h => ⟨h.2, h.2 ▸ hne⟩, fun h => ⟨rfl, h.1⟩⟩

/-- **The keys of the listing** are those that have a value. -/
theorem mem_entries_radix (h : r.Inv) {k e : Nat} :
    (k, e) ∈ entries radixKind r.nodes 16 (RADIX_LEVELS - 1) r.root 0 ↔
      k < 2 ^ 64 ∧ radixGet r k = e ∧ e ≠ 0 := by
  have hblock : k / 16 ^ (RADIX_LEVELS - 1 + 1) = 0 ↔ k < 2 ^ 64 := by
    rw [Nat.div_eq_zero_iff_lt (by positivity)]
    rfl
  have hget := radixGet_eq_lookup h k
  rw [radixIndex_eq_digits] at hget
  rw [mem_entries (by decide), hblock, lookup_radix_iff, hget]
  rfl

/-- **`radix_free` calls the deleter on the value of every key that has one, once and in order.** -/
theorem radixFree_values (h : r.Inv) {m : KeyMap}
    (hm : ∀ key : BitVec 64, radixGet r key.toNat = m key) :
    ∃ keys : List (BitVec 64), keys.Pairwise (· < ·) ∧ (∀ key, key ∈ keys ↔ m key ≠ 0) ∧
      radixFree r true = (0, keys.map m) := by
  refine ⟨(entries radixKind r.nodes 16 (RADIX_LEVELS - 1) r.root 0).map fun x => BitVec.ofNat 64 x.1,
    ?_, fun key => ?_, ?_⟩
  · rw [pairwise_map]
    refine (entries_sorted (by decide) _ _ _).imp_of_mem fun {x y} hx hy hlt => ?_
    obtain ⟨hx64, -⟩ := (mem_entries_radix h).mp hx
    obtain ⟨hy64, -⟩ := (mem_entries_radix h).mp hy
    rw [BitVec.lt_def, BitVec.toNat_ofNat, BitVec.toNat_ofNat, Nat.mod_eq_of_lt hx64,
      Nat.mod_eq_of_lt hy64]
    exact hlt
  · rw [mem_map, ← hm key]
    constructor
    · rintro ⟨⟨k, e⟩, hmem, rfl⟩
      obtain ⟨hk, hget, hne⟩ := (mem_entries_radix h).mp hmem
      rw [BitVec.toNat_ofNat, Nat.mod_eq_of_lt hk, hget]
      exact hne
    · intro hne
      exact ⟨(key.toNat, _), (mem_entries_radix h).mpr ⟨key.isLt, rfl, hne⟩, BitVec.ofNat_toNat ..⟩
  rw [radixFree, if_neg h.root, radixFreeNode_eq_entries _ _ _ 0, map_map]
  congr 1
  refine map_congr_left fun x hx => ?_
  obtain ⟨k, e⟩ := x
  obtain ⟨hk, hget, -⟩ := (mem_entries_radix h).mp hx
  show e = m (BitVec.ofNat 64 k)
  rw [← hm, BitVec.toNat_ofNat, Nat.mod_eq_of_lt hk, hget]

/-! ## 4. One call -/

/-- The way to a key that has a value is there. -/
theorem addLoop_present {nodes : Tables Nat Nat} {node i : Nat} {ks : List Nat}
    (h : radixGetLoop nodes node (ks ++ [i]) ≠ 0) (fresh : List Nat) :
    ∃ leaf, radixAddLoop nodes node fresh ks = (nodes, some leaf, fresh) := by
  induction ks generalizing node with
  | nil => exact ⟨node, rfl⟩
  | cons k ks ih =>
    obtain ⟨k', rest, hrest⟩ : ∃ k' rest, ks ++ [i] = k' :: rest := by
      cases ks with
      | nil => exact ⟨i, [], rfl⟩
      | cons k' ks => exact ⟨k', ks ++ [i], rfl⟩
    rw [cons_append, hrest, radixGetLoop, ← hrest] at h
    · have hk : nodes node k ≠ 0 := fun e => h (if_pos e)
      rw [if_neg hk] at h
      unfold radixAddLoop
      rw [if_neg hk]
      exact ih h
    · exact cons_ne_nil _ _

/-- A deletion of a key that has a value needs no memory. -/
theorem radixDel_present {key : Nat} (h : r.Inv) (hget : radixGet r key ≠ 0)
    (fresh : List Nat) : ∃ r', radixAdd r key 0 fresh = some (r', 0, fresh) := by
  rw [radixGet, if_neg h.root, radixIndex_split] at hget
  obtain ⟨leaf, hloop⟩ := addLoop_present hget fresh
  have hcall : radixAdd r key 0 fresh = radixAddFrom r key 0 fresh := if_neg h.root
  rw [hcall]
  simp only [radixAddFrom, hloop]
  exact ⟨_, if_neg fun hbug => hbug.2 rfl⟩

/-- **The tree is the map**, and the allocator hands out unused memory. -/
structure RadixOk (s : RadixSys) (m : KeyMap) : Prop where
  inv : s.radix.Inv
  fresh : s.radix.Fresh s.ready
  get : ∀ key : BitVec 64, radixGet s.radix key.toNat = m key

section Call

variable {s s' : RadixSys} {m : KeyMap} {key : BitVec 64} {value memory : Nat} {ret : Int}

section

variable (h : RadixOk s m)

include h

theorem RadixOk.freshFor : FreshFor s.radix.nodes (RADIX_LEVELS - 1) s.radix.root s.ready :=
  ⟨h.fresh.nodup, h.fresh.notNull, h.fresh.unused⟩

theorem RadixOk.fresh_take (memory : Nat) : s.radix.Fresh (s.ready.take memory) :=
  have ht := h.freshFor.take memory
  { ht with }

theorem RadixOk.fresh_left {r : Radix} {left : List Nat}
    (ha : radixAdd s.radix key.toNat value (s.ready.take memory) = some (r, ret, left))
    (hleft : r.Fresh left) (hsuf : left <:+ s.ready.take memory) :
    r.Fresh (left ++ s.ready.drop memory) := by
  have hall := h.freshFor.left (fun q g hq => radixAdd_walk h.inv (h.fresh_take memory) ha hq)
    { hleft with } hsuf
  exact { hall with }

theorem RadixOk.store (hs : s.store key value memory = some (s', ret)) :
    (ret = 0 ∧ RadixOk s' (update m key value)) ∨
      (ret = -ENOMEM ∧ (s.ready.take memory).length < RADIX_LEVELS - 1 ∧ RadixOk s' m) := by
  obtain ⟨⟨r, ret', left⟩, ha, hs⟩ := Option.bind_eq_some_iff.mp hs
  cases hs
  have hspec : Added s.radix key.toNat value (s.ready.take memory)
    (radixAdd s.radix key.toNat value (s.ready.take memory)) :=
    radixAdd_spec h.inv (h.fresh_take memory) key.isLt
  rw [ha] at hspec
  cases hspec with
  | noMemory _ _ hinv hfresh hsuf hshort hsame =>
    exact .inr ⟨rfl, hshort, hinv, h.fresh_left ha hfresh hsuf, fun k => (hsame _).trans (h.get k)⟩
  | done _ _ hinv hfresh hsuf _ _ hval =>
  refine .inl ⟨rfl, hinv, h.fresh_left ha hfresh hsuf, fun k => ?_⟩
  rw [hval _ k.isLt, update_apply]
  by_cases hk : k = key
  · rw [if_pos hk, if_pos (by rw [hk])]
  · rw [if_neg hk, if_neg (fun e => hk (BitVec.eq_of_toNat_eq e))]
    exact h.get k

theorem RadixOk.store_total (hval : value = 0 ∨ m key = 0) (memory : Nat) :
    ∃ s' ret, s.store key value memory = some (s', ret) := by
  have hspec : Added s.radix key.toNat value (s.ready.take memory)
    (radixAdd s.radix key.toNat value (s.ready.take memory)) :=
    radixAdd_spec h.inv (h.fresh_take memory) key.isLt
  cases ha : radixAdd s.radix key.toNat value (s.ready.take memory) with
  | none =>
    rw [ha] at hspec
    cases hspec with
    | existing hget hne =>
      rw [h.get] at hget
      rcases hval with hval | hval
      · exact absurd hval hne
      · exact absurd hval hget
  | some x => exact ⟨_, _, by rw [RadixSys.store, ha]; rfl⟩

theorem RadixOk.step {c : RadixCall} {x : RadixSys × KeyMap} (hs : radixStep (s, m) c = some x) :
    RadixOk x.1 x.2 := by
  obtain ⟨⟨s', ret⟩, hcall, hs⟩ := Option.bind_eq_some_iff.mp hs
  cases hs
  cases c with
  | add key value memory | del key memory =>
    rcases h.store hcall with ⟨rfl, hok⟩ | ⟨rfl, -, hok⟩
    · exact hok
    · exact hok
  | get key =>
    cases hcall
    exact h

/-- **The next call** is served, and answers as the map does. -/
theorem RadixOk.answers {c : RadixCall} (hc : m.Proper c) :
    ∃ s' ret, s.call c = some (s', ret) ∧ Answers s m ret c := by
  cases c with
  | add key value memory =>
    obtain ⟨s', ret, hs⟩ := h.store_total (.inr hc.2) memory
    refine ⟨s', ret, hs, ?_⟩
    rcases h.store hs with ⟨hret, -⟩ | ⟨hret, hshort, -⟩
    · exact .inl hret
    · exact .inr ⟨hret, hshort⟩
  | del key memory =>
    obtain ⟨s', ret, hs⟩ : ∃ s' ret, s.store key 0 memory = some (s', ret) :=
      h.store_total (.inl rfl) memory
    refine ⟨s', ret, hs, ?_⟩
    rcases h.store hs with ⟨hret, -⟩ | ⟨hret, hshort, -⟩
    · exact .inl hret
    refine .inr ⟨hret, hshort, ?_⟩
    by_contra hne
    rw [← h.get] at hne
    obtain ⟨r', ha⟩ := radixDel_present h.inv hne (s.ready.take memory)
    rw [RadixSys.store, ha] at hs
    cases hs
    cases hret
  | get key => exact ⟨s, _, rfl, by rw [Answers, h.get]⟩

end

end Call

/-! ## 5. Runs -/

theorem radixOk_init {new : Nat} {ready : List Nat}
    (hnodup : (new :: ready).Nodup) (hnull : 0 ∉ new :: ready) :
    RadixOk (RadixSys.init nodes new ready).1 (RadixSys.init nodes new ready).2 := by
  have hne : new ≠ 0 := fun e => hnull (e ▸ mem_cons_self)
  obtain ⟨hinv, hget⟩ := initRadix_inv nodes hne
  have hfresh := initRadix_fresh nodes (RADIX_LEVELS - 1) hnodup hnull
  exact ⟨hinv, { hfresh with }, fun key => hget _⟩

/-- **A tree is a map.** After any run of calls every read is a read of the map, the next call is
    served and answers as the map does, and `radix_free` calls the deleter on the value of every key
    that has one, once. -/
theorem radix_map_run (new : Nat) (ready : List Nat)
    (hnodup : (new :: ready).Nodup) (hnull : 0 ∉ new :: ready) (cs : List RadixCall)
    (s : RadixSys) (m : KeyMap)
    (hrun : exec radixStep (RadixSys.init nodes new ready) cs = some (s, m)) :
    (∀ key : BitVec 64, radixGet s.radix key.toNat = m key) ∧
    (∀ c, m.Proper c → ∃ s' ret, s.call c = some (s', ret) ∧ Answers s m ret c) ∧
    ∃ keys : List (BitVec 64), keys.Pairwise (· < ·) ∧ (∀ key, key ∈ keys ↔ m key ≠ 0) ∧
      radixFree s.radix true = (0, keys.map m) := by
  have hok : RadixOk (s, m).1 (s, m).2 :=
    exec_inv (I := fun x => RadixOk x.1 x.2) (fun _ _ _ hI hs => hI.step hs) cs _ _
      (radixOk_init nodes hnodup hnull) hrun
  exact ⟨hok.get, fun c hc => hok.answers hc, radixFree_values hok.inv hok.get⟩

/-- Two keys at the ends, one of them deleted again. -/
def twoKeys : List RadixCall :=
  [.add 5 7 15, .add (BitVec.allOnes 64) 9 20, .del 5 0, .get 5]

theorem radix_map_two : ∃ s m,
    exec radixStep (RadixSys.init (fun _ _ => 0) 1 (List.range' 2 40)) twoKeys = some (s, m) ∧
      (∀ key : BitVec 64, radixGet s.radix key.toNat = m key) ∧ m 5 = 0 ∧
      m (BitVec.allOnes 64) = 9 := by
  have hend : (exec radixStep (RadixSys.init (fun _ _ => 0) 1 (List.range' 2 40)) twoKeys).any
      (fun x => x.2 5 = 0 ∧ x.2 (BitVec.allOnes 64) = 9) = true := by
    decide +kernel
  obtain ⟨⟨s, m⟩, hrun, hm⟩ := (Option.any_eq_true ..).mp hend
  exact ⟨s, m, hrun, (radix_map_run (fun _ _ => 0) 1 (List.range' 2 40) (by decide) (by decide) twoKeys
    s m hrun).1, of_decide_eq_true hm⟩

end ChCore.Common
