/-
  File: ChCore/Common/Radix.lean
  Subject: The radix tree of the kernel (`kernel/lib/radix.c`).

  A node is named by its address, its 16 entries are addresses too: of nodes above the last level,
  the stored values there; 0 is `NULL`. New nodes come from a list of addresses that the allocator
  has ready, `kzalloc` clears them.

  * **`radixAdd_spec`** -- the tree is a finite map: an addition changes its own key only, or stops
    the kernel where the key has a value, or finds no memory and changes nothing.
-/
import ChCore.Common.Errno
import ChCore.Lib.Radix

namespace ChCore.Common

open Lib List Nat

/-! ## 1. The source -/

def RADIX_NODE_BITS : Nat := 4

def RADIX_NODE_MASK : Nat := 15

/-- `DIV_ROUND_UP(RADIX_MAX_BITS, RADIX_NODE_BITS)`. -/
def RADIX_LEVELS : Nat := 16

/-- `struct radix`, with the nodes of the memory. -/
structure Radix where
  root : Nat
  nodes : Tables Nat Nat

/-- The array `index`, from the last level of the array to the first. -/
def radixIndex : Nat → Nat → List Nat
  | 0, _ => []
  | levels + 1, key => radixIndex levels (key >>> RADIX_NODE_BITS) ++ [key &&& RADIX_NODE_MASK]

/-- The loop of `radix_get`, and the read at the leaf level. -/
def radixGetLoop (nodes : Tables Nat Nat) (node : Nat) : List Nat → Nat
  | [] => 0
  | [k] => nodes node k
  | k :: ks => if nodes node k = 0 then 0 else radixGetLoop nodes (nodes node k) ks

def radixGet (r : Radix) (key : Nat) : Nat :=
  if r.root = 0 then 0 else radixGetLoop r.nodes r.root (radixIndex RADIX_LEVELS key)

/-- The loop of `radix_add` over the intermediate levels: the node it ends at, none without memory,
    and the addresses that are left. -/
def radixAddLoop (nodes : Tables Nat Nat) (node : Nat) (fresh : List Nat) :
    List Nat → Tables Nat Nat × Option Nat × List Nat
  | [] => (nodes, some node, fresh)
  | k :: ks =>
    if nodes node k = 0 then
      match fresh with
      | [] => (nodes, none, [])
      | new :: fresh => radixAddLoop (nodes.install new 0 node k new) new fresh ks
    else radixAddLoop nodes (nodes node k) fresh ks

/-- `radix_add` from the root on. `none`: an existing key stops the kernel. -/
def radixAddFrom (r : Radix) (key value : Nat) (fresh : List Nat) : Option (Radix × Int × List Nat) :=
  let index := radixIndex RADIX_LEVELS key
  match radixAddLoop r.nodes r.root fresh index.dropLast with
  | (nodes, none, fresh) => some ({ r with nodes := nodes }, -ENOMEM, fresh)
  | (nodes, some node, fresh) =>
    let k := index.getLastD 0
    if nodes node k ≠ 0 ∧ value ≠ 0 then none
    else some ({ r with nodes := nodes.set node k value }, 0, fresh)

def radixAdd (r : Radix) (key value : Nat) (fresh : List Nat) : Option (Radix × Int × List Nat) :=
  if r.root = 0 then
    match fresh with
    | [] => some (r, -ENOMEM, [])
    | new :: fresh => radixAddFrom ⟨new, r.nodes.fill new 0⟩ key value fresh
  else radixAddFrom r key value fresh

/-- `init_radix`, on memory the allocator has at `new`. -/
def initRadix (nodes : Tables Nat Nat) (new : Nat) : Radix := ⟨new, nodes.fill new 0⟩

/-! ## 2. The tree -/

/-- What an entry says, with `n` levels of nodes below its own. -/
def radixKind (n e : Nat) : Kind Nat := if e = 0 then .hole else if n = 0 then .leaf else .table e

@[simp] theorem radixKind_zero (n : Nat) : radixKind n 0 = .hole := if_pos rfl

theorem radixKind_leaf {e : Nat} (h : e ≠ 0) : radixKind 0 e = .leaf := by
  simp [radixKind, h]

variable {n : Nat} {nodes : Tables Nat Nat} {fresh : List Nat}

theorem radixKind_table {e : Nat} (h : e ≠ 0) : radixKind (n + 1) e = .table e := by
  simp [radixKind, h]

/-- **The invariant**: no node is reached on two ways. -/
structure Radix.Inv (r : Radix) : Prop where
  root : r.root ≠ 0
  tree : Tree radixKind r.nodes (RADIX_LEVELS - 1) r.root

/-- The addresses the allocator has ready are not those of nodes in use. -/
structure Radix.Fresh (r : Radix) (fresh : List Nat) : Prop where
  nodup : fresh.Nodup
  notNull : ∀ g ∈ fresh, g ≠ 0
  unused : ∀ g ∈ fresh, ∀ p, walk radixKind r.nodes (RADIX_LEVELS - 1) r.root p ≠ some g

/-- The same for a tree of any depth. -/
structure FreshFor (nodes : Tables Nat Nat) (n root : Nat) (fresh : List Nat) : Prop where
  nodup : fresh.Nodup
  notNull : ∀ g ∈ fresh, g ≠ 0
  unused : ∀ g ∈ fresh, ∀ p, walk radixKind nodes n root p ≠ some g

/-- What the allocator has left after a call that was granted some of the addresses. -/
theorem FreshFor.left {nodes nodes' : Tables Nat Nat} {n root root' memory : Nat}
    {ready left : List Nat} (h : FreshFor nodes n root ready)
    (hwalk : ∀ q g, walk radixKind nodes' n root' q = some g →
      g ∈ ready.take memory ∨ walk radixKind nodes n root q = some g)
    (hleft : FreshFor nodes' n root' left) (hsuf : left <:+ ready.take memory) :
    FreshFor nodes' n root' (left ++ ready.drop memory) := by
  have hsub : (left ++ ready.drop memory).Sublist ready := by
    have := hsuf.sublist.append_right (ready.drop memory)
    rwa [take_append_drop] at this
  refine ⟨h.nodup.sublist hsub, fun g hg => h.notNull g (hsub.subset hg), fun g hg q hq => ?_⟩
  rcases mem_append.mp hg with hg | hg
  · exact hleft.unused g hg q hq
  rcases hwalk q g hq with hm | hq
  · -- an address is handed out once
    have hdis := disjoint_of_nodup_append
      ((take_append_drop memory ready).symm ▸ h.nodup)
    exact hdis hm hg
  · exact h.unused g (mem_of_mem_drop hg) q hq

theorem FreshFor.take {root : Nat} {ready : List Nat} (h : FreshFor nodes n root ready)
    (memory : Nat) : FreshFor nodes n root (ready.take memory) :=
  ⟨h.nodup.sublist (take_sublist _ _), fun g hg => h.notNull g (mem_of_mem_take hg),
    fun g hg => h.unused g (mem_of_mem_take hg)⟩

/-! ## 3. Keys -/

@[simp] theorem length_radixIndex (levels key : Nat) : (radixIndex levels key).length = levels := by
  induction levels generalizing key with
  | zero => rfl
  | succ levels ih => simp [radixIndex, ih]

/-- **The indices determine the key.** -/
theorem radixIndex_inj {levels k k' : Nat} (hk : k < 16 ^ levels) (hk' : k' < 16 ^ levels)
    (h : radixIndex levels k = radixIndex levels k') : k = k' := by
  induction levels generalizing k k' with
  | zero =>
    omega
  | succ levels ih =>
    have hshift : ∀ x : Nat, x >>> RADIX_NODE_BITS = x / 16 := fun x => shiftRight_eq_div_pow x 4
    have hmask : ∀ x : Nat, x &&& RADIX_NODE_MASK = x % 16 := fun x => and_two_pow_sub_one_eq_mod x 4
    simp only [radixIndex, hshift, hmask] at h
    obtain ⟨hhigh, hlow⟩ := append_inj' h rfl
    have hdiv : k / 16 = k' / 16 := ih (by omega) (by omega) hhigh
    have hmod : k % 16 = k' % 16 := singleton_inj.mp hlow
    omega

theorem radixIndex_split (key : Nat) :
    radixIndex RADIX_LEVELS key = (radixIndex RADIX_LEVELS key).dropLast ++
      [(radixIndex RADIX_LEVELS key).getLastD 0] := by
  have hne : radixIndex RADIX_LEVELS key ≠ [] := fun h => by
    have hlen := length_radixIndex RADIX_LEVELS key
    rw [h] at hlen
    cases hlen
  rw [getLastD_eq_getLast?, List.getLast?_eq_some_getLast hne, Option.getD_some,
    dropLast_concat_getLast hne]

/-! ## 4. Reads -/

/-- The value of a search, 0 where there is none. -/
def found (o : Option (Nat × Nat)) : Nat := (o.map Prod.snd).getD 0

theorem radixGetLoop_eq {node : Nat} {p : List Nat} (h : p.length = n + 1) :
    radixGetLoop nodes node p = found (lookup radixKind nodes n node p) := by
  induction n generalizing node p with
  | zero =>
    obtain ⟨k, rfl⟩ := length_eq_one_iff.mp h
    by_cases hk : nodes node k = 0
    · rw [radixGetLoop, lookup_cons_hole (by rw [hk, radixKind_zero]), hk]
      rfl
    · rw [lookup_cons_leaf (radixKind_leaf hk)]
      rfl
  | succ n ih =>
    obtain ⟨k, k', p, rfl⟩ : ∃ k k' q, p = k :: k' :: q := by
      match p, h with
      | k :: k' :: q, _ => exact ⟨k, k', q, rfl⟩
    have hlen : (k' :: p).length = n + 1 := Nat.succ.inj h
    unfold radixGetLoop
    by_cases hk : nodes node k = 0
    · rw [if_pos hk, lookup_cons_hole (by rw [hk, radixKind_zero])]
      rfl
    · rw [if_neg hk, lookup_cons_table (radixKind_table hk), ih hlen]

/-- **A read is a search.** -/
theorem radixGet_eq_lookup {r : Radix} (h : r.Inv) (key : Nat) :
    radixGet r key =
      found (lookup radixKind r.nodes (RADIX_LEVELS - 1) r.root (radixIndex RADIX_LEVELS key)) := by
  rw [radixGet, if_neg h.root]
  exact radixGetLoop_eq (length_radixIndex _ _)

/-! ## 5. Additions -/

/-- **The way to a leaf**: the loop finds or makes the nodes, no search changes, no walk off the way
    changes, and the tree stays a tree. -/
theorem addLoop_spec {root : Nat} {ks p : List Nat} {node : Nat} (ht : Tree radixKind nodes n root)
    (hf : FreshFor nodes n root fresh) (hw : walk radixKind nodes n root p = some node)
    (hlen : p.length + ks.length = n) :
    ∃ nodes' o fresh', radixAddLoop nodes node fresh ks = (nodes', o, fresh') ∧
      Tree radixKind nodes' n root ∧ FreshFor nodes' n root fresh' ∧
      fresh' <:+ fresh ∧ fresh.length ≤ fresh'.length + ks.length ∧
      (∀ q, lookup radixKind nodes' n root q = lookup radixKind nodes n root q) ∧
      (∀ q, ¬ q <+: p ++ ks → walk radixKind nodes' n root q = walk radixKind nodes n root q) ∧
      (∀ q g, walk radixKind nodes' n root q = some g →
        g ∈ fresh ∨ walk radixKind nodes n root q = some g) ∧
      match o with
      | none => fresh.length < ks.length
      | some leaf => walk radixKind nodes' n root (p ++ ks) = some leaf := by
  induction ks generalizing p nodes node fresh with
  | nil =>
    refine ⟨nodes, some node, fresh, rfl, ht, hf, suffix_refl _, le_rfl, fun _ => rfl,
      fun _ _ => rfl, fun _ _ => .inr, ?_⟩
    rw [append_nil]
    exact hw
  | cons k ks ih =>
    rw [length_cons] at hlen
    have hlt : p.length < n := by omega
    obtain ⟨d, hn⟩ : ∃ d, n - p.length = d + 1 := ⟨n - 1 - p.length, by omega⟩
    have hlen' : (p ++ [k]).length + ks.length = n := by
      rw [length_append, length_singleton]
      omega
    have hpath : p ++ k :: ks = p ++ [k] ++ ks := by rw [append_assoc, singleton_append]
    rw [hpath]
    unfold radixAddLoop
    by_cases hk : nodes node k = 0
    · rw [if_pos hk]
      cases fresh with
      | nil =>
        exact ⟨nodes, none, [], rfl, ht, hf, suffix_refl _, zero_le _, fun _ => rfl,
          fun _ _ => rfl, fun _ _ => .inr, succ_pos _⟩
      | cons new fresh =>
      obtain ⟨hnew, hnodup⟩ := nodup_cons.mp hf.nodup
      have hg := hf.unused new mem_cons_self
      have hne := hf.notNull new mem_cons_self
      have hhole : radixKind (n - p.length) (nodes node k) = .hole := by
        rw [hk, radixKind_zero]
      have htable : radixKind (n - p.length) new = .table new := by
        rw [hn, radixKind_table hne]
      have hz : ∀ n, radixKind n 0 = .hole := radixKind_zero
      have hwalk := ht.walk_install_new (z := 0) (i := k) hg hw hlt htable
      -- the other addresses are still unused
      have hfresh : FreshFor (nodes.install new 0 node k new) n root fresh := by
        refine ⟨hnodup, fun g hm => hf.notNull g (mem_cons_of_mem _ hm), fun g hm q hq => ?_⟩
        by_cases hqe : q = p ++ [k]
        · subst hqe
          rw [hwalk] at hq
          cases hq
          exact hnew hm
        · rw [ht.walk_install hg hz hw hhole hlt htable hqe] at hq
          exact hf.unused g (mem_cons_of_mem _ hm) q hq
      obtain ⟨nodes', o, fresh', hs, ht', hf', hsuf, hleft, hl, hoff, hold, ho⟩ :=
        ih (ht.install hg hz hw hhole hlt htable) hfresh hwalk hlen'
      refine ⟨nodes', o, fresh', hs, ht', hf', hsuf.trans (suffix_cons _ _),
        succ_le_succ hleft, fun q => ?_, fun q hq => ?_, fun q g hq => ?_, ?_⟩
      · rw [hl, ht.lookup_install hg hz hw hhole hlt htable]
      · rw [hoff q hq]
        exact ht.walk_install hg hz hw hhole hlt htable fun e => hq (e ▸ prefix_append _ _)
      · rcases hold q g hq with hm | hq
        · exact .inl (mem_cons_of_mem _ hm)
        by_cases hqe : q = p ++ [k]
        · rw [hqe, hwalk] at hq
          cases hq
          exact .inl mem_cons_self
        · rw [ht.walk_install hg hz hw hhole hlt htable hqe] at hq
          exact .inr hq
      · cases o with
        | none => exact succ_lt_succ ho
        | some leaf => exact ho
    rw [if_neg hk]
    have hwalk : walk radixKind nodes n root (p ++ [k]) = some (nodes node k) := by
      rw [walk_append hw, hn, walk_cons_table (radixKind_table hk), walk_nil]
    obtain ⟨nodes', o, fresh', hs, ht', hf', hsuf, hleft, hl, hoff, hold, ho⟩ := ih ht hf hwalk hlen'
    refine ⟨nodes', o, fresh', hs, ht', hf', hsuf, le_succ_of_le hleft, hl, hoff, hold, ?_⟩
    cases o with
    | none => exact lt_succ_of_lt ho
    | some leaf => exact ho

/-- What an addition does: the kernel stops on an existing key, there is no memory, or the key has
    the value. -/
inductive Added (r : Radix) (key value : Nat) (fresh : List Nat) :
    Option (Radix × Int × List Nat) → Prop where
  | existing : radixGet r key ≠ 0 → value ≠ 0 → Added r key value fresh none
  | noMemory (r' : Radix) (fresh' : List Nat) : r'.Inv → r'.Fresh fresh' → fresh' <:+ fresh →
      fresh.length < RADIX_LEVELS - 1 → (∀ k, radixGet r' k = radixGet r k) →
      Added r key value fresh (some (r', -ENOMEM, fresh'))
  | done (r' : Radix) (fresh' : List Nat) : r'.Inv → r'.Fresh fresh' → fresh' <:+ fresh →
      fresh.length ≤ fresh'.length + (RADIX_LEVELS - 1) →
      (radixGet r key = 0 ∨ value = 0) →
      (∀ k, k < 2 ^ 64 → radixGet r' k = if k = key then value else radixGet r k) →
      Added r key value fresh (some (r', 0, fresh'))

/-- **`radix_add`** keeps a finite map. -/
theorem radixAdd_spec {r : Radix} {key value : Nat} (h : r.Inv) (hf : r.Fresh fresh)
    (hkey : key < 2 ^ 64) : Added r key value fresh (radixAdd r key value fresh) := by
  have hsplit := radixIndex_split key
  have hlen : (radixIndex RADIX_LEVELS key).dropLast.length = RADIX_LEVELS - 1 := by
    rw [length_dropLast, length_radixIndex]
  obtain ⟨nodes, o, fresh', hs, ht, hf', hsuf, hleft, hl, -, -, ho⟩ := addLoop_spec (p := []) h.tree
    { hf with } walk_nil (by rw [hlen]; rfl)
  rw [hlen] at hleft
  have hinv : Radix.Inv ⟨r.root, nodes⟩ := ⟨h.root, ht⟩
  have hget : ∀ k, radixGet ⟨r.root, nodes⟩ k = radixGet r k := fun k => by
    rw [radixGet_eq_lookup hinv, radixGet_eq_lookup h, hl]
  have hcall : radixAdd r key value fresh = radixAddFrom r key value fresh := if_neg h.root
  rw [hcall]
  simp only [radixAddFrom, hs]
  cases o with
  | none =>
    exact .noMemory ⟨r.root, nodes⟩ fresh' hinv { hf' with } hsuf (hlen ▸ ho)
      hget
  | some leaf =>
  rw [nil_append] at ho
  generalize hpath : (radixIndex RADIX_LEVELS key).dropLast = path at *
  generalize hlast : (radixIndex RADIX_LEVELS key).getLastD 0 = i at *
  -- the entry of the leaf is what the key holds
  have hentry : nodes leaf i = radixGet r key := by
    rw [← hget key, radixGet_eq_lookup hinv, hsplit, lookup_append ho, hlen]
    exact radixGetLoop_eq (p := [i]) rfl
  have hinv' : Radix.Inv ⟨r.root, nodes.set leaf i value⟩ := ⟨h.root, ht.set_last ho hlen i value⟩
  have hfresh : Radix.Fresh ⟨r.root, nodes.set leaf i value⟩ fresh' := by
    refine ⟨hf'.nodup, hf'.notNull, fun g hg q hq => hf'.unused g hg q ?_⟩
    rw [← hq]
    exact (ht.walk_set_last ho hlen i value q).symm
  show Added r key value fresh (if nodes leaf i ≠ 0 ∧ value ≠ 0 then none
    else some (⟨r.root, nodes.set leaf i value⟩, 0, fresh'))
  by_cases hbug : nodes leaf i ≠ 0 ∧ value ≠ 0
  · rw [if_pos hbug]
    exact .existing (hentry ▸ hbug.1) hbug.2
  rw [if_neg hbug]
  refine .done _ fresh' hinv' hfresh hsuf hleft ?_ fun k hk => ?_
  · rw [← hentry]
    by_contra hno
    exact hbug (not_or.mp hno)
  rw [radixGet_eq_lookup hinv']
  by_cases hkk : k = key
  · subst hkk
    rw [if_pos rfl, hsplit, ht.lookup_set_last ho hlen]
    by_cases hv : value = 0
    · subst hv
      rfl
    · rw [radixKind_leaf hv]
      rfl
  have hoff : ¬ path ++ [i] <+: radixIndex RADIX_LEVELS k := by
    rw [← hsplit]
    intro hpre
    have hk' : k < 16 ^ RADIX_LEVELS := hk
    refine hkk (radixIndex_inj hk' hkey ?_)
    exact (hpre.eq_of_length (by simp)).symm
  rw [if_neg hkk, ht.lookup_set_off ho hoff, ← hget k, radixGet_eq_lookup hinv]

/-- The nodes of the tree after an addition: those from before and some of the new addresses. -/
theorem radixAdd_walk {r r' : Radix} {key value : Nat} {fresh' : List Nat} {ret : Int} (h : r.Inv)
    (hf : r.Fresh fresh) (ha : radixAdd r key value fresh = some (r', ret, fresh')) {q : List Nat}
    {g : Nat} (hq : walk radixKind r'.nodes (RADIX_LEVELS - 1) r'.root q = some g) :
    g ∈ fresh ∨ walk radixKind r.nodes (RADIX_LEVELS - 1) r.root q = some g := by
  have hlen : (radixIndex RADIX_LEVELS key).dropLast.length = RADIX_LEVELS - 1 := by
    rw [length_dropLast, length_radixIndex]
  obtain ⟨nodes, o, left, hs, ht, -, -, -, -, -, hold, ho⟩ := addLoop_spec (p := []) h.tree
    { hf with } walk_nil (by rw [hlen]; rfl)
  have hcall : radixAdd r key value fresh = radixAddFrom r key value fresh := if_neg h.root
  rw [hcall] at ha
  simp only [radixAddFrom, hs] at ha
  cases o with
  | none =>
    cases ha
    exact hold q g hq
  | some leaf =>
  generalize (radixIndex RADIX_LEVELS key).dropLast = path at *
  generalize (radixIndex RADIX_LEVELS key).getLastD 0 = i at *
  have ha' : (if nodes leaf i ≠ 0 ∧ value ≠ 0 then none
      else some (⟨r.root, nodes.set leaf i value⟩, 0, left)) = some (r', ret, fresh') := ha
  split at ha'
  · cases ha'
  cases ha'
  refine hold q g ?_
  rw [← hq]
  exact (ht.walk_set_last ho hlen i value q).symm

/-! ## 6. The start -/

theorem initRadix_empty (nodes : Tables Nat Nat) (new k j : Nat) :
    radixKind k ((initRadix nodes new).nodes (initRadix nodes new).root j) = .hole := by
  simp [initRadix]

theorem initRadix_walk {new f : Nat} {p : List Nat}
    (h : walk radixKind (initRadix nodes new).nodes n (initRadix nodes new).root p = some f) :
    p = [] ∧ f = new := by
  by_cases hnil : p = []
  · subst hnil
    rw [walk_nil] at h
    cases h
    exact ⟨rfl, rfl⟩
  · rw [walk_empty (initRadix_empty nodes new) _ hnil] at h
    cases h

theorem initRadix_fresh (nodes : Tables Nat Nat) (n : Nat) {new : Nat} {ready : List Nat}
    (hnodup : (new :: ready).Nodup) (hnull : 0 ∉ new :: ready) :
    FreshFor (initRadix nodes new).nodes n (initRadix nodes new).root ready :=
  ⟨hnodup.of_cons, fun _ hg e => hnull (e ▸ mem_cons_of_mem _ hg),
    fun _ hg _ hp => (nodup_cons.mp hnodup).1 ((initRadix_walk hp).2 ▸ hg)⟩

/-- **`init_radix`** makes an empty map. -/
theorem initRadix_inv (nodes : Tables Nat Nat) {new : Nat} (hnew : new ≠ 0) :
    (initRadix nodes new).Inv ∧ ∀ key, radixGet (initRadix nodes new) key = 0 := by
  have hinv : (initRadix nodes new).Inv :=
    ⟨hnew, fun _ _ _ hp hq => (initRadix_walk hp).1.trans (initRadix_walk hq).1.symm⟩
  refine ⟨hinv, fun key => ?_⟩
  rw [radixGet_eq_lookup hinv, lookup_empty (initRadix_empty nodes new)]
  rfl

end ChCore.Common
