/-
  File: ChCore/Mm/Pmo.lean
  Subject: Physical memory objects and their pages (`pmo_init`, `commit_page_to_pmo` and
    `get_page_from_pmo` of `kernel/mm/vmregion.c`).

  Memory is a function from physical addresses to bytes: the kernel sees the byte at `pa` at
  `phys_to_virt(pa)`. The pages and radix nodes that the allocator has ready are lists, taken from
  the front; an empty list is `NULL`.

  * **`demandPage_spec`** -- making a page changes the bytes of no object.
-/
import ChCore.Common.Radix
import ChCore.Lib.Bytes
import ChCore.Mm.Vmregion

namespace ChCore.Mm

open Common Lib Function Option List

/-! ## 1. The source -/

abbrev Byte := BitVec 8

def PMO_PAGE_SIZE : Nat := 4096

/-- `struct pmobject`; `start` is a physical address. -/
structure Pmo where
  type : PmoType
  size : BitVec 64
  start : Nat
  radix : Radix

/-- The types whose pages are in the radix tree. -/
def Pmo.OnDemand (p : Pmo) : Prop := p.type = .anonym ∨ p.type = .shm ∨ p.type = .file
  deriving Decidable

/-- The objects, the memory, and what the allocator has ready. -/
structure Pmos where
  bytes : Nat → Byte
  pmos : Nat → Pmo
  freeNodes : List Nat
  freePages : List Nat

/-- Return 0 when not found. -/
def getPageFromPmo (p : Pmo) (index : Nat) : Nat := radixGet p.radix index

variable (s : Pmos)

/-- `commit_page_to_pmo`. `none`: the kernel stops. -/
def commitPageToPmo (p index pa : Nat) : Option Pmos :=
  if ¬ (s.pmos p).OnDemand then none
  else match radixAdd (s.pmos p).radix index pa s.freeNodes with
    | none => none
    | some (radix, ret, freeNodes) =>
      if ret ≠ 0 then none
      else some { s with
        pmos := update s.pmos p { s.pmos p with radix := radix }
        freeNodes := freeNodes }

/-- `memset` of a page. -/
def clearPage (bytes : Nat → Byte) (pa : Nat) : Nat → Byte :=
  fun a => if pa ≤ a ∧ a < pa + PMO_PAGE_SIZE then 0 else bytes a

/-- `get_pages(0)`, with the `BUG_ON` for no memory and the `memset`. -/
def getZeroedPage : Option (Nat × Pmos) :=
  match s.freePages with
  | [] => none
  | pa :: rest => some (pa, { s with bytes := clearPage s.bytes pa, freePages := rest })

/-- The page of an index; a page that is not there yet is allocated, cleared and committed. -/
def demandPage (p index : Nat) : Option (Nat × Pmos) :=
  if getPageFromPmo (s.pmos p) index ≠ 0 then some (getPageFromPmo (s.pmos p) index, s)
  else do
    let (pa, s) ← getZeroedPage s
    let s ← commitPageToPmo s p index pa
    some (pa, s)

/-! ## 2. The invariant -/

/-- The bytes of the pages the allocator has ready. -/
def Pmos.free : Set Nat := {a | ∃ pa ∈ s.freePages, pa ≤ a ∧ a < pa + PMO_PAGE_SIZE}

/-- **The invariant.** -/
structure Pmos.Inv (s : Pmos) : Prop where
  radix : ∀ p, (s.pmos p).OnDemand → (s.pmos p).radix.Inv ∧ (s.pmos p).radix.Fresh s.freeNodes
  page : ∀ p, (s.pmos p).OnDemand → ∀ i, i < 2 ^ 64 → getPageFromPmo (s.pmos p) i ≠ 0 →
    getPageFromPmo (s.pmos p) i % PMO_PAGE_SIZE = 0 ∧ getPageFromPmo (s.pmos p) i ∉ s.freePages
  distinct : ∀ p q, (s.pmos p).OnDemand → (s.pmos q).OnDemand → ∀ i j, i < 2 ^ 64 → j < 2 ^ 64 →
    getPageFromPmo (s.pmos p) i ≠ 0 → getPageFromPmo (s.pmos p) i = getPageFromPmo (s.pmos q) j →
      p = q ∧ i = j
  nodup : s.freePages.Nodup
  aligned : ∀ pa ∈ s.freePages, pa ≠ 0 ∧ pa % PMO_PAGE_SIZE = 0
  block : ∀ p, (s.pmos p).type = .data → ∀ k, k < (s.pmos p).size.toNat →
    (s.pmos p).start + k ∉ s.free

/-- **The bytes of an object.** -/
def content (p k : Nat) : Byte :=
  if (s.pmos p).type = .data then s.bytes ((s.pmos p).start + k)
  else if getPageFromPmo (s.pmos p) (k / PMO_PAGE_SIZE) = 0 then 0
  else s.bytes (getPageFromPmo (s.pmos p) (k / PMO_PAGE_SIZE) + k % PMO_PAGE_SIZE)

/-! ## 3. Pages -/

section

variable {s s' : Pmos} {p index pa : Nat}

theorem page_lt (k : Nat) : k % PMO_PAGE_SIZE < PMO_PAGE_SIZE := Nat.mod_lt k (by decide)

theorem page_unique {pa pa' a : Nat} (h : pa % PMO_PAGE_SIZE = 0) (h' : pa' % PMO_PAGE_SIZE = 0)
    (ha : pa ≤ a ∧ a < pa + PMO_PAGE_SIZE) (ha' : pa' ≤ a ∧ a < pa' + PMO_PAGE_SIZE) : pa = pa' := by
  have hsize : PMO_PAGE_SIZE = 4096 := rfl
  rw [hsize] at h h' ha ha'
  omega

theorem Pmos.Inv.notMem_free (h : s.Inv) (hp : (s.pmos p).OnDemand) (hi : index < 2 ^ 64)
    (hne : getPageFromPmo (s.pmos p) index ≠ 0) {a : Nat}
    (ha : getPageFromPmo (s.pmos p) index ≤ a ∧ a < getPageFromPmo (s.pmos p) index + PMO_PAGE_SIZE) :
    a ∉ s.free := by
  intro hfree
  obtain ⟨pa, hpa, hin⟩ := hfree
  obtain ⟨halign, hnot⟩ := h.page p hp index hi hne
  exact hnot (page_unique halign (h.aligned pa hpa).2 ha hin ▸ hpa)

theorem inv_bytes (h : s.Inv) (f : Nat → Byte) : Pmos.Inv { s with bytes := f } :=
  { h with }

/-- What a commit does. -/
structure Committed (s s' : Pmos) (p index pa : Nat) : Prop where
  bytes : s'.bytes = s.bytes
  freePages : s'.freePages = s.freePages
  fields : ∀ q, (s'.pmos q).type = (s.pmos q).type ∧ (s'.pmos q).size = (s.pmos q).size ∧
    (s'.pmos q).start = (s.pmos q).start
  pages : ∀ q, (s.pmos q).OnDemand → ∀ j, j < 2 ^ 64 → getPageFromPmo (s'.pmos q) j =
    if q = p ∧ j = index then pa else getPageFromPmo (s.pmos q) j
  radix : ∀ q, (s.pmos q).OnDemand → (s'.pmos q).radix.Inv ∧ (s'.pmos q).radix.Fresh s'.freeNodes
  nodes : s.freeNodes.length ≤ s'.freeNodes.length + (RADIX_LEVELS - 1)

section

variable (hr : ∀ q, (s.pmos q).OnDemand → (s.pmos q).radix.Inv ∧ (s.pmos q).radix.Fresh s.freeNodes)

include hr

/-- **A commit that comes back** has recorded the page, and nothing else. -/
theorem committed_of_commit (hi : index < 2 ^ 64) (h : commitPageToPmo s p index pa = some s') :
    (s.pmos p).OnDemand ∧ Committed s s' p index pa := by
  by_cases hp : (s.pmos p).OnDemand
  · obtain ⟨hinv, hfresh⟩ := hr p hp
    have hadd : Added (s.pmos p).radix index pa s.freeNodes _ := radixAdd_spec hinv hfresh hi
    simp only [commitPageToPmo, hp, not_true_eq_false, if_false] at h
    generalize hres : radixAdd (s.pmos p).radix index pa s.freeNodes = res at hadd h
    cases hadd with
    | existing hget _ => cases h
    | noMemory r fresh hinv' hfresh' hsuf hshort hsame => cases h
    | done r fresh hinv' hfresh' hsuf hleft hold hmap =>
    cases h
    refine ⟨hp, rfl, rfl, fun q => ?_, fun q hq j hj => ?_, fun q hq => ?_, hleft⟩
    · by_cases hqp : q = p
      · subst hqp
        simp
      · simp [hqp]
    · by_cases hqp : q = p
      · subst hqp
        simp only [update_self, true_and]
        exact hmap j hj
      · simp [hqp]
    by_cases hqp : q = p
    · subst hqp
      simpa using ⟨hinv', hfresh'⟩
    -- what is left of the addresses is as unused as it was
    obtain ⟨hq1, hq2⟩ := hr q hq
    have hsub : fresh.Sublist s.freeNodes := hsuf.sublist
    simp only [update_of_ne hqp]
    exact ⟨hq1, hq2.nodup.sublist hsub, fun g hg => hq2.notNull g (hsub.subset hg),
      fun g hg => hq2.unused g (hsub.subset hg)⟩
  · rw [commitPageToPmo, if_pos hp] at h
    cases h

/-- **`commit_page_to_pmo`** records the page, stops on an index that has one, or finds no memory
    for a node. -/
theorem commitPageToPmo_spec (hp : (s.pmos p).OnDemand) (hi : index < 2 ^ 64) (hpa : pa ≠ 0) :
    (getPageFromPmo (s.pmos p) index ≠ 0 ∧ commitPageToPmo s p index pa = none) ∨
      (getPageFromPmo (s.pmos p) index = 0 ∧
        ((commitPageToPmo s p index pa = none ∧ s.freeNodes.length < RADIX_LEVELS - 1) ∨
          ∃ s', commitPageToPmo s p index pa = some s' ∧ Committed s s' p index pa)) := by
  obtain ⟨hinv, hfresh⟩ := hr p hp
  have hadd : Added (s.pmos p).radix index pa s.freeNodes _ := radixAdd_spec hinv hfresh hi
  have hcommit : ∀ s', commitPageToPmo s p index pa = some s' → Committed s s' p index pa :=
    fun s' h => (committed_of_commit hr hi h).2
  simp only [commitPageToPmo, hp, not_true_eq_false, if_false] at hcommit ⊢
  generalize hres : radixAdd (s.pmos p).radix index pa s.freeNodes = res at hadd hcommit
  cases hadd with
  | existing hget _ => exact .inl ⟨hget, rfl⟩
  | noMemory r fresh hinv' hfresh' hsuf hshort hsame =>
    by_cases hget : getPageFromPmo (s.pmos p) index = 0
    · exact .inr ⟨hget, .inl ⟨rfl, hshort⟩⟩
    · exact .inl ⟨hget, rfl⟩
  | done r fresh hinv' hfresh' hsuf hleft hold hmap =>
    exact .inr ⟨hold.resolve_right hpa, .inr ⟨_, rfl, hcommit _ rfl⟩⟩

end

/-- What asking for a page does. -/
structure Demanded (s s' : Pmos) (p index pa : Nat) : Prop where
  inv : s'.Inv
  notNull : pa ≠ 0
  aligned : pa % PMO_PAGE_SIZE = 0
  page : getPageFromPmo (s'.pmos p) index = pa
  fields : ∀ q, (s'.pmos q).type = (s.pmos q).type ∧ (s'.pmos q).size = (s.pmos q).size ∧
    (s'.pmos q).start = (s.pmos q).start
  pages : ∀ q, (s.pmos q).OnDemand → ∀ j, j < 2 ^ 64 → ¬ (q = p ∧ j = index) →
    getPageFromPmo (s'.pmos q) j = getPageFromPmo (s.pmos q) j
  bytes : ∀ a, a ∉ s.free → s'.bytes a = s.bytes a
  fresh : getPageFromPmo (s.pmos p) index = 0 → s.freePages = pa :: s'.freePages ∧
    s.freeNodes.length ≤ s'.freeNodes.length + (RADIX_LEVELS - 1) ∧
    ∀ a, pa ≤ a ∧ a < pa + PMO_PAGE_SIZE → s'.bytes a = 0
  same : getPageFromPmo (s.pmos p) index ≠ 0 → s' = s

theorem onDemand_congr {p q : Pmo} (h : q.type = p.type) : q.OnDemand ↔ p.OnDemand := by
  rw [Pmo.OnDemand, Pmo.OnDemand, h]

/-- A page that is taken, but not committed. -/
structure Taken (s : Pmos) (pa : Nat) : Prop where
  notNull : pa ≠ 0
  aligned : pa % PMO_PAGE_SIZE = 0
  notFree : pa ∉ s.freePages
  new : ∀ q, (s.pmos q).OnDemand → ∀ j, j < 2 ^ 64 → getPageFromPmo (s.pmos q) j ≠ pa

/-- The allocator hands out a page, and keeps the others. -/
theorem inv_getZeroedPage (h : s.Inv) (hs : getZeroedPage s = some (pa, s')) :
    s'.Inv ∧ Taken s' pa ∧ s.freePages = pa :: s'.freePages ∧ s'.pmos = s.pmos ∧
      s'.freeNodes = s.freeNodes ∧ s'.bytes = clearPage s.bytes pa := by
  unfold getZeroedPage at hs
  split at hs
  · cases hs
  rename_i pa' rest hfree
  cases hs
  have hmem : ∀ x, x ∈ rest → x ∈ s.freePages := fun x hx => hfree ▸ mem_cons_of_mem _ hx
  have hpa : pa ∈ s.freePages := hfree ▸ mem_cons_self
  obtain ⟨hnot, hrest⟩ := nodup_cons.mp (hfree ▸ h.nodup)
  refine ⟨⟨h.radix, fun q hq j hj hne => ?_, h.distinct, hrest, fun x hx => h.aligned x (hmem x hx),
    fun q hq k hk hm => ?_⟩, ⟨(h.aligned pa hpa).1, (h.aligned pa hpa).2, hnot,
    fun q hq j hj e => ?_⟩, hfree, rfl, rfl, rfl⟩
  · obtain ⟨halign, hfree'⟩ := h.page q hq j hj hne
    exact ⟨halign, fun hm => hfree' (hmem _ hm)⟩
  · obtain ⟨x, hx, hin⟩ := hm
    exact h.block q hq k hk ⟨x, hmem x hx, hin⟩
  · have e' : getPageFromPmo (s.pmos q) j = pa := e
    exact (h.page q hq j hj (e' ▸ (h.aligned pa hpa).1)).2 (e' ▸ hpa)

/-- **A commit of a page that was taken keeps the invariant.** -/
theorem inv_committed (h : s.Inv) (ht : Taken s pa) (hc : Committed s s' p index pa) : s'.Inv := by
  have hon : ∀ q, (s'.pmos q).OnDemand ↔ (s.pmos q).OnDemand := fun q =>
    onDemand_congr (hc.fields q).1
  have hget := hc.pages
  constructor
  case radix => exact fun q hq => hc.radix q ((hon q).mp hq)
  case page =>
    intro q hq j hj hne
    rw [hget q ((hon q).mp hq) j hj] at hne ⊢
    rw [hc.freePages]
    split at hne
    · rename_i e
      rw [if_pos e]
      exact ⟨ht.aligned, ht.notFree⟩
    · rename_i e
      rw [if_neg e]
      exact h.page q ((hon q).mp hq) j hj hne
  case distinct =>
    intro q q' hq hq' j j' hj hj' hne he
    rw [hget q ((hon q).mp hq) j hj] at hne he
    rw [hget q' ((hon q').mp hq') j' hj'] at he
    by_cases e : q = p ∧ j = index
    · rw [if_pos e] at he
      by_cases e' : q' = p ∧ j' = index
      · exact ⟨e.1.trans e'.1.symm, e.2.trans e'.2.symm⟩
      · rw [if_neg e'] at he
        exact absurd he.symm (ht.new q' ((hon q').mp hq') j' hj')
    rw [if_neg e] at hne he
    by_cases e' : q' = p ∧ j' = index
    · rw [if_pos e'] at he
      exact absurd he (ht.new q ((hon q).mp hq) j hj)
    · rw [if_neg e'] at he
      exact h.distinct q q' ((hon q).mp hq) ((hon q').mp hq') j j' hj hj' hne he
  case nodup =>
    rw [hc.freePages]
    exact h.nodup
  case aligned =>
    rw [hc.freePages]
    exact h.aligned
  case block =>
    intro q hq k hk hm
    obtain ⟨htype, hsize, hstart⟩ := hc.fields q
    obtain ⟨x, hx, hin⟩ := hm
    rw [hc.freePages] at hx
    rw [hstart] at hin
    exact h.block q (htype ▸ hq) k (hsize ▸ hk) ⟨x, hx, hin⟩

/-- **Asking for a page**: it is there afterwards, and no other page and no byte in use changes. -/
theorem demandPage_spec (h : s.Inv) (hp : (s.pmos p).OnDemand) (hi : index < 2 ^ 64)
    (hs : demandPage s p index = some (pa, s')) : Demanded s s' p index pa := by
  unfold demandPage at hs
  split at hs
  · rename_i hne
    cases hs
    exact ⟨h, hne, (h.page p hp index hi hne).1, rfl, fun _ => ⟨rfl, rfl, rfl⟩, fun _ _ _ _ _ => rfl,
      fun _ _ => rfl, fun hzero => absurd hzero hne, fun _ => rfl⟩
  rename_i hzero
  have hzero := not_not.mp hzero
  obtain ⟨⟨pa', s1⟩, hget, hs⟩ := bind_eq_some_iff.mp hs
  obtain ⟨s2, hcommit, hs⟩ := bind_eq_some_iff.mp hs
  cases hs
  obtain ⟨h1, htaken, hfree, hpmos, hnodes, hbytes⟩ := inv_getZeroedPage h hget
  have hpa : pa ∈ s.freePages := hfree ▸ mem_cons_self
  have hp1 : (s1.pmos p).OnDemand := hpmos ▸ hp
  have hc : Committed s1 s' p index pa := by
    rcases commitPageToPmo_spec h1.radix hp1 hi htaken.notNull with
      ⟨_, hnone⟩ | ⟨_, ⟨hnone, _⟩ | ⟨s2, hsome, hc⟩⟩
    · rw [hnone] at hcommit
      cases hcommit
    · rw [hnone] at hcommit
      cases hcommit
    · rw [hsome] at hcommit
      cases hcommit
      exact hc
  refine ⟨inv_committed h1 htaken hc, htaken.notNull, htaken.aligned, ?_, fun q => ?_,
    fun q hq j hj hqj => ?_, fun a ha => ?_, fun _ => ⟨?_, ?_, fun a ha => ?_⟩,
    fun hne => absurd hzero hne⟩
  · rw [hc.pages p hp1 index hi, if_pos ⟨rfl, rfl⟩]
  · rw [← hpmos]
    exact hc.fields q
  · rw [hc.pages q (hpmos ▸ hq) j hj, if_neg hqj, hpmos]
  · rw [hc.bytes, hbytes]
    exact if_neg fun hin => ha ⟨pa, hpa, hin⟩
  · rw [hfree, hc.freePages]
  · rw [← hnodes]
    exact hc.nodes
  · rw [hc.bytes, hbytes]
    exact if_pos ha

/-- **With memory it returns**: a page, and nodes for every level. -/
theorem demandPage_returns (h : s.Inv) (hp : (s.pmos p).OnDemand) (hi : index < 2 ^ 64)
    (hpages : s.freePages ≠ []) (hnodes : RADIX_LEVELS - 1 ≤ s.freeNodes.length) :
    ∃ pa s', demandPage s p index = some (pa, s') := by
  unfold demandPage
  split
  · exact ⟨_, _, rfl⟩
  rename_i hzero
  obtain ⟨pa, rest, hfree⟩ := exists_cons_of_ne_nil hpages
  have hpa : pa ∈ s.freePages := hfree ▸ mem_cons_self
  have hget : getZeroedPage s =
      some (pa, { s with bytes := clearPage s.bytes pa, freePages := rest }) := by
    rw [getZeroedPage, hfree]
  rcases commitPageToPmo_spec (s := { s with bytes := clearPage s.bytes pa, freePages := rest })
    h.radix hp hi (h.aligned pa hpa).1 with ⟨hne, _⟩ | ⟨_, ⟨_, hshort⟩ | ⟨s2, hsome, _⟩⟩
  · exact absurd hne hzero
  · exact absurd hnodes (Nat.not_le_of_lt hshort)
  · exact ⟨pa, s2, by simp only [hget, bind_eq_bind, bind_some, hsome]⟩

/-- The bytes that an object has. -/
def Pmo.Has (p : Pmo) (k : Nat) : Prop :=
  k < 2 ^ 64 ∧ (p.OnDemand ∨ p.type = .data ∧ k < p.size.toNat)

/-- **Asking for a page changes the bytes of no object.** -/
theorem Demanded.content (h : s.Inv) (hp : (s.pmos p).OnDemand) (hi : index < 2 ^ 64)
    (hd : Demanded s s' p index pa) {q k : Nat} (hq : (s.pmos q).Has k) :
    content s' q k = content s q k := by
  obtain ⟨htype, -, hstart⟩ := hd.fields q
  unfold Mm.content
  rw [htype, hstart]
  obtain ⟨hk, hon | ⟨hdata, hsize⟩⟩ := hq
  · have hne : (s.pmos q).type ≠ .data := by
      intro e
      rw [Pmo.OnDemand, e] at hon
      simp at hon
    have hkp : k / PMO_PAGE_SIZE < 2 ^ 64 := (Nat.div_le_self _ _).trans_lt hk
    rw [if_neg hne, if_neg hne]
    by_cases hsame : q = p ∧ k / PMO_PAGE_SIZE = index
    · obtain ⟨rfl, rfl⟩ := hsame
      rw [hd.page, if_neg hd.notNull]
      by_cases hzero : getPageFromPmo (s.pmos q) (k / PMO_PAGE_SIZE) = 0
      · rw [if_pos hzero]
        exact (hd.fresh hzero).2.2 _ ⟨Nat.le_add_right _ _, Nat.add_lt_add_left (page_lt k) _⟩
      have heq := hd.same hzero
      have hpage := hd.page
      rw [heq] at hpage ⊢
      rw [if_neg hzero, hpage]
    rw [hd.pages q hon _ hkp hsame]
    split
    · rfl
    · rename_i hne'
      exact hd.bytes _ (h.notMem_free hon hkp hne'
        ⟨Nat.le_add_right _ _, Nat.add_lt_add_left (page_lt k) _⟩)
  · rw [if_pos hdata, if_pos hdata]
    exact hd.bytes _ (h.block q hdata k hsize)

end

/-! ## 4. Objects without pages -/

/-- Anonymous objects without pages. -/
def freshPmos (size : BitVec 64) : Pmos where
  bytes _ := 0
  pmos _ := ⟨.anonym, size, 0, initRadix (fun _ _ => 0) 1⟩
  freeNodes := List.range' 2 30
  freePages := [4096, 8192]

theorem freshPmos_inv (size : BitVec 64) : (freshPmos size).Inv := by
  obtain ⟨hinv, hzero⟩ := initRadix_inv (fun _ _ => 0) (show 1 ≠ 0 by decide)
  have hget : ∀ q i, getPageFromPmo ((freshPmos size).pmos q) i = 0 := fun _ i => hzero i
  constructor
  case radix =>
    have hfresh := initRadix_fresh (fun _ _ => 0) (RADIX_LEVELS - 1)
      (show (1 :: List.range' 2 30).Nodup by decide) (by decide)
    exact fun q _ => ⟨hinv, hfresh.nodup, hfresh.notNull, hfresh.unused⟩
  case page => exact fun q _ i _ hne => absurd (hget q i) hne
  case distinct => exact fun q _ _ _ i _ _ _ hne => absurd (hget q i) hne
  case nodup => exact (by decide : ([4096, 8192] : List Nat).Nodup)
  case aligned => exact (by decide : ∀ pa ∈ [4096, 8192], pa ≠ 0 ∧ pa % PMO_PAGE_SIZE = 0)
  case block =>
    intro q htype
    cases htype

end ChCore.Mm
