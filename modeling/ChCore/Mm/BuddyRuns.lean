/-
  File: ChCore/Mm/BuddyRuns.lean
  Subject: The buddy allocator over whole runs: where it comes back to when everything is freed,
    and the metadata it looks at on the way.

  * `buddy_frees_back` -- all blocks can be freed in any order, and the allocator then has the
    free blocks it had after `init_buddy`;
  * **`buddy_indices_iff`** -- the metadata it looks at lies in the array exactly when its length
    is a multiple of the largest block, and an address is the end of the memory.
-/
import ChCore.Mm.Buddy

namespace ChCore.Mm

open Lib Function Option List Nat Set

variable {z z' : Zone} {A H : Set Block} {b : Block}

/-! ## 1. Free memory is merged in one way only -/

/-- **Two zones with nothing allocated have the same free blocks.** -/
theorem BuddyInv.free_unique (h : BuddyInv z ∅ ∅) (h' : BuddyInv z' ∅ ∅)
    (hnum : z'.pageNum = z.pageNum) : z'.free = z.free := by
  -- a free block of one zone lies in a free block of the other
  have hinto : ∀ {y y' : Zone}, BuddyInv y ∅ ∅ → BuddyInv y' ∅ ∅ → y'.pageNum = y.pageNum →
      ∀ b ∈ y.free, ∃ c ∈ y'.free, b.order ≤ c.order ∧ b.places ⊆ c.places := by
    intro y y' hy hy' hyn b hb
    have hbU : b ∈ y.free ∪ ∅ ∪ ∅ := .inl (.inl hb)
    obtain ⟨halign, horder⟩ := hy.aligned b hbU
    have hin : b.start + 2 ^ b.order ≤ y'.pageNum := hyn ▸ hy.tiles.inside b hbU
    obtain ⟨c, hc, hle, hsub⟩ := hy'.covered (lt_succ_self (BUDDY_MAX_ORDER - 1))
      (fun b hb => absurd hb (notMem_empty b)) (le_sub_one_of_lt horder) halign hin
    rw [union_empty] at hc
    exact ⟨c, hc, hle, hsub⟩
  -- and that one in a free block of the first, which is the block itself
  have hsame : ∀ {y y' : Zone}, BuddyInv y ∅ ∅ → BuddyInv y' ∅ ∅ → y'.pageNum = y.pageNum →
      y.free ⊆ y'.free := by
    intro y y' hy hy' hyn b hb
    obtain ⟨c, hc, hbc, hsub⟩ := hinto hy hy' hyn b hb
    obtain ⟨d, hd, hcd, hsub'⟩ := hinto hy' hy hyn.symm c hc
    obtain rfl : b = d := hy.tiles.unique (.inl (.inl hb)) (.inl (.inl hd)) b.start_mem
      (hsub' (hsub b.start_mem))
    exact Block.eq_of_subset hsub (le_antisymm hcd hbc) ▸ hc
  exact Set.Subset.antisymm (hsame h' h hnum.symm) (hsame h h' hnum)

/-! ## 2. Everything is freed -/

/-- The invariant of a run. -/
def Buddy.Inv (s : Buddy) : Prop := BuddyInv s.zone (blocksOf s.allocated) ∅

variable {s s' : Buddy} {a : BuddyAct}

/-- Where the memory lies and how many pages it has does not change. -/
theorem Buddy.step_kept (h : s.Inv) (hs : s.step a = some s') : Kept s.zone s'.zone := by
  cases a with
  | getPages order =>
    have ho : order < BUDDY_MAX_ORDER := by
      by_contra hge
      simp [Buddy.step, buddyGetPages, not_lt.mp hge] at hs
    obtain ⟨r, z, hget, hkept, _⟩ := buddyGetPages_spec h ho
    simp only [Buddy.step, hget] at hs
    cases r with
    | none | some page =>
      cases hs
      exact hkept
  | freePages page =>
  simp only [Buddy.step] at hs
  split at hs
  · cases hs
  rename_i order ho
  obtain ⟨z, hfree, _, hkept⟩ := buddyFreePages_spec h (b := ⟨page, order⟩) ho
  rw [hfree] at hs
  cases hs
  exact hkept

/-- The invariant of a run from a zone. -/
def Buddy.RunInv (z : Zone) (s : Buddy) : Prop := s.Inv ∧ Kept z s.zone

theorem Buddy.step_runInv (h : s.RunInv z) (hs : s.step a = some s') : s'.RunInv z :=
  ⟨Buddy.step_inv h.1 hs, h.2.trans (Buddy.step_kept h.1 hs)⟩

theorem blocksOf_none : blocksOf (fun _ => none) = ∅ :=
  eq_empty_of_forall_notMem nofun

theorem Buddy.runInv_zero (h : BuddyInv z ∅ ∅) : Buddy.RunInv z ⟨z, fun _ => none⟩ := by
  refine ⟨?_, Kept.refl z⟩
  unfold Buddy.Inv
  rwa [blocksOf_none]

/-- **All blocks are freed**, in the order of the list. -/
theorem Buddy.free_all {s : Buddy} {pages : List Nat} (h : s.Inv) (hnodup : pages.Nodup)
    (hall : ∀ p, p ∈ pages ↔ s.allocated p ≠ none) :
    ∃ s', exec Buddy.step s (pages.map .freePages) = some s' ∧ s'.Inv ∧
      s'.allocated = (fun _ => none) ∧ s'.zone.pageNum = s.zone.pageNum := by
  induction pages generalizing s with
  | nil =>
    refine ⟨s, rfl, h, ?_, rfl⟩
    funext p
    by_contra hne
    exact absurd ((hall p).mpr hne) not_mem_nil
  | cons p pages ih =>
    obtain ⟨hp, hnodup⟩ := nodup_cons.mp hnodup
    have hsome : (s.allocated p).isSome = true :=
      isSome_iff_ne_none.mpr ((hall p).mp mem_cons_self)
    obtain ⟨s1, hs⟩ := isSome_iff_exists.mp ((Buddy.step_total h).2 p hsome)
    have halloc : s1.allocated = update s.allocated p none := by
      simp only [Buddy.step] at hs
      split at hs
      · cases hs
      · obtain ⟨z, _, rfl⟩ := map_eq_some_iff.mp hs
        rfl
    have hrest : ∀ q, q ∈ pages ↔ s1.allocated q ≠ none := by
      intro q
      rw [halloc]
      by_cases hq : q = p
      · subst hq
        simp [hp]
      · rw [update_of_ne hq, ← hall q]
        simp [hq]
    obtain ⟨s', hexec, hinv, hnone, hnum⟩ := ih (Buddy.step_inv h hs) hnodup hrest
    refine ⟨s', ?_, hinv, hnone, hnum.trans (Buddy.step_kept h hs).pageNum⟩
    simp only [map_cons, exec, hs, bind_some, hexec]

/-- **The allocator comes back** to the free blocks it had after `init_buddy`, when all outstanding
    blocks are freed after any run, in any order. -/
theorem buddy_frees_back (startAddr pageNum : Nat) : ∃ z, initBuddy startAddr pageNum = some z ∧
    ∀ acts s, exec Buddy.step ⟨z, fun _ => none⟩ acts = some s →
      ∀ pages : List Nat, pages.Nodup → (∀ p, p ∈ pages ↔ s.allocated p ≠ none) →
        ∃ s', exec Buddy.step s (pages.map .freePages) = some s' ∧
          s'.allocated = (fun _ => none) ∧ s'.zone.free = z.free := by
  obtain ⟨z, hz, hinv, -, -⟩ := initBuddy_spec startAddr pageNum
  refine ⟨z, hz, fun acts s hs pages hnodup hall => ?_⟩
  obtain ⟨hI, hkept⟩ := exec_inv (fun _ _ _ h ha => Buddy.step_runInv h ha) acts _ s
    (Buddy.runInv_zero hinv) hs
  obtain ⟨s', hexec, hI', hnone, hnum⟩ := Buddy.free_all hI hnodup hall
  refine ⟨s', hexec, hnone, hinv.free_unique ?_ (hnum.trans hkept.pageNum)⟩
  unfold Buddy.Inv at hI'
  rwa [hnone, blocksOf_none] at hI'

/-! ## 3. The metadata that is looked at -/

/-- The indices that the loop of `buddy_free_pages` computes with `get_buddy_page` and
    `get_merge_page`. -/
def mergeIndices (z : Zone) (page order : Nat) : Nat → List Nat
  | 0 => []
  | rounds + 1 =>
    let buddy := getBuddyPage page order
    buddy :: if checkBuddy z buddy order then
      match (listDel z buddy).bind fun z => clearPageOrderBuddy (decFree z order) buddy with
      | none => []
      | some z =>
        getMergePage page order :: mergeIndices z (getMergePage page order) (order + 1) rounds
    else []

/-- The indices `page[size]` of `split`. -/
def splitIndices (page lowOrder : Nat) : Nat → List Nat
  | 0 => []
  | highOrder + 1 =>
    if highOrder + 1 > lowOrder then
      (page + 2 ^ highOrder) :: splitIndices page lowOrder highOrder
    else []

/-- The indices of `__alloc_page`. -/
def allocIndices (z : Zone) (order : Nat) : Nat → List Nat
  | 0 => []
  | rounds + 1 =>
    let currentOrder := BUDDY_MAX_ORDER - (rounds + 1)
    match (z.lists currentOrder).pages with
    | [] => allocIndices z order rounds
    | page :: _ => splitIndices page order currentOrder

def freeIndices (z : Zone) (page : Nat) : List Nat :=
  match z.setPage page { z.page page with head := false } with
  | none => []
  | some z' => mergeIndices z' page (z.page page).order (BUDDY_MAX_ORDER - 1 - (z.page page).order)

/-- The indices of the loop of `init_buddy`. -/
def initIndices (z : Zone) : Nat → List Nat
  | 0 => []
  | i + 1 =>
    initIndices z i ++ match initLoop z i with
      | none => []
      | some z' => freeIndices z' i

/-- The indices of one call. -/
def Buddy.indices (s : Buddy) : BuddyAct → List Nat
  | .getPages order =>
    if order ≥ BUDDY_MAX_ORDER then [] else allocIndices s.zone order (BUDDY_MAX_ORDER - order)
  | .freePages page => freeIndices s.zone page

/-- **Every index is inside the metadata**: during `init_buddy`, in every call after it, and for this
    address where `virt_to_page` accepts it. -/
structure IndicesInside (startAddr pageNum addr : Nat) : Prop where
  init : ∀ i ∈ initIndices (zoneZero startAddr pageNum) pageNum, i < pageNum
  calls : ∀ z, initBuddy startAddr pageNum = some z → ∀ acts,
    ∀ tr ∈ trace Buddy.step ⟨z, fun _ => none⟩ acts, ∀ i ∈ tr.pre.indices tr.act, i < pageNum
  virt : ∀ z, initBuddy startAddr pageNum = some z → ∀ acts s,
    exec Buddy.step ⟨z, fun _ => none⟩ acts = some s → ∀ i, virtToPage s.zone addr = some i →
      i < pageNum

/-! ## 4. Buddies inside the memory -/

/-- One round of the merge loop computes the index of the buddy, and goes on from the merged block
    if the buddy is free. -/
theorem mergeIndices_succ (h : BuddyInv z A {b}) (ho : b.order < BUDDY_MAX_ORDER - 1) (rounds : Nat) :
    mergeIndices z b.start b.order (rounds + 1) =
      b.buddy.start :: if checkBuddy z b.buddy.start b.order then
        b.merged.start ::
          mergeIndices (unlinked z b.buddy) b.merged.start b.merged.order rounds
      else [] := by
  conv_lhs => unfold mergeIndices
  rw [show getBuddyPage b.start b.order = b.buddy.start from rfl]
  cases hc : checkBuddy z b.buddy.start b.order with
  | false => simp only [hc, Bool.false_eq_true, if_false]
  | true =>
    simp only [hc, takeOff_buddy h ho hc, if_true]
    rfl

/-- **A merge stays inside** memory that is a multiple of the largest block. -/
theorem mergeIndices_inside : ∀ {rounds : Nat} {z : Zone} {b : Block},
    b.order + rounds = BUDDY_MAX_ORDER - 1 → BuddyInv z A {b} →
      2 ^ (BUDDY_MAX_ORDER - 1) ∣ z.pageNum →
        ∀ i ∈ mergeIndices z b.start b.order rounds, i < z.pageNum
  | 0, _, _, _, _, _, i, hi => absurd hi not_mem_nil
  | rounds + 1, z, b, hr, h, hdvd, i, hi => by
    have hbU : b ∈ z.free ∪ A ∪ {b} := .inr rfl
    have ho : b.order < BUDDY_MAX_ORDER - 1 := by omega
    have hcheck := checkBuddy_buddy h hbU ho
    obtain ⟨hbuddy, hmerged, _⟩ := Block.buddy_inside (h.aligned b hbU).1 (h.tiles.inside b hbU)
      ((pow_dvd_pow 2 ho).trans hdvd)
    rw [mergeIndices_succ h ho] at hi
    rcases mem_cons.mp hi with rfl | hi
    · exact hbuddy
    by_cases hb : b.buddy ∈ z.free
    · rw [if_pos (hcheck.mpr hb)] at hi
      rcases mem_cons.mp hi with rfl | hi
      · exact hmerged
      have hr' : b.merged.order + rounds = BUDDY_MAX_ORDER - 1 := by
        show b.order + 1 + rounds = _
        omega
      exact mergeIndices_inside hr' (inv_merged h hb ho) hdvd i hi
    · rw [if_neg (mt hcheck.mp hb)] at hi
      exact absurd hi not_mem_nil

/-- **The last index of a merge** is that of the buddy of the block it ends with, which holds the
    block it began with. -/
theorem mergeIndices_last : ∀ {rounds : Nat} {z z' : Zone} {b b' : Block},
    b.order + rounds = BUDDY_MAX_ORDER - 1 → BuddyInv z A {b} →
      mergeLoop z b.start b.order rounds = some (z', b'.start, b'.order) →
        b.places ⊆ b'.places ∧ (b'.order < BUDDY_MAX_ORDER - 1 →
          b'.buddy.start ∈ mergeIndices z b.start b.order rounds)
  | 0, z, z', b, b', hr, h, hs => by
    obtain rfl : b = b' := by
      simp only [mergeLoop, some.injEq, Prod.mk.injEq] at hs
      exact Block.ext hs.2.1 hs.2.2
    exact ⟨subset_rfl, fun hlt => absurd hlt (by omega)⟩
  | rounds + 1, z, z', b, b', hr, h, hs => by
    have ho : b.order < BUDDY_MAX_ORDER - 1 := by omega
    have hcheck := checkBuddy_buddy h (.inr rfl) ho
    rw [mergeIndices_succ h ho]
    rw [mergeLoop_succ h ho] at hs
    by_cases hb : b.buddy ∈ z.free
    · rw [if_pos (hcheck.mpr hb)] at hs ⊢
      have hr' : b.merged.order + rounds = BUDDY_MAX_ORDER - 1 := by
        show b.order + 1 + rounds = _
        omega
      obtain ⟨hsub, hlast⟩ := mergeIndices_last hr' (inv_merged h hb ho) hs
      have hplaces : b.places ⊆ b.merged.places := by
        have hpair := places_buddy (h.aligned b (.inr rfl)).1
        rw [biUnion_singleton, biUnion_pair] at hpair
        rw [hpair]
        exact subset_union_left
      exact ⟨hplaces.trans hsub, fun hlt => mem_cons_of_mem _ (mem_cons_of_mem _ (hlast hlt))⟩
    · rw [if_neg (mt hcheck.mp hb)] at hs ⊢
      obtain rfl : b = b' := by
        simp only [some.injEq, Prod.mk.injEq] at hs
        exact Block.ext hs.2.1 hs.2.2
      exact ⟨subset_rfl, fun _ => mem_cons_self⟩

theorem freeIndices_eq (h : BuddyInv z A ∅) (hb : b ∈ A) :
    freeIndices z b.start = mergeIndices (headCleared z b.start) b.start b.order
      (BUDDY_MAX_ORDER - 1 - b.order) := by
  have hlt := h.lt (.inl (.inr hb))
  rw [freeIndices, setPage_headCleared hlt, Zone.page_of_lt hlt, h.marked b hb]

/-- **`buddy_free_pages` stays inside** memory that is a multiple of the largest block. -/
theorem freeIndices_inside (h : BuddyInv z A ∅) (hb : b ∈ A)
    (hdvd : 2 ^ (BUDDY_MAX_ORDER - 1) ∣ z.pageNum) : ∀ i ∈ freeIndices z b.start, i < z.pageNum := by
  have ho := (h.aligned b (.inl (.inr hb))).2
  rw [freeIndices_eq h hb]
  exact mergeIndices_inside (by omega) (inv_headCleared h hb) hdvd

theorem splitIndices_lt {page low : Nat} : ∀ {high i : Nat},
    i ∈ splitIndices page low high → i < page + 2 ^ high
  | 0, i, hi => absurd hi not_mem_nil
  | high + 1, i, hi => by
    have hpos := Nat.two_pow_pos high
    have hpow : 2 ^ (high + 1) = 2 ^ high + 2 ^ high := by ring
    unfold splitIndices at hi
    split at hi
    · rcases mem_cons.mp hi with rfl | hi
      · omega
      · have := splitIndices_lt hi
        omega
    · exact absurd hi not_mem_nil

/-- **A split stays inside**, whatever the number of pages. -/
theorem allocIndices_inside (h : BuddyInv z A ∅) {order : Nat} : ∀ {rounds i : Nat},
    i ∈ allocIndices z order rounds → i < z.pageNum
  | 0, i, hi => absurd hi not_mem_nil
  | rounds + 1, i, hi => by
    unfold allocIndices at hi
    simp only at hi
    split at hi
    · exact allocIndices_inside h hi
    rename_i page rest hpages
    have hb : (⟨page, BUDDY_MAX_ORDER - (rounds + 1)⟩ : Block) ∈ z.free := by
      rw [mem_free, hpages]
      exact mem_cons_self
    exact (splitIndices_lt hi).trans_le (h.tiles.inside _ (.inl (.inl hb)))

theorem Buddy.indices_inside (h : s.Inv)
    (hdvd : 2 ^ (BUDDY_MAX_ORDER - 1) ∣ s.zone.pageNum) (hs : s.step a = some s') :
    ∀ i ∈ s.indices a, i < s.zone.pageNum := by
  intro i hi
  cases a with
  | getPages order =>
    simp only [Buddy.indices] at hi
    split at hi
    · exact absurd hi not_mem_nil
    · exact allocIndices_inside h hi
  | freePages page =>
    simp only [Buddy.step] at hs
    split at hs
    · cases hs
    · rename_i order ho
      exact freeIndices_inside (b := ⟨page, order⟩) h ho hdvd i hi

/-- The indices of `init_buddy` are those of its calls of `buddy_free_pages`. -/
theorem mem_initIndices {startAddr n i : Nat} : ∀ {m : Nat},
    i ∈ initIndices (zoneZero startAddr n) m ↔
      ∃ p z, p < m ∧ initLoop (zoneZero startAddr n) p = some z ∧ i ∈ freeIndices z p
  | 0 => by simp [initIndices]
  | m + 1 => by
    rw [initIndices, mem_append, mem_initIndices]
    constructor
    · rintro (⟨p, z, hp, hz, hi⟩ | hi)
      · exact ⟨p, z, lt_succ_of_lt hp, hz, hi⟩
      split at hi
      · exact absurd hi not_mem_nil
      · rename_i z hz
        exact ⟨m, z, lt_succ_self m, hz, hi⟩
    · rintro ⟨p, z, hp, hz, hi⟩
      rcases Nat.lt_succ_iff_lt_or_eq.mp hp with hp | rfl
      · exact .inl ⟨p, z, hp, hz, hi⟩
      · rw [hz]
        exact .inr hi

/-- **`init_buddy` leaves the metadata** where the number of pages is not a multiple of the largest
    block: the last page is merged into a block that ends with the memory, and its buddy would lie
    behind it. -/
theorem multiple_of_init {startAddr n : Nat}
    (hin : ∀ i ∈ initIndices (zoneZero startAddr n) n, i < n) :
    2 ^ (BUDDY_MAX_ORDER - 1) ∣ n := by
  cases n with
  | zero => exact Nat.dvd_zero _
  | succ m =>
  obtain ⟨z, hz, hinv, hkept⟩ := initLoop_spec startAddr (m + 1) m (le_succ m)
  have hb : (⟨m, 0⟩ : Block) ∈ pagesFrom (m + 1) m := ⟨rfl, le_refl m, lt_succ_self m⟩
  have hhand := inv_headCleared hinv hb
  have hrounds : (⟨m, 0⟩ : Block).order + (BUDDY_MAX_ORDER - 1 - (⟨m, 0⟩ : Block).order) =
      BUDDY_MAX_ORDER - 1 := rfl
  obtain ⟨z', c, hs, hinv', hkept', hend⟩ := mergeLoop_spec hrounds hhand
  obtain ⟨hsub, hlast⟩ := mergeIndices_last hrounds hhand hs
  -- the block it ends with is free in the end, and nothing is allocated
  have hnone : pagesFrom (m + 1) m \ {⟨m, 0⟩} = ∅ := by
    refine eq_empty_of_forall_notMem fun d hd => hd.2 ?_
    obtain ⟨ho, hle, hlt⟩ := hd.1
    exact Block.ext (by simp only; omega) ho
  rw [hnone] at hinv'
  have hfinal : BuddyInv (linked z' c) ∅ ∅ :=
    inv_linked (by rw [insert_empty_eq]; exact hinv') (notMem_empty c) hend
  have hnum : z'.pageNum = m + 1 := hkept'.pageNum.trans hkept.pageNum
  obtain ⟨halign, horder⟩ := hinv'.aligned c (.inr rfl)
  have hinside : c.start + c.size ≤ m + 1 := hnum ▸ hinv'.tiles.inside c (.inr rfl)
  have hmem : m ∈ c.places := hsub (Block.start_mem ⟨m, 0⟩)
  have hstop : c.start + c.size = m + 1 := by
    have := (Block.mem_places.mp hmem).2
    omega
  rcases lt_or_ge c.order (BUDDY_MAX_ORDER - 1) with hlt | hge
  · have hidx : c.buddy.start < m + 1 := by
      refine hin _ (mem_initIndices.mpr ⟨m, z, lt_succ_self m, hz, ?_⟩)
      rw [freeIndices_eq hinv hb]
      exact hlast hlt
    -- so the buddy lies before the block, and the two make up an aligned block of the memory
    obtain ⟨hmerged, ⟨hlow, hhigh⟩ | ⟨hhigh, hlow⟩⟩ := Block.halves halign
    · have hc : c.start = c.merged.start := (congrArg Block.start hlow).trans rfl
      have hb' : c.buddy.start = c.merged.start + c.size := by
        rw [hhigh]
        rfl
      omega
    have hc : c.start = c.merged.start + c.size := congrArg Block.start hhigh
    have hsize : c.merged.size = c.size + c.size := by
      simp only [Block.size, Block.merged, pow_succ]
      ring
    obtain ⟨d, hd, hdo, hdsub⟩ := hfinal.covered (lt_succ_self (BUDDY_MAX_ORDER - 1))
      (fun b hb => absurd hb (notMem_empty b)) (show c.merged.order ≤ _ from hlt) hmerged
      (show c.merged.start + c.merged.size ≤ z'.pageNum by omega)
    have hmem' : m ∈ c.merged.places := by
      rw [Block.mem_places]
      have := Block.mem_places.mp hmem
      omega
    have hcfree : c ∈ (linked z' c).free := by
      rw [free_linked]
      exact mem_insert _ _
    obtain rfl : c = d := hfinal.tiles.unique (.inl (.inl hcfree)) (.inl hd) hmem
      (hdsub hmem')
    exact absurd hdo (not_succ_le_self _)
  · have ho : c.order = BUDDY_MAX_ORDER - 1 := by omega
    rw [← ho, ← hstop]
    exact Nat.dvd_add halign (Nat.dvd_refl _)

/-! ## 5. The condition -/

/-- An address that `virt_to_page` accepts is that of a page, or the end of the memory. -/
theorem virtToPage_lt_iff {addr i : Nat} (h : virtToPage z addr = some i) :
    i < z.pageNum ↔ addr ≠ z.startAddr + z.pageNum * BUDDY_PAGE_SIZE := by
  simp only [virtToPage] at h
  split at h
  · cases h
  rename_i hno
  cases h
  have hsize : BUDDY_PAGE_SIZE = 2 ^ 12 := rfl
  have hshift : BUDDY_PAGE_SHIFT = 12 := rfl
  rw [hsize] at hno ⊢
  rw [hshift]
  omega

/-- **The indices are inside the metadata** during `init_buddy` and in every call of every run, and
    so is the index of an address, exactly if the number of pages is a multiple of `2 ^ 13` and the
    address is not the end of the memory. -/
theorem buddy_indices_iff (startAddr pageNum addr : Nat) :
    IndicesInside startAddr pageNum addr ↔
      2 ^ 13 ∣ pageNum ∧ addr ≠ startAddr + pageNum * BUDDY_PAGE_SIZE := by
  obtain ⟨z₀, hz₀, hinv₀, hnum₀, hstart₀, -⟩ := initBuddy_spec startAddr pageNum
  have hI₀ := Buddy.runInv_zero hinv₀
  constructor
  · intro h
    refine ⟨multiple_of_init h.init, ?_⟩
    rintro rfl
    have hacc : virtToPage z₀ (startAddr + pageNum * BUDDY_PAGE_SIZE) = some pageNum := by
      have hsize : BUDDY_PAGE_SIZE = 2 ^ BUDDY_PAGE_SHIFT := rfl
      simp only [virtToPage, hnum₀, hstart₀, shiftRight_eq_div_pow, Nat.add_sub_cancel_left, hsize]
      rw [if_neg (by omega), Nat.mul_div_cancel _ (Nat.two_pow_pos _)]
    exact absurd (h.virt z₀ hz₀ [] _ rfl _ hacc) (lt_irrefl _)
  rintro ⟨hdvd, haddr⟩
  refine ⟨fun i hi => ?_, fun z hz acts tr htr i hi => ?_, fun z hz acts s hs i hi => ?_⟩
  · obtain ⟨p, z, hp, hz, hi⟩ := mem_initIndices.mp hi
    obtain ⟨z', hz', hinv, hkept⟩ := initLoop_spec startAddr pageNum p (le_of_lt hp)
    obtain rfl : z = z' := some.inj (hz.symm.trans hz')
    have hnum : z.pageNum = pageNum := hkept.pageNum
    rw [← hnum] at hdvd ⊢
    exact freeIndices_inside (b := ⟨p, 0⟩) hinv ⟨rfl, le_refl p, hp⟩ hdvd i hi
  · obtain rfl : z = z₀ := some.inj (hz.symm.trans hz₀)
    obtain ⟨hI, hkept⟩ := (trace_inv (C := fun _ _ => True)
      (fun _ _ _ h _ ha => Buddy.step_runInv h ha) acts _ hI₀ (fun _ _ => trivial) tr htr).1
    have hnum : tr.pre.zone.pageNum = pageNum := hkept.pageNum.trans hnum₀
    rw [← hnum] at hdvd ⊢
    exact Buddy.indices_inside hI hdvd (trace_step acts _ htr) i hi
  obtain rfl : z = z₀ := some.inj (hz.symm.trans hz₀)
  have hkept := (exec_inv (fun _ _ _ h ha => Buddy.step_runInv h ha) acts _ s hI₀ hs).2
  have hnum : s.zone.pageNum = pageNum := hkept.pageNum.trans hnum₀
  have hstart : s.zone.startAddr = startAddr := hkept.startAddr.trans hstart₀
  rw [← hnum, virtToPage_lt_iff hi, hstart, hnum]
  exact haddr

/-- With one page `init_buddy` looks at a second one, and the end of the memory is taken for it. -/
theorem buddy_index_outside : ¬ IndicesInside 0x100000 1 0x100000 ∧
    1 ∈ initIndices (zoneZero 0x100000 1) 1 ∧
    ∃ z, initBuddy 0x100000 1 = some z ∧ virtToPage z (0x100000 + 4096) = some 1 := by
  have hmem : 1 ∈ initIndices (zoneZero 0x100000 1) 1 := by decide
  obtain ⟨z, hz, -, hnum, hstart, -⟩ := initBuddy_spec 0x100000 1
  refine ⟨fun h => absurd (h.init 1 hmem) (lt_irrefl 1), hmem, z, hz, ?_⟩
  simp only [virtToPage, hnum, hstart]
  rfl

end ChCore.Mm
