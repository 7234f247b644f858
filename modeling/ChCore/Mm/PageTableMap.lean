/-
  File: ChCore/Mm/PageTableMap.lean
  Subject: What `map_range_in_pgtbl` does to the translations of an address space.

  * `Pgtbl` -- an address space whose tables are in order; `map_range_translates` -- every
    address after a call on aarch64.
-/
import ChCore.Mm.PageTable

namespace ChCore.Mm

open Lib Option List Nat

variable {F : PteFormat} {pgtbl l3 : Frame} {flags : VmrProp} {s s' : PtState}
  {v w va pa len cnt k : Nat}

/-! ## 1. Pages that are mapped -/

/-- The page numbers from `v` on, `k` of them. -/
def InPages (v k w : Nat) : Prop := v ≤ w ∧ w < v + k

/-- The 36 bits of the page number are those of none of the `k` pages from `v` on. -/
def OffPages (v k w : Nat) : Prop := ∀ j < k, (v + j) % 2 ^ 36 ≠ w % 2 ^ 36

/-- **`k` pages from `v` on are mapped** to the frames from `pfn` on, and nothing else. -/
structure Mapped (F : PteFormat) (pgtbl : Frame) (flags : VmrProp) (v pfn k : Nat)
    (s s' : PtState) : Prop where
  inv : PtInv F s' pgtbl
  tables : Extends F pgtbl (InPages v k) s s'
  hit : k ≤ 2 ^ 36 → ∀ j < k, translation F s'.mem pgtbl (v + j) =
    some (0, F.pagePte (BitVec.ofNat 36 (pfn + j)) flags)
  miss : ∀ w, OffPages v k w → translation F s'.mem pgtbl w = translation F s.mem pgtbl w
  stored : ∀ j < k, ∃ f e new, s'.walk F pgtbl (tablePath (v + j)) = some f ∧
    s'.log = new ++ s.log ∧ (f, (v + j) % 512, e) ∈ new

theorem Mapped.none (h : PtInv F s pgtbl) (flags : VmrProp) (v pfn : Nat) :
    Mapped F pgtbl flags v pfn 0 s s :=
  ⟨h, Extends.refl F pgtbl _ s, nofun, fun _ _ => rfl, nofun⟩

/-- First `k` pages, then `k'` more. -/
theorem Mapped.append {s1 s2 : PtState} {pfn k' : Nat} (h : Mapped F pgtbl flags v pfn k s s1)
    (h' : Mapped F pgtbl flags (v + k) (pfn + k) k' s1 s2) :
    Mapped F pgtbl flags v pfn (k + k') s s2 where
  inv := h'.inv
  tables := by
    have h₁ : Extends F pgtbl (InPages v (k + k')) s s1 :=
      h.tables.mono fun w hw => ⟨hw.1, by have := hw.2; omega⟩
    have h₂ : Extends F pgtbl (InPages v (k + k')) s1 s2 :=
      h'.tables.mono fun w hw => ⟨by have := hw.1; omega, by have := hw.2; omega⟩
    exact h₁.trans h₂ h'.inv
  hit hk j hj := by
    by_cases hjk : j < k
    · rw [h'.miss (v + j) fun i hi => by omega]
      exact h.hit (by omega) j hjk
    · obtain ⟨i, rfl⟩ := Nat.exists_eq_add_of_le (not_lt.mp hjk)
      rw [← add_assoc, ← add_assoc]
      exact h'.hit (by omega) i (by omega)
  miss w hw := by
    rw [h'.miss w fun j hj => add_assoc v k j ▸ hw (k + j) (by omega)]
    exact h.miss w fun j hj => hw j (by omega)
  stored j hj := by
    obtain ⟨new1, hlog1, -⟩ := h.tables.log
    by_cases hjk : j < k
    · obtain ⟨f, e, new, hw, hlog, hmem⟩ := h.stored j hjk
      obtain ⟨new', hlog', -⟩ := h'.tables.log
      exact ⟨f, e, new' ++ new, h'.tables.keeps _ _ hw,
        by rw [hlog', hlog, append_assoc], mem_append_right _ hmem⟩
    · obtain ⟨i, rfl⟩ := Nat.exists_eq_add_of_le (not_lt.mp hjk)
      obtain ⟨f, e, new, hw, hlog, hmem⟩ := h'.stored i (by omega)
      rw [add_assoc] at hw hmem
      exact ⟨f, e, new ++ new1, hw, by rw [hlog, hlog1, append_assoc], mem_append_left _ hmem⟩

/-- The tables are filled in first. -/
theorem Grown.mapped {s1 : PtState} {pfn : Nat} (h : Grown F pgtbl v s s1) (hk : 0 < k)
    (h' : Mapped F pgtbl flags v pfn k s1 s') : Mapped F pgtbl flags v pfn k s s' where
  inv := h'.inv
  tables := by
    have h₁ : Extends F pgtbl (InPages v k) s s1 := h.tables.mono fun w hw => by
      rw [hw]
      exact ⟨le_refl v, by omega⟩
    exact h₁.trans h'.tables h'.inv
  hit := h'.hit
  miss w hw := (h'.miss w hw).trans (h.translation w)
  stored j hj := by
    obtain ⟨new1, hlog1, -⟩ := h.tables.log
    obtain ⟨f, e, new, hw, hlog, hmem⟩ := h'.stored j hj
    exact ⟨f, e, new ++ new1, hw, by rw [hlog, hlog1, append_assoc], mem_append_left _ hmem⟩

theorem length_tablePath (v : Nat) : (tablePath v).length = 3 := rfl

/-- A store into the entry of a page, seen from the tables. -/
theorem PtInv.extends_store (h : PtInv F s pgtbl) (hp : s.walk F pgtbl (tablePath v) = some l3)
    (e : Pte) : Extends F pgtbl (· = v) s (s.store l3 (v % 512) e) := by
  have hwalk := h.walk_store_last hp (length_tablePath v) (v % 512) e
  have hself : Written F pgtbl (· = v) s (s.store l3 (v % 512) e) l3 (v % 512) :=
    ⟨v, tablePath v, rfl, (hwalk _).trans hp, prefix_refl _, .inl rfl⟩
  refine ⟨fun q g hw => ?_, fun q g hw => ?_, suffix_refl _, fun f i => ?_, ?_,
    fun q f i hw hq _ => ?_⟩
  · rw [hwalk]
    exact hw
  · rw [hwalk] at hw
    exact .inl hw
  · by_cases hc : f = l3 ∧ i = v % 512
    · obtain ⟨rfl, rfl⟩ := hc
      exact .inr (.inr hself)
    · exact .inl (Tables.set_of_ne _ _ hc)
  · refine ⟨[(l3, v % 512, e)], rfl, fun x hx => ?_⟩
    rw [mem_singleton.mp hx]
    refine ⟨hself, fun q hq hlen => ?_⟩
    rw [hwalk] at hq
    rw [h.tree q (tablePath v) l3 hq hp] at hlen
    exact absurd hlen (lt_irrefl 3)
  -- the stored entry is not above the last level
  rw [hwalk] at hw
  refine .inl ⟨hw, Tables.set_of_ne _ _ fun hc => ?_⟩
  rw [hc.1] at hw
  rw [h.tree q (tablePath v) l3 hw hp] at hq
  exact absurd hq (lt_irrefl 3)

/-- One page. -/
theorem PtInv.mapped_one {pfn : Nat} (h : PtInv F s pgtbl)
    (hp : s.walk F pgtbl (tablePath v) = some l3) :
    Mapped F pgtbl flags v pfn 1 s
      (s.store l3 (v % 512) (F.pagePte (BitVec.ofNat 36 pfn) flags)) where
  inv := h.store_last hp rfl _ _
  tables := (h.extends_store hp _).mono fun w hw => by
    rw [hw]
    exact ⟨le_refl v, lt_succ_self v⟩
  hit _ j hj := by
    obtain rfl : j = 0 := by omega
    rw [add_zero, h.translation_store hp, if_pos rfl, F.present_page]
    rfl
  miss w hw := by
    rw [h.translation_store hp, if_neg fun hc => hw 0 (by omega) hc.symm]
  stored j hj := by
    obtain rfl : j = 0 := by omega
    exact ⟨l3, _, [_], (h.walk_store_last hp rfl _ _ _).trans hp, rfl, mem_cons_self⟩

/-! ## 2. The loops -/

theorem tablePath_succ (h : v % 512 + 1 < 512) : tablePath (v + 1) = tablePath v := by
  simp only [tablePath, List.cons.injEq, and_true]
  omega

theorem succ_page (va : Nat) : (va + PT_PAGE_SIZE) / PT_PAGE_SIZE = va / PT_PAGE_SIZE + 1 :=
  add_div_right va (by decide)

theorem add_pages (va k : Nat) : (va + k * PT_PAGE_SIZE) / PT_PAGE_SIZE = va / PT_PAGE_SIZE + k :=
  add_mul_div_right va k (by decide)

theorem entries_left (v : Nat) : PTP_ENTRIES - v % 512 = 511 - v % 512 + 1 := by
  unfold PTP_ENTRIES
  omega

/-- **The loop over one table**: as many pages as there are entries left in it, or as are asked
    for. -/
theorem mapPtes_spec (flags : VmrProp) (n : Nat) : ∀ {s : PtState} (va pa cnt : Nat),
    PtInv F s pgtbl → s.walk F pgtbl (tablePath (va / PT_PAGE_SIZE)) = some l3 →
    va / PT_PAGE_SIZE % 512 + (n + 1) = 512 → 0 < cnt →
    ∃ s' k, 0 < k ∧ k ≤ cnt ∧
      mapPtes F flags l3 (n + 1) s (va / PT_PAGE_SIZE % 512) va pa cnt =
        (s', va + k * PT_PAGE_SIZE, pa + k * PT_PAGE_SIZE, cnt - k) ∧
      Mapped F pgtbl flags (va / PT_PAGE_SIZE) (pa / PT_PAGE_SIZE) k s s' := by
  induction n with
  | zero =>
    intro s va pa cnt h hp _ hcnt
    refine ⟨_, 1, Nat.one_pos, hcnt, ?_, h.mapped_one hp⟩
    simp only [mapPtes, one_mul]
    split <;> rfl
  | succ n ih =>
    intro s va pa cnt h hp hn hcnt
    have hone : Mapped F pgtbl flags (va / PT_PAGE_SIZE) (pa / PT_PAGE_SIZE) 1 s _ :=
      h.mapped_one hp
    unfold mapPtes
    by_cases hlast : cnt - 1 = 0
    · refine ⟨_, 1, Nat.one_pos, hcnt, ?_, hone⟩
      simp only [if_pos hlast, one_mul]
    -- the next entry is in the same table
    have hp' := hone.tables.keeps _ _ hp
    rw [← tablePath_succ (by omega), ← succ_page] at hp'
    obtain ⟨s', k, hk, hkc, hr, hm⟩ := ih (va + PT_PAGE_SIZE) (pa + PT_PAGE_SIZE) (cnt - 1)
      hone.inv hp' (by rw [succ_page]; omega) (by omega)
    rw [succ_page, succ_page] at hm
    refine ⟨s', 1 + k, by omega, by omega, ?_, hone.append hm⟩
    rw [succ_page, show (va / PT_PAGE_SIZE + 1) % 512 = va / PT_PAGE_SIZE % 512 + 1 by omega] at hr
    simp only [if_neg hlast]
    rw [hr]
    simp only [Prod.mk.injEq, true_and, add_mul, one_mul]
    omega

/-- **The whole loop.** -/
theorem mapLoop_spec (n : Nat) : ∀ {s s' : PtState} {va pa cnt : Nat}, PtInv F s pgtbl →
    cnt ≤ n → mapLoop F flags pgtbl n s va pa cnt = some s' →
    Mapped F pgtbl flags (va / PT_PAGE_SIZE) (pa / PT_PAGE_SIZE) cnt s s' := by
  induction n with
  | zero =>
    intro s s' va pa cnt h hcnt hr
    cases hr
    rw [le_zero.mp hcnt]
    exact Mapped.none h flags _ _
  | succ n ih =>
    intro s s' va pa cnt h hcnt hr
    unfold mapLoop at hr
    split at hr
    · rename_i h0
      cases hr
      rw [h0]
      exact Mapped.none h flags _ _
    obtain ⟨⟨s1, l3⟩, hd, hr⟩ := bind_eq_some_iff.mp hr
    obtain ⟨hgrow, hp⟩ := descendAlloc_spec h hd
    obtain ⟨s2, k, hk, hkc, hm, hmapped⟩ := mapPtes_spec flags (511 - va / PT_PAGE_SIZE % 512) va pa
      cnt hgrow.inv hp (by omega) (by omega)
    simp only [ptIndex_three, entries_left, hm] at hr
    have hrest := ih hmapped.inv (by omega) hr
    rw [add_pages, add_pages] at hrest
    have hall := (hgrow.mapped hk hmapped).append hrest
    rwa [Nat.add_sub_cancel' hkc] at hall

/-- **`map_range_in_pgtbl`**: the pages of the range are mapped. -/
theorem mapRange_spec (h : PtInv F s pgtbl)
    (hr : mapRangeInPgtbl F s pgtbl va pa len flags = some s') :
    Mapped F pgtbl flags (va / PT_PAGE_SIZE) (pa / PT_PAGE_SIZE) (pageCount len) s s' := by
  obtain ⟨-, hr⟩ := ite_none_left_eq_some.mp hr
  exact mapLoop_spec _ h le_rfl hr

/-! ## 3. The call returns -/

/-- **No huge page on the way**: an entry on the way to the table of `v` is empty or leads to a
    table. -/
def PlainWay (F : PteFormat) (s : PtState) (pgtbl : Frame) (v : Nat) : Prop :=
  ∀ q f i, s.walk F pgtbl q = some f → q ++ [i] <+: tablePath v →
    F.present (s.mem f i) = true → ∃ g, pteKind F (3 - q.length) (s.mem f i) = .table g

/-- The pages of `get_pages` have a kernel address. -/
def PoolOk (F : PteFormat) (s : PtState) : Prop :=
  ∀ g ∈ s.pages, g ≠ NULL_PTP ∧ F.directMap g = true

theorem Extends.plainWay {R : Nat → Prop} (h : Extends F pgtbl R s s')
    (hv : PlainWay F s pgtbl v) : PlainWay F s' pgtbl v := by
  intro q f i hw hpre hpres
  have hlen := hpre.length_le
  rw [length_append, length_singleton, length_tablePath] at hlen
  rcases h.plain q f i hw (by omega) hpres with ⟨hw', hsame⟩ | hk
  · rw [hsame] at hpres ⊢
    exact hv q f i hw' hpre hpres
  · exact hk

theorem Extends.poolOk {R : Nat → Prop} (h : Extends F pgtbl R s s') (hpool : PoolOk F s) :
    PoolOk F s' := fun g hg => hpool g (h.pages.subset hg)

theorem getNextPtpAlloc_isSome {p : List Nat} {cur : Frame} {level : Nat} (h : PtInv F s pgtbl)
    (hp : s.walk F pgtbl p = some cur) (hlt : level < 3) (hlevel : p.length = level)
    (hpre : p ++ [ptIndex level va] <+: tablePath v) (hv : PlainWay F s pgtbl v)
    (hpool : PoolOk F s) (hpages : 0 < s.pages.length) :
    ∃ s' g, orBug (getNextPtpAlloc F s cur level va) = some (s', g) ∧
      s.pages.length ≤ s'.pages.length + 1 := by
  have hcur : cur ≠ NULL_PTP := h.not_null hp
  unfold getNextPtpAlloc
  cases hpres : F.present (s.mem cur (ptIndex level va)) with
  | true =>
    obtain ⟨g, hg⟩ := hv p cur _ hp hpre hpres
    obtain ⟨-, -, hb, hnext, hnull⟩ := pteKind_eq_table hg
    have hl : 3 - (3 - p.length) = level := by omega
    rw [hl] at hb
    refine ⟨s, g, ?_, by omega⟩
    simp [getNextPtp, hcur, hpres, hb, hnext, hnull, orBug]
  | false =>
  cases hs : s.pages with
  | nil =>
    rw [hs] at hpages
    exact absurd hpages (lt_irrefl 0)
  | cons g rest =>
  obtain ⟨hnull, hdm⟩ := hpool g (by rw [hs]; exact mem_cons_self)
  have hself : (PtState.store { s with mem := s.mem.fill g 0, pages := rest } cur
      (ptIndex level va) (F.tablePte g)).mem cur (ptIndex level va) = F.tablePte g :=
    Tables.set_same _ _ _ _
  refine ⟨PtState.store { s with mem := s.mem.fill g 0, pages := rest } cur
      (ptIndex level va) (F.tablePte g), g, ?_, le_rfl⟩
  have hok : ¬ (g = NULL_PTP ∨ F.directMap g = false) := by simp [hnull, hdm]
  simp only [Bool.false_eq_true, if_false, if_neg hok, getNextPtp, if_neg hcur, hself,
    F.present_table, if_true, F.next_table, F.isBlock_table level g hlt, orBug, if_neg hnull]

/-- Three new tables are enough for one walk. -/
theorem descendAlloc_isSome (h : PtInv F s pgtbl) (hv : PlainWay F s pgtbl (va / PT_PAGE_SIZE))
    (hpool : PoolOk F s) (hpages : 3 ≤ s.pages.length) :
    ∃ s' l3, descendAlloc F s pgtbl va = some (s', l3) ∧
      s.pages.length ≤ s'.pages.length + 3 := by
  have hpath := tablePath_div va
  have hpre0 : [] ++ [ptIndex 0 va] <+: tablePath (va / PT_PAGE_SIZE) := by
    rw [hpath]
    exact ⟨[_, _], rfl⟩
  obtain ⟨s1, l1, h1, hn1⟩ := getNextPtpAlloc_isSome h walk_nil (show 0 < 3 by omega) rfl hpre0 hv
    hpool (by omega)
  obtain ⟨hgrow1, hw1⟩ := getNextPtpAlloc_spec h walk_nil (show 0 < 3 by omega) rfl hpre0 h1
  have hpre1 : ([] ++ [ptIndex 0 va]) ++ [ptIndex 1 va] <+: tablePath (va / PT_PAGE_SIZE) := by
    rw [hpath]
    exact ⟨[_], rfl⟩
  have hv1 := hgrow1.tables.plainWay hv
  have hpool1 := hgrow1.tables.poolOk hpool
  obtain ⟨s2, l2, h2, hn2⟩ := getNextPtpAlloc_isSome hgrow1.inv hw1 (show 1 < 3 by omega) rfl hpre1
    hv1 hpool1 (by omega)
  obtain ⟨hgrow2, hw2⟩ := getNextPtpAlloc_spec hgrow1.inv hw1 (show 1 < 3 by omega) rfl hpre1 h2
  have hpre2 : ([] ++ [ptIndex 0 va] ++ [ptIndex 1 va]) ++ [ptIndex 2 va] <+:
      tablePath (va / PT_PAGE_SIZE) := by
    rw [hpath]
    exact ⟨[], rfl⟩
  obtain ⟨s3, l3, h3, hn3⟩ := getNextPtpAlloc_isSome hgrow2.inv hw2 (show 2 < 3 by omega) rfl hpre2
    (hgrow2.tables.plainWay hv1) (hgrow2.tables.poolOk hpool1) (by omega)
  refine ⟨s3, l3, ?_, by omega⟩
  simp only [descendAlloc, h1, h2, h3, bind_some]

theorem mapPtes_pages (F : PteFormat) (l3 : Frame) (flags : VmrProp) (n : Nat) : ∀ (s : PtState) (i va pa cnt : Nat),
    (mapPtes F flags l3 n s i va pa cnt).1.pages = s.pages := by
  induction n with
  | zero =>
    intro s i va pa cnt
    rfl
  | succ n ih =>
    intro s i va pa cnt
    unfold mapPtes
    by_cases hlast : cnt - 1 = 0
    · simp only [if_pos hlast]
      rfl
    · simp only [if_neg hlast, ih]
      rfl

/-- **The loop returns** where no page of the range has a huge page on its way and three pages can
    be had for each. -/
theorem mapLoop_isSome (flags : VmrProp) (n : Nat) : ∀ {s : PtState} (va pa cnt : Nat),
    PtInv F s pgtbl → (∀ w, InPages (va / PT_PAGE_SIZE) cnt w → PlainWay F s pgtbl w) →
    PoolOk F s → 3 * cnt ≤ s.pages.length →
    (mapLoop F flags pgtbl n s va pa cnt).isSome := by
  induction n with
  | zero =>
    intro s va pa cnt _ _ _ _
    rfl
  | succ n ih =>
    intro s va pa cnt h hv hpool hpages
    unfold mapLoop
    by_cases h0 : cnt = 0
    · rw [if_pos h0]
      rfl
    have hway := hv (va / PT_PAGE_SIZE) ⟨le_rfl, by omega⟩
    obtain ⟨s1, l3, hd, hn1⟩ := descendAlloc_isSome h hway hpool (by omega)
    obtain ⟨hgrow, hp⟩ := descendAlloc_spec h hd
    obtain ⟨s2, k, hk, hkc, hm, hmapped⟩ := mapPtes_spec flags (511 - va / PT_PAGE_SIZE % 512) va pa
      cnt hgrow.inv hp (by omega) (by omega)
    have hsame := mapPtes_pages F l3 flags (511 - va / PT_PAGE_SIZE % 512 + 1) s1
      (va / PT_PAGE_SIZE % 512) va pa cnt
    rw [hm] at hsame
    have hall := hgrow.mapped hk hmapped
    rw [if_neg h0, hd, bind_some]
    simp only [ptIndex_three, entries_left, hm]
    refine ih _ _ _ hmapped.inv (fun w hw => ?_) (hall.tables.poolOk hpool) ?_
    · rw [add_pages] at hw
      exact hall.tables.plainWay (hv w ⟨by have := hw.1; omega, by have := hw.2; omega⟩)
    · rw [hsame]
      omega

theorem mapRange_isSome (h : PtInv F s pgtbl) (hva : va % PT_PAGE_SIZE = 0)
    (hway : ∀ w, InPages (va / PT_PAGE_SIZE) (pageCount len) w → PlainWay F s pgtbl w)
    (hpool : PoolOk F s) (hpages : 3 * pageCount len ≤ s.pages.length) (pa : Nat)
    (flags : VmrProp) : (mapRangeInPgtbl F s pgtbl va pa len flags).isSome := by
  unfold mapRangeInPgtbl
  rw [if_neg fun hc => hc.2 hva]
  exact mapLoop_isSome flags _ va pa _ h hway hpool hpages

/-! ## 4. Address spaces -/

/-- **The page table of an address space**: the page `vmspace->pgtbl` and tables that are in
    order. -/
structure Pgtbl (F : PteFormat) where
  state : PtState
  root : Frame
  inv : PtInv F state root

theorem walk_zero {q : List Nat} {g : Frame}
    (h : walk (pteKind F) (fun _ _ => (0 : Pte)) 3 pgtbl q = some g) : q = [] ∧ g = pgtbl := by
  cases q with
  | nil =>
    cases h
    exact ⟨rfl, rfl⟩
  | cons i q =>
    obtain ⟨k, f, -, hk, -⟩ := walk_cons_some h
    rw [pteKind_zero] at hk
    cases hk

/-- A page table of which only the root page is there, and it is clear. -/
def Pgtbl.empty (F : PteFormat) (root : Frame) (pages : List Frame) (hroot : root ≠ NULL_PTP)
    (hpages : (root :: pages).Nodup) : Pgtbl F where
  state := ⟨fun _ _ => 0, pages, []⟩
  root := root
  inv :=
    { root := hroot
      top := fun i hi => by
        rw [F.present_zero] at hi
        cases hi
      tree := fun p q f hp hq => (walk_zero hp).1.trans (walk_zero hq).1.symm
      nodup := (nodup_cons.mp hpages).2
      fresh := fun g hg p hw => by
        obtain ⟨-, rfl⟩ := walk_zero hw
        exact (nodup_cons.mp hpages).1 hg }

/-- `query_in_pgtbl`. -/
def Pgtbl.query (t : Pgtbl F) (va : Nat) : QueryResult := queryInPgtbl F t.state.mem t.root va

/-- The page table after `map_range_in_pgtbl`. -/
def Pgtbl.map (t : Pgtbl F) (va pa len : Nat) (flags : VmrProp) : Option (Pgtbl F) :=
  (mapRangeInPgtbl F t.state t.root va pa len flags).attach.map fun s' =>
    ⟨s'.1, t.root, (mapRange_spec t.inv s'.2).inv⟩

theorem Pgtbl.map_spec {t t' : Pgtbl F} (h : t.map va pa len flags = some t') :
    t'.root = t.root ∧
      Mapped F t.root flags (va / PT_PAGE_SIZE) (pa / PT_PAGE_SIZE) (pageCount len) t.state
        t'.state := by
  obtain ⟨⟨s', hs'⟩, -, rfl⟩ := map_eq_some_iff.mp h
  exact ⟨rfl, mapRange_spec t.inv hs'⟩

/-! ## 5. aarch64 -/

/-- The address lies in one of the pages of a range. -/
def Covers (va len x : Nat) : Prop := va ≤ x ∧ x < va + pageCount len * PT_PAGE_SIZE
  deriving Decidable

theorem pageCount_le (hva : va % PT_PAGE_SIZE = 0) (hlen : va + len ≤ 2 ^ 48) :
    va / PT_PAGE_SIZE + pageCount len ≤ 2 ^ 36 := by
  unfold pageCount
  unfold PT_PAGE_SIZE at *
  split <;> omega

theorem Covers.page {x : Nat} (hva : va % PT_PAGE_SIZE = 0) (h : Covers va len x) :
    ∃ j < pageCount len, x / PT_PAGE_SIZE = va / PT_PAGE_SIZE + j ∧
      x = va + j * PT_PAGE_SIZE + x % PT_PAGE_SIZE := by
  obtain ⟨hlo, hhi⟩ := h
  unfold PT_PAGE_SIZE at *
  exact ⟨x / 4096 - va / 4096, by omega, by omega, by omega⟩

/-- The low 48 bits of an address that is not covered are those of no page that is mapped. -/
theorem offPages_of_not_covers {x : Nat} (hva : va % PT_PAGE_SIZE = 0) (hlen : va + len ≤ 2 ^ 48)
    (h : ¬ Covers va len (x % 2 ^ 48)) :
    OffPages (va / PT_PAGE_SIZE) (pageCount len) (x / PT_PAGE_SIZE) := by
  have hn := pageCount_le hva hlen
  intro j hj heq
  refine h ?_
  unfold Covers
  unfold PT_PAGE_SIZE at *
  omega

/-- **Mapping a range on aarch64.** After a call that returns, a covered address is translated to
    the address at the same distance from the page of `pa`, in the 48 bits that an entry holds,
    with the permissions and the memory type of `flags`; an address whose low 48 bits are not
    covered is translated as before. Without a huge page on the way, and with pages for the tables,
    the call returns. -/
theorem map_range_translates (t : Pgtbl aarch64) (va pa len : Nat) (flags : VmrProp)
    (hva : va % PT_PAGE_SIZE = 0) (hlen : va + len ≤ 2 ^ 48) :
    (∀ t', t.map va pa len flags = some t' →
      (∀ x, Covers va len x → ∃ pte,
        t'.query x = .found ((pa / PT_PAGE_SIZE * PT_PAGE_SIZE + (x - va)) % 2 ^ 48) pte ∧
        pteAP pte = flagsAP flags ∧ pteUXN pte = flagsUXN flags ∧
        pteAttr pte = flagsAttr flags) ∧
      ∀ x, ¬ Covers va len (x % 2 ^ 48) → t'.query x = t.query x) ∧
    ((∀ x, Covers va len x → PlainWay aarch64 t.state t.root (x / PT_PAGE_SIZE)) →
      (∀ g ∈ t.state.pages, g ≠ NULL_PTP) → 3 * pageCount len ≤ t.state.pages.length →
      (t.map va pa len flags).isSome) := by
  have hn := pageCount_le hva hlen
  refine ⟨fun t' ht' => ⟨fun x hx => ?_, fun x hx => ?_⟩, fun hway hpool hpages => ?_⟩
  · obtain ⟨hroot, hmap⟩ := Pgtbl.map_spec ht'
    obtain ⟨j, hj, hpage, hxj⟩ := hx.page hva
    refine ⟨aarch64.pagePte (BitVec.ofNat 36 (pa / PT_PAGE_SIZE + j)) flags, ?_,
      aarch64Flags_fields _ flags⟩
    have hhit := hmap.hit (le_trans (Nat.le_add_left _ _) hn) j hj
    unfold Pgtbl.query
    rw [hroot, hmap.inv.query, hpage, hhit]
    -- the frame number has 36 bits
    have hnext : nextTableAddr (aarch64.pagePte (BitVec.ofNat 36 (pa / PT_PAGE_SIZE + j)) flags) =
        BitVec.ofNat 36 (pa / PT_PAGE_SIZE + j) := aarch64.next_page _ flags
    have hpa : (pa / PT_PAGE_SIZE + j) % 2 ^ 36 * PT_PAGE_SIZE + x % 2 ^ (12 + 9 * 0) =
        (pa / PT_PAGE_SIZE * PT_PAGE_SIZE + (x - va)) % 2 ^ 48 := by
      unfold PT_PAGE_SIZE at *
      omega
    simp only [queryResult, translated, hnext, BitVec.toNat_ofNat, hpa]
    rfl
  · obtain ⟨hroot, hmap⟩ := Pgtbl.map_spec ht'
    unfold Pgtbl.query
    rw [hroot, hmap.inv.query, t.inv.query, hmap.miss _ (offPages_of_not_covers hva hlen hx)]
  have hways : ∀ w, InPages (va / PT_PAGE_SIZE) (pageCount len) w →
      PlainWay aarch64 t.state t.root w := by
    intro w hw
    have hcov := hway (w * PT_PAGE_SIZE) (by
      obtain ⟨h1, h2⟩ := hw
      unfold Covers
      unfold PT_PAGE_SIZE at *
      omega)
    rwa [Nat.mul_div_cancel w (by decide)] at hcov
  have hsome := mapRange_isSome t.inv hva hways (fun g hg => ⟨hpool g hg, rfl⟩) hpages pa flags
  unfold Pgtbl.map
  rw [isSome_map, isSome_attach]
  exact hsome

/-- An empty page table with frames for three tables. -/
def smallTable (F : PteFormat) : Pgtbl F :=
  Pgtbl.empty F 1 [2, 3, 4] (by decide) (by decide)

theorem smallTable_plain (F : PteFormat) (v : Nat) :
    PlainWay F (smallTable F).state (smallTable F).root v :=
  fun _ _ _ _ _ hpres => absurd (F.present_zero.symm.trans hpres) (by decide)

theorem map_range_translates_page :
    ∃ t', (smallTable aarch64).map 0x400000 0x80000 0x1000 VMR_WRITE = some t' ∧
      ∃ pte, t'.query 0x400123 = .found 0x80123 pte ∧ pteAP pte = AP_HIGH_RW_EL0_RW := by
  obtain ⟨hmap, hsome⟩ := map_range_translates (smallTable aarch64) 0x400000 0x80000 0x1000
    VMR_WRITE (by decide) (by decide)
  have hpool : ∀ g ∈ (smallTable aarch64).state.pages, g ≠ NULL_PTP := by
    simp [smallTable, Pgtbl.empty, NULL_PTP]
  obtain ⟨t', ht'⟩ := isSome_iff_exists.mp 
    (hsome (fun _ _ => smallTable_plain aarch64 _) hpool (le_refl 3))
  obtain ⟨pte, hq, hap, -⟩ := (hmap t' ht').1 0x400123 (by decide)
  exact ⟨t', ht', pte, hq, hap⟩

/-- The physical address a query finds after a call on the small table. -/
def foundAfter (pa va : Nat) : Option Nat :=
  (mapRangeInPgtbl aarch64 (smallTable aarch64).state 1 0x400000 pa 0x1000 VMR_WRITE).bind
    fun s' => match queryInPgtbl aarch64 s'.mem 1 va with
      | .found pa _ => some pa
      | _ => none

/-- **What an entry has no place for**: the low bits of `pa` are lost, and so is what lies above its
    48 bits; an address that is `2^48` above the range is translated with it. -/
theorem map_range_not_exact :
    foundAfter 0x80800 0x400000 = some 0x80000 ∧
    foundAfter (2 ^ 48) 0x400000 = some 0 ∧
    (smallTable aarch64).query (2 ^ 48 + 0x400000) = .noMapping ∧
    foundAfter 0x80000 (2 ^ 48 + 0x400000) = some 0x80000 := by
  decide +kernel

end ChCore.Mm
