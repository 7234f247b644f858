/-
  File: ChCore/Mm/PageTableEdit.lean
  Subject: The loop of `unmap_range_in_pgtbl` and `mprotect_in_pgtbl`: which pages of a range it
    comes to, and what it does to them.

  Where a table is missing the loop goes on by the size of the entry that would hold it, whatever
  place in that entry it has come to.

  * `reached_of_fits` -- where the range fits the entries of every level, no page is passed over.
-/
import ChCore.Mm.PageTableMap

namespace ChCore.Mm

open Lib List Nat

variable {F : PteFormat} {pgtbl l3 : Frame} {s s' : PtState} {v w va cnt k : Nat}
  {edit : Pte → Option Pte} {P Q : Nat → Prop}

/-! ## 1. The pages the loop stops at -/

/-- The table of the last level for a page, or the number of pages of the first entry that is
    missing on the way to it. -/
def span (F : PteFormat) (s : PtState) (pgtbl : Frame) (v : Nat) : Except Nat Frame :=
  match s.walk F pgtbl [v / 2 ^ 27 % 512] with
  | none => .error (2 ^ 27)
  | some _ =>
    match s.walk F pgtbl [v / 2 ^ 27 % 512, v / 2 ^ 18 % 512] with
    | none => .error (2 ^ 18)
    | some _ =>
      match s.walk F pgtbl (tablePath v) with
      | none => .error (2 ^ 9)
      | some l3 => .ok l3

/-- On a plain way `get_next_ptp` answers what the walk says. -/
theorem getNextPtp_plain (va : Nat) {p : List Nat} {cur : Frame} {level : Nat}
    (h : PtInv F s pgtbl) (hp : s.walk F pgtbl p = some cur) (hlt : level < 3) (hlevel : p.length = level)
    (hpre : p ++ [ptIndex level va] <+: tablePath v) (hv : PlainWay F s pgtbl v) :
    match s.walk F pgtbl (p ++ [ptIndex level va]) with
    | none => getNextPtp F s.mem cur level va = none
    | some g => ∃ e b, getNextPtp F s.mem cur level va = some (g, e, b) := by
  have hcur : cur ≠ NULL_PTP := h.not_null hp
  have hwalk : s.walk F pgtbl (p ++ [ptIndex level va]) =
      Lib.walk (pteKind F) s.mem (3 - p.length) cur [ptIndex level va] := walk_append hp _
  obtain ⟨n, hn⟩ : ∃ n, 3 - p.length = n + 1 := ⟨2 - p.length, by omega⟩
  rw [hwalk, hn]
  cases hpres : F.present (s.mem cur (ptIndex level va)) with
  | false =>
    have hk : pteKind F (n + 1) (s.mem cur (ptIndex level va)) = .hole := pteKind_of_absent hpres _
    simp [Lib.walk, hk, getNextPtp, hcur, hpres]
  | true =>
  obtain ⟨g, hg⟩ := hv p cur _ hp hpre hpres
  obtain ⟨-, -, -, hnext, -⟩ := pteKind_eq_table hg
  rw [hn] at hg
  rw [walk_cons_table hg]
  simp [getNextPtp, hcur, hpres, hnext]

/-- **The three calls of `get_next_ptp`** in a round of the loop, on a plain way. -/
theorem descend_eq (h : PtInv F s pgtbl) (hv : PlainWay F s pgtbl (va / PT_PAGE_SIZE)) :
    descend F s.mem pgtbl va = span F s pgtbl (va / PT_PAGE_SIZE) := by
  have hpath := tablePath_div va
  have h0 := getNextPtp_plain va h walk_nil (show 0 < 3 by omega) rfl
    (by rw [hpath]; exact ⟨[_, _], rfl⟩) hv
  unfold descend span
  rw [hpath, ← ptIndex_zero, ← ptIndex_one]
  rw [nil_append] at h0
  cases hw0 : s.walk F pgtbl [ptIndex 0 va] with
  | none =>
    rw [hw0] at h0
    simp only [h0]
  | some l1 =>
  rw [hw0] at h0
  obtain ⟨e0, b0, h0⟩ := h0
  have h1 := getNextPtp_plain va h hw0 (show 1 < 3 by omega) rfl
    (by rw [hpath]; exact ⟨[_], rfl⟩) hv
  simp only [h0]
  cases hw1 : s.walk F pgtbl [ptIndex 0 va, ptIndex 1 va] with
  | none =>
    rw [singleton_append, hw1] at h1
    simp only [h1]
  | some l2 =>
  rw [singleton_append, hw1] at h1
  obtain ⟨e1, b1, h1⟩ := h1
  have h2 := getNextPtp_plain va h hw1 (show 2 < 3 by omega) rfl
    (by rw [hpath]; exact ⟨[], rfl⟩) hv
  simp only [h1]
  rw [cons_append, singleton_append] at h2
  cases hw2 : s.walk F pgtbl [ptIndex 0 va, ptIndex 1 va, ptIndex 2 va] with
  | none =>
    rw [hw2] at h2
    simp only [h2]
  | some l3 =>
    rw [hw2] at h2
    obtain ⟨e2, b2, h2⟩ := h2
    simp only [h2]

/-- How many pages the loop goes on from `v`. -/
def hop (F : PteFormat) (s : PtState) (pgtbl : Frame) (v : Nat) : Nat :=
  match span F s pgtbl v with
  | .error k => k
  | .ok _ => 1

/-- The page the loop stops at after `j` steps from `v`. -/
def stopAt (F : PteFormat) (s : PtState) (pgtbl : Frame) : Nat → Nat → Nat
  | v, 0 => v
  | v, j + 1 => stopAt F s pgtbl (v + hop F s pgtbl v) j

/-- **The loop comes to the entry of `w`** on its way through the `cnt` pages from `v` on. -/
def Reached (F : PteFormat) (s : PtState) (pgtbl : Frame) (v cnt w : Nat) : Prop :=
  ∃ j l3, stopAt F s pgtbl v j < v + cnt ∧ stopAt F s pgtbl v j % 2 ^ 36 = w % 2 ^ 36 ∧
    span F s pgtbl w = .ok l3

theorem hop_of_error (h : span F s pgtbl v = .error k) : hop F s pgtbl v = k := by
  simp only [hop, h]

theorem hop_of_ok (h : span F s pgtbl v = .ok l3) : hop F s pgtbl v = 1 := by
  simp only [hop, h]

theorem hop_pos : 0 < hop F s pgtbl v := by
  unfold hop span
  split
  · rename_i k hk
    split at hk
    · cases hk
      exact Nat.two_pow_pos 27
    split at hk
    · cases hk
      exact Nat.two_pow_pos 18
    split at hk
    · cases hk
      exact Nat.two_pow_pos 9
    · cases hk
  · exact Nat.one_pos

theorem le_stopAt (j : Nat) : ∀ v, v ≤ stopAt F s pgtbl v j := by
  induction j with
  | zero => exact fun v => le_refl v
  | succ j ih => exact fun v => le_trans (Nat.le_add_right _ _) (ih _)

theorem stopAt_add (i j : Nat) : ∀ v,
    stopAt F s pgtbl v (i + j) = stopAt F s pgtbl (stopAt F s pgtbl v i) j := by
  induction i with
  | zero =>
    intro v
    rw [zero_add]
    rfl
  | succ i ih =>
    intro v
    rw [succ_add]
    exact ih _

theorem tablePath_congr (h : v % 2 ^ 36 = w % 2 ^ 36) : tablePath v = tablePath w := by
  simp only [tablePath, List.cons.injEq, and_true]
  omega

theorem span_congr (h : v % 2 ^ 36 = w % 2 ^ 36) : span F s pgtbl v = span F s pgtbl w := by
  have h0 : v / 2 ^ 27 % 512 = w / 2 ^ 27 % 512 := by omega
  have h1 : v / 2 ^ 18 % 512 = w / 2 ^ 18 % 512 := by omega
  unfold span
  rw [h0, h1, tablePath_congr h]

theorem span_ok (h : span F s pgtbl v = .ok l3) : s.walk F pgtbl (tablePath v) = some l3 := by
  unfold span at h
  split at h
  · cases h
  split at h
  · cases h
  split at h
  · cases h
  · rename_i hw
    cases h
    exact hw

theorem span_of_walk (h : s.walk F pgtbl (tablePath v) = some l3) : span F s pgtbl v = .ok l3 := by
  unfold span
  split
  · rename_i h0
    have hnone := walk_append_none h0 [v / 2 ^ 18 % 512, v / 2 ^ 9 % 512]
    exact absurd (hnone.symm.trans h) (by simp)
  split
  · rename_i h1
    have hnone := walk_append_none h1 [v / 2 ^ 9 % 512]
    exact absurd (hnone.symm.trans h) (by simp)
  · simp only [h]

/-! ### The rounds of the loop, seen from the pages they reach -/

theorem not_reached_zero : ¬ Reached F s pgtbl v 0 w := by
  rintro ⟨j, -, hlt, -⟩
  exact absurd hlt (not_lt.mpr (le_stopAt j v))

/-- Where a table is missing nothing is reached before the next stop. -/
theorem reached_jump (h : span F s pgtbl v = .error k) :
    Reached F s pgtbl v cnt w ↔ Reached F s pgtbl (v + k) (cnt - k) w := by
  have hstep : ∀ j, stopAt F s pgtbl v (j + 1) = stopAt F s pgtbl (v + k) j := by
    intro j
    simp only [stopAt, hop_of_error h]
  constructor
  · rintro ⟨j, l3, hlt, hmod, hw⟩
    cases j with
    | zero =>
      -- `v` itself has no table
      rw [← span_congr hmod] at hw
      exact absurd (h.symm.trans hw) (by simp)
    | succ j =>
      rw [hstep] at hlt hmod
      exact ⟨j, l3, by omega, hmod, hw⟩
  · rintro ⟨j, l3, hlt, hmod, hw⟩
    have hle : v + k ≤ stopAt F s pgtbl (v + k) j := le_stopAt j _
    exact ⟨j + 1, l3, by rw [hstep]; omega, by rw [hstep]; exact hmod, hw⟩

/-- In a table the loop stops at every page. -/
theorem reached_page (h : span F s pgtbl v = .ok l3) (hcnt : 0 < cnt) :
    Reached F s pgtbl v cnt w ↔ v % 2 ^ 36 = w % 2 ^ 36 ∨ Reached F s pgtbl (v + 1) (cnt - 1) w := by
  have hstep : ∀ j, stopAt F s pgtbl v (j + 1) = stopAt F s pgtbl (v + 1) j := by
    intro j
    simp only [stopAt, hop_of_ok h]
  constructor
  · rintro ⟨j, l3', hlt, hmod, hw⟩
    cases j with
    | zero => exact .inl hmod
    | succ j =>
      rw [hstep] at hlt hmod
      exact .inr ⟨j, l3', by omega, hmod, hw⟩
  · rintro (hmod | ⟨j, l3', hlt, hmod, hw⟩)
    · exact ⟨0, l3, Nat.lt_add_of_pos_right hcnt, hmod, by rw [← span_congr hmod]; exact h⟩
    · exact ⟨j + 1, l3', by rw [hstep]; omega, by rw [hstep]; exact hmod, hw⟩

theorem Reached.not_off (h : Reached F s pgtbl v cnt w) : ¬ OffPages v cnt w := by
  obtain ⟨j, l3, hlt, hmod, -⟩ := h
  have hle : v ≤ stopAt F s pgtbl v j := le_stopAt j v
  intro hoff
  refine hoff (stopAt F s pgtbl v j - v) (by omega) ?_
  rw [Nat.add_sub_cancel' hle]
  exact hmod

/-! ## 2. Entries that are edited -/

/-- What an edit makes of the translation of a page. -/
def editTranslation (F : PteFormat) (edit : Pte → Option Pte) :
    Option (Nat × Pte) → Option (Nat × Pte)
  | some (0, e) =>
    let e' := (edit e).getD e
    if F.present e' then some (0, e') else none
  | t => t

/-- An edit makes no entry present, and twice is once. -/
structure EditOk (F : PteFormat) (edit : Pte → Option Pte) : Prop where
  absent : ∀ e e', F.present e = false → edit e = some e' → F.present e' = false
  twice : ∀ e, F.present ((edit e).getD e) = true →
    (edit ((edit e).getD e)).getD ((edit e).getD e) = (edit e).getD e

theorem editOk_unmap (F : PteFormat) : EditOk F fun _ => some 0 where
  absent _ e' _ h := by
    cases h
    exact F.present_zero
  twice _ _ := rfl

theorem editOk_protect (F : PteFormat) (flags : VmrProp) : EditOk F (protectPte F flags) where
  absent e e' he h := by
    unfold protectPte at h
    rw [he] at h
    cases h
  twice e he := by
    cases hp : F.present e with
    | false =>
      have hnone : protectPte F flags e = none := by simp [protectPte, hp]
      simp [hnone]
    | true =>
    have hsome : protectPte F flags e = some (F.setPteFlags e flags) := by simp [protectPte, hp]
    have hsome' : protectPte F flags (F.setPteFlags e flags) =
        some (F.setPteFlags (F.setPteFlags e flags) flags) := by
      simp [protectPte, F.present_flags, hp]
    simp [hsome, hsome', F.flags_flags]

theorem EditOk.editTranslation_twice (hedit : EditOk F edit) (t : Option (Nat × Pte)) :
    editTranslation F edit (editTranslation F edit t) = editTranslation F edit t := by
  match t with
  | none => rfl
  | some (n + 1, e) => rfl
  | some (0, e) =>
    simp only [editTranslation]
    by_cases hp : F.present ((edit e).getD e) = true
    · simp only [if_pos hp, hedit.twice e hp]
    · simp only [if_neg hp]

/-- Stores one after the other, each of them the edit of the entry of a page of `P`. -/
inductive Stores (F : PteFormat) (pgtbl : Frame) (edit : Pte → Option Pte) (P : Nat → Prop) :
    PtState → List (Frame × Nat × Pte) → PtState → Prop where
  | nil (s : PtState) : Stores F pgtbl edit P s [] s
  | cons {s s' : PtState} {w : Nat} {l3 : Frame} {e : Pte} {rest : List (Frame × Nat × Pte)}
      (inv : PtInv F s pgtbl) (page : P w) (table : s.walk F pgtbl (tablePath w) = some l3)
      (entry : edit (s.mem l3 (w % 512)) = some e)
      (tail : Stores F pgtbl edit P (s.store l3 (w % 512) e) rest s') :
      Stores F pgtbl edit P s ((l3, w % 512, e) :: rest) s'

theorem Stores.mono {new : List (Frame × Nat × Pte)} (hPQ : ∀ w, P w → Q w)
    (h : Stores F pgtbl edit P s new s') : Stores F pgtbl edit Q s new s' := by
  induction h with
  | nil s => exact .nil s
  | cons inv page table entry _ ih => exact .cons inv (hPQ _ page) table entry ih

theorem Stores.append {s1 s2 : PtState} {new new' : List (Frame × Nat × Pte)}
    (h : Stores F pgtbl edit P s new s1) (h' : Stores F pgtbl edit P s1 new' s2) :
    Stores F pgtbl edit P s (new ++ new') s2 := by
  induction h with
  | nil s => exact h'
  | cons inv page table entry _ ih => exact .cons inv page table entry (ih h')

theorem Stores.log {new : List (Frame × Nat × Pte)} (h : Stores F pgtbl edit P s new s') :
    s'.log = new.reverse ++ s.log := by
  induction h with
  | nil s => rfl
  | cons inv page table entry _ ih =>
    rw [ih, reverse_cons, append_assoc]
    rfl

/-- **The pages of `P` are edited** and nothing else has changed. -/
structure Edited (F : PteFormat) (pgtbl : Frame) (edit : Pte → Option Pte) (P : Nat → Prop)
    (s s' : PtState) : Prop where
  inv : PtInv F s' pgtbl
  walk : ∀ q, s'.walk F pgtbl q = s.walk F pgtbl q
  upper : ∀ q f i, s.walk F pgtbl q = some f → q.length < 3 → s'.mem f i = s.mem f i
  pages : s'.pages = s.pages
  stores : ∃ new, Stores F pgtbl edit P s new s'
  hit : ∀ w, P w → translation F s'.mem pgtbl w =
    editTranslation F edit (translation F s.mem pgtbl w)
  miss : ∀ w, ¬ P w → translation F s'.mem pgtbl w = translation F s.mem pgtbl w

theorem Edited.refl (h : PtInv F s pgtbl) (hP : ∀ w, ¬ P w) : Edited F pgtbl edit P s s :=
  ⟨h, fun _ => rfl, fun _ _ _ _ _ => rfl, rfl, ⟨[], .nil s⟩, fun w hw => absurd hw (hP w),
    fun _ _ => rfl⟩

theorem Edited.congr (h : Edited F pgtbl edit P s s') (hPQ : ∀ w, Q w ↔ P w) :
    Edited F pgtbl edit Q s s' := by
  obtain ⟨new, hnew⟩ := h.stores
  exact ⟨h.inv, h.walk, h.upper, h.pages, ⟨new, hnew.mono fun w => (hPQ w).mpr⟩,
    fun w hw => h.hit w ((hPQ w).mp hw), fun w hw => h.miss w fun hP => hw ((hPQ w).mpr hP)⟩

theorem Edited.trans {s1 s2 : PtState} (hedit : EditOk F edit) (h : Edited F pgtbl edit P s s1)
    (h' : Edited F pgtbl edit Q s1 s2) : Edited F pgtbl edit (fun w => P w ∨ Q w) s s2 where
  inv := h'.inv
  walk q := (h'.walk q).trans (h.walk q)
  upper q f i hw hq := by
    rw [h'.upper q f i ((h.walk q).trans hw) hq]
    exact h.upper q f i hw hq
  pages := h'.pages.trans h.pages
  stores := by
    obtain ⟨new, hnew⟩ := h.stores
    obtain ⟨new', hnew'⟩ := h'.stores
    exact ⟨new ++ new', (hnew.mono fun _ => .inl).append (hnew'.mono fun _ => .inr)⟩
  hit w hw := by
    by_cases hQ : Q w
    · rw [h'.hit w hQ]
      by_cases hP : P w
      · rw [h.hit w hP, hedit.editTranslation_twice]
      · rw [h.miss w hP]
    · rw [h'.miss w hQ]
      exact h.hit w (hw.resolve_right hQ)
  miss w hw := by
    obtain ⟨hP, hQ⟩ := not_or.mp hw
    rw [h'.miss w hQ, h.miss w hP]

theorem Edited.span (h : Edited F pgtbl edit P s s') (v : Nat) :
    span F s' pgtbl v = Mm.span F s pgtbl v := by
  unfold Mm.span
  simp only [h.walk]

theorem Edited.stopAt (h : Edited F pgtbl edit P s s') (j : Nat) : ∀ v,
    stopAt F s' pgtbl v j = Mm.stopAt F s pgtbl v j := by
  induction j with
  | zero => exact fun _ => rfl
  | succ j ih =>
    intro v
    simp only [Mm.stopAt, hop, h.span, ih]

theorem Edited.reached (h : Edited F pgtbl edit P s s') (v cnt w : Nat) :
    Reached F s' pgtbl v cnt w ↔ Reached F s pgtbl v cnt w := by
  simp only [Reached, h.stopAt, h.span]

theorem Edited.plainWay (h : Edited F pgtbl edit P s s') (hv : PlainWay F s pgtbl v) :
    PlainWay F s' pgtbl v := by
  intro q f i hw hpre hpres
  have hlen := hpre.length_le
  rw [length_append, length_singleton, length_tablePath] at hlen
  rw [h.walk] at hw
  rw [h.upper q f i hw (by omega)] at hpres ⊢
  exact hv q f i hw hpre hpres

/-- What a round does to one entry. -/
def editEntry (edit : Pte → Option Pte) (s : PtState) (l3 : Frame) (i : Nat) : PtState :=
  match edit (s.mem l3 i) with
  | some e => s.store l3 i e
  | none => s

/-- One page. -/
theorem PtInv.edited_one (hedit : EditOk F edit) (h : PtInv F s pgtbl)
    (hp : s.walk F pgtbl (tablePath v) = some l3) :
    Edited F pgtbl edit (fun w => v % 2 ^ 36 = w % 2 ^ 36) s (editEntry edit s l3 (v % 512)) := by
  have htr := translation_of_walk hp
  cases he : edit (s.mem l3 (v % 512)) with
  | none =>
    have hsame : editEntry edit s l3 (v % 512) = s := by simp only [editEntry, he]
    rw [hsame]
    refine ⟨h, fun _ => rfl, fun _ _ _ _ _ => rfl, rfl, ⟨[], .nil s⟩, fun w hw => ?_,
      fun _ _ => rfl⟩
    rw [← translation_congr hw, htr]
    split
    · rename_i hpres
      simp [editTranslation, he, hpres]
    · rfl
  | some e =>
  have hstore : editEntry edit s l3 (v % 512) = s.store l3 (v % 512) e := by
    simp only [editEntry, he]
  rw [hstore]
  refine ⟨h.store_last hp rfl _ _, h.walk_store_last hp rfl _ _, fun q f i hw hq => ?_, rfl,
    ⟨_, .cons h rfl hp he (.nil _)⟩, fun w hw => ?_, fun w hw => ?_⟩
  · refine Tables.set_of_ne _ _ fun hc => ?_
    rw [hc.1] at hw
    rw [h.tree q (tablePath v) l3 hw hp] at hq
    exact absurd hq (lt_irrefl 3)
  · rw [h.translation_store hp, if_pos hw.symm, ← translation_congr hw, htr]
    cases hpres : F.present (s.mem l3 (v % 512)) with
    | false => simp [editTranslation, hedit.absent _ _ hpres he]
    | true => simp [editTranslation, he]
  · rw [h.translation_store hp, if_neg fun hc => hw hc.symm]

/-! ## 3. The loops -/

theorem InPages.rest (h : InPages (v + k) (cnt - k) w) : InPages v cnt w := by
  obtain ⟨hlo, hhi⟩ := h
  exact ⟨by omega, by omega⟩

/-- **The loop over one table.** -/
theorem editPtes_spec (hedit : EditOk F edit) (n : Nat) : ∀ {s : PtState} (va cnt : Nat),
    PtInv F s pgtbl → s.walk F pgtbl (tablePath (va / PT_PAGE_SIZE)) = some l3 →
    va / PT_PAGE_SIZE % 512 + (n + 1) = 512 → 0 < cnt →
    ∃ s' k, 0 < k ∧ k ≤ cnt ∧
      editPtes edit l3 (n + 1) s (va / PT_PAGE_SIZE % 512) va cnt =
        (s', va + k * PT_PAGE_SIZE, cnt - k) ∧
      ∃ P, Edited F pgtbl edit P s s' ∧ (∀ w, Reached F s pgtbl (va / PT_PAGE_SIZE) cnt w ↔
        P w ∨ Reached F s pgtbl (va / PT_PAGE_SIZE + k) (cnt - k) w) ∧
        ∀ i ≤ k, stopAt F s pgtbl (va / PT_PAGE_SIZE) i = va / PT_PAGE_SIZE + i := by
  induction n with
  | zero =>
    intro s va cnt h hp _ hcnt
    have hspan := span_of_walk hp
    refine ⟨_, 1, Nat.one_pos, hcnt, ?_, _, h.edited_one hedit hp,
      fun w => reached_page hspan hcnt, fun i hi => ?_⟩
    · simp only [editPtes, one_mul]
      split <;> rfl
    · match i, hi with
      | 0, _ => rfl
      | 1, _ => simp only [stopAt, hop_of_ok hspan]
  | succ n ih =>
    intro s va cnt h hp hn hcnt
    have hspan := span_of_walk hp
    have hone := h.edited_one hedit hp
    unfold editPtes
    by_cases hlast : cnt - 1 = 0
    · refine ⟨_, 1, Nat.one_pos, hcnt, ?_, _, hone, fun w => reached_page hspan hcnt,
        fun i hi => ?_⟩
      · simp only [if_pos hlast, one_mul]
        rfl
      · match i, hi with
        | 0, _ => rfl
        | 1, _ => simp only [stopAt, hop_of_ok hspan]
    -- the next entry is in the same table
    have hp' := (hone.walk _).trans hp
    rw [← tablePath_succ (by omega), ← succ_page] at hp'
    obtain ⟨s', k, hk, hkc, hr, P, hP, hreach, hstop⟩ := ih (va + PT_PAGE_SIZE) (cnt - 1)
      hone.inv hp' (by rw [succ_page]; omega) (by omega)
    rw [succ_page] at hreach hstop
    refine ⟨s', 1 + k, by omega, by omega, ?_, _, hone.trans hedit hP, fun w => ?_, fun i hi => ?_⟩
    · rw [succ_page, show (va / PT_PAGE_SIZE + 1) % 512 = va / PT_PAGE_SIZE % 512 + 1 by omega]
        at hr
      simp only [if_neg hlast]
      refine Eq.trans hr ?_
      simp only [Prod.mk.injEq, true_and, add_mul, one_mul]
      omega
    · have hrest := hreach w
      rw [hone.reached, hone.reached] at hrest
      rw [reached_page hspan hcnt, hrest, or_assoc, add_assoc, Nat.sub_sub]
    cases i with
    | zero => rfl
    | succ i =>
    have hi' := hstop i (by omega)
    rw [hone.stopAt] at hi'
    simp only [stopAt, hop_of_ok hspan, hi']
    omega

/-- **The whole loop**: it edits the pages it reaches, and ends at the first stop that is not
    before the end of the range. -/
theorem editLoop_spec (hedit : EditOk F edit) (n : Nat) : ∀ {s : PtState} (va cnt : Nat),
    PtInv F s pgtbl → (∀ w, InPages (va / PT_PAGE_SIZE) cnt w → PlainWay F s pgtbl w) → cnt ≤ n →
    Edited F pgtbl edit (Reached F s pgtbl (va / PT_PAGE_SIZE) cnt) s
        (editLoop F edit pgtbl n s va cnt).1 ∧
      ∃ j, (editLoop F edit pgtbl n s va cnt).2 =
          va % PT_PAGE_SIZE + stopAt F s pgtbl (va / PT_PAGE_SIZE) j * PT_PAGE_SIZE ∧
        va / PT_PAGE_SIZE + cnt ≤ stopAt F s pgtbl (va / PT_PAGE_SIZE) j ∧
        ∀ i < j, stopAt F s pgtbl (va / PT_PAGE_SIZE) i < va / PT_PAGE_SIZE + cnt := by
  have hdone : ∀ {s : PtState} (va : Nat), PtInv F s pgtbl →
      Edited F pgtbl edit (Reached F s pgtbl (va / PT_PAGE_SIZE) 0) s s ∧
      ∃ j, va = va % PT_PAGE_SIZE + stopAt F s pgtbl (va / PT_PAGE_SIZE) j * PT_PAGE_SIZE ∧
        va / PT_PAGE_SIZE + 0 ≤ stopAt F s pgtbl (va / PT_PAGE_SIZE) j ∧
        ∀ i < j, stopAt F s pgtbl (va / PT_PAGE_SIZE) i < va / PT_PAGE_SIZE + 0 := fun va h =>
    ⟨Edited.refl h fun w => not_reached_zero, 0, (mod_add_div' va _).symm,
      le_rfl, nofun⟩
  induction n with
  | zero =>
    intro s va cnt h _ hcnt
    rw [le_zero.mp hcnt]
    exact hdone va h
  | succ n ih =>
    intro s va cnt h hway hcnt
    unfold editLoop
    by_cases h0 : cnt = 0
    · rw [h0]
      exact hdone va h
    rw [if_neg h0, descend_eq h (hway _ ⟨le_rfl, by omega⟩)]
    cases hspan : span F s pgtbl (va / PT_PAGE_SIZE) with
    | error k =>
      have hk : 0 < k := hop_of_error hspan ▸ hop_pos
      obtain ⟨hed, j, hend, hge, hlt⟩ := ih (va + k * PT_PAGE_SIZE) (cnt - k) h
        (fun w hw => hway w (by rw [add_pages] at hw; exact hw.rest)) (by omega)
      rw [add_pages] at hed hend hge hlt
      have hstep : ∀ i, stopAt F s pgtbl (va / PT_PAGE_SIZE) (i + 1) =
          stopAt F s pgtbl (va / PT_PAGE_SIZE + k) i := by
        intro i
        simp only [stopAt, hop_of_error hspan]
      refine ⟨hed.congr fun w => reached_jump hspan, j + 1, ?_, ?_, fun i hi => ?_⟩
      · rw [hstep, hend, add_mul_mod_self_right]
      · rw [hstep]
        omega
      cases i with
      | zero => exact Nat.lt_add_of_pos_right (pos_of_ne_zero h0)
      | succ i =>
      rw [hstep]
      have := hlt i (by omega)
      have : _ ≤ stopAt F s pgtbl _ i := le_stopAt i (va / PT_PAGE_SIZE + k)
      omega
    | ok l3 =>
    obtain ⟨s1, k, hk, hkc, hr, P, hP, hreach, hstop⟩ := editPtes_spec hedit
      (511 - va / PT_PAGE_SIZE % 512) va cnt h (span_ok hspan) (by omega) (by omega)
    obtain ⟨hed, j, hend, hge, hlt⟩ := ih (va + k * PT_PAGE_SIZE) (cnt - k) hP.inv
      (fun w hw => hP.plainWay (hway w (by rw [add_pages] at hw; exact hw.rest))) (by omega)
    rw [add_pages] at hed hend hge hlt
    simp only [hP.stopAt] at hend hge hlt
    simp only [ptIndex_three, entries_left, hr]
    have hstep : ∀ i, stopAt F s pgtbl (va / PT_PAGE_SIZE) (k + i) =
        stopAt F s pgtbl (va / PT_PAGE_SIZE + k) i := by
      intro i
      rw [stopAt_add, hstop k (le_refl k)]
    refine ⟨(hP.trans hedit hed).congr fun w => ?_, k + j, ?_, ?_, fun i hi => ?_⟩
    · rw [hP.reached]
      exact hreach w
    · rw [hstep, hend, add_mul_mod_self_right]
    · rw [hstep]
      omega
    by_cases hik : i < k
    · rw [hstop i (by omega)]
      omega
    obtain ⟨i, rfl⟩ := Nat.exists_eq_add_of_le (not_lt.mp hik)
    rw [hstep]
    have := hlt i (by omega)
    omega

/-! ## 4. Ranges in which no page is passed over -/

/-- The number of pages of an entry, `l` tables down from the root. -/
def entryPages (l : Nat) : Nat := 2 ^ (36 - 9 * l)

/-- **The range fits the entries of a level**: it starts at the beginning of one or stays in the one
    it starts in. -/
def FitsEntries (v n : Nat) : Prop :=
  ∀ l ∈ [1, 2, 3], v % entryPages l = 0 ∨ v % entryPages l + n ≤ entryPages l
  deriving Decidable

/-- The way to the table that the entry of `v` on this level leads to. -/
def entryPath (l v : Nat) : List Nat := (tablePath v).take l

theorem entryPath_congr {l : Nat} (hl : l ∈ [1, 2, 3]) (h : v / entryPages l = w / entryPages l) :
    entryPath l v = entryPath l w := by
  unfold entryPages at h
  simp only [mem_cons, not_mem_nil, or_false] at hl
  rcases hl with rfl | rfl | rfl <;>
    simp only [entryPath, tablePath, take_succ_cons, take_zero, List.cons.injEq, and_true] <;> omega

theorem entryPath_of_pre {l : Nat} (hl : l ∈ [1, 2, 3]) (h : entryPath l v <+: tablePath w) :
    entryPath l v = entryPath l w := by
  have hlen : (entryPath l v).length = l := by
    rw [entryPath, length_take, length_tablePath]
    simp only [mem_cons, not_mem_nil, or_false] at hl
    omega
  have htake := prefix_iff_eq_take.mp h
  rwa [hlen] at htake

/-- A jump passes over the first entry that is missing. -/
theorem span_error (h : span F s pgtbl v = .error k) :
    ∃ l ∈ [1, 2, 3], k = entryPages l ∧ s.walk F pgtbl (entryPath l v) = none ∧
      ∀ l' ∈ [1, 2, 3], l' < l → s.walk F pgtbl (entryPath l' v) ≠ none := by
  unfold span at h
  split at h
  · rename_i h0
    cases h
    refine ⟨1, by decide, rfl, h0, fun l' hl' hlt => ?_⟩
    simp only [mem_cons, not_mem_nil, or_false] at hl'
    omega
  rename_i h0
  split at h
  · rename_i h1
    cases h
    refine ⟨2, by decide, rfl, h1, fun l' hl' hlt => ?_⟩
    simp only [mem_cons, not_mem_nil, or_false] at hl'
    obtain rfl : l' = 1 := by omega
    exact fun hc => absurd (h0.symm.trans hc) (by simp)
  rename_i h1
  split at h
  · rename_i h2
    cases h
    refine ⟨3, by decide, rfl, h2, fun l' hl' hlt => ?_⟩
    simp only [mem_cons, not_mem_nil, or_false] at hl'
    obtain rfl | rfl : l' = 1 ∨ l' = 2 := by omega
    · exact fun hc => absurd (h0.symm.trans hc) (by simp)
    · exact fun hc => absurd (h1.symm.trans hc) (by simp)
  · cases h

theorem walk_entryPath (h : s.walk F pgtbl (tablePath v) = some l3) (l : Nat) :
    s.walk F pgtbl (entryPath l v) ≠ none := by
  intro hnone
  have hall := walk_append_none hnone ((tablePath v).drop l)
  rw [entryPath, take_append_drop] at hall
  exact absurd (hall.symm.trans h) (by simp)

theorem entryPages_le_hop {l : Nat} (hl : l ∈ [1, 2, 3])
    (h : s.walk F pgtbl (entryPath l v) = none) : entryPages l ≤ hop F s pgtbl v := by
  cases hspan : span F s pgtbl v with
  | ok l3 => exact absurd h (walk_entryPath (span_ok hspan) l)
  | error k =>
  obtain ⟨l0, -, rfl, -, hup⟩ := span_error hspan
  have hle : l0 ≤ l := not_lt.mp fun hlt => hup l hl hlt h
  rw [hop_of_error hspan]
  exact Nat.pow_le_pow_right (by omega) (by omega)

theorem stopAt_gap (v j : Nat) :
    stopAt F s pgtbl v j = v ∨ v + hop F s pgtbl v ≤ stopAt F s pgtbl v j := by
  cases j with
  | zero => exact .inl rfl
  | succ j => exact .inr (le_stopAt j _)

theorem entryPath_next {l b : Nat} (hl : l ∈ [1, 2, 3])
    (hb : b = v - v % entryPages l + entryPages l) : entryPath l v ≠ entryPath l b := by
  unfold entryPages at hb
  simp only [mem_cons, not_mem_nil, or_false] at hl
  rcases hl with rfl | rfl | rfl <;>
    simp only [entryPath, tablePath, take_succ_cons, take_zero, ne_eq, List.cons.injEq,
      and_true] <;> omega

/-- Where the loop stands on each level: at the beginning of an entry, in the last one of the range,
    or in one that has a table. -/
def Placed (F : PteFormat) (s : PtState) (pgtbl : Frame) (e u : Nat) : Prop :=
  ∀ l ∈ [1, 2, 3], u % entryPages l = 0 ∨ e ≤ (u / entryPages l + 1) * entryPages l ∨
    s.walk F pgtbl (entryPath l u) ≠ none

theorem Placed.succ {e u : Nat} (h : ∀ l ∈ [1, 2, 3], s.walk F pgtbl (entryPath l u) ≠ none) :
    Placed F s pgtbl e (u + 1) := by
  intro l hl
  by_cases hz : (u + 1) % entryPages l = 0
  · exact .inl hz
  have hdiv : (u + 1) / entryPages l = u / entryPages l := by
    rw [succ_div_of_not_dvd fun hc => hz (mod_eq_zero_of_dvd hc)]
  rw [entryPath_congr hl hdiv]
  exact .inr (.inr (h l hl))

/-- Over an entry that is missing, from its beginning. -/
theorem Placed.jump {e u l : Nat} (hl : l ∈ [1, 2, 3]) (hz : u % entryPages l = 0)
    (h : ∀ l' ∈ [1, 2, 3], l' < l → s.walk F pgtbl (entryPath l' u) ≠ none) :
    Placed F s pgtbl e (u + entryPages l) := by
  intro l' hl'
  by_cases hlt : l' < l
  · by_cases hz' : (u + entryPages l) % entryPages l' = 0
    · exact .inl hz'
    have hdiv : (u + entryPages l) / entryPages l' = u / entryPages l' := by
      unfold entryPages at hz hz' ⊢
      simp only [mem_cons, not_mem_nil, or_false] at hl hl'
      rcases hl with rfl | rfl | rfl <;> rcases hl' with rfl | rfl | rfl <;> omega
    rw [entryPath_congr hl' hdiv]
    exact .inr (.inr (h l' hl' hlt))
  · left
    unfold entryPages at hz ⊢
    simp only [mem_cons, not_mem_nil, or_false] at hl hl'
    rcases hl with rfl | rfl | rfl <;> rcases hl' with rfl | rfl | rfl <;> omega

/-- **No page with a table is passed over** from a place like this. -/
theorem Placed.stops {e : Nat} (hw : s.walk F pgtbl (tablePath w) = some l3) (hwe : w < e)
    (d : Nat) : ∀ u, Placed F s pgtbl e u → u ≤ w → w - u ≤ d →
    ∃ j, stopAt F s pgtbl u j = w := by
  induction d with
  | zero =>
    intro u _ hle hd
    exact ⟨0, show u = w by omega⟩
  | succ d ih =>
    intro u hu hle hd
    by_cases heq : u = w
    · exact ⟨0, heq⟩
    cases hspan : span F s pgtbl u with
    | ok l3' =>
      obtain ⟨j, hj⟩ := ih (u + 1) (Placed.succ fun l _ => walk_entryPath (span_ok hspan) l)
        (by omega) (by omega)
      refine ⟨j + 1, ?_⟩
      simp only [stopAt, hop_of_ok hspan, hj]
    | error k =>
    obtain ⟨l, hl, rfl, hnone, hup⟩ := span_error hspan
    -- `w` has a table, so it is not in the entry that is missing
    have hne : u / entryPages l ≠ w / entryPages l := by
      intro hc
      rw [entryPath_congr hl hc] at hnone
      exact walk_entryPath hw l hnone
    have hpos : 0 < entryPages l := Nat.two_pow_pos _
    have hlow : (u / entryPages l + 1) * entryPages l ≤ w := by
      have hlt : u / entryPages l < w / entryPages l :=
        Nat.lt_of_le_of_ne (Nat.div_le_div_right hle) hne
      exact (Nat.le_div_iff_mul_le hpos).mp hlt
    have hz : u % entryPages l = 0 := by
      rcases hu l hl with hz | hlast | hsome
      · exact hz
      · omega
      · exact absurd hnone hsome
    have hnext : (u / entryPages l + 1) * entryPages l = u + entryPages l := by
      rw [succ_mul, Nat.div_mul_cancel (dvd_of_mod_eq_zero hz)]
    obtain ⟨j, hj⟩ := ih (u + entryPages l) (Placed.jump hl hz hup) (by omega) (by omega)
    refine ⟨j + 1, ?_⟩
    simp only [stopAt, hop_of_error hspan, hj]

/-- **In a range that fits every level every page with a table is reached.** -/
theorem reached_of_fits (hfits : FitsEntries v cnt) (hw : InPages v cnt w)
    (htable : s.walk F pgtbl (tablePath w) = some l3) : Reached F s pgtbl v cnt w := by
  have hplaced : Placed F s pgtbl (v + cnt) v := by
    intro l hl
    rcases hfits l hl with hz | hin
    · exact .inl hz
    right
    left
    have := mod_add_div v (entryPages l)
    rw [succ_mul, mul_comm]
    omega
  obtain ⟨j, hj⟩ := hplaced.stops htable hw.2 (w - v) v hw.1 le_rfl
  exact ⟨j, l3, by rw [hj]; exact hw.2, by rw [hj], span_of_walk htable⟩

/-- A page without a table is not mapped where no huge page is on the way. -/
theorem translation_of_error (h : span F s pgtbl v = .error k) (hv : PlainWay F s pgtbl v) :
    translation F s.mem pgtbl v = none := by
  have hnone : s.walk F pgtbl (tablePath v) = none := by
    cases hw : s.walk F pgtbl (tablePath v) with
    | none => rfl
    | some l3 => exact absurd (h.symm.trans (span_of_walk hw)) (by simp)
  refine lookup_of_walk_none hnone (fun q g i hq hpre hleaf => ?_) _
  cases hpres : F.present (s.mem g i) with
  | false =>
    rw [pteKind_of_absent hpres] at hleaf
    cases hleaf
  | true =>
    obtain ⟨g', hg'⟩ := hv q g i hq hpre hpres
    rw [hg'] at hleaf
    cases hleaf

end ChCore.Mm
