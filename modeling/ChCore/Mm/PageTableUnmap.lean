/-
  File: ChCore/Mm/PageTableUnmap.lean
  Subject: `unmap_range_in_pgtbl` on the page tables that `map_range_in_pgtbl` builds.

  * `unmap_clears_iff` -- the ranges all of whose pages are unmapped, whatever is mapped.
-/
import ChCore.Lib.Run
import ChCore.Mm.PageTableEdit
import ChCore.Mm.VmspaceInit

namespace ChCore.Mm

open Lib Option List Nat

variable {a : Arch} {F : PteFormat} {s s' : PtState} {pgtbl : Frame} {v w va len cnt : Nat}
  {edit : Pte → Option Pte} {t : Option (Nat × Pte)}

/-! ## 1. Page tables that are built by mapping -/

/-- The arguments of a call of `map_range_in_pgtbl`. -/
structure MapCall where
  va : Nat
  pa : Nat
  len : Nat
  flags : VmrProp

def mapCall (F : PteFormat) (pgtbl : Frame) (s : PtState) (c : MapCall) : Option PtState :=
  mapRangeInPgtbl F s pgtbl c.va c.pa c.len c.flags

/-- **A page table built by calls of `map_range_in_pgtbl`** on some machine. -/
def Built (a : Arch) (s : PtState) (pgtbl : Frame) : Prop :=
  ∃ K s₀ s₁ calls, Booted K s₀ ∧ pgtblInit a K s₀ = some (s₁, pgtbl) ∧
    exec (mapCall a.format pgtbl) s₁ calls = some s

theorem Built.inv (h : Built a s pgtbl) :
    PtInv a.format s pgtbl ∧ ∀ v, ¬ a.KernelPage v → PlainWay a.format s pgtbl v := by
  obtain ⟨K, s0, s1, calls, hboot, hinit, hexec⟩ := h
  have hnew := pgtblInit_tables hboot hinit
  refine exec_inv (I := fun s => PtInv a.format s pgtbl ∧
      ∀ v, ¬ a.KernelPage v → PlainWay a.format s pgtbl v)
    (fun s c s' hI hc => ?_) calls s1 s ⟨hnew.inv, fun v hv => hnew.plain hv⟩ hexec
  have hmap := mapRange_spec hI.1 hc
  exact ⟨hmap.inv, fun v hv => hmap.tables.plainWay (hI.2 v hv)⟩

/-! ## 2. What is unmapped -/

/-- After the call no address of the range is translated, and every other address is as it was. -/
def Unmapped (F : PteFormat) (pgtbl : Frame) (va len : Nat) (s s' : PtState) : Prop :=
  (∀ x, Covers va len x → queryInPgtbl F s'.mem pgtbl x = .noMapping) ∧
  ∀ x, ¬ Covers va len (x % 2 ^ 48) →
    queryInPgtbl F s'.mem pgtbl x = queryInPgtbl F s.mem pgtbl x

/-- **The call on a range off the kernel's pages**: it returns, and it clears what it reaches. -/
theorem unmapRange_spec (va len : Nat) (h : PtInv F s pgtbl) (hva : va % PT_PAGE_SIZE = 0)
    (hway : ∀ w, InPages (va / PT_PAGE_SIZE) (pageCount len) w → PlainWay F s pgtbl w) :
    ∃ s' va', unmapRangeInPgtbl F s pgtbl va len = some (s', va') ∧
      Edited F pgtbl (fun _ => some 0)
        (Reached F s pgtbl (va / PT_PAGE_SIZE) (pageCount len)) s s' := by
  have hspec := editLoop_spec (editOk_unmap F) (pageCount len) va (pageCount len) h hway
    le_rfl
  refine ⟨(editLoop F (fun _ => some 0) pgtbl (pageCount len) s va (pageCount len)).1,
    (editLoop F (fun _ => some 0) pgtbl (pageCount len) s va (pageCount len)).2, ?_, hspec.1⟩
  unfold unmapRangeInPgtbl editRange
  rw [if_neg fun hc => hc.2 hva]

theorem editTranslation_unmap (h : ∀ n e, t = some (n, e) → n = 0) :
    editTranslation F (fun _ => some 0) t = none := by
  cases t with
  | none => rfl
  | some t =>
    obtain ⟨n, e⟩ := t
    obtain rfl := h n e rfl
    simp only [editTranslation, getD_some, F.present_zero, Bool.false_eq_true, if_false]

theorem translation_plain (hv : PlainWay F s pgtbl v) {n : Nat} {e : Pte}
    (h : translation F s.mem pgtbl v = some (n, e)) :
    n = 0 ∧ ∃ l3, s.walk F pgtbl (tablePath v) = some l3 := by
  cases hspan : span F s pgtbl v with
  | error k =>
    rw [translation_of_error hspan hv] at h
    cases h
  | ok l3 =>
  have hw := span_ok hspan
  rw [translation_of_walk hw] at h
  obtain ⟨-, h⟩ := ite_none_right_eq_some.mp h
  cases h
  exact ⟨rfl, l3, hw⟩

theorem Edited.query_off (hva : va % PT_PAGE_SIZE = 0) (hlen : va + len ≤ 2 ^ 48)
    (h : PtInv F s pgtbl)
    (hed : Edited F pgtbl edit (Reached F s pgtbl (va / PT_PAGE_SIZE) (pageCount len)) s s')
    {x : Nat} (hx : ¬ Covers va len (x % 2 ^ 48)) :
    queryInPgtbl F s'.mem pgtbl x = queryInPgtbl F s.mem pgtbl x := by
  rw [hed.inv.query, h.query,
    hed.miss _ fun hreach => hreach.not_off (offPages_of_not_covers hva hlen hx)]

/-- **Where the range fits the tables and has no page of the kernel, it is unmapped.** -/
theorem unmapped_of_fits (hva : va % PT_PAGE_SIZE = 0) (hlen : va + len ≤ 2 ^ 48)
    (h : PtInv F s pgtbl)
    (hway : ∀ w, InPages (va / PT_PAGE_SIZE) (pageCount len) w → PlainWay F s pgtbl w)
    (hfits : FitsEntries (va / PT_PAGE_SIZE) (pageCount len)) :
    ∃ s' va', unmapRangeInPgtbl F s pgtbl va len = some (s', va') ∧ Unmapped F pgtbl va len s s' := by
  obtain ⟨s', va', hr, hed⟩ := unmapRange_spec va len h hva hway
  refine ⟨s', va', hr, fun x hx => ?_, fun x hx => hed.query_off hva hlen h hx⟩
  obtain ⟨j, hj, hpage, -⟩ := hx.page hva
  have hin : InPages (va / PT_PAGE_SIZE) (pageCount len) (x / PT_PAGE_SIZE) := by
    exact ⟨by omega, by omega⟩
  have hnone : translation F s'.mem pgtbl (x / PT_PAGE_SIZE) = none := by
    cases ht : translation F s.mem pgtbl (x / PT_PAGE_SIZE) with
    | none =>
      by_cases hreach : Reached F s pgtbl (va / PT_PAGE_SIZE) (pageCount len) (x / PT_PAGE_SIZE)
      · rw [hed.hit _ hreach, ht]
        rfl
      · rw [hed.miss _ hreach, ht]
    | some t =>
      obtain ⟨-, l3, htable⟩ := translation_plain (hway _ hin) ht
      rw [hed.hit _ (reached_of_fits hfits hin htable)]
      exact editTranslation_unmap fun n e ht => (translation_plain (hway _ hin) ht).1
  rw [hed.inv.query]
  exact queryResult_eq_noMapping.mpr hnone

/-! ## 3. Pages that stay mapped -/

theorem bareTable_built (a : Arch) : Built a (bareTable a) 4 :=
  ⟨bareKernel, bareState, bareTable a, [], bareState_booted, bareTable_init a, rfl⟩

theorem bareTable_pool (a : Arch) : PoolOk a.format (bareTable a) := by
  cases a <;>
    simp [PoolOk, bareTable, Arch.format, NULL_PTP, aarch64, x8664, PT_PAGE_SIZE, DIRECT_MAP_END]

theorem getNextPtp_some {m : Tables Frame Pte} {cur g : Frame} {level : Nat} {e : Pte} {b : Bool}
    (h : getNextPtp F m cur level va = some (g, e, b)) :
    F.present (m cur (ptIndex level va)) = true ∧ g = nextTableAddr (m cur (ptIndex level va)) := by
  obtain ⟨-, h⟩ := ite_none_left_eq_some.mp h
  obtain ⟨hp, h⟩ := ite_none_right_eq_some.mp h
  simp only [some.injEq, Prod.mk.injEq] at h
  exact ⟨hp, h.1.symm⟩

theorem editLoop_of_error (edit : Pte → Option Pte)
    (h : ∀ va, ∃ k, descend F s.mem pgtbl va = .error k) (n : Nat) : ∀ va cnt,
    (editLoop F edit pgtbl n s va cnt).1 = s := by
  induction n with
  | zero => exact fun _ _ => rfl
  | succ n ih =>
    intro va cnt
    unfold editLoop
    by_cases h0 : cnt = 0
    · rw [if_pos h0]
    · obtain ⟨k, hk⟩ := h va
      rw [if_neg h0, hk]
      exact ih _ _

theorem bareTable_ram (a : Arch) (idx i : Nat) :
    (bareTable a).mem (BitVec.ofNat 36 (idx * 2 ^ 18)) i = 0 := by
  have hne : ∀ f ∈ [(1 : Frame), 2, 3, 4], BitVec.ofNat 36 (idx * 2 ^ 18) ≠ f := by
    intro f hf hc
    have hmod : f.toNat % 2 ^ 18 = 0 := by
      rw [← hc, BitVec.toNat_ofNat]
      omega
    simp only [mem_cons, not_mem_nil, or_false] at hf
    rcases hf with rfl | rfl | rfl | rfl <;> exact absurd hmod (by decide)
  have hbare : bareMemory.fill 4 0 (BitVec.ofNat 36 (idx * 2 ^ 18)) i = 0 := by
    rw [Tables.fill_of_ne _ _ (hne 4 (by simp))]
    unfold bareMemory
    rw [if_neg (hne 1 (by simp)), if_neg (hne 2 (by simp)), if_neg (hne 3 (by simp))]
  cases a with
  | aarch64 => exact hbare
  | x8664 =>
    simp only [bareTable, archVmspaceInit]
    rw [Tables.set_of_ne _ _ fun hc => hne 4 (by simp) hc.1,
      Tables.set_of_ne _ _ fun hc => hne 4 (by simp) hc.1, hbare]

/-- **Behind the kernel's huge pages the loop finds no table**: it takes them for tables, and the
    memory they map is clear. -/
theorem bareTable_descend (a : Arch) (va : Nat) :
    ∃ k, descend a.format (bareTable a).mem 4 va = .error k := by
  have hnew := bareTable_new a
  cases hd : descend a.format (bareTable a).mem 4 va with
  | error k => exact ⟨k, rfl⟩
  | ok l3 =>
  unfold descend at hd
  split at hd
  · cases hd
  rename_i l1 e1 b1 h1
  split at hd
  · cases hd
  rename_i l2 e2 b2 h2
  split at hd
  · cases hd
  rename_i l3' e3 b3 h3
  obtain ⟨hp1, hl1⟩ := getNextPtp_some h1
  obtain ⟨hp2, hl2⟩ := getNextPtp_some h2
  obtain ⟨hp3, -⟩ := getNextPtp_some h3
  have hram : ∃ idx, l2 = BitVec.ofNat 36 (idx * 2 ^ 18) := by
    rw [hnew.root] at hp1 hl1
    split at hl1
    · rw [kernelTablePte_next] at hl1
      rw [hl1, hnew.dm] at hp2 hl2
      split at hl2
      · exact ⟨_, hl2.trans (hugePte_next _ _)⟩
      · rename_i hi
        rw [if_neg hi, a.format.present_zero] at hp2
        cases hp2
    rename_i h510
    split at hl1
    · rw [kernelTablePte_next] at hl1
      rw [hl1, hnew.code] at hp2 hl2
      split at hl2
      · exact ⟨_, hl2.trans (hugePte_next _ _)⟩
      · rename_i hi
        rw [if_neg hi, a.format.present_zero] at hp2
        cases hp2
    · rename_i h511
      rw [if_neg h510, if_neg h511, a.format.present_zero] at hp1
      cases hp1
  obtain ⟨idx, rfl⟩ := hram
  rw [bareTable_ram, a.format.present_zero] at hp3
  cases hp3

/-- A page of the kernel is mapped. -/
theorem NewTables.kernel_mapped {K : Kernel} (h : NewTables a K s pgtbl) (hK : K.gigs = 512)
    (hv : a.KernelPage v) : translation a.format s.mem pgtbl v ≠ none := by
  obtain ⟨ha, hv⟩ := hv
  have hroot := h.root_kind (v / 2 ^ 27 % 512)
  unfold translation pagePath tablePath
  rcases hv with hv | hv
  · rw [hv, if_pos ⟨ha, rfl⟩] at hroot
    have hleaf : pteKind a.format 2 (s.mem K.dm (v / 2 ^ 18 % 512)) = .leaf := by
      rw [h.dm, if_pos (by omega), ha]
      exact (hugePte_leaf 2 _ (.inr rfl)).2
    rw [hv, cons_append, lookup_cons_table hroot, cons_append, lookup_cons_leaf hleaf]
    simp
  have h0 : v / 2 ^ 27 % 512 = 511 := by omega
  have h1 : v / 2 ^ 18 % 512 = 511 := by omega
  rw [h0, if_neg (by omega), if_pos ⟨ha, rfl⟩] at hroot
  have hleaf : pteKind a.format 2 (s.mem K.code 511) = .leaf := by
    rw [h.code, ha]
    exact (hugePte_leaf 2 _ (.inl rfl)).2
  rw [h0, h1, cons_append, lookup_cons_table hroot, cons_append, lookup_cons_leaf hleaf]
  simp

/-- **A range with a page of the kernel is not unmapped.** -/
theorem bareTable_kernel (hva : va % PT_PAGE_SIZE = 0) {x : Nat} (hx : Covers va len x)
    (hk : a.KernelPage (x / PT_PAGE_SIZE)) :
    ∃ va', unmapRangeInPgtbl a.format (bareTable a) 4 va len = some (bareTable a, va') ∧
      ¬ Unmapped a.format 4 va len (bareTable a) (bareTable a) := by
  refine ⟨(editLoop a.format (fun _ => some 0) 4 (pageCount len) (bareTable a) va
    (pageCount len)).2, ?_, fun hun => ?_⟩
  · unfold unmapRangeInPgtbl editRange
    rw [if_neg fun hc => hc.2 hva]
    have hsame := editLoop_of_error (fun _ => some 0) (bareTable_descend a)
      (pageCount len) va (pageCount len)
    exact congrArg some (Prod.ext hsame rfl)
  · have hnone := hun.1 x hx
    have hnew := bareTable_new a
    rw [hnew.inv.query] at hnone
    exact hnew.kernel_mapped rfl hk (queryResult_eq_noMapping.mp hnone)

/-- The tables of the kernel are those of the top-level entries 510 and 511. -/
theorem bareTable_entry {l : Nat} {g : Frame} (hl : l ∈ [1, 2, 3]) (hk : ¬ a.KernelPage v)
    (h511 : l = 1 → v / 2 ^ 27 % 512 ≠ 511) :
    (bareTable a).walk a.format 4 (entryPath l v) ≠ some g := by
  intro hw
  have hone : ∀ i, entryPath l v = [i] → l = 1 ∧ v / 2 ^ 27 % 512 = i := by
    simp only [mem_cons, not_mem_nil, or_false] at hl
    rcases hl with rfl | rfl | rfl <;> simp_all [entryPath, tablePath]
  rcases (bareTable_new a).walk hw with ⟨h, -⟩ | ⟨ha, ⟨h, -⟩ | ⟨h, -⟩⟩
  · simp only [mem_cons, not_mem_nil, or_false] at hl
    rcases hl with rfl | rfl | rfl <;> simp [entryPath, tablePath] at h
  · exact hk ⟨ha, .inl (hone 510 h).2⟩
  · obtain ⟨h1, hv⟩ := hone 511 h
    exact h511 h1 hv

/-- The first page behind the entry of level `l` that `v` lies in. -/
def nextEntry (l v : Nat) : Nat := (v / entryPages l + 1) * entryPages l

/-- **A page that is passed over**: the only one that is mapped, at the beginning of an entry. -/
theorem bareTable_passed {l n : Nat} (hl : l ∈ [1, 2, 3]) (hend : v + n ≤ 2 ^ 36)
    (hz : v % entryPages l ≠ 0) (hbig : entryPages l < v % entryPages l + n)
    (hk : ∀ w, InPages v n w → ¬ a.KernelPage w) :
    ∃ s, Built a s 4 ∧ translation a.format s.mem 4 (nextEntry l v) ≠ none ∧
      InPages v n (nextEntry l v) ∧ ¬ Reached a.format s 4 v n (nextEntry l v) := by
  have hnew := bareTable_new a
  have hpos : 0 < entryPages l := Nat.two_pow_pos _
  have hsplit := mod_add_div v (entryPages l)
  have hb : nextEntry l v = v - v % entryPages l + entryPages l := by
    rw [nextEntry, succ_mul, mul_comm]
    omega
  have hlt := mod_lt v hpos
  generalize hbe : nextEntry l v = b at hb ⊢
  have hin : InPages v n b := ⟨by omega, by omega⟩
  have hone : pageCount 0x1000 = 1 := by decide
  have hbv : b * PT_PAGE_SIZE / PT_PAGE_SIZE = b := Nat.mul_div_cancel b (by decide)
  -- the page is mapped
  have hway : ∀ w, InPages (b * PT_PAGE_SIZE / PT_PAGE_SIZE) (pageCount 0x1000) w →
      PlainWay a.format (bareTable a) 4 w := by
    intro w hw
    obtain ⟨h1, h2⟩ := hw
    obtain rfl : w = b := by omega
    exact hnew.plain (hk w hin)
  have hsome : (mapRangeInPgtbl a.format (bareTable a) 4 (b * PT_PAGE_SIZE) 0 0x1000 0).isSome :=
    mapRange_isSome hnew.inv (mul_mod_left b _) hway (bareTable_pool a) (le_refl 3) 0 0
  obtain ⟨s, hs⟩ := isSome_iff_exists.mp hsome
  have hmap := mapRange_spec hnew.inv hs
  rw [hbv] at hmap
  have hhit := hmap.hit (by omega) 0 (by omega)
  refine ⟨s, ⟨bareKernel, bareState, bareTable a, [⟨b * PT_PAGE_SIZE, 0, 0x1000, 0⟩],
    bareState_booted, bareTable_init a, ?_⟩, ?_, hin, ?_⟩
  · show (mapCall a.format 4 (bareTable a) ⟨b * PT_PAGE_SIZE, 0, 0x1000, 0⟩).bind _ = some s
    unfold mapCall
    rw [hs]
    rfl
  · rw [← add_zero b, hhit]
    simp
  -- the entry of `v` is missing, so that the first jump ends behind `b`
  have hnone : s.walk a.format 4 (entryPath l v) = none := by
    cases hw : s.walk a.format 4 (entryPath l v) with
    | none => rfl
    | some g =>
    exfalso
    rcases hmap.tables.only _ _ hw with hold | ⟨-, w, hwb, hpre⟩
    · exact bareTable_entry hl (hk v ⟨le_refl v, by omega⟩) (fun h1 => by
        subst h1
        unfold entryPages at hbig hlt
        omega) hold
    · obtain ⟨h1, h2⟩ := hwb
      obtain rfl : w = b := by omega
      exact entryPath_next hl hb (entryPath_of_pre hl hpre)
  have hhop := entryPages_le_hop hl hnone
  rintro ⟨j, l3, hstop, hmod, -⟩
  rcases (stopAt_gap v j : stopAt a.format s 4 v j = v ∨ _) with heq | hgap <;> omega

/-! ## 4. The ranges that are unmapped -/

/-- **Unmapping a range.** Every address of the range loses its translation, whatever is mapped,
    exactly when the range fits the entries of every level and has no page of the kernel: where a
    table is missing the loop goes on by a whole entry, from wherever in it the range starts. -/
theorem unmap_clears_iff (a : Arch) (va len : Nat) (hva : va % PT_PAGE_SIZE = 0)
    (hlen : va + len ≤ 2 ^ 48) :
    (∀ s pgtbl, Built a s pgtbl → ∃ s' va',
      unmapRangeInPgtbl a.format s pgtbl va len = some (s', va') ∧
      Unmapped a.format pgtbl va len s s') ↔
    FitsEntries (va / PT_PAGE_SIZE) (pageCount len) ∧
      ∀ x, Covers va len x → ¬ a.KernelPage (x / PT_PAGE_SIZE) := by
  have hpage : ∀ w, InPages (va / PT_PAGE_SIZE) (pageCount len) w →
      Covers va len (w * PT_PAGE_SIZE) ∧ w * PT_PAGE_SIZE / PT_PAGE_SIZE = w := by
    rintro w ⟨h1, h2⟩
    unfold Covers
    unfold PT_PAGE_SIZE at *
    omega
  constructor
  · intro hall
    have hkernel : ∀ x, Covers va len x → ¬ a.KernelPage (x / PT_PAGE_SIZE) := by
      intro x hx hk
      obtain ⟨va', hr, hnot⟩ := bareTable_kernel hva hx hk
      obtain ⟨s', va'', hr', hun⟩ := hall _ _ (bareTable_built a)
      rw [hr] at hr'
      cases hr'
      exact hnot hun
    refine ⟨?_, hkernel⟩
    by_contra hfits
    simp only [FitsEntries, not_forall, not_or, not_le] at hfits
    obtain ⟨l, hl, hz, hbig⟩ := hfits
    have hk : ∀ w, InPages (va / PT_PAGE_SIZE) (pageCount len) w → ¬ a.KernelPage w := by
      intro w hw
      obtain ⟨hcov, hdiv⟩ := hpage w hw
      have hoff := hkernel _ hcov
      rwa [hdiv] at hoff
    obtain ⟨s, hbuilt, hmapped, hin, hpassed⟩ :=
      bareTable_passed hl (pageCount_le hva hlen) hz hbig hk
    obtain ⟨hinv, hplain⟩ := hbuilt.inv
    obtain ⟨s', va', hr, hed⟩ := unmapRange_spec va len hinv hva
      fun w hw => hplain w (hk w hw)
    obtain ⟨s'', va'', hr', hun⟩ := hall s 4 hbuilt
    rw [hr] at hr'
    cases hr'
    obtain ⟨hcov, hdiv⟩ := hpage _ hin
    have hnone := hun.1 _ hcov
    rw [hed.inv.query, hdiv, hed.miss _ hpassed] at hnone
    exact hmapped (queryResult_eq_noMapping.mp hnone)
  · rintro ⟨hfits, hkernel⟩ s pgtbl hbuilt
    obtain ⟨hinv, hplain⟩ := hbuilt.inv
    refine unmapped_of_fits hva hlen hinv (fun w hw => hplain w fun hk => ?_) hfits
    obtain ⟨hcov, hdiv⟩ := hpage w hw
    exact hkernel _ hcov (hdiv.symm ▸ hk)

/-- Two pages are mapped, and unmapped again. -/
theorem unmap_clears_mapped :
    ∃ s, exec (mapCall Mm.x8664 4) (bareTable .x8664) [⟨0x400000, 0x80000, 0x2000, VMR_WRITE⟩] = some s ∧
      ∃ s' va', unmapRangeInPgtbl Mm.x8664 s 4 0x400000 0x2000 = some (s', va') ∧
        Unmapped Mm.x8664 4 0x400000 0x2000 s s' := by
  obtain ⟨s, hs⟩ := isSome_iff_exists.mp (by decide +kernel : (exec (mapCall Mm.x8664 4)
    (bareTable .x8664) [⟨0x400000, 0x80000, 0x2000, VMR_WRITE⟩]).isSome = true)
  refine ⟨s, hs, (unmap_clears_iff .x8664 0x400000 0x2000 (by decide) (by decide)).mpr
    ⟨by decide, fun x hx hk => ?_⟩ _ _ ⟨_, _, _, _, bareState_booted, bareTable_init .x8664, hs⟩⟩
  obtain ⟨j, hj, hpage, -⟩ := hx.page (by decide)
  have htwo : pageCount 0x2000 = 2 := by decide
  have hk' := hk.2
  rw [hpage] at hk'
  unfold PT_PAGE_SIZE at hk'
  omega

/-- The physical address of `0x200000` after the page there has been mapped and the range
    `[0x1ff000, 0x201000)` has been unmapped, in a new address space. -/
def foundAfterUnmap (a : Arch) : Option Nat :=
  (pgtblInit a bareKernel bareState).bind fun (s, pgtbl) =>
  (mapRangeInPgtbl a.format s pgtbl 0x200000 0x80000 0x1000 VMR_WRITE).bind fun s =>
  (unmapRangeInPgtbl a.format s pgtbl 0x1ff000 0x2000).bind fun (s, _) =>
    match queryInPgtbl a.format s.mem pgtbl 0x200000 with
    | .found pa _ => some pa
    | _ => none

/-- **A page that stays mapped**: the table for `0x1ff000` is missing, and the loop goes on at
    `0x3ff000`. -/
theorem unmap_passes_page :
    foundAfterUnmap .aarch64 = some 0x80000 ∧ foundAfterUnmap .x8664 = some 0x80000 := by
  decide +kernel

end ChCore.Mm
