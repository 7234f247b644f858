/-
  File: ChCore/Mm/VmspaceInit.lean
  Subject: The page table a new address space starts with (`vmspace_init`, `arch_vmspace_init`) and
    the tables of the kernel that x86_64 puts into it (`header.S`, `setup_direct_mapping`).

  * `NewTables.plain` -- the huge pages of the kernel are the only ones.
-/
import ChCore.Mm.PageTableMap

namespace ChCore.Mm

open Lib List

/-! ## 1. The tables of the kernel on x86_64 -/

def PRESENT : Pte := 1 <<< 0
def WRITABLE : Pte := 1 <<< 1
def HUGE_1G : Pte := 1 <<< 7
def GLOBAL : Pte := 1 <<< 8

variable (a : Arch) (f : Frame)

/-- An entry of `CHCORE_PGD`. -/
def kernelTablePte : Pte := setField 12 f (PRESENT ||| WRITABLE)

/-- The entry for the gigabyte `idx`; `nx` is `NX` or 0. -/
def hugePte (idx : Nat) (nx : Pte) : Pte :=
  setField 12 (BitVec.ofNat 36 (idx * 2 ^ 18)) (PRESENT ||| WRITABLE ||| HUGE_1G ||| GLOBAL ||| nx)

def pteClearUserBit (e : Pte) : Pte := e &&& ~~~PAGE_USER

/-- **The tables of the kernel**: `CHCORE_PGD`, `PUD_DM` and `PUD_CODE`, with the number of
    gigabytes in the direct mapping. They lie in the first gigabyte, behind its first page. -/
structure Kernel where
  pgd : Frame
  dm : Frame
  code : Frame
  gigs : Nat
  nodup : [pgd, dm, code].Nodup
  image : ∀ f ∈ [pgd, dm, code], 0 < f.toNat ∧ f.toNat < 2 ^ 18
  gigs_le : gigs ≤ 512

/-- What the boot code has put into them. -/
structure Kernel.Loaded (K : Kernel) (m : Tables Frame Pte) : Prop where
  pgd_dm : m K.pgd 510 = kernelTablePte K.dm
  pgd_code : m K.pgd 511 = kernelTablePte K.code
  dm : ∀ i, m K.dm i = if i < K.gigs then hugePte i PAGE_NX else 0
  code : ∀ i, m K.code i = if i = 511 then hugePte 0 0 else 0

/-- The user bit of these entries is clear as it is. -/
theorem pteClearUserBit_kernel : pteClearUserBit (kernelTablePte f) = kernelTablePte f := by
  apply BitVec.eq_of_getLsbD_eq
  intro i hi
  have hus : PAGE_USER.getLsbD i = decide (i = 2) := getLsbD_one_shiftLeft (by decide) i
  unfold pteClearUserBit
  rw [BitVec.getLsbD_and, BitVec.getLsbD_not, hus]
  by_cases h2 : i = 2
  · subst h2
    rw [kernelTablePte, getLsbD_setField _ _ (by omega), if_neg (by omega)]
    decide
  · simp [hi, h2]

theorem kernelTablePte_next : nextTableAddr (kernelTablePte f) = f := by
  simp [nextTableAddr, kernelTablePte, getField_set_same]

theorem kernelTablePte_table {n : Nat} {f : Frame} (hn : 0 < n) (hf : f ≠ NULL_PTP) :
    pteKind x8664 n (kernelTablePte f) = .table f := by
  have hpres : x8664.present (kernelTablePte f) = true := by
    simp only [x8664, kernelTablePte, getField_set_disjoint (show 0 + 1 ≤ 64 by omega)
      (.inl (show 0 + 1 ≤ 12 by omega))]
    decide
  have hblock : x8664.isBlock (3 - n) (kernelTablePte f) = false := by
    simp only [x8664, kernelTablePte, getField_set_disjoint (show 7 + 1 ≤ 64 by omega)
      (.inl (show 7 + 1 ≤ 12 by omega)), Bool.or_eq_false_iff]
    exact ⟨beq_false_of_ne (by omega), by decide⟩
  simp [pteKind, hpres, hblock, kernelTablePte_next, hf, Nat.ne_of_gt hn]

theorem hugePte_leaf (n idx : Nat) {nx : Pte} (hnx : nx = 0 ∨ nx = PAGE_NX) :
    x8664.present (hugePte idx nx) = true ∧ pteKind x8664 n (hugePte idx nx) = .leaf := by
  have hpres : x8664.present (hugePte idx nx) = true := by
    simp only [x8664, hugePte, getField_set_disjoint (show 0 + 1 ≤ 64 by omega)
      (.inl (show 0 + 1 ≤ 12 by omega))]
    rcases hnx with rfl | rfl <;> decide
  have hblock : x8664.isBlock (3 - n) (hugePte idx nx) = true := by
    simp only [x8664, hugePte, getField_set_disjoint (show 7 + 1 ≤ 64 by omega)
      (.inl (show 7 + 1 ≤ 12 by omega)), Bool.or_eq_true]
    right
    rcases hnx with rfl | rfl <;> decide
  refine ⟨hpres, ?_⟩
  simp [pteKind, hpres, hblock]

theorem hugePte_next (idx : Nat) (nx : Pte) :
    nextTableAddr (hugePte idx nx) = BitVec.ofNat 36 (idx * 2 ^ 18) := by
  simp [nextTableAddr, hugePte, getField_set_same]

/-! ## 2. A new address space -/

/-- The machine the kernel is built for. -/
inductive Arch where
  | aarch64
  | x8664
  deriving DecidableEq, Repr

def Arch.format : Arch → PteFormat
  | .aarch64 => Mm.aarch64
  | .x8664 => Mm.x8664

/-- `arch_vmspace_init` without the choice of a PCID; on aarch64 it is empty. -/
def archVmspaceInit (K : Kernel) (m : Tables Frame Pte) (pgtbl : Frame) : Tables Frame Pte :=
  match a with
  | .aarch64 => m
  | .x8664 =>
    let m := m.set pgtbl 511 (pteClearUserBit (m K.pgd 511))
    m.set pgtbl 510 (pteClearUserBit (m K.pgd 510))

/-- `vmspace_init`, as far as it makes the page table (`none` = `get_pages` has failed). -/
def pgtblInit (K : Kernel) (s : PtState) : Option (PtState × Frame) :=
  match s.pages with
  | [] => none
  | pgtbl :: rest =>
    if pgtbl = NULL_PTP then none
    else some ({ s with mem := archVmspaceInit a K (s.mem.fill pgtbl 0) pgtbl, pages := rest }, pgtbl)

/-- **The memory before the first address space**: `get_pages` returns no page twice and none of the
    kernel's image. -/
structure Booted (K : Kernel) (s : PtState) : Prop where
  loaded : K.Loaded s.mem
  nodup : s.pages.Nodup
  image : ∀ g ∈ s.pages, g ∉ [K.pgd, K.dm, K.code]

/-- **The pages that hold the kernel** in an address space: the top-level entry 510 and the last
    gigabyte. -/
def Arch.KernelPage (v : Nat) : Prop :=
  a = .x8664 ∧ (v / 2 ^ 27 % 512 = 510 ∨ v / 2 ^ 18 % 2 ^ 18 = 2 ^ 18 - 1)
  deriving Decidable

/-! ## 3. Its tables -/

section Init

variable {a : Arch} {K : Kernel} {s s' : PtState} {pgtbl : Frame}

theorem Kernel.not_null (K : Kernel) {f : Frame} (hf : f ∈ [K.pgd, K.dm, K.code]) :
    f ≠ NULL_PTP := by
  rintro rfl
  have h := (K.image _ hf).2
  exact absurd h (by decide)

/-- What a new address space has in its tables. -/
structure NewTables (a : Arch) (K : Kernel) (s : PtState) (pgtbl : Frame) : Prop where
  root : ∀ i, s.mem pgtbl i =
    if a = .x8664 ∧ i = 510 then kernelTablePte K.dm
    else if a = .x8664 ∧ i = 511 then kernelTablePte K.code
    else 0
  dm : ∀ i, s.mem K.dm i = if i < K.gigs then hugePte i PAGE_NX else 0
  code : ∀ i, s.mem K.code i = if i = 511 then hugePte 0 0 else 0
  not_null : pgtbl ≠ NULL_PTP
  not_image : pgtbl ∉ [K.pgd, K.dm, K.code]
  nodup : (pgtbl :: s.pages).Nodup
  image : ∀ g ∈ s.pages, g ∉ [K.pgd, K.dm, K.code]

theorem pgtblInit_tables (h : Booted K s) (hinit : pgtblInit a K s = some (s', pgtbl)) :
    NewTables a K s' pgtbl := by
  unfold pgtblInit at hinit
  split at hinit
  · cases hinit
  rename_i g rest hpages
  obtain ⟨hnull, hinit⟩ := Option.ite_none_left_eq_some.mp hinit
  cases hinit
  have himage : pgtbl ∉ [K.pgd, K.dm, K.code] := h.image pgtbl (by rw [hpages]; exact mem_cons_self)
  simp only [mem_cons, not_mem_nil, or_false, not_or] at himage
  obtain ⟨hpgd, hdm, hcode⟩ := himage
  -- the tables of the kernel are not touched
  have hkeep : ∀ f i, f ≠ pgtbl → archVmspaceInit a K (s.mem.fill pgtbl 0) pgtbl f i = s.mem f i := by
    intro f i hf
    cases a with
    | aarch64 => exact Tables.fill_of_ne _ _ hf i
    | x8664 =>
      simp only [archVmspaceInit]
      rw [Tables.set_of_ne _ _ fun hc => hf hc.1, Tables.set_of_ne _ _ fun hc => hf hc.1,
        Tables.fill_of_ne _ _ hf]
  refine ⟨fun i => ?_, fun i => ?_, fun i => ?_, hnull, ?_, ?_, fun f hf => ?_⟩
  · cases a with
    | aarch64 => simp [archVmspaceInit, Tables.fill_same]
    | x8664 =>
    have h511 : s.mem.fill pgtbl 0 K.pgd 511 = kernelTablePte K.code := by
      rw [Tables.fill_of_ne _ _ (Ne.symm hpgd), h.loaded.pgd_code]
    have h510 : (s.mem.fill pgtbl 0).set pgtbl 511 (kernelTablePte K.code) K.pgd 510 =
        kernelTablePte K.dm := by
      rw [Tables.set_of_ne _ _ fun hc => hpgd hc.1.symm, Tables.fill_of_ne _ _ (Ne.symm hpgd),
        h.loaded.pgd_dm]
    simp only [archVmspaceInit, h511, pteClearUserBit_kernel, h510, true_and]
    by_cases hi : i = 510
    · rw [if_pos hi, hi, Tables.set_same]
    rw [if_neg hi, Tables.set_of_ne _ _ fun hc => hi hc.2]
    by_cases hi' : i = 511
    · rw [if_pos hi', hi', Tables.set_same]
    · rw [if_neg hi', Tables.set_of_ne _ _ fun hc => hi' hc.2, Tables.fill_same]
  · exact (hkeep _ i (Ne.symm hdm)).trans (h.loaded.dm i)
  · exact (hkeep _ i (Ne.symm hcode)).trans (h.loaded.code i)
  · simp [hpgd, hdm, hcode]
  · rw [← hpages]
    exact h.nodup
  · exact h.image f (by rw [hpages]; exact mem_cons_of_mem _ hf)

variable (h : NewTables a K s pgtbl)
include h

theorem NewTables.root_kind (i : Nat) :
    pteKind a.format 3 (s.mem pgtbl i) =
      if a = .x8664 ∧ i = 510 then .table K.dm
      else if a = .x8664 ∧ i = 511 then .table K.code
      else .hole := by
  rw [h.root]
  split
  · rename_i hc
    rw [hc.1]
    exact kernelTablePte_table (by omega) (K.not_null (by simp))
  split
  · rename_i hc
    rw [hc.1]
    exact kernelTablePte_table (by omega) (K.not_null (by simp))
  · exact pteKind_zero 3

/-- Below the two tables of the kernel there are only huge pages. -/
theorem NewTables.kernel_kind (ha : a = .x8664) {f : Frame} (hf : f = K.dm ∨ f = K.code) (i : Nat) :
    pteKind a.format 2 (s.mem f i) = .hole ∨ pteKind a.format 2 (s.mem f i) = .leaf := by
  rw [ha]
  rcases hf with rfl | rfl
  · rw [h.dm]
    split
    · exact .inr (hugePte_leaf 2 i (.inr rfl)).2
    · exact .inl (pteKind_zero 2)
  · rw [h.code]
    split
    · exact .inr (hugePte_leaf 2 0 (.inl rfl)).2
    · exact .inl (pteKind_zero 2)

/-- **The tables of a new address space.** -/
theorem NewTables.walk {q : List Nat} {g : Frame} (hw : s.walk a.format pgtbl q = some g) :
    q = [] ∧ g = pgtbl ∨ a = .x8664 ∧ (q = [510] ∧ g = K.dm ∨ q = [511] ∧ g = K.code) := by
  cases q with
  | nil =>
    cases hw
    exact .inl ⟨rfl, rfl⟩
  | cons i q =>
  right
  obtain ⟨k, f, hk, hkind, hw⟩ := walk_cons_some hw
  obtain rfl : k = 2 := by omega
  rw [h.root_kind] at hkind
  have hstop : a = .x8664 → (f = K.dm ∨ f = K.code) → q = [] ∧ g = f := by
    intro ha hf
    cases q with
    | nil =>
      cases hw
      exact ⟨rfl, rfl⟩
    | cons j q =>
      obtain ⟨k, f', hk, hkind', -⟩ := walk_cons_some hw
      obtain rfl : k = 1 := by omega
      rcases h.kernel_kind ha hf j with hc | hc <;> exact absurd (hc.symm.trans hkind') (by simp)
  split at hkind
  · rename_i hc
    cases hkind
    obtain ⟨rfl, rfl⟩ := hstop hc.1 (.inl rfl)
    exact ⟨hc.1, .inl ⟨by rw [hc.2], rfl⟩⟩
  split at hkind
  · rename_i hc
    cases hkind
    obtain ⟨rfl, rfl⟩ := hstop hc.1 (.inr rfl)
    exact ⟨hc.1, .inr ⟨by rw [hc.2], rfl⟩⟩
  · cases hkind

theorem NewTables.inv : PtInv a.format s pgtbl where
  root := h.not_null
  top i hi := by
    have hk := h.root_kind i
    cases hb : a.format.isBlock 0 (s.mem pgtbl i) with
    | false => rfl
    | true =>
    -- a huge page at the top would be a leaf
    have hleaf : pteKind a.format 3 (s.mem pgtbl i) = .leaf := by simp [pteKind, hi, hb]
    rw [hleaf] at hk
    split at hk
    · cases hk
    · split at hk <;> cases hk
  tree p q f hp hq := by
    have hroot := h.not_image
    have hK := K.nodup
    simp only [mem_cons, not_mem_nil, or_false, not_or, nodup_cons] at hroot hK
    rcases h.walk hp with ⟨rfl, hf⟩ | ⟨-, ⟨rfl, hf⟩ | ⟨rfl, hf⟩⟩ <;>
      rcases h.walk hq with ⟨rfl, hf'⟩ | ⟨-, ⟨rfl, hf'⟩ | ⟨rfl, hf'⟩⟩ <;>
      first
        | rfl
        | (have hc := hf.symm.trans hf'; tauto)
  nodup := (nodup_cons.mp h.nodup).2
  fresh g hg p hw := by
    have himage := h.image g hg
    simp only [mem_cons, not_mem_nil, or_false, not_or] at himage
    rcases h.walk hw with ⟨-, hf⟩ | ⟨-, ⟨-, hf⟩ | ⟨-, hf⟩⟩
    · exact (nodup_cons.mp h.nodup).1 (hf ▸ hg)
    · exact himage.2.1 hf
    · exact himage.2.2 hf

/-- **The huge pages of the kernel are the only ones.** -/
theorem NewTables.plain {v : Nat} (hv : ¬ a.KernelPage v) : PlainWay a.format s pgtbl v := by
  intro q f i hw hpre hpres
  rcases h.walk hw with ⟨rfl, rfl⟩ | ⟨ha, ⟨rfl, rfl⟩ | ⟨rfl, rfl⟩⟩
  · have hk := h.root_kind i
    split at hk
    · exact ⟨_, hk⟩
    split at hk
    · exact ⟨_, hk⟩
    · rename_i h510 h511
      rw [h.root, if_neg h510, if_neg h511, a.format.present_zero] at hpres
      cases hpres
  · -- entry 510 holds pages of the kernel only
    refine absurd ⟨ha, .inl ?_⟩ hv
    have := (cons_prefix_cons.mp hpre).1
    omega
  have h0 := (cons_prefix_cons.mp hpre).1
  have h1 := (cons_prefix_cons.mp (cons_prefix_cons.mp hpre).2).1
  rw [h.code] at hpres
  split at hpres
  · refine absurd ⟨ha, .inr ?_⟩ hv
    omega
  · rw [a.format.present_zero] at hpres
    cases hpres

end Init

/-! ## 4. A machine -/

/-- A machine with 512 gigabytes of memory, and nothing in it but the tables of the kernel. -/
def bareKernel : Kernel where
  pgd := 1
  dm := 2
  code := 3
  gigs := 512
  nodup := by decide
  image := by simp
  gigs_le := le_rfl

def bareMemory : Tables Frame Pte := fun f i =>
  if f = 1 then
    if i = 510 then kernelTablePte 2 else if i = 511 then kernelTablePte 3 else 0
  else if f = 2 then if i < 512 then hugePte i PAGE_NX else 0
  else if f = 3 then if i = 511 then hugePte 0 0 else 0
  else 0

/-- The pages `get_pages` has: one for the root and three for tables. -/
def bareState : PtState := ⟨bareMemory, [4, 5, 6, 7], []⟩

theorem bareState_booted : Booted bareKernel bareState where
  loaded := ⟨rfl, rfl, fun _ => rfl, fun _ => rfl⟩
  nodup := by decide
  image := by simp [bareState, bareKernel]

/-- Its first address space. -/
def bareTable : PtState :=
  ⟨archVmspaceInit a bareKernel (bareMemory.fill 4 0) 4, [5, 6, 7], []⟩

theorem bareTable_init : pgtblInit a bareKernel bareState = some (bareTable a, 4) := rfl

theorem bareTable_new : NewTables a bareKernel (bareTable a) 4 :=
  pgtblInit_tables bareState_booted (bareTable_init a)

end ChCore.Mm
