/-
  File: ChCore/Mm/MapPmo.lean
  Subject: `sys_map_pmo` on x86_64 (`kernel/object/memory.c`, `vmspace_map_range` and
    `fill_page_table` in `kernel/mm/vmregion.c`) over whole runs: regions and page table.

  Regions are compared as 64-bit addresses while the page table keeps 48 bits of an address, and no
  address is checked on the way.

  * `map_pmo_isolated_iff` -- the runs that leave the kernel's tables alone and store into no
    entry twice.
-/
import ChCore.Mm.VmspaceInit
import ChCore.Mm.Vmregion

namespace ChCore.Mm

open Lib Option

/-! ## 1. The call -/

/-- `struct pmobject`, as far as it is read here. -/
structure Pmobject where
  type : PmoType
  start : Nat
  size : BitVec 64

/-- The arguments of `sys_map_pmo`, with the answers of the functions it calls. -/
structure MapPmoCall where
  /-- `obj_get` for `pmo_cap`. -/
  pmo : Option Pmobject
  /-- `obj_get` for `target_cap_group_cap` finds the group. -/
  target : Bool
  addr : BitVec 64
  perm : VmrProp
  /-- `alloc_vmregion`. -/
  alloc : Option Nat
  /-- `cap_copy`, if the target is another group. -/
  copied : Option Int

/-- The regions and the page table of the target. -/
structure MapState where
  vmspace : Vmspace
  pt : PtState

/-- `vmr->perm`. -/
def vmrPerm (pmo : Pmobject) (perm : VmrProp) : VmrProp :=
  if pmo.type = .device then perm ||| VMR_DEVICE else perm

variable (pgtbl : Frame)

def fillPageTable (s : PtState) (start : BitVec 64) (pmo : Pmobject)
    (perm : VmrProp) : Option PtState :=
  mapRangeInPgtbl x8664 s pgtbl start.toNat pmo.start pmo.size.toNat perm

variable (c : MapPmoCall) (s : MapState)

/-- `vmspace_map_range` (`none` = the kernel stops). -/
def mapRangeWithPmo (va : BitVec 64) (perm : VmrProp)
    (pmo : Pmobject) (alloc : Option Nat) : Option (MapState × Int) :=
  (vmspaceMapRange s.vmspace va pmo.size pmo.type alloc).bind fun (vmspace, ret) =>
    if ret ≠ 0 then some (⟨vmspace, s.pt⟩, ret)
    else if pmo.type = .data ∨ pmo.type = .device then
      (fillPageTable pgtbl s.pt (roundDownPage va) pmo (vmrPerm pmo perm)).map fun pt =>
        (⟨vmspace, pt⟩, 0)
    else some (⟨vmspace, s.pt⟩, 0)

/-- **`sys_map_pmo`.** -/
def sysMapPmo (c : MapPmoCall) : Option (MapState × Int) :=
  match c.pmo with
  | none => some (s, -ECAPBILITY)
  | some pmo =>
    if c.target = false then some (s, -ECAPBILITY)
    else
      (mapRangeWithPmo pgtbl s c.addr c.perm pmo c.alloc).map fun (s', r) =>
        if r ≠ 0 then (s', -EPERM) else (s', c.copied.getD 0)

def mapStep (c : MapPmoCall) : Option MapState :=
  (sysMapPmo pgtbl s c).map Prod.fst

/-! ## 2. What a call does to the page table -/

/-- The call adds a region for the pmo. -/
def MapPmoCall.Maps (pmo : Pmobject) : Prop :=
  c.pmo = some pmo ∧ c.target = true ∧ c.alloc.isSome

/-- The region of the call. -/
def MapPmoCall.Region (r : Vmregion) : Prop :=
  ∃ pmo, c.Maps pmo ∧ r = mapRegion c.addr pmo.size pmo.type

/-- The number of its first page. -/
def MapPmoCall.startPage : Nat := (roundDownPage c.addr).toNat / PT_PAGE_SIZE

/-- A page that the call maps. -/
def MapPmoCall.Page (v : Nat) : Prop :=
  ∃ pmo, c.Maps pmo ∧ InPages c.startPage (pageCount pmo.size.toNat) v

/-- The pmo is one that is mapped at once. -/
def MapPmoCall.Early : Prop :=
  ∀ pmo, c.pmo = some pmo → pmo.type = .data ∨ pmo.type = .device

section Calls

variable {K : Kernel} {pgtbl : Frame} {s s' : MapState} {c : MapPmoCall}

/-- A call that returns has mapped the pages of its pmo, or it has left the page table alone. -/
theorem mapStep_cases (hc : c.Early) (h : mapStep pgtbl s c = some s') :
    (∃ pmo, c.Maps pmo ∧ fillPageTable pgtbl s.pt (roundDownPage c.addr) pmo
      (vmrPerm pmo c.perm) = some s'.pt) ∨ (∀ pmo, ¬ c.Maps pmo) ∧ s'.pt = s.pt := by
  unfold mapStep sysMapPmo at h
  split at h
  · rename_i hpmo
    cases h
    exact .inr ⟨fun pmo hm => absurd (hpmo.symm.trans hm.1) (by simp), rfl⟩
  rename_i pmo hpmo
  cases htarget : c.target with
  | false =>
    rw [htarget, if_pos rfl] at h
    cases h
    exact .inr ⟨fun pmo hm => absurd (htarget.symm.trans hm.2.1) (by simp), rfl⟩
  | true =>
  simp only [htarget, Bool.true_eq_false, if_false, map_map, map_eq_some_iff,
    mapRangeWithPmo, bind_eq_some_iff] at h
  obtain ⟨⟨s1, r⟩, ⟨⟨vmspace, ret⟩, hmap, hret⟩, hs'⟩ := h
  have hs1 : s1 = s' := by
    rw [← hs']
    simp only [Function.comp_apply]
    split <;> rfl
  subst hs1
  obtain ⟨-, hmap⟩ := ite_none_left_eq_some.mp hmap
  split at hmap
  · rename_i halloc
    cases hmap
    cases hret
    exact .inr ⟨fun pmo hm => absurd hm.2.2 (by simp [halloc]), rfl⟩
  rename_i p halloc
  obtain ⟨vmspace', -, hv⟩ := map_eq_some_iff.mp hmap
  cases hv
  rw [if_pos (hc pmo hpmo)] at hret
  obtain ⟨pt, hfill, hpt⟩ := map_eq_some_iff.mp hret
  cases hpt
  exact .inl ⟨pmo, ⟨hpmo, htarget, by simp [halloc]⟩, hfill⟩

/-- Every table stays where it is. -/
def Keeps (pgtbl : Frame) (s s' : PtState) : Prop :=
  ∀ q g, s.walk x8664 pgtbl q = some g → s'.walk x8664 pgtbl q = some g

/-- The step, for the proofs below: the tables are in order and stay, and the stores are those of
    the pages of the call. -/
theorem mapStep_spec (hinv : PtInv x8664 s.pt pgtbl) (hc : c.Early)
    (h : mapStep pgtbl s c = some s') :
    PtInv x8664 s'.pt pgtbl ∧ Extends x8664 pgtbl c.Page s.pt s'.pt ∧
      ∀ v, c.Page v → ∃ f e, s'.pt.walk x8664 pgtbl (tablePath v) = some f ∧
        (f, v % 512, e) ∈ newStores s.pt s'.pt := by
  rcases mapStep_cases hc h with ⟨pmo, hm, hfill⟩ | ⟨hnone, hsame⟩
  · have hmap := mapRange_spec hinv hfill
    refine ⟨hmap.inv, hmap.tables.mono fun v hv => ⟨pmo, hm, hv⟩, fun v hv => ?_⟩
    obtain ⟨pmo', hm', hlo, hhi⟩ := hv
    obtain rfl : pmo' = pmo := some.inj (hm'.1.symm.trans hm.1)
    obtain ⟨j, rfl⟩ := Nat.exists_eq_add_of_le hlo
    obtain ⟨f, e, new, hw, hlog, hmem⟩ := hmap.stored j (by omega)
    refine ⟨f, e, hw, ?_⟩
    rw [newStores_of_log hlog]
    exact List.mem_reverse.mpr hmem
  · rw [hsame]
    exact ⟨hinv, Extends.refl _ _ _ _, fun v hv => by
      obtain ⟨pmo, hm, -⟩ := hv
      exact absurd hm (hnone pmo)⟩

/-! ## 3. The tables of the kernel -/

/-- **The tables while the kernel's are untouched**: the entries 510 and 511 of the root lead to
    them, and there are no tables below. -/
structure MapInv (K : Kernel) (pgtbl : Frame) (s : PtState) : Prop where
  inv : PtInv x8664 s pgtbl
  dm : s.walk x8664 pgtbl [510] = some K.dm
  code : s.walk x8664 pgtbl [511] = some K.code
  huge : ∀ f, f = K.dm ∨ f = K.code → ∀ i g, pteKind x8664 2 (s.mem f i) ≠ .table g

/-- The call leaves the entries 510 and 511 of the root and the tables below them alone. -/
def KernelKept (K : Kernel) (pgtbl : Frame) (s s' : PtState) : Prop :=
  s'.mem pgtbl 510 = s.mem pgtbl 510 ∧ s'.mem pgtbl 511 = s.mem pgtbl 511 ∧
    ∀ i, s'.mem K.dm i = s.mem K.dm i ∧ s'.mem K.code i = s.mem K.code i

/-- The pages of the call are below the top-level entry 510. -/
def MapPmoCall.UserPages (c : MapPmoCall) : Prop := ∀ v, c.Page v → v % 2 ^ 36 < 510 * 2 ^ 27

/-- An entry of a table that the way of no page of the call goes through stays as it is. -/
theorem Extends.entry_same {R : Nat → Prop} {s s' : PtState} {p : List Nat} {f : Frame} {i : Nat}
    (he : Extends x8664 pgtbl R s s') (hinv : PtInv x8664 s pgtbl) (hinv' : PtInv x8664 s' pgtbl)
    (hp : s.walk x8664 pgtbl p = some f) (hoff : ∀ v, R v → ¬ p ++ [i] <+: pagePath v) :
    s'.mem f i = s.mem f i := by
  rcases he.entries f i with hsame | hfresh | ⟨v, q, hv, hq, hpre, -⟩
  · exact hsame
  · exact absurd hp (hinv.fresh f hfresh p)
  · rw [hinv'.tree q p f hq (he.keeps p f hp)] at hpre
    exact absurd hpre (hoff v hv)

section

variable (h : MapInv K pgtbl s.pt) (hc : c.Early) (hs : mapStep pgtbl s c = some s')

include h hc hs

theorem KernelKept.of_user (huser : c.UserPages) : KernelKept K pgtbl s.pt s'.pt := by
  obtain ⟨hinv', he, -⟩ := mapStep_spec h.inv hc hs
  have htop : ∀ v i q, c.Page v → i = 510 ∨ i = 511 → ¬ i :: q <+: pagePath v := by
    intro v i q hv hi hpre
    have hlt := huser v hv
    have h0 := (List.cons_prefix_cons.mp hpre).1
    omega
  refine ⟨?_, ?_, fun i => ⟨?_, ?_⟩⟩
  · exact he.entry_same h.inv hinv' walk_nil fun v hv => htop v 510 [] hv (.inl rfl)
  · exact he.entry_same h.inv hinv' walk_nil fun v hv => htop v 511 [] hv (.inr rfl)
  · exact he.entry_same h.inv hinv' h.dm fun v hv => htop v 510 [i] hv (.inl rfl)
  · exact he.entry_same h.inv hinv' h.code fun v hv => htop v 511 [i] hv (.inr rfl)

/-- A page of the kernel's entries needs a table below the kernel's. -/
theorem user_of_kernelKept (hkept : KernelKept K pgtbl s.pt s'.pt) : c.UserPages := by
  obtain ⟨hinv', he, hstored⟩ := mapStep_spec h.inv hc hs
  intro v hv
  by_contra hlt
  obtain ⟨f, -, hw, -⟩ := hstored v hv
  -- the kernel's table on the way to `v`
  have htable : ∃ d, (d = K.dm ∨ d = K.code) ∧
      s'.pt.walk x8664 pgtbl [v / 2 ^ 27 % 512] = some d := by
    obtain h0 | h0 : v / 2 ^ 27 % 512 = 510 ∨ v / 2 ^ 27 % 512 = 511 := by omega
    · exact ⟨K.dm, .inl rfl, by rw [h0]; exact he.keeps _ _ h.dm⟩
    · exact ⟨K.code, .inr rfl, by rw [h0]; exact he.keeps _ _ h.code⟩
  obtain ⟨d, hd, hwalk⟩ := htable
  have hrest := walk_append hwalk [v / 2 ^ 18 % 512, v / 2 ^ 9 % 512]
  obtain ⟨k, g, hk, hkind, -⟩ := walk_cons_some (hrest.symm.trans hw)
  obtain rfl : k = 1 := by
    simp only [List.length_singleton] at hk
    omega
  have hsame : s'.pt.mem d (v / 2 ^ 18 % 512) = s.pt.mem d (v / 2 ^ 18 % 512) := by
    rcases hd with rfl | rfl
    · exact (hkept.2.2 _).1
    · exact (hkept.2.2 _).2
  rw [hsame] at hkind
  exact h.huge d hd _ g hkind

/-- **A call keeps the kernel's tables exactly when it stays off their pages.** -/
theorem kernelKept_iff : KernelKept K pgtbl s.pt s'.pt ↔ c.UserPages :=
  ⟨user_of_kernelKept h hc hs, KernelKept.of_user h hc hs⟩

theorem MapInv.step (huser : c.UserPages) : MapInv K pgtbl s'.pt := by
  obtain ⟨hinv', he, -⟩ := mapStep_spec h.inv hc hs
  obtain ⟨-, -, hkept⟩ := KernelKept.of_user h hc hs huser
  refine ⟨hinv', he.keeps _ _ h.dm, he.keeps _ _ h.code, fun f hf i g => ?_⟩
  have hsame : s'.pt.mem f i = s.pt.mem f i := by
    rcases hf with rfl | rfl
    · exact (hkept i).1
    · exact (hkept i).2
  rw [hsame]
  exact h.huge f hf i g

end

/-! ## 4. Two calls -/

/-- Two calls for regions that share no byte store into no common entry. -/
def NoShared (t₁ t₂ : Transition MapState MapPmoCall) : Prop :=
  ∀ r₁ r₂, t₁.act.Region r₁ → t₂.act.Region r₂ → Apart r₁ r₂ →
    ∀ x ∈ newStores t₁.pre.pt t₁.post.pt, ∀ y ∈ newStores t₂.pre.pt t₂.post.pt,
      ¬ (x.1 = y.1 ∧ x.2.1 = y.2.1)

/-- Such regions have no page in common in the 48 bits the page table keeps of an address. -/
def NoAlias (c₁ c₂ : MapPmoCall) : Prop :=
  ∀ r₁ r₂, c₁.Region r₁ → c₂.Region r₂ → Apart r₁ r₂ →
    ∀ v₁ v₂, c₁.Page v₁ → c₂.Page v₂ → v₁ % 2 ^ 36 ≠ v₂ % 2 ^ 36

theorem Extends.mem_newStores {R : Nat → Prop} {s s' : PtState} {x : Frame × Nat × Pte}
    (he : Extends x8664 pgtbl R s s') (hx : x ∈ newStores s s') :
    Written x8664 pgtbl R s s' x.1 x.2.1 ∧ Linked x8664 pgtbl s' x.1 x.2.1 := by
  obtain ⟨new, hlog, hnew⟩ := he.log
  rw [newStores_of_log hlog] at hx
  exact hnew x (List.mem_reverse.mp hx)

variable {t₁ t₂ : Transition MapState MapPmoCall}

section

variable (h1 : PtInv x8664 t₁.pre.pt pgtbl) (hc1 : t₁.act.Early)
  (hs1 : mapStep pgtbl t₁.pre t₁.act = some t₁.post) (hkeeps : Keeps pgtbl t₁.post.pt t₂.pre.pt)
  (h2 : PtInv x8664 t₂.pre.pt pgtbl) (hc2 : t₂.act.Early)
  (hs2 : mapStep pgtbl t₂.pre t₂.act = some t₂.post)

include h1 hc1 hs1 hkeeps h2 hc2 hs2

/-- An entry that both calls store into is the entry of one page. -/
theorem NoAlias.noShared (h : NoAlias t₁.act t₂.act) : NoShared t₁ t₂ := by
  intro r1 r2 hr1 hr2 hapart x hx y hy hxy
  obtain ⟨-, he1, -⟩ := mapStep_spec h1 hc1 hs1
  obtain ⟨hinv2, he2, -⟩ := mapStep_spec h2 hc2 hs2
  obtain ⟨⟨v1, q1, hv1, hq1, hpre1, -⟩, hlinked⟩ := he1.mem_newStores hx
  obtain ⟨⟨v2, q2, hv2, hq2, hpre2, hlast⟩, -⟩ := he2.mem_newStores hy
  rw [← hxy.1] at hq2 hlast
  rw [← hxy.2] at hpre2 hlast
  have hq1' := hkeeps q1 _ hq1
  obtain rfl : q1 = q2 := hinv2.tree q1 q2 _ (he2.keeps _ _ hq1') hq2
  by_cases hlen : q1.length = 3
  · -- the entry of a page
    have hpath1 := hpre1.eq_of_length (by simp [hlen, pagePath, tablePath])
    have hpath2 := hpre2.eq_of_length (by simp [hlen, pagePath, tablePath])
    exact h r1 r2 hr1 hr2 hapart v1 v2 hv1 hv2
      ((pagePath_eq_iff v1 v2).mp (hpath1.symm.trans hpath2))
  -- above the last level the first call has put a table there
  have hlt : q1.length < 3 := by
    have := walk_length hq1
    omega
  cases hg : t₁.post.pt.walk x8664 pgtbl (q1 ++ [x.2.1]) with
  | none => exact hlinked q1 hq1 hlt hg
  | some g =>
  have hg' := hkeeps _ g hg
  rcases hlast with hlast | hfresh | habs
  · exact hlen hlast
  · exact h2.fresh _ hfresh q1 hq1'
  have hwalk := (walk_append hq1' [x.2.1]).symm.trans hg'
  obtain ⟨k, g', -, hkind, -⟩ := walk_cons_some hwalk
  rw [pteKind_of_absent habs] at hkind
  cases hkind

/-- One page in both calls is one entry. -/
theorem NoShared.noAlias (h : NoShared t₁ t₂) : NoAlias t₁.act t₂.act := by
  intro r1 r2 hr1 hr2 hapart v1 v2 hv1 hv2 hmod
  obtain ⟨-, -, hstored1⟩ := mapStep_spec h1 hc1 hs1
  obtain ⟨-, he2, hstored2⟩ := mapStep_spec h2 hc2 hs2
  obtain ⟨f1, e1, hw1, hmem1⟩ := hstored1 v1 hv1
  obtain ⟨f2, e2, hw2, hmem2⟩ := hstored2 v2 hv2
  have hpath : tablePath v1 = tablePath v2 := by
    simp only [tablePath, List.cons.injEq, and_true]
    omega
  have hw1' := he2.keeps _ _ (hkeeps _ _ hw1)
  rw [hpath, hw2] at hw1'
  exact h r1 r2 hr1 hr2 hapart _ hmem1 _ hmem2 ⟨(some.inj hw1').symm,
    show v1 % 512 = v2 % 512 by omega⟩

end

end Calls

/-! ## 5. Runs -/

/-- The entry lies on the way to an address of the region. -/
def OwnEntry (s : PtState) (r : Vmregion) (x : Frame × Nat × Pte) : Prop :=
  ∃ y q, r.lo ≤ y ∧ y < r.hi ∧ s.walk x8664 pgtbl q = some x.1 ∧
    q ++ [x.2.1] <+: pagePath (y / PT_PAGE_SIZE)

/-- **The regions of a run are isolated**: what a call stores belongs to its region, two regions
    that share no byte share no entry, and the kernel's tables stay as they are. -/
structure Isolated (K : Kernel) (pgtbl : Frame) (tr : List (Transition MapState MapPmoCall)) :
    Prop where
  own : ∀ t ∈ tr, ∀ x ∈ newStores t.pre.pt t.post.pt,
    ∃ r, t.act.Region r ∧ OwnEntry pgtbl t.post.pt r x
  apart : tr.Pairwise NoShared
  kernel : ∀ t ∈ tr, KernelKept K pgtbl t.pre.pt t.post.pt

section Runs

variable {K : Kernel} {pgtbl : Frame} {s s' : MapState} {c : MapPmoCall}

theorem mapRegion_size (va len : BitVec 64) (type : PmoType) :
    (mapRegion va len type).size.toNat = max len.toNat PT_PAGE_SIZE := by
  have hpage : VM_PAGE_SIZE.toNat = PT_PAGE_SIZE := rfl
  unfold mapRegion
  by_cases hsmall : len < VM_PAGE_SIZE
  · rw [if_pos hsmall, hpage]
    rw [BitVec.lt_def] at hsmall
    omega
  · rw [if_neg hsmall]
    rw [BitVec.lt_def, hpage] at hsmall
    show len.toNat = _
    omega

/-- A page of the call has an address of the region in it. -/
theorem MapPmoCall.Page.region {v : Nat} (hc : c.Early) (hs : mapStep pgtbl s c = some s')
    (hv : c.Page v) :
    ∃ r y, c.Region r ∧ r.lo ≤ y ∧ y < r.hi ∧ y / PT_PAGE_SIZE = v := by
  obtain ⟨pmo, hm, hlo, hhi⟩ := hv
  -- the call has not stopped at the check of the alignment
  have halign : (roundDownPage c.addr).toNat % PT_PAGE_SIZE = 0 := by
    rcases mapStep_cases hc hs with ⟨pmo', -, hfill⟩ | ⟨hnone, -⟩
    · obtain ⟨hchk, -⟩ := ite_none_left_eq_some.mp hfill
      by_contra hne
      exact hchk ⟨rfl, hne⟩
    · exact absurd hm (hnone pmo)
  have hsize := mapRegion_size c.addr pmo.size pmo.type
  refine ⟨_, v * PT_PAGE_SIZE, ⟨pmo, hm, rfl⟩, ?_, ?_, Nat.mul_div_cancel v (by decide)⟩
  · show (roundDownPage c.addr).toNat ≤ v * PT_PAGE_SIZE
    unfold MapPmoCall.startPage at hlo
    unfold PT_PAGE_SIZE at *
    omega
  · show v * PT_PAGE_SIZE < (roundDownPage c.addr).toNat + _
    unfold MapPmoCall.startPage pageCount at hhi
    unfold PT_PAGE_SIZE at *
    split at hhi <;> omega

/-- **What a call stores belongs to its region.** -/
theorem mapStep_own (hinv : PtInv x8664 s.pt pgtbl) (hc : c.Early)
    (hs : mapStep pgtbl s c = some s') {x : Frame × Nat × Pte}
    (hx : x ∈ newStores s.pt s'.pt) : ∃ r, c.Region r ∧ OwnEntry pgtbl s'.pt r x := by
  obtain ⟨-, he, -⟩ := mapStep_spec hinv hc hs
  obtain ⟨⟨v, q, hv, hq, hpre, -⟩, -⟩ := he.mem_newStores hx
  obtain ⟨r, y, hr, hlo, hhi, hy⟩ := hv.region hc hs
  exact ⟨r, hr, y, q, hlo, hhi, hq, hy ▸ hpre⟩

theorem NewTables.mapInv {s : PtState} (h : NewTables .x8664 K s pgtbl) : MapInv K pgtbl s := by
  have hroot : ∀ i d, pteKind x8664 3 (s.mem pgtbl i) = .table d →
      s.walk x8664 pgtbl [i] = some d := by
    intro i d hk
    rw [PtState.walk, walk_cons_table hk, walk_nil]
  refine ⟨h.inv, hroot 510 _ (h.root_kind 510), hroot 511 _ (h.root_kind 511),
    fun f hf i g hk => ?_⟩
  rcases h.kernel_kind rfl hf i with hc | hc <;> exact absurd (hc.symm.trans hk) (by simp)

/-- **A run of `sys_map_pmo`** in a new address space. Its regions are isolated exactly when no call
    maps a page of the top-level entries 510 and 511 and no two regions that share no byte have a
    page in common modulo `2^48`. -/
theorem map_pmo_isolated_iff (K : Kernel) (s₀ s₁ : PtState) (pgtbl : Frame) (hboot : Booted K s₀)
    (hinit : pgtblInit .x8664 K s₀ = some (s₁, pgtbl)) (calls : List MapPmoCall)
    (hcalls : ∀ c ∈ calls, c.Early) :
    Isolated K pgtbl (trace (mapStep pgtbl) ⟨vmspaceInit, s₁⟩ calls) ↔
      (∀ t ∈ trace (mapStep pgtbl) ⟨vmspaceInit, s₁⟩ calls, t.act.UserPages) ∧
      (trace (mapStep pgtbl) ⟨vmspaceInit, s₁⟩ calls).Pairwise
        fun t₁ t₂ => NoAlias t₁.act t₂.act := by
  have hnew := (pgtblInit_tables hboot hinit).mapInv
  have hearly : ∀ t ∈ trace (mapStep pgtbl) ⟨vmspaceInit, s₁⟩ calls, t.act.Early :=
    fun t ht => hcalls _ (trace_act_mem calls _ ht)
  have hstep : ∀ (s : MapState) (c : MapPmoCall) (s' : MapState), MapInv K pgtbl s.pt →
      c.Early ∧ c.UserPages → mapStep pgtbl s c = some s' → MapInv K pgtbl s'.pt :=
    fun s c s' h hc hs => h.step hc.1 hs hc.2
  have hkernel := trace_all_iff (I := fun s : MapState => MapInv K pgtbl s.pt)
    (C := fun _ c => c.Early ∧ c.UserPages)
    (G := fun t => t.act.Early ∧ KernelKept K pgtbl t.pre.pt t.post.pt)
    (fun s c s' h hs => and_congr_right fun hc => kernelKept_iff h hc hs) hstep calls
    ⟨vmspaceInit, s₁⟩ hnew
  have hpairs := trace_pairwise_iff (I := fun s : MapState => MapInv K pgtbl s.pt)
    (C := fun _ c => c.Early ∧ c.UserPages) (L := fun s s' => Keeps pgtbl s.pt s'.pt)
    (R := NoShared) hstep (fun s q g hq => hq)
    (fun s₀ s c s' hl h hc hs q g hq => (mapStep_spec h.inv hc.1 hs).2.1.keeps q g (hl q g hq))
    (fun t₁ t₂ h₁ hc₁ hs₁ hl h₂ hc₂ hs₂ =>
      ⟨NoShared.noAlias h₁.inv hc₁.1 hs₁ hl h₂.inv hc₂.1 hs₂,
        NoAlias.noShared h₁.inv hc₁.1 hs₁ hl h₂.inv hc₂.1 hs₂⟩) calls ⟨vmspaceInit, s₁⟩ hnew
  constructor
  · intro h
    have huser := hkernel.mp fun t ht => ⟨hearly t ht, h.kernel t ht⟩
    exact ⟨fun t ht => (huser t ht).2, (hpairs huser).mp h.apart⟩
  intro h
  have huser : ∀ t ∈ trace (mapStep pgtbl) ⟨vmspaceInit, s₁⟩ calls,
      t.act.Early ∧ t.act.UserPages := fun t ht => ⟨hearly t ht, h.1 t ht⟩
  have hinv := trace_inv hstep calls ⟨vmspaceInit, s₁⟩ hnew huser
  refine ⟨fun t ht x hx => ?_, (hpairs huser).mpr h.2, fun t ht => (hkernel.mpr huser t ht).2⟩
  exact mapStep_own (hinv t ht).1.inv (hearly t ht) (trace_step calls _ ht) hx

end Runs

/-- A call that maps one page of memory at the address. -/
def onePageCall (addr : BitVec 64) : MapPmoCall :=
  ⟨some ⟨.data, 0x80000, 0x1000⟩, true, addr, VMR_READ, some addr.toNat, none⟩

theorem onePageCall_early (addr : BitVec 64) : (onePageCall addr).Early := by
  intro pmo hpmo
  cases hpmo
  exact .inl rfl

theorem onePageCall_page {addr : BitVec 64} {v : Nat} (hv : (onePageCall addr).Page v) :
    v = (onePageCall addr).startPage := by
  obtain ⟨pmo, ⟨hpmo, -⟩, hlo, hhi⟩ := hv
  cases hpmo
  have hcount : pageCount (0x1000 : BitVec 64).toNat = 1 := by decide
  rw [hcount] at hhi
  omega

/-- A new address space of the machine. -/
def bareSpace : MapState := ⟨vmspaceInit, bareTable .x8664⟩

/-- Two pages, one behind the other. -/
def twoCalls : List MapPmoCall := [onePageCall 0x400000, onePageCall 0x401000]

theorem map_pmo_isolated_two : Isolated bareKernel 4 (trace (mapStep 4) bareSpace twoCalls) := by
  have hcall : ∀ c ∈ twoCalls, c.Early ∧ c.UserPages := by
    intro c hc
    simp only [twoCalls, List.mem_cons, List.not_mem_nil, or_false] at hc
    rcases hc with rfl | rfl <;>
      exact ⟨onePageCall_early _, fun v hv => onePageCall_page hv ▸ by decide⟩
  have happart : NoAlias (onePageCall 0x400000) (onePageCall 0x401000) := by
    intro _ _ _ _ _ v₁ v₂ h₁ h₂
    rw [onePageCall_page h₁, onePageCall_page h₂]
    decide
  refine (map_pmo_isolated_iff bareKernel bareState (bareTable .x8664) 4 bareState_booted
    (bareTable_init .x8664) twoCalls fun c hc => (hcall c hc).1).mpr
      ⟨fun t ht => (hcall _ (trace_act_mem _ _ ht)).2, ?_⟩
  unfold twoCalls trace
  split
  · exact .nil
  unfold trace
  split
  · exact List.pairwise_singleton _ _
  · exact List.pairwise_pair.mpr happart

/-- Both calls return, and an entry that the first has stored is stored again by the second. -/
def storedTwice (c₁ c₂ : MapPmoCall) : Bool :=
  ((mapStep 4 bareSpace c₁).bind fun s₁ => (mapStep 4 s₁ c₂).map fun s₂ =>
    (newStores bareSpace.pt s₁.pt).any fun x => (newStores s₁.pt s₂.pt).any fun y =>
      x.1 == y.1 && x.2.1 == y.2.1).any id

/-- The call returns, and it has changed the first entry of `PUD_CODE`. -/
def kernelStored : Bool :=
  (mapStep 4 bareSpace c).any fun s =>
    s.pt.mem bareKernel.code 0 != bareSpace.pt.mem bareKernel.code 0

/-- **Regions that are not isolated**: two that are `2^48` apart, and one in the top-level entry
    511. -/
theorem map_pmo_not_isolated :
    ¬ Isolated bareKernel 4 (trace (mapStep 4) bareSpace
        [onePageCall 0x400000, onePageCall 0x1000000400000]) ∧
      ¬ Isolated bareKernel 4 (trace (mapStep 4) bareSpace [onePageCall 0xff8000000000]) := by
  have htwice : storedTwice (onePageCall 0x400000) (onePageCall 0x1000000400000) = true := by
    decide +kernel
  have hkernel : kernelStored (onePageCall 0xff8000000000) = true := by decide +kernel
  constructor
  · obtain ⟨b, hb, hany⟩ := (any_eq_true _ _).mp htwice
    obtain ⟨s₁, hs₁, hb⟩ := bind_eq_some_iff.mp hb
    obtain ⟨s₂, hs₂, hb⟩ := map_eq_some_iff.mp hb
    subst hb
    simp only [id_eq, List.any_eq_true, Bool.and_eq_true, beq_iff_eq] at hany
    obtain ⟨x, hx, y, hy, hxy⟩ := hany
    intro h
    have hpair := h.apart
    rw [trace_cons_some _ hs₁, trace_cons_some _ hs₂] at hpair
    have hshared := (List.pairwise_cons.mp hpair).1 _ List.mem_cons_self
    exact hshared (mapRegion 0x400000 0x1000 .data) (mapRegion 0x1000000400000 0x1000 .data)
      ⟨_, ⟨rfl, rfl, rfl⟩, rfl⟩ ⟨_, ⟨rfl, rfl, rfl⟩, rfl⟩ (by decide) x hx y hy hxy
  · obtain ⟨s', hs', hne⟩ := (any_eq_true _ _).mp hkernel
    intro h
    have hkept := h.kernel ⟨bareSpace, _, s'⟩ (by rw [trace_cons_some _ hs']; exact List.mem_cons_self)
    exact absurd (hkept.2.2 0).2 (by simpa using hne)

end ChCore.Mm
