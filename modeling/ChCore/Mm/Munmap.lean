/-
  File: ChCore/Mm/Munmap.lean
  Subject: `sys_handle_munmap` of `kernel/object/memory.c` and what `unmap_vmrs` of
    `kernel/mm/vmregion.c` leaves of an address space.

  `unmap_vmrs` looks for the region at `va`, takes its whole size off the range and goes on behind
  it; a region longer than what is left loses that many bytes at its front, wherever `va` lies in
  it. `handle_trans_fault` computes the page of the object from the region's start.

  * **`munmap_removes_iff`** -- on disjoint regions, `sys_handle_munmap` removes the range exactly
    when the range fits.
-/
import ChCore.Lib.Words
import ChCore.Mm.Vmregion

namespace ChCore.Mm

open List Nat

/-! ## 1. The system call -/

def sysHandleMunmap (s : Vmspace) (addr length : BitVec 64) : Option (Vmspace × Int) :=
  if addr % VM_PAGE_SIZE ≠ 0 ∨ length % VM_PAGE_SIZE ≠ 0 then some (s, -EINVAL)
  else vmspaceMunmapWithAddr s addr length

variable (pmoOf : Nat → Nat) (v : Vmregion)

/-- The page of the object that `handle_trans_fault` maps at a fault in the region. -/
def pageIndex (faultAddr : BitVec 64) : BitVec 64 :=
  (roundDownPage faultAddr - v.start) / VM_PAGE_SIZE

/-- What a fault at an address finds: the object of the region there (`pmoOf` gives the object of
    each region by the region's pointer) and the page of it. -/
def backing (s : Vmspace) (addr : BitVec 64) : Option (Nat × BitVec 64) :=
  (findVmrForVa s addr).map fun x => (pmoOf x.1, pageIndex x.2 addr)

/-! ## 2. What is to come out -/

def Vmregion.Has (a : BitVec 64) : Prop := v.lo ≤ a.toNat ∧ a.toNat < v.hi

/-- A region holds the address. -/
def Vmspace.Covered (s : Vmspace) (a : BitVec 64) : Prop := ∃ x ∈ s.vmrList, x.2.Has a

def InRange (addr len a : BitVec 64) : Prop :=
  addr.toNat ≤ a.toNat ∧ a.toNat < addr.toNat + len.toNat

/-- The regions are pairwise disjoint. -/
def Vmspace.Disjoint (s : Vmspace) : Prop :=
  ∀ x ∈ s.vmrList, ∀ y ∈ s.vmrList, x.1 ≠ y.1 → Apart x.2 y.2

/-- **The range has been removed**: the covered addresses are the old ones outside the range, and
    an address outside the range has the object and the page it had. -/
structure Removes (pmoOf : Nat → Nat) (s s' : Vmspace) (addr len : BitVec 64) : Prop where
  covered : ∀ a, s'.Covered a ↔ s.Covered a ∧ ¬ InRange addr len a
  kept : ∀ a, s.Covered a → ¬ InRange addr len a → backing pmoOf s' a = backing pmoOf s a

/-- **The ranges `unmap_vmrs` removes.** -/
structure RangeFits (s : Vmspace) (addr len : BitVec 64) : Prop where
  /-- A covered address of the range has no hole before it. -/
  dense : ∀ b, InRange addr len b → s.Covered b → ∀ a, addr ≤ a → a ≤ b → s.Covered a
  /-- A region in the range does not start before it, ... -/
  starts : ∀ x ∈ s.vmrList, ∀ a, InRange addr len a → x.2.Has a → addr.toNat ≤ x.2.lo
  /-- ... ends before `2^64`, ... -/
  below : ∀ x ∈ s.vmrList, ∀ a, InRange addr len a → x.2.Has a → x.2.hi < 2 ^ 64
  /-- ... and ends inside the range, or begins behind the start of the last page of the range. -/
  ends : ∀ x ∈ s.vmrList, ∀ a, InRange addr len a → x.2.Has a →
    x.2.hi ≤ addr.toNat + len.toNat ∨ addr.toNat + len.toNat < x.2.lo + 4096

/-! ## 3. The region at an address -/

/-- The test of `find_vmr_for_va`: a region whose end is `2^64` or more, as a word, is never
    found. -/
theorem Vmregion.found_iff (a : BitVec 64) :
    (decide (v.start ≤ a) && decide (a < v.start + v.size)) = true ↔
      v.Has a ∧ v.hi < 2 ^ 64 := by
  simp only [Bool.and_eq_true, decide_eq_true_eq, Vmregion.Has, Vmregion.lo, Vmregion.hi,
    BitVec.le_def, BitVec.lt_def, BitVec.toNat_add]
  omega

variable {s : Vmspace} {x : Nat × Vmregion} {a : BitVec 64}

theorem findVmrForVa_some (h : findVmrForVa s a = some x) : x ∈ s.vmrList ∧ x.2.Has a ∧ x.2.hi < 2 ^ 64 := by
  have htest := List.find?_some h
  exact ⟨mem_of_find?_eq_some h, (x.2.found_iff a).mp htest⟩

theorem findVmrForVa_none (h : findVmrForVa s a = none)
    (hx : x ∈ s.vmrList) (ha : x.2.Has a) : 2 ^ 64 ≤ x.2.hi := by
  by_contra hlt
  exact List.find?_eq_none.mp h x hx ((x.2.found_iff a).mpr ⟨ha, not_le.mp hlt⟩)

theorem Vmregion.Has.size_ne {v : Vmregion} (h : v.Has a) : v.size ≠ 0 := by
  intro e
  have hlt := lt_of_le_of_lt h.1 h.2
  simp [Vmregion.lo, Vmregion.hi, e] at hlt

theorem Vmspace.Disjoint.unique (h : s.Disjoint) {x y : Nat × Vmregion}
    (hx : x ∈ s.vmrList) (hy : y ∈ s.vmrList) (hxa : x.2.Has a) (hya : y.2.Has a) : x = y := by
  have hptr : x.1 = y.1 := by
    by_contra hne
    have hap := h x hx y hy hne
    rcases hap with hap | hap | hap | hap
    · exact hxa.size_ne hap
    · exact hya.size_ne hap
    · exact absurd (lt_of_lt_of_le hxa.2 hap) (not_lt.mpr hya.1)
    · exact absurd (lt_of_lt_of_le hya.2 hap) (not_lt.mpr hxa.1)
  exact inj_on_of_nodup_map s.nodup hx hy hptr

theorem Vmspace.Disjoint.find (h : s.Disjoint) (hx : x ∈ s.vmrList) (ha : x.2.Has a) (hhi : x.2.hi < 2 ^ 64) :
    findVmrForVa s a = some x := by
  cases hf : findVmrForVa s a with
  | none => exact absurd hhi (not_lt.mpr (findVmrForVa_none hf hx ha))
  | some y =>
    obtain ⟨hy, hya, _⟩ := findVmrForVa_some hf
    rw [h.unique hx hy ha hya]

theorem backing_congr {s s' : Vmspace} (h' : s'.Disjoint)
    (hsame : ∀ x : Nat × Vmregion, x.2.Has a → (x ∈ s'.vmrList ↔ x ∈ s.vmrList)) :
    backing pmoOf s' a = backing pmoOf s a := by
  unfold backing
  cases hf : findVmrForVa s a with
  | some x =>
    obtain ⟨hx, hxa, hhi⟩ := findVmrForVa_some hf
    rw [h'.find ((hsame x hxa).mpr hx) hxa hhi]
  | none =>
  cases hf' : findVmrForVa s' a with
  | none => rfl
  | some x =>
    obtain ⟨hx, hxa, hhi⟩ := findVmrForVa_some hf'
    exact absurd hhi (not_lt.mpr (findVmrForVa_none hf ((hsame x hxa).mp hx) hxa))

/-! ## 4. Removing one region, and cutting the front off one -/

theorem Vmspace.mem_del {p : Nat} : x ∈ (s.del p).vmrList ↔ x ∈ s.vmrList ∧ x.1 ≠ p := by
  simp [Vmspace.del]

theorem Vmspace.Disjoint.del (hs : s.Disjoint) (p : Nat) : (s.del p).Disjoint :=
  fun x hx y hy => hs x (Vmspace.mem_del.mp hx).1 y (Vmspace.mem_del.mp hy).1

section OneRegion

variable {s : Vmspace} (h : s.Disjoint) {p : Nat} {v : Vmregion} (hv : (p, v) ∈ s.vmrList)

include h hv

theorem Vmspace.covered_del (a : BitVec 64) : (s.del p).Covered a ↔ s.Covered a ∧ ¬ v.Has a := by
  constructor
  · intro ⟨x, hx, hxa⟩
    obtain ⟨hx, hne⟩ := Vmspace.mem_del.mp hx
    exact ⟨⟨x, hx, hxa⟩, fun hva => hne (congrArg Prod.fst (h.unique hx hv hxa hva))⟩
  · intro ⟨⟨x, hx, hxa⟩, hno⟩
    refine ⟨x, Vmspace.mem_del.mpr ⟨hx, fun e => hno ?_⟩, hxa⟩
    obtain rfl : x.2 = v := s.region_unique (e ▸ hx) hv
    exact hxa

theorem backing_del (pmoOf : Nat → Nat) {a : BitVec 64} (ha : ¬ v.Has a) :
    backing pmoOf (s.del p) a = backing pmoOf s a := by
  refine backing_congr pmoOf (h.del p) fun x hxa => ?_
  rw [Vmspace.mem_del]
  refine ⟨And.left, fun hx => ⟨hx, fun e => ha ?_⟩⟩
  obtain rfl : x.2 = v := s.region_unique (e ▸ hx) hv
  exact hxa

/-- The region without its first `len` bytes. -/
def Vmregion.shrunk (v : Vmregion) (len : BitVec 64) : Vmregion :=
  { v with start := v.start + len, size := v.size - len }

omit h hv in
theorem Vmregion.shrunk_bounds {len : BitVec 64} (hlen : len < v.size) (hhi : v.hi < 2 ^ 64) :
    (v.shrunk len).lo = v.lo + len.toNat ∧ (v.shrunk len).hi = v.hi := by
  simp only [Vmregion.shrunk, Vmregion.lo, Vmregion.hi] at *
  bv_omega

omit h hv in
theorem Vmregion.Has.of_shrunk {len a : BitVec 64} (hlen : len < v.size) (hhi : v.hi < 2 ^ 64)
    (ha : (v.shrunk len).Has a) : v.Has a := by
  obtain ⟨hlo', hhi'⟩ := Vmregion.shrunk_bounds hlen hhi
  exact ⟨le_trans (by omega) ha.1, hhi' ▸ ha.2⟩

theorem Vmspace.Disjoint.shrunk {len : BitVec 64} (hlen : len < v.size) (hhi : v.hi < 2 ^ 64) :
    (s.resize p (v.start + len) (v.size - len)).Disjoint := by
  obtain ⟨hlo', hhi'⟩ := Vmregion.shrunk_bounds hlen hhi
  have hne : v.size ≠ 0 := by bv_omega
  have hcut : ∀ x ∈ s.vmrList, x.1 ≠ p → Apart (v.shrunk len) x.2 := fun x hx hxp =>
    Apart.mono (v := v) (h _ hv x hx (hxp.symm)) (by omega) (by omega) hne
  intro x hx y hy hxy
  rcases Vmspace.mem_resize.mp hx with ⟨hx, hxp⟩ | ⟨w, hw, rfl⟩
  · rcases Vmspace.mem_resize.mp hy with ⟨hy, hyp⟩ | ⟨w, hw, rfl⟩
    · exact h x hx y hy hxy
    · exact (hcut x hx hxp).symm
  · rcases Vmspace.mem_resize.mp hy with ⟨hy, hyp⟩ | ⟨w', hw', rfl⟩
    · exact hcut y hy hyp
    · exact absurd rfl hxy

theorem Vmspace.covered_resize (len a : BitVec 64) :
    (s.resize p (v.start + len) (v.size - len)).Covered a ↔
      (s.Covered a ∧ ¬ v.Has a) ∨ (v.shrunk len).Has a := by
  rw [← Vmspace.covered_del h hv]
  constructor
  · intro ⟨x, hx, hxa⟩
    rcases Vmspace.mem_resize.mp hx with ⟨hx, hxp⟩ | ⟨w, hw, rfl⟩
    · exact .inl ⟨x, Vmspace.mem_del.mpr ⟨hx, hxp⟩, hxa⟩
    · exact .inr hxa
  · intro hor
    rcases hor with ⟨x, hx, hxa⟩ | hva
    · exact ⟨x, Vmspace.mem_resize.mpr (.inl (Vmspace.mem_del.mp hx)), hxa⟩
    · exact ⟨(p, v.shrunk len), Vmspace.mem_resize.mpr (.inr ⟨v, hv, rfl⟩), hva⟩

theorem backing_resize (pmoOf : Nat → Nat) {len a : BitVec 64} (hlen : len < v.size)
    (hhi : v.hi < 2 ^ 64) (ha : ¬ v.Has a) :
    backing pmoOf (s.resize p (v.start + len) (v.size - len)) a = backing pmoOf s a := by
  refine backing_congr pmoOf (Vmspace.Disjoint.shrunk h hv hlen hhi) fun x hxa => ?_
  rw [Vmspace.mem_resize]
  constructor
  · intro hx
    rcases hx with ⟨hx, _⟩ | ⟨w, hw, rfl⟩
    · exact hx
    · exact absurd (Vmregion.Has.of_shrunk hlen hhi hxa) ha
  · intro hx
    refine .inl ⟨hx, fun e => ha ?_⟩
    obtain rfl : x.2 = v := s.region_unique (e ▸ hx) hv
    exact hxa

end OneRegion

theorem roundDownPage_toNat (a : BitVec 64) : (roundDownPage a).toNat = a.toNat / 4096 * 4096 :=
  Lib.toNat_keepFrom (k := 12) (by decide) a

/-- **Cutting a region's front off keeps the pages of the rest** only if it cuts less than a page,
    up to a page's edge. -/
theorem pageIndex_shrunk_iff {v : Vmregion} {len a : BitVec 64} (hlen : len < v.size)
    (hhi : v.hi < 2 ^ 64) (hend : (v.lo + len.toNat) % 4096 = 0) (ha : (v.shrunk len).Has a) :
    pageIndex (v.shrunk len) a = pageIndex v a ↔ len.toNat < 4096 := by
  obtain ⟨hlo', hhi'⟩ := Vmregion.shrunk_bounds hlen hhi
  have hlo : v.lo + len.toNat ≤ a.toNat := hlo' ▸ ha.1
  have hr := roundDownPage_toNat a
  have hpage : VM_PAGE_SIZE.toNat = 4096 := by decide
  have h1 : (roundDownPage a - v.start).toNat = a.toNat / 4096 * 4096 - v.lo := by
    rw [BitVec.toNat_sub_of_le, hr, Vmregion.lo]
    rw [BitVec.le_def]
    simp only [Vmregion.lo] at *
    omega
  have h2 : (roundDownPage a - (v.shrunk len).start).toNat
      = a.toNat / 4096 * 4096 - (v.lo + len.toNat) := by
    rw [BitVec.toNat_sub_of_le, hr, ← hlo', Vmregion.lo]
    rw [BitVec.le_def, hr]
    simp only [Vmregion.lo] at hlo' ⊢ hlo hend
    omega
  rw [pageIndex, pageIndex, ← BitVec.toNat_inj, BitVec.toNat_udiv, BitVec.toNat_udiv, h1, h2, hpage]
  omega

/-! ## 5. One call of `unmap_vmrs` -/

/-- A space that is left as it is: right where the range holds nothing. -/
theorem removes_self_iff {va len : BitVec 64}
    (hnone : RangeFits s va len → ∀ a, InRange va len a → ¬ s.Covered a) :
    Removes pmoOf s s va len ↔ RangeFits s va len := by
  constructor
  · intro h
    have hempty : ∀ a, InRange va len a → ¬ s.Covered a := fun a ha hc => ((h.covered a).mp hc).2 ha
    exact ⟨fun b hb hc => absurd hc (hempty b hb),
      fun x hx a ha hxa => absurd ⟨x, hx, hxa⟩ (hempty a ha),
      fun x hx a ha hxa => absurd ⟨x, hx, hxa⟩ (hempty a ha),
      fun x hx a ha hxa => absurd ⟨x, hx, hxa⟩ (hempty a ha)⟩
  · intro h
    have hempty := hnone h
    exact ⟨fun a => ⟨fun hc => ⟨hc, fun ha => hempty a ha hc⟩, And.left⟩, fun _ _ _ => rfl⟩

section Found

variable (pmoOf : Nat → Nat) {s : Vmspace} (h : s.Disjoint) {p : Nat} {v : Vmregion}
  (hv : (p, v) ∈ s.vmrList) (hhi : v.hi < 2 ^ 64) {va len : BitVec 64} (hva : v.Has va)
  (h0 : len ≠ 0)

include h hv hhi hva h0

omit h hhi in
/-- The range reaches into the region behind its start: a call that takes the region's first byte
    away takes too much. -/
theorem not_removes_of_inside {s' : Vmspace} (hne : va ≠ v.start) (hlost : ¬ s'.Covered v.start) :
    Removes pmoOf s s' va len ↔ RangeFits s va len := by
  have hlt : v.lo < va.toNat := lt_of_le_of_ne hva.1 fun e => hne (BitVec.eq_of_toNat_eq e.symm)
  have hin : InRange va len va := ⟨le_rfl, by bv_omega⟩
  constructor
  · intro hr
    refine absurd ((hr.covered v.start).mpr ⟨⟨_, hv, le_rfl, ?_⟩, ?_⟩) hlost
    · exact lt_of_le_of_lt hva.1 hva.2
    · exact fun ha => absurd ha.1 (not_le.mpr hlt)
  · intro hf
    exact absurd (hf.starts _ hv va hin hva) (not_le.mpr hlt)

/-- **The last region**: cut at its front. -/
theorem cut_removes_iff (hlen : len < v.size) (hend : (va.toNat + len.toNat) % 4096 = 0) :
    Removes pmoOf s (s.resize p (v.start + len) (v.size - len)) va len ↔ RangeFits s va len := by
  obtain ⟨hlo', hhi'⟩ := Vmregion.shrunk_bounds hlen hhi
  have hpos : 0 < len.toNat := by bv_omega
  have hlen' : len.toNat < v.size.toNat := hlen
  have hcov := Vmspace.covered_resize h hv len
  by_cases hne : va = v.start
  · subst hne
    have hR : ∀ a, InRange v.start len a → v.Has a := fun a ha =>
      ⟨ha.1, lt_trans ha.2 (Nat.add_lt_add_left hlen' _)⟩
    have hsplit : ∀ a, v.Has a → ¬ InRange v.start len a → (v.shrunk len).Has a := by
      intro a ha hno
      refine ⟨hlo' ▸ not_lt.mp fun hlt => hno ⟨ha.1, hlt⟩, hhi' ▸ ha.2⟩
    have hsmall : ∀ a, (v.shrunk len).Has a → (backing pmoOf (s.resize p (v.start + len)
        (v.size - len)) a = backing pmoOf s a ↔ len.toNat < 4096) := by
      intro a ha
      have hmem : (p, v.shrunk len) ∈ (s.resize p (v.start + len) (v.size - len)).vmrList :=
        Vmspace.mem_resize.mpr (.inr ⟨v, hv, rfl⟩)
      rw [backing, backing, h.find hv (ha.of_shrunk hlen hhi) hhi,
        (Vmspace.Disjoint.shrunk h hv hlen hhi).find hmem ha (hhi' ▸ hhi),
        ← pageIndex_shrunk_iff hlen hhi hend ha]
      simp
    constructor
    · intro hr
      -- the region's last byte is outside the range
      have hlast : ((v.start + v.size - 1 : BitVec 64)).toNat = v.hi - 1 := by
        simp only [Vmregion.hi] at hhi ⊢
        bv_omega
      have hhas : (v.shrunk len).Has (v.start + v.size - 1) := by
        unfold Vmregion.Has
        rw [hlast, hlo', hhi']
        simp only [Vmregion.hi, Vmregion.lo] at hhi ⊢
        omega
      have hout : ¬ InRange v.start len (v.start + v.size - 1) := by
        intro hin
        have := hin.2
        rw [hlast] at this
        simp only [Vmregion.hi] at this
        omega
      have hlt := (hsmall _ hhas).mp (hr.kept _ ⟨_, hv, hhas.of_shrunk hlen hhi⟩ hout)
      have hx : ∀ x ∈ s.vmrList, ∀ a, InRange v.start len a → x.2.Has a → x = (p, v) :=
        fun x hx a ha hxa => h.unique hx hv hxa (hR a ha)
      refine ⟨fun b hb _ a hle hab => ?_, fun x hxm a ha hxa => ?_, fun x hxm a ha hxa => ?_,
        fun x hxm a ha hxa => ?_⟩
      · exact ⟨_, hv, hle, lt_of_le_of_lt hab (hR b hb).2⟩
      · rw [hx x hxm a ha hxa]
        exact le_rfl
      · rw [hx x hxm a ha hxa]
        exact hhi
      · rw [hx x hxm a ha hxa]
        exact .inr (Nat.add_lt_add_left hlt _)
    intro hf
    have hin : InRange v.start len v.start := ⟨le_rfl, by omega⟩
    have hlt : len.toNat < 4096 := by
      have hor := hf.ends _ hv _ hin hva
      simp only [Vmregion.hi, Vmregion.lo] at hor
      omega
    refine ⟨fun a => ?_, fun a hc hno => ?_⟩
    · rw [hcov]
      constructor
      · intro hor
        rcases hor with ⟨hc, hno⟩ | ha
        · exact ⟨hc, fun hr => hno (hR a hr)⟩
        · refine ⟨⟨_, hv, ha.of_shrunk hlen hhi⟩, fun hr => ?_⟩
          exact absurd hr.2 (not_lt.mpr (hlo' ▸ ha.1))
      · rintro ⟨hc, hno⟩
        by_cases hva' : v.Has a
        · exact .inr (hsplit a hva' hno)
        · exact .inl ⟨hc, hva'⟩
    · by_cases hva' : v.Has a
      · exact (hsmall a (hsplit a hva' hno)).mpr hlt
      · exact backing_resize h hv pmoOf hlen hhi hva'
  refine not_removes_of_inside pmoOf hv hva h0 hne fun hc => ?_
  rcases (hcov v.start).mp hc with ⟨_, hno⟩ | ha
  · exact hno ⟨le_rfl, lt_of_le_of_lt hva.1 hva.2⟩
  · have := hlo' ▸ ha.1
    simp only [Vmregion.lo] at this
    omega

section Whole

variable (hle : v.size ≤ len) (hat : va = v.start)

include hle hat

omit h hv hva h0 in
theorem whole_bounds : (va + v.size).toNat = v.hi ∧
    (va + v.size).toNat + (len - v.size).toNat = va.toNat + len.toNat := by
  simp only [Vmregion.hi] at *
  bv_omega

omit h hv hva h0 in
theorem inRange_whole_iff (a : BitVec 64) :
    InRange va len a ↔ v.Has a ∨ InRange (va + v.size) (len - v.size) a := by
  obtain ⟨h1, h2⟩ := whole_bounds hhi hle hat
  have hlo : va.toNat = v.lo := by rw [hat, Vmregion.lo]
  unfold InRange Vmregion.Has
  simp only [Vmregion.hi, Vmregion.lo] at *
  omega

omit hva h0 in
theorem removes_whole_iff {s' : Vmspace} : Removes pmoOf s s' va len ↔
    Removes pmoOf (s.del p) s' (va + v.size) (len - v.size) := by
  have hR := inRange_whole_iff hhi hle hat
  have hstep : ∀ a, (s.del p).Covered a ∧ ¬ InRange (va + v.size) (len - v.size) a ↔
      s.Covered a ∧ ¬ InRange va len a := by
    intro a
    rw [hR, Vmspace.covered_del h hv, not_or, and_assoc]
  have hback : ∀ a, ¬ InRange va len a → backing pmoOf (s.del p) a = backing pmoOf s a :=
    fun a hno => backing_del h hv pmoOf fun ha => hno ((hR a).mpr (.inl ha))
  constructor
  · intro hr
    refine ⟨fun a => (hr.covered a).trans (hstep a).symm, fun a hc hno => ?_⟩
    obtain ⟨hc', hno'⟩ := (hstep a).mp ⟨hc, hno⟩
    rw [hback a hno', hr.kept a hc' hno']
  · intro hr
    refine ⟨fun a => (hr.covered a).trans (hstep a), fun a hc hno => ?_⟩
    obtain ⟨hc', hno'⟩ := (hstep a).mpr ⟨hc, hno⟩
    rw [← hback a hno, hr.kept a hc' hno']

omit hva h0 in
theorem rangeFits_whole_iff : RangeFits s va len ↔
    RangeFits (s.del p) (va + v.size) (len - v.size) := by
  have hR := inRange_whole_iff hhi hle hat
  obtain ⟨h1, h2⟩ := whole_bounds hhi hle hat
  have hlo : va.toNat = v.lo := by rw [hat, Vmregion.lo]
  have hvlo : v.lo ≤ v.hi := le_add_right _ _
  have hcov := Vmspace.covered_del h hv
  -- an address of the rest of the range is in no region but a kept one
  constructor
  · intro hf
    refine ⟨fun b hb hc a hva hab => ?_, fun x hx a ha hxa => ?_, fun x hx a ha hxa => ?_,
      fun x hx a ha hxa => ?_⟩
    · have hge : v.hi ≤ a.toNat := h1 ▸ hva
      refine (hcov a).mpr ⟨hf.dense b ((hR b).mpr (.inr hb)) ((hcov b).mp hc).1 a ?_ hab,
        fun ha => absurd ha.2 (not_lt.mpr hge)⟩
      exact BitVec.le_def.mpr (by omega)
    · obtain ⟨hxs, hne⟩ := Vmspace.mem_del.mp hx
      have hxlo := hf.starts x hxs a ((hR a).mpr (.inr ha)) hxa
      rw [h1]
      by_contra hlt
      have hboth : v.Has x.2.start := ⟨hlo ▸ hxlo, not_le.mp hlt⟩
      exact hne (congrArg Prod.fst (h.unique hxs hv
        ⟨le_rfl, lt_of_le_of_lt hxa.1 hxa.2⟩ hboth))
    · exact hf.below x (Vmspace.mem_del.mp hx).1 a ((hR a).mpr (.inr ha)) hxa
    · rw [h2]
      exact hf.ends x (Vmspace.mem_del.mp hx).1 a ((hR a).mpr (.inr ha)) hxa
  intro hf
  -- a region in the range is the removed one or lies in the rest
  have hor : ∀ x ∈ s.vmrList, ∀ a, InRange va len a → x.2.Has a →
      x = (p, v) ∨ x ∈ (s.del p).vmrList ∧ InRange (va + v.size) (len - v.size) a := by
    intro x hx a ha hxa
    by_cases hp : x.1 = p
    · obtain rfl : x.2 = v := s.region_unique (hp ▸ hx) hv
      exact .inl (Prod.ext hp rfl)
    · refine .inr ⟨Vmspace.mem_del.mpr ⟨hx, hp⟩, ((hR a).mp ha).resolve_left fun hva => hp ?_⟩
      exact congrArg Prod.fst (h.unique hx hv hxa hva)
  refine ⟨fun b hb hc a hva hab => ?_, fun x hx a ha hxa => ?_, fun x hx a ha hxa => ?_,
    fun x hx a ha hxa => ?_⟩
  · by_cases hav : v.Has a
    · exact ⟨_, hv, hav⟩
    have hge : v.hi ≤ a.toNat := not_lt.mp fun hlt => hav ⟨hlo ▸ hva, hlt⟩
    have hbv : ¬ v.Has b := fun hb' =>
      absurd hb'.2 (not_lt.mpr (le_trans hge hab))
    exact ((hcov a).mp (hf.dense b (((hR b).mp hb).resolve_left hbv)
      ((hcov b).mpr ⟨hc, hbv⟩) a (BitVec.le_def.mpr (h1.symm ▸ hge)) hab)).1
  · rcases hor x hx a ha hxa with rfl | ⟨hxd, ha'⟩
    · exact le_of_eq hlo
    · have := hf.starts x hxd a ha' hxa
      omega
  · rcases hor x hx a ha hxa with rfl | ⟨hxd, ha'⟩
    · exact hhi
    · exact hf.below x hxd a ha' hxa
  rcases hor x hx a ha hxa with rfl | ⟨hxd, ha'⟩
  · refine .inl ?_
    show v.hi ≤ va.toNat + len.toNat
    omega
  · exact h2 ▸ hf.ends x hxd a ha' hxa

end Whole

end Found

/-! ## 6. The recursion -/

/-- `unmap_vmrs` covers nothing new. -/
theorem covered_of_unmapVmrs {n : Nat} {s s' : Vmspace} {va len a : BitVec 64}
    (h : s.Disjoint) (hrun : unmapVmrs n s va len = some s') (ha : s'.Covered a) :
    s.Covered a := by
  induction n generalizing s va len with
  | zero =>
    cases hrun
    exact ha
  | succ n ih =>
    unfold unmapVmrs at hrun
    split at hrun
    · cases hrun
      exact ha
    split at hrun
    · cases hrun
      exact ha
    rename_i p v hf
    obtain ⟨hv, -, hhi⟩ := findVmrForVa_some hf
    split at hrun
    · rename_i hlen
      split at hrun
      · cases hrun
        rcases (Vmspace.covered_resize h hv len a).mp ha with ⟨hc, _⟩ | hva
        · exact hc
        · exact ⟨_, hv, hva.of_shrunk hlen hhi⟩
      · cases hrun
    · exact ((Vmspace.covered_del h hv a).mp (ih (h.del p) hrun)).1

/-- **What `unmap_vmrs` removes.** By induction on the depth: the region at `va` is removed whole
    and the rest of the range follows it, or it is the last one. -/
theorem unmapVmrs_removes_iff {n : Nat} {s s' : Vmspace} {va len : BitVec 64}
    (h : s.Disjoint) (hn : s.vmrList.length ≤ n) (hend : (va.toNat + len.toNat) % 4096 = 0)
    (hrun : unmapVmrs n s va len = some s') :
    Removes pmoOf s s' va len ↔ RangeFits s va len := by
  induction n generalizing s va len with
  | zero =>
    have hnil : s.vmrList = [] := eq_nil_of_length_eq_zero (le_zero.mp hn)
    cases hrun
    refine removes_self_iff pmoOf fun _ a _ hc => ?_
    obtain ⟨x, hx, _⟩ := hc
    rw [hnil] at hx
    exact absurd hx not_mem_nil
  | succ n ih =>
    unfold unmapVmrs at hrun
    split at hrun
    · rename_i h0
      cases hrun
      refine removes_self_iff pmoOf fun _ a ha _ => absurd ha.2 (not_lt.mpr ?_)
      rw [h0]
      exact ha.1
    rename_i h0
    split at hrun
    · rename_i hf
      cases hrun
      refine removes_self_iff pmoOf fun hfit a ha hc => ?_
      have hin : InRange va len va := ⟨le_rfl, by bv_omega⟩
      obtain ⟨x, hx, hxa⟩ := hfit.dense a ha hc va (BitVec.le_refl va) ha.1
      exact absurd (hfit.below x hx va hin hxa) (not_lt.mpr (findVmrForVa_none hf hx hxa))
    rename_i p v hf
    obtain ⟨hv, hva, hhi⟩ := findVmrForVa_some hf
    split at hrun
    · rename_i hlen
      split at hrun
      · cases hrun
        exact cut_removes_iff pmoOf h hv hhi hva h0 hlen hend
      · cases hrun
    rename_i hlen
    have hle : v.size ≤ len := BitVec.not_lt.mp hlen
    by_cases hat : va = v.start
    · have hend' := (whole_bounds hhi hle hat).2
      have hlt : (s.del p).vmrList.length < s.vmrList.length :=
        length_filter_lt_length_iff_exists.mpr ⟨_, hv, by simp⟩
      rw [removes_whole_iff pmoOf h hv hhi hle hat, rangeFits_whole_iff h hv hhi hle hat]
      exact ih (h.del p) (by omega) (by rw [hend', hend]) hrun
    · refine not_removes_of_inside pmoOf hv hva h0 hat fun hc => ?_
      have hd := covered_of_unmapVmrs (h.del p) hrun hc
      exact ((Vmspace.covered_del h hv _).mp hd).2
        ⟨le_rfl, lt_of_le_of_lt hva.1 hva.2⟩

/-! ## 7. The system call removes the range -/

/-- **`sys_handle_munmap` removes exactly the range** if and only if the range fits: every address
    from its start to its last covered one is covered, and the regions in it neither start before
    it, nor wrap, nor stick out of it by a byte of the page that follows them. -/
theorem munmap_removes_iff {s s' : Vmspace} {addr length : BitVec 64}
    (h : s.Disjoint) (haddr : addr % VM_PAGE_SIZE = 0) (hlength : length % VM_PAGE_SIZE = 0)
    (hrun : sysHandleMunmap s addr length = some (s', 0)) :
    Removes pmoOf s s' addr length ↔ RangeFits s addr length := by
  have hend : (addr.toNat + length.toNat) % 4096 = 0 := by
    have h1 : addr.toNat % 4096 = 0 := congrArg BitVec.toNat haddr
    have h2 : length.toNat % 4096 = 0 := congrArg BitVec.toNat hlength
    omega
  unfold sysHandleMunmap vmspaceMunmapWithAddr at hrun
  rw [if_neg (by simp [haddr, hlength])] at hrun
  split at hrun
  · cases hrun
  obtain ⟨t, ht, e⟩ := Option.map_eq_some_iff.mp hrun
  cases e
  exact unmapVmrs_removes_iff pmoOf h le_rfl hend ht

/-- Two anonymous regions of two pages each, one behind the other. -/
def twoRegions : Vmspace :=
  { vmspaceInit with
    vmrList := [(0, ⟨0x10000, 0x2000, .anonym⟩), (1, ⟨0x12000, 0x2000, .anonym⟩)]
    nodup := by decide }

theorem twoRegions_disjoint : twoRegions.Disjoint := by
  unfold Vmspace.Disjoint
  decide

/-- The first of the two regions is removed, and the second one is as before. -/
theorem munmap_removes_region : Removes id twoRegions (twoRegions.del 0) 0x10000 0x2000 := by
  have hrun : sysHandleMunmap twoRegions 0x10000 0x2000 = some (twoRegions.del 0, 0) := by rfl
  have hmem : ∀ x ∈ twoRegions.vmrList, x.2.lo = 0x10000 ∧ x.2.hi = 0x12000 ∨
      x.2.lo = 0x12000 ∧ x.2.hi = 0x14000 := by decide
  refine (munmap_removes_iff id twoRegions_disjoint (by decide) (by decide) hrun).mpr ⟨?_, ?_, ?_, ?_⟩
  · intro b hb _ a hle hab
    refine ⟨(0, ⟨0x10000, 0x2000, .anonym⟩), by decide, hle, ?_⟩
    exact lt_of_le_of_lt hab hb.2
  · intro x hx a ha hxa
    show 0x10000 ≤ x.2.lo
    have := hmem x hx
    omega
  · intro x hx a ha hxa
    have := hmem x hx
    omega
  intro x hx a ha hxa
  have := hmem x hx
  show x.2.hi ≤ 0x12000 ∨ 0x12000 < x.2.lo + 4096
  omega

/-- One page at the front of the first region is unmapped: its second page showed page 1 of the
    object and now shows page 0. One page at the region's end is unmapped: the page before it is
    gone instead. -/
theorem munmap_moves_pages :
    twoRegions.Disjoint ∧ (∀ x ∈ twoRegions.vmrList, x.2.pmo = .anonym) ∧
    (∃ s', sysHandleMunmap twoRegions 0x10000 0x1000 = some (s', 0) ∧
      backing id twoRegions 0x11000 = some (0, 1) ∧ backing id s' 0x11000 = some (0, 0) ∧
      ¬ Removes id twoRegions s' 0x10000 0x1000) ∧
    ∃ s', sysHandleMunmap twoRegions 0x11000 0x1000 = some (s', 0) ∧
      findVmrForVa s' 0x10000 = none ∧ findVmrForVa s' 0x11000 ≠ none ∧
      ¬ Removes id twoRegions s' 0x11000 0x1000 := by
  refine ⟨twoRegions_disjoint, by decide,
    ⟨twoRegions.resize 0 0x11000 0x1000, by rfl, by decide, by decide, fun hr => ?_⟩,
    ⟨twoRegions.resize 0 0x11000 0x1000, by rfl, by decide, by decide, fun hr => ?_⟩⟩
  · have hc : twoRegions.Covered 0x11000 :=
      ⟨(0, ⟨0x10000, 0x2000, .anonym⟩), by decide, by unfold Vmregion.Has; decide⟩
    exact absurd (hr.kept 0x11000 hc (by unfold InRange; decide)) (by decide)
  · have hc : (twoRegions.resize 0 0x11000 0x1000).Covered 0x11000 :=
      ⟨(0, ⟨0x11000, 0x1000, .anonym⟩), by decide, by unfold Vmregion.Has; decide⟩
    exact absurd (by unfold InRange; decide) ((hr.covered 0x11000).mp hc).2

end ChCore.Mm
