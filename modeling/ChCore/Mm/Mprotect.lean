/-
  File: ChCore/Mm/Mprotect.lean
  Subject: `sys_handle_mprotect` of `kernel/object/memory.c` on aarch64: the regions, the page
    table and the fault handler after it.

  The call goes twice through the regions, from each to the one at its size behind, and then once
  through the page table.

  * **`mprotect_right_iff`** -- the call does what it is to do exactly when `MprotectFits`.
-/
import ChCore.Mm.Munmap
import ChCore.Mm.PageTableUnmap

namespace ChCore.Mm

open Lib

/-! ## 1. The source -/

/-- The bits of `prot`; the region's properties have the same values. -/
def PROT_READ : BitVec 32 := 1
def PROT_WRITE : BitVec 32 := 2
def PROT_EXEC : BitVec 32 := 4

variable (s : UserSpace) (addr length : BitVec 64) (prot : BitVec 32)

def getVmrProt : VmrProp :=
  (if prot &&& PROT_READ != 0 then VMR_READ else 0) |||
  (if prot &&& PROT_WRITE != 0 then VMR_WRITE else 0) |||
  (if prot &&& PROT_EXEC != 0 then VMR_EXEC else 0)

/-- `valid_prot` returns 0. -/
def validProt (vmrProt targetProt : VmrProp) : Bool :=
  !(targetProt.has VMR_READ && !vmrProt.has VMR_READ) &&
  !(targetProt.has VMR_WRITE && !vmrProt.has VMR_WRITE) &&
  !(targetProt.has VMR_EXEC && !vmrProt.has VMR_EXEC)

/-- An address space. `perm` and `pmoSize` are `vmr->perm` and `vmr->pmo->size` by the pointer of
    the region. -/
structure UserSpace where
  space : Vmspace
  perm : Nat → VmrProp
  pmoSize : Nat → BitVec 64
  pt : PtState
  pgtbl : Frame

/-- The permissions with which `handle_trans_fault` maps the page of a fault, if it maps one. Behind
    the end of a file the page is readable, writeable and executable. -/
def faultPerm (faultAddr : BitVec 64) : Option VmrProp :=
  match findVmrForVa s.space faultAddr with
  | none => none
  | some (p, v) =>
    let offset := roundDownPage faultAddr - v.start
    match v.pmo with
    | .file =>
      if s.pmoSize p ≤ offset then some (VMR_READ ||| VMR_WRITE ||| VMR_EXEC) else some (s.perm p)
    -- BUG_ON(offset >= pmo->size)
    | .anonym => if s.pmoSize p ≤ offset then none else some (s.perm p)
    | .shm => if s.pmoSize p ≤ offset then none else some (s.perm p)
    | _ => none

/-- How the first loop of `sys_handle_mprotect` ends. -/
inductive Verdict where
  /-- `-EACCES`. -/
  | refused
  /-- The call returns 0 and does nothing. -/
  | ignored
  /-- `remaining` is 0. -/
  | whole
  /-- `BUG_ON(remaining != 0)`. -/
  | bug
  deriving DecidableEq, Repr

/-- The first loop. A region that is found is not empty, so that `remaining` rounds are enough. The
    comparison with 0 is signed and the one with the size is not. -/
def checkVmrs (s : UserSpace) (target : VmrProp) : Nat → BitVec 64 → BitVec 64 → Verdict
  | 0, _, remaining => if remaining = 0 then .whole else .bug
  | n + 1, va, remaining =>
    if BitVec.slt 0 remaining then
      match findVmrForVa s.space va with
      | none => .refused
      | some (p, v) =>
        if !validProt (s.perm p) target then .refused
        else if remaining < v.size then .ignored
        else checkVmrs s target n (va + v.size) (remaining - v.size)
    else if remaining = 0 then .whole else .bug

/-- The second loop (`none` = it finds no region and the kernel stops). -/
def setPerms (space : Vmspace) (target : VmrProp) :
    Nat → (Nat → VmrProp) → BitVec 64 → BitVec 64 → Option (Nat → VmrProp)
  | 0, perm, _, _ => some perm
  | n + 1, perm, va, remaining =>
    if BitVec.slt 0 remaining then
      match findVmrForVa space va with
      | none => none
      | some (p, v) =>
        setPerms space target n (Function.update perm p target) (va + v.size) (remaining - v.size)
    else some perm

inductive MprotectOutcome where
  | returned (s : UserSpace) (ret : Int)
  | stopped
  /-- The caller waits for `vmspace_lock`. -/
  | blocked

def sysHandleMprotect : MprotectOutcome :=
  if addr % VM_PAGE_SIZE ≠ 0 ∨ length % VM_PAGE_SIZE ≠ 0 then .returned s (-EINVAL)
  else if length = 0 then .returned s 0
  else
    let target := getVmrProt prot
    if s.space.vmspaceLock then .blocked
    else match checkVmrs s target length.toNat addr length with
      | .refused => .returned s (-EACCES)
      | .ignored => .returned s 0
      | .bug => .stopped
      | .whole =>
        match setPerms s.space target length.toNat s.perm addr length with
        | none => .stopped
        | some perm =>
          match mprotectInPgtbl aarch64 s.pt s.pgtbl addr.toNat length.toNat target with
          | none => .stopped
          | some (pt, _) => .returned { s with perm := perm, pt := pt } 0

/-! ## 2. What is to come out -/

/-- Two sets of permissions agree on writing and on executing. -/
def SameAccess (p q : VmrProp) : Prop := flagsAP p = flagsAP q ∧ flagsUXN p = flagsUXN q
  deriving Decidable

/-- The entry that translates a page of the address space. -/
def UserSpace.entry (v : Nat) : Option (Nat × Pte) :=
  translation aarch64 s.pt.mem s.pgtbl v

/-- The page is one of the range. -/
def PageIn (v : Nat) : Prop :=
  InPages (addr.toNat / PT_PAGE_SIZE) (pageCount length.toNat) v

/-- **The range has the permissions `target`, and nothing else has changed.** A page number has 36
    bits, as many as the tables know. -/
structure Protected (s s' : UserSpace) (addr length : BitVec 64) (target : VmrProp) : Prop where
  pages : ∀ v < 2 ^ 36, PageIn addr length v → ∀ n e, s.entry v = some (n, e) →
    ∃ e', s'.entry v = some (n, e') ∧ nextTableAddr e' = nextTableAddr e ∧
      pteAttr e' = pteAttr e ∧ pteAP e' = flagsAP target ∧ pteUXN e' = flagsUXN target
  faults : ∀ a, InRange addr length a → ∀ perm, faultPerm s' a = some perm → SameAccess perm target
  otherPages : ∀ v < 2 ^ 36, ¬ PageIn addr length v → s'.entry v = s.entry v
  otherRegions : ∀ x ∈ s.space.vmrList, ∀ a, x.2.Has a → ¬ InRange addr length a →
    s'.perm x.1 = s.perm x.1

/-- **The contract of the call**: 0 and the range is protected, or an error and nothing has
    changed; the kernel does not stop. -/
def MprotectRight : MprotectOutcome → Prop
  | .returned s' ret =>
    (ret = 0 → Protected s s' addr length (getVmrProt prot)) ∧ (ret ≠ 0 → s' = s)
  | .stopped => False
  | .blocked => True

/-! ## 3. When it does -/

/-- The regions that `sys_handle_mprotect` comes to: the one at `va`, the one at its size behind
    `va`, and so on until the sizes add up to `remaining`. -/
def visitedVmrs (space : Vmspace) : Nat → BitVec 64 → BitVec 64 → List Nat
  | 0, _, _ => []
  | n + 1, va, remaining =>
    if BitVec.slt 0 remaining then
      match findVmrForVa space va with
      | none => []
      | some (p, v) => p :: visitedVmrs space n (va + v.size) (remaining - v.size)
    else []

def Visited (p : Nat) : Prop :=
  p ∈ visitedVmrs s.space length.toNat addr length

/-- **The regions `V` and the pages `R` are the right ones to be changed.** -/
structure RightPlaces (s : UserSpace) (addr length : BitVec 64) (target : VmrProp)
    (V R : Nat → Prop) : Prop where
  /-- A page of the range is changed and is no device memory, or has the permissions. -/
  pages : ∀ v < 2 ^ 36, PageIn addr length v → ∀ n e, s.entry v = some (n, e) →
    (R v → pteAttr e = NORMAL_MEMORY) ∧
    (¬ R v → pteAP e = flagsAP target ∧ pteUXN e = flagsUXN target)
  /-- A region of the range is changed or has the permissions; behind the end of a file they are
      those the fault handler gives. -/
  faults : ∀ a, InRange addr length a → ∀ p v, findVmrForVa s.space a = some (p, v) →
    (v.pmo = .file → s.pmoSize p ≤ roundDownPage a - v.start →
      target.has VMR_WRITE = true ∧ target.has VMR_EXEC = true) ∧
    (v.pmo = .file ∨ v.pmo = .anonym ∨ v.pmo = .shm → ¬ s.pmoSize p ≤ roundDownPage a - v.start →
      V p ∨ SameAccess (s.perm p) target)
  /-- A page outside the range that is changed has the flags already. -/
  otherPages : ∀ v < 2 ^ 36, ¬ PageIn addr length v → R v → ∀ n e, s.entry v = some (n, e) →
    aarch64SetPteFlags e target = e
  /-- A region that is changed lies in the range or has the permissions already. -/
  otherRegions : ∀ x ∈ s.space.vmrList, V x.1 → ∀ a, x.2.Has a → ¬ InRange addr length a →
    s.perm x.1 = target

/-- **The calls that do what they are to do.** -/
def MprotectFits : Prop :=
  let target := getVmrProt prot
  length.toNat < 2 ^ 63 ∧
  (checkVmrs s target length.toNat addr length = .ignored →
    RightPlaces s addr length target (fun _ => False) (fun _ => False)) ∧
  (checkVmrs s target length.toNat addr length = .whole →
    RightPlaces s addr length target (Visited s addr length)
      (Reached aarch64 s.pt s.pgtbl (addr.toNat / PT_PAGE_SIZE) (pageCount length.toNat)))

/-- The tables of the address space are in order and have no huge page. -/
structure UserSpace.Sound (s : UserSpace) : Prop where
  inv : PtInv aarch64 s.pt s.pgtbl
  plain : ∀ v, PlainWay aarch64 s.pt s.pgtbl v

theorem Built.sound {s : UserSpace} (h : Built .aarch64 s.pt s.pgtbl) : s.Sound := by
  obtain ⟨hinv, hplain⟩ := h.inv
  exact ⟨hinv, fun v => hplain v fun hk => absurd hk.1 (by decide)⟩

/-! ## 4. The two loops over the regions -/

theorem slt_zero_iff (r : BitVec 64) : BitVec.slt 0 r = true ↔ 0 < r.toNat ∧ r.toNat < 2 ^ 63 := by
  have h0 : (0 : BitVec 64).toInt = 0 := by decide
  rw [BitVec.slt_iff_toInt_lt, h0, BitVec.toInt_eq_toNat_cond]
  split <;> omega

section Loops

variable {s : UserSpace} {target : VmrProp}

/-- **`BUG_ON(remaining != 0)`** is met exactly by lengths that are negative as `s64`. -/
theorem checkVmrs_bug_iff (s : UserSpace) (target : VmrProp) {n : Nat} (va : BitVec 64)
    {remaining : BitVec 64} (hn : remaining.toNat ≤ n) :
    checkVmrs s target n va remaining = .bug ↔ 2 ^ 63 ≤ remaining.toNat := by
  induction n generalizing va remaining with
  | zero =>
    have h0 : remaining = 0 := by bv_omega
    subst h0
    simp [checkVmrs]
  | succ n ih =>
    unfold checkVmrs
    split
    · rename_i hpos
      obtain ⟨h0, hlt⟩ := (slt_zero_iff remaining).mp hpos
      have hno : ¬ 2 ^ 63 ≤ remaining.toNat := not_le.mpr hlt
      cases hf : findVmrForVa s.space va with
      | none => exact iff_of_false (by simp) hno
      | some x =>
      obtain ⟨p, v⟩ := x
      have hne := (findVmrForVa_some hf).2.1.size_ne
      have hsize : 0 < v.size.toNat := by bv_omega
      simp only
      split
      · exact iff_of_false (by simp) hno
      split
      · exact iff_of_false (by simp) hno
      have hsub : (remaining - v.size).toNat = remaining.toNat - v.size.toNat := by bv_omega
      rw [ih _ (by omega)]
      omega
    rename_i hpos
    rw [slt_zero_iff] at hpos
    split
    · rename_i h0
      simp [h0]
    have : remaining.toNat ≠ 0 := by bv_omega
    simp only [true_iff]
    omega

/-- Where the first loop has gone through, the second one sets the visited regions. -/
theorem setPerms_eq {n : Nat} {va remaining : BitVec 64}
    (h : checkVmrs s target n va remaining = .whole) (perm : Nat → VmrProp) :
    setPerms s.space target n perm va remaining =
      some fun p => if p ∈ visitedVmrs s.space n va remaining then target else perm p := by
  induction n generalizing va remaining perm with
  | zero => simp [setPerms, visitedVmrs]
  | succ n ih =>
    unfold checkVmrs at h
    unfold setPerms visitedVmrs
    split at h
    · rename_i hpos
      rw [if_pos hpos, if_pos hpos]
      cases hf : findVmrForVa s.space va with
      | none =>
        rw [hf] at h
        cases h
      | some x =>
      obtain ⟨p, v⟩ := x
      simp only [hf] at h ⊢
      split at h
      · cases h
      split at h
      · cases h
      rw [ih h]
      congr 1
      funext q
      by_cases hq : q = p
      · subst hq
        simp
      · simp [hq]
    · rename_i hpos
      rw [if_neg hpos, if_neg hpos]
      simp

end Loops

/-! ## 5. The page table -/

theorem flagsAttr_getVmrProt : flagsAttr (getVmrProt prot) = NORMAL_MEMORY := by
  unfold flagsAttr getVmrProt
  split_ifs with h1 h2 h3 <;> first | rfl | exact absurd ‹_› (by decide)

section Pages

variable {s : UserSpace} (hs : s.Sound) {addr length : BitVec 64} {target : VmrProp}

include hs

/-- The pages the walk reaches get the flags, the others keep their entries. -/
theorem mprotectInPgtbl_spec (addr length : BitVec 64) (target : VmrProp) :
    ∃ pt va, mprotectInPgtbl aarch64 s.pt s.pgtbl addr.toNat length.toNat target = some (pt, va) ∧
      Edited aarch64 s.pgtbl (protectPte aarch64 target)
        (Reached aarch64 s.pt s.pgtbl (addr.toNat / PT_PAGE_SIZE) (pageCount length.toNat)) s.pt pt := by
  have hspec := editLoop_spec (editOk_protect aarch64 target) (pageCount length.toNat) addr.toNat
    (pageCount length.toNat) hs.inv (fun w _ => hs.plain w) le_rfl
  refine ⟨_, (editLoop aarch64 (protectPte aarch64 target) s.pgtbl (pageCount length.toNat) s.pt
    addr.toNat (pageCount length.toNat)).2, ?_, hspec.1⟩
  unfold mprotectInPgtbl editRange
  rw [if_neg fun hc => absurd hc.1 (by decide)]

theorem UserSpace.Sound.entry {v n : Nat} {e : Pte} (h : s.entry v = some (n, e)) :
    n = 0 ∧ aarch64.present e = true := by
  obtain ⟨hn, l3, hw⟩ := translation_plain (hs.plain v) h
  refine ⟨hn, ?_⟩
  unfold UserSpace.entry at h
  rw [translation_of_walk hw] at h
  obtain ⟨hp, h⟩ := Option.ite_none_right_eq_some.mp h
  cases h
  exact hp

theorem editTranslation_protect {v n : Nat} {e : Pte} (h : s.entry v = some (n, e))
    (target : VmrProp) : editTranslation aarch64 (protectPte aarch64 target) (some (n, e)) =
      some (n, aarch64SetPteFlags e target) := by
  obtain ⟨rfl, hp⟩ := hs.entry h
  have hsome : protectPte aarch64 target e = some (aarch64SetPteFlags e target) := by
    simp only [protectPte, hp, if_true]
    rfl
  have hp' : aarch64.present (aarch64SetPteFlags e target) = true :=
    (aarch64.present_flags e target).trans hp
  simp only [editTranslation, hsome, Option.getD_some, hp', if_true]

end Pages

/-! ## 6. The contract -/

section Contract

variable {s s' : UserSpace} {target : VmrProp} {V R : Nat → Prop}

/-- The permissions of a fault, where the regions of `V` have been changed. -/
theorem faultPerm_iff [DecidablePred V] (hspace : s'.space = s.space)
    (hsize : s'.pmoSize = s.pmoSize)
    (hperm : ∀ p, s'.perm p = if V p then target else s.perm p) (a : BitVec 64) :
    (∀ perm, faultPerm s' a = some perm → SameAccess perm target) ↔
    ∀ p v, findVmrForVa s.space a = some (p, v) →
      (v.pmo = .file → s.pmoSize p ≤ roundDownPage a - v.start →
        target.has VMR_WRITE = true ∧ target.has VMR_EXEC = true) ∧
      (v.pmo = .file ∨ v.pmo = .anonym ∨ v.pmo = .shm →
        ¬ s.pmoSize p ≤ roundDownPage a - v.start → V p ∨ SameAccess (s.perm p) target) := by
  have hall : SameAccess (VMR_READ ||| VMR_WRITE ||| VMR_EXEC) target ↔
      target.has VMR_WRITE = true ∧ target.has VMR_EXEC = true := by
    unfold SameAccess flagsAP flagsUXN
    cases target.has VMR_WRITE <;> cases target.has VMR_EXEC <;> decide
  have hin : ∀ p, SameAccess (s'.perm p) target ↔ V p ∨ SameAccess (s.perm p) target := by
    intro p
    rw [hperm]
    by_cases hV : V p
    · simp [hV, SameAccess]
    · simp [hV]
  unfold faultPerm
  rw [hspace, hsize]
  cases hf : findVmrForVa s.space a with
  | none => simp
  | some x =>
  obtain ⟨p, v⟩ := x
  have hone : ∀ Q : Nat → Vmregion → Prop, (∀ q w, some (p, v) = some (q, w) → Q q w) ↔ Q p v := by
    intro Q
    constructor
    · exact fun h => h p v rfl
    · intro h q w e
      cases e
      exact h
  rw [hone]
  by_cases hoff : s.pmoSize p ≤ roundDownPage a - v.start
  · cases hpmo : v.pmo <;> simp [hpmo, hoff, hall]
  · cases hpmo : v.pmo <;> simp [hpmo, hoff, hin]

/-- **A change of the regions `V` and the pages `R`** is right exactly if these are the right
    places. -/
theorem protected_iff (hs : s.Sound) (s' : UserSpace) (addr length : BitVec 64) (prot : BitVec 32)
    [DecidablePred V] (hspace : s'.space = s.space) (hsize : s'.pmoSize = s.pmoSize)
    (hperm : ∀ p, s'.perm p = if V p then getVmrProt prot else s.perm p)
    (hhit : ∀ v, R v → s'.entry v =
      editTranslation aarch64 (protectPte aarch64 (getVmrProt prot)) (s.entry v))
    (hmiss : ∀ v, ¬ R v → s'.entry v = s.entry v) :
    Protected s s' addr length (getVmrProt prot) ↔
      RightPlaces s addr length (getVmrProt prot) V R := by
  have hset : ∀ v n e, R v → s.entry v = some (n, e) →
      s'.entry v = some (n, aarch64SetPteFlags e (getVmrProt prot)) := by
    intro v n e hR he
    rw [hhit v hR, he, editTranslation_protect hs he]
  constructor
  · intro h
    refine ⟨fun v hv hin n e he => ?_, fun a ha => ?_, fun v hv hno hR n e he => ?_,
      fun x hx hV a hxa ha => ?_⟩
    · obtain ⟨e', he', -, hattr, hap, huxn⟩ := h.pages v hv hin n e he
      constructor
      · intro hR
        rw [hset v n e hR he] at he'
        cases he'
        rw [← hattr, (aarch64Flags_fields _ _).2.2, flagsAttr_getVmrProt]
      · intro hR
        rw [hmiss v hR, he] at he'
        cases he'
        exact ⟨hap, huxn⟩
    · exact (faultPerm_iff hspace hsize hperm a).mp (h.faults a ha)
    · have hsame := h.otherPages v hv hno
      rw [hset v n e hR he, he] at hsame
      simpa using hsame
    · have hsame := h.otherRegions x hx a hxa ha
      rw [hperm, if_pos hV] at hsame
      exact hsame.symm
  intro h
  refine ⟨fun v hv hin n e he => ?_, fun a ha => ?_, fun v hv hno => ?_, fun x hx a hxa ha => ?_⟩
  · obtain ⟨hnormal, hright⟩ := h.pages v hv hin n e he
    by_cases hR : R v
    · obtain ⟨hap, huxn, hattr⟩ := aarch64Flags_fields e (getVmrProt prot)
      refine ⟨_, hset v n e hR he, aarch64Flags_next _ _, ?_, hap, huxn⟩
      rw [hattr, flagsAttr_getVmrProt, hnormal hR]
    · exact ⟨e, (hmiss v hR).trans he, rfl, rfl, hright hR⟩
  · exact (faultPerm_iff hspace hsize hperm a).mpr (h.faults a ha)
  · by_cases hR : R v
    · cases he : s.entry v with
      | none =>
        rw [hhit v hR, he]
        rfl
      | some t =>
        obtain ⟨n, e⟩ := t
        rw [hset v n e hR he, h.otherPages v hv hno hR n e he]
    · exact hmiss v hR
  · rw [hperm]
    by_cases hV : V x.1
    · rw [if_pos hV, h.otherRegions x hx hV a hxa ha]
    · rw [if_neg hV]

end Contract

/-- **`sys_handle_mprotect` keeps its contract** exactly where the length is not negative as `s64`
    and, unless the call is refused, the regions and pages it comes to are the right ones. -/
theorem mprotect_right_iff (hs : s.Sound) (addr length : BitVec 64)
    (prot : BitVec 32) (haddr : addr % VM_PAGE_SIZE = 0) (hlength : length % VM_PAGE_SIZE = 0)
    (h0 : length ≠ 0) (hlock : s.space.vmspaceLock = false) :
    MprotectRight s addr length prot (sysHandleMprotect s addr length prot) ↔
      MprotectFits s addr length prot := by
  have hbug := checkVmrs_bug_iff s (getVmrProt prot) addr (le_refl length.toNat)
  unfold sysHandleMprotect MprotectFits
  rw [if_neg (by simp [haddr, hlength]), if_neg h0]
  simp only [hlock, Bool.false_eq_true, if_false]
  cases hv : checkVmrs s (getVmrProt prot) length.toNat addr length with
  | refused =>
    rw [hv] at hbug
    have hlt : length.toNat < 2 ^ 63 := not_le.mp fun h => by cases hbug.mpr h
    refine iff_of_true ⟨fun h => absurd h (by decide), fun _ => rfl⟩
      ⟨hlt, nofun, nofun⟩
  | bug =>
    have hge := hbug.mp hv
    exact iff_of_false (fun h => h) fun h => absurd h.1 (not_lt.mpr hge)
  | ignored =>
    rw [hv] at hbug
    have hlt : length.toNat < 2 ^ 63 := not_le.mp fun h => by cases hbug.mpr h
    have hiff := protected_iff (V := fun _ => False) (R := fun _ => False) hs s addr length prot
      rfl rfl (fun _ => (if_neg id).symm) (fun _ h => h.elim) (fun _ _ => rfl)
    constructor
    · exact fun h => ⟨hlt, fun _ => hiff.mp (h.1 rfl), nofun⟩
    · exact fun h => ⟨fun _ => hiff.mpr (h.2.1 rfl), fun hne => absurd rfl hne⟩
  | whole =>
  rw [hv] at hbug
  have hlt : length.toNat < 2 ^ 63 := not_le.mp fun h => by cases hbug.mpr h
  obtain ⟨pt, va, hpt, hed⟩ := mprotectInPgtbl_spec hs addr length (getVmrProt prot)
  simp only [setPerms_eq hv, hpt]
  have hiff := protected_iff (V := fun p => p ∈ visitedVmrs s.space length.toNat addr length) hs
    { s with
      perm := fun p => if p ∈ visitedVmrs s.space length.toNat addr length
        then getVmrProt prot else s.perm p
      pt := pt }
    addr length prot rfl rfl (fun _ => rfl) hed.hit hed.miss
  constructor
  · exact fun h => ⟨hlt, nofun, fun _ => hiff.mp (h.1 rfl)⟩
  · exact fun h => ⟨fun _ => hiff.mpr (h.2.2 trivial), fun hne => absurd rfl hne⟩

/-- An address space with one region at `0x400000` and no page in its table. -/
def oneRegion (type : PmoType) (size : BitVec 64) : UserSpace where
  space := { vmspaceInit with
    vmrList := [(0, ⟨0x400000, size, type⟩)]
    nodup := List.nodup_singleton 0 }
  perm _ := VMR_READ ||| VMR_WRITE
  pmoSize _ := size
  pt := bareTable .aarch64
  pgtbl := 4

/-- A region of one page is made read-only. -/
theorem mprotect_right_region : MprotectRight (oneRegion .anonym 0x1000) 0x400000 0x1000 PROT_READ
    (sysHandleMprotect (oneRegion .anonym 0x1000) 0x400000 0x1000 PROT_READ) := by
  refine (mprotect_right_iff (oneRegion .anonym 0x1000) (Built.sound (bareTable_built .aarch64)) 0x400000 0x1000 PROT_READ
    (by decide) (by decide) (by decide) (by decide)).mpr ⟨by decide, ?_, ?_⟩
  · intro h
    exact absurd h (by decide)
  intro _
  have hV : Visited (oneRegion .anonym 0x1000) 0x400000 0x1000 0 := by
    unfold Visited
    decide
  refine ⟨fun v _ _ n e he => ?_, fun a ha p v hf => ?_, fun v _ _ _ n e he => ?_,
    fun x hx _ a hxa ha => absurd ?_ ha⟩
  · cases he
  · obtain ⟨hmem, -, -⟩ := findVmrForVa_some hf
    cases List.mem_singleton.mp hmem
    exact ⟨nofun, fun _ _ => .inl hV⟩
  · cases he
  · cases List.mem_singleton.mp hx
    exact hxa

/-- The memory type of the page `0x400` before and after the only page of a device region at
    `0x400000` has been made read-only. -/
def typeAfterMprotect : Option (BitVec 3 × BitVec 3) :=
  (mapRangeInPgtbl aarch64 (bareTable .aarch64) 4 0x400000 0x3f000000 0x1000
      (VMR_READ ||| VMR_WRITE ||| VMR_DEVICE)).bind fun pt =>
    let s : UserSpace := { oneRegion .device 0x1000 with pt := pt }
    match sysHandleMprotect s 0x400000 0x1000 PROT_READ with
    | .returned s' 0 =>
      (s.entry 0x400).bind fun x => (s'.entry 0x400).map fun y => (pteAttr x.2, pteAttr y.2)
    | _ => none

/-- A call for one of two pages returns 0 and changes nothing, a length of `2^63` stops the kernel,
    and a page of device memory becomes one of normal memory. -/
theorem mprotect_not_right :
    ¬ MprotectRight (oneRegion .anonym 0x2000) 0x400000 0x1000 PROT_READ
      (sysHandleMprotect (oneRegion .anonym 0x2000) 0x400000 0x1000 PROT_READ) ∧
    ¬ MprotectRight (oneRegion .anonym 0x1000) 0x400000 (1 <<< 63) PROT_READ
      (sysHandleMprotect (oneRegion .anonym 0x1000) 0x400000 (1 <<< 63) PROT_READ) ∧
    typeAfterMprotect = some (DEVICE_MEMORY, NORMAL_MEMORY) := by
  have hstop : sysHandleMprotect (oneRegion .anonym 0x1000) 0x400000 (1 <<< 63) PROT_READ = .stopped := rfl
  refine ⟨fun h => ?_, fun h => ?_, by decide +kernel⟩
  · have hfault : faultPerm (oneRegion .anonym 0x2000) 0x400000 = some (VMR_READ ||| VMR_WRITE) := by decide
    exact absurd ((h.1 rfl).faults 0x400000 (by unfold InRange; decide) _ hfault) (by decide)
  · exact h

end ChCore.Mm
