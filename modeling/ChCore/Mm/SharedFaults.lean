/-
  File: ChCore/Mm/SharedFaults.lean
  Subject: Page faults of several address spaces on shared objects (`handle_trans_fault` of
    `kernel/mm/pgfault_handler.c`).

  The `vmspace_lock` orders the faults of one address space only, so a step of the machine is one
  radix operation, one allocation or one lock section of the fault of one address space.

  * **`faults_ok_iff`** -- a run is in order exactly if no fault is overtaken: none commits an index
    that another one has committed since it looked.
-/
import ChCore.Mm.Pmo

namespace ChCore.Mm

open Common Lib Function List

/-! ## 1. The machine -/

/-- A page of an object. -/
structure PageKey where
  pmo : Nat
  index : Nat
  deriving DecidableEq, Repr

/-- Where the fault of an address space is; `va` is the page of the faulting address. -/
inductive FaultPc where
  | idle
  /-- The lock is held, and the region is found. -/
  | found (va : BitVec 64) (key : PageKey)
  /-- `get_page_from_pmo` has returned. -/
  | looked (va : BitVec 64) (key : PageKey) (pa : Nat)
  /-- A page is allocated and cleared. -/
  | allocated (va : BitVec 64) (key : PageKey) (pa : Nat)
  /-- `commit_page_to_pmo` has returned. -/
  | committed (va : BitVec 64) (key : PageKey) (pa : Nat)
  deriving DecidableEq, Repr

/-- A call of `map_range_in_pgtbl`. -/
structure Mapping where
  space : Nat
  va : BitVec 64
  key : PageKey
  pa : Nat
  deriving DecidableEq, Repr

structure Faults where
  mem : Pmos
  lock : Nat → Bool
  pc : Nat → FaultPc
  maps : List Mapping
  commits : List (PageKey × Nat)
  /-- `radix_add` has found an existing key, and the kernel has stopped. -/
  bug : Bool

inductive FaultAct where
  /-- An address space faults. -/
  | fault (space : Nat) (addr : BitVec 64)
  /-- The fault of an address space goes on. -/
  | advance (space : Nat)
  deriving DecidableEq, Repr

section Machine

-- the address spaces, and the object of a region
variable (spaces : Nat → Vmspace) (pmoOf : Nat → Nat → Nat)

variable (s : Faults) (space : Nat)

/-- From the lock to the index. Without a region it returns, with the lock. -/
def Faults.start (addr : BitVec 64) : Option Faults :=
  if s.lock space then none
  else match findVmrForVa (spaces space) addr with
    | none => some { s with lock := update s.lock space true }
    | some (node, vmr) =>
      let p := pmoOf space node
      let pmo := s.mem.pmos p
      let offset := roundDownPage addr - vmr.start
      if ¬ pmo.OnDemand then none
      else if offset ≥ pmo.size ∧ pmo.type ≠ .file then none
      else some { s with
        lock := update s.lock space true
        pc := update s.pc space
          (.found (roundDownPage addr) ⟨p, (offset / VM_PAGE_SIZE).toNat⟩) }

/-- The lock section of the page table, and the end of the call. -/
def Faults.map (va : BitVec 64) (key : PageKey) (pa : Nat) : Faults :=
  { s with
    lock := update s.lock space false
    pc := update s.pc space .idle
    maps := ⟨space, va, key, pa⟩ :: s.maps }

def Faults.setPc (pc : FaultPc) : Faults :=
  { s with pc := update s.pc space pc }

/-- `commit_page_to_pmo`, with the `BUG_ON` of `radix_add` kept apart from those for memory. -/
def Faults.commit (va : BitVec 64) (key : PageKey) (pa : Nat) : Option Faults :=
  match radixAdd (s.mem.pmos key.pmo).radix key.index pa s.mem.freeNodes with
  | none => some { s with bug := true }
  | some _ => (commitPageToPmo s.mem key.pmo key.index pa).map fun mem =>
    { s with
      mem := mem
      pc := update s.pc space (.committed va key pa)
      commits := (key, pa) :: s.commits }

def Faults.advance : Option Faults :=
  match s.pc space with
  | .idle => none
  | .found va key => some (s.setPc space
      (.looked va key (getPageFromPmo (s.mem.pmos key.pmo) key.index)))
  | .looked va key pa =>
    if pa = 0 then (getZeroedPage s.mem).map fun r =>
      { s with mem := r.2, pc := update s.pc space (.allocated va key r.1) }
    else some (s.map space va key pa)
  | .allocated va key pa => s.commit space va key pa
  | .committed va key pa => some (s.map space va key pa)

def Faults.act : FaultAct → Option Faults
  | .fault space addr => s.start spaces pmoOf space addr
  | .advance space => s.advance space

/-- **One step**, until the kernel stops. -/
def Faults.step (a : FaultAct) : Option Faults :=
  if s.bug then none else s.act spaces pmoOf a

end Machine

/-- No fault yet. -/
def Faults.init (mem : Pmos) : Faults := ⟨mem, fun _ => false, fun _ => .idle, [], [], false⟩

/-! ## 2. The property -/

/-- **The faults are in order**: faults on one index map one page, an index gets one page, and no
    existing key is added. -/
structure FaultsOk (s : Faults) : Prop where
  same : ∀ m ∈ s.maps, ∀ m' ∈ s.maps, m.key = m'.key → m.pa = m'.pa
  once : (s.commits.map Prod.fst).Nodup
  noBug : s.bug = false

variable (s : Faults)

/-- A fault that is about to commit a page finds none for its index. -/
def Faults.Unclaimed : FaultPc → Prop
  | .allocated _ key _ => getPageFromPmo (s.mem.pmos key.pmo) key.index = 0
  | _ => True

/-- **The condition** on a step: a fault that commits a page has not been overtaken by another
    commit of the index. -/
def NotOvertaken : FaultAct → Prop
  | .fault _ _ => True
  | .advance space => s.Unclaimed (s.pc space)

instance (s : Faults) (pc : FaultPc) : Decidable (s.Unclaimed pc) := by
  cases pc <;> unfold Faults.Unclaimed <;> infer_instance

instance (s : Faults) (a : FaultAct) : Decidable (NotOvertaken s a) := by
  cases a <;> unfold NotOvertaken <;> infer_instance

/-! ## 3. The invariant -/

/-- An index of an object with pages. -/
def Faults.Valid (key : PageKey) : Prop :=
  (s.mem.pmos key.pmo).OnDemand ∧ key.index < 2 ^ 64

/-- The page of an index. -/
def Faults.page (key : PageKey) : Nat := getPageFromPmo (s.mem.pmos key.pmo) key.index

/-- What is known of the fault of an address space. -/
def Faults.PcOk : FaultPc → Prop
  | .idle => True
  | .found _ key => s.Valid key
  | .looked _ key pa => s.Valid key ∧ (pa ≠ 0 → s.page key = pa)
  | .allocated _ key pa => s.Valid key ∧ Taken s.mem pa
  | .committed _ key pa => s.Valid key ∧ pa ≠ 0 ∧ s.page key = pa

/-- **The invariant.** -/
structure FaultInv (s : Faults) : Prop where
  mem : s.mem.Inv
  pc : ∀ space, s.PcOk (s.pc space)
  apart : ∀ space space' va va' key key' pa, s.pc space = .allocated va key pa →
    s.pc space' = .allocated va' key' pa → space = space'
  maps : ∀ m ∈ s.maps, s.Valid m.key ∧ m.pa ≠ 0 ∧ s.page m.key = m.pa
  commits : ∀ c ∈ s.commits, s.Valid c.1 ∧ c.2 ≠ 0 ∧ s.page c.1 = c.2
  once : (s.commits.map Prod.fst).Nodup

section Steps

variable {s s' : Faults}

variable (space : Nat)

/-- **What a step has to show**: pages that are there stay, the pages in hand of the other faults
    stay in hand, and what is new is in order. -/
theorem inv_of_later (h : FaultInv s) (hmem : s'.mem.Inv)
    (hvalid : ∀ key, s.Valid key → s'.Valid key)
    (hpage : ∀ key, s.Valid key → s.page key ≠ 0 → s'.page key = s.page key)
    (hpc : ∀ v, v ≠ space → s'.pc v = s.pc v) (hself : s'.PcOk (s'.pc space))
    (htaken : ∀ v va key pa, v ≠ space → s.pc v = .allocated va key pa →
      Taken s'.mem pa ∧ ∀ va' key', s'.pc space ≠ .allocated va' key' pa)
    (hmaps : ∀ m ∈ s'.maps, m ∈ s.maps ∨ s'.Valid m.key ∧ m.pa ≠ 0 ∧ s'.page m.key = m.pa)
    (hcommits : ∀ c ∈ s'.commits, c ∈ s.commits ∨ s'.Valid c.1 ∧ c.2 ≠ 0 ∧ s'.page c.1 = c.2)
    (honce : (s'.commits.map Prod.fst).Nodup) : FaultInv s' := by
  have hkeep : ∀ {key pa}, s.Valid key ∧ pa ≠ 0 ∧ s.page key = pa →
      s'.Valid key ∧ pa ≠ 0 ∧ s'.page key = pa := by
    intro key pa hk
    obtain ⟨hv, hne, rfl⟩ := hk
    exact ⟨hvalid key hv, hne, hpage key hv hne⟩
  constructor
  case mem => exact hmem
  case pc =>
    intro v
    by_cases hv : v = space
    · subst hv
      exact hself
    have hold := h.pc v
    rw [hpc v hv]
    cases hcase : s.pc v with
    | idle => trivial
    | found va key =>
      rw [hcase] at hold
      exact hvalid key hold
    | looked va key pa =>
      rw [hcase] at hold
      exact ⟨hvalid key hold.1, fun hne => (hkeep ⟨hold.1, hne, hold.2 hne⟩).2.2⟩
    | allocated va key pa =>
      rw [hcase] at hold
      exact ⟨hvalid key hold.1, (htaken v va key pa hv hcase).1⟩
    | committed va key pa =>
      rw [hcase] at hold
      exact hkeep hold
  case apart =>
    intro v v' va va' key key' pa hv hv'
    by_cases e : v = space
    · by_cases e' : v' = space
      · exact e.trans e'.symm
      · subst e
        exact absurd hv ((htaken v' va' key' pa e' (hpc v' e' ▸ hv')).2 va key)
    · by_cases e' : v' = space
      · subst e'
        exact absurd hv' ((htaken v va key pa e (hpc v e ▸ hv)).2 va' key')
      · exact h.apart v v' va va' key key' pa (hpc v e ▸ hv) (hpc v' e' ▸ hv')
  case maps => exact fun m hm => (hmaps m hm).elim (fun hm => hkeep (h.maps m hm)) id
  case commits => exact fun c hc => (hcommits c hc).elim (fun hc => hkeep (h.commits c hc)) id
  case once => exact honce

/-- A step that leaves memory alone and takes no page. -/
theorem inv_of_same_mem (h : FaultInv s) (hmem : s'.mem = s.mem)
    (hpc : ∀ v, v ≠ space → s'.pc v = s.pc v)
    (hself : s.PcOk (s'.pc space)) (hno : ∀ va key pa, s'.pc space ≠ .allocated va key pa)
    (hmaps : ∀ m ∈ s'.maps, m ∈ s.maps ∨ s.Valid m.key ∧ m.pa ≠ 0 ∧ s.page m.key = m.pa)
    (hcommits : s'.commits = s.commits) : FaultInv s' := by
  have hvalid : ∀ key, s'.Valid key ↔ s.Valid key := fun key => by
    rw [Faults.Valid, Faults.Valid, hmem]
  have hpage : ∀ key, s'.page key = s.page key := fun key => by
    rw [Faults.page, Faults.page, hmem]
  refine inv_of_later space h (hmem ▸ h.mem) (fun key => (hvalid key).mpr)
    (fun key _ _ => hpage key) hpc ?_ (fun v va key pa _ hv => ?_) (fun m hm => ?_)
    (fun c hc => .inl (hcommits ▸ hc)) (hcommits ▸ h.once)
  · cases hcase : s'.pc space with
    | idle => trivial
    | found va key =>
      rw [hcase] at hself
      exact (hvalid key).mpr hself
    | looked va key pa =>
      rw [hcase] at hself
      exact ⟨(hvalid key).mpr hself.1, fun hne => (hpage key).trans (hself.2 hne)⟩
    | allocated va key pa => exact absurd hcase (hno va key pa)
    | committed va key pa =>
      rw [hcase] at hself
      exact ⟨(hvalid key).mpr hself.1, hself.2.1, (hpage key).trans hself.2.2⟩
  · have hold := h.pc v
    rw [hv] at hold
    exact ⟨hmem ▸ hold.2, fun va' key' => hno va' key' pa⟩
  · rw [hvalid, hpage]
    exact hmaps m hm

variable {va : BitVec 64} {key : PageKey} {pa : Nat}

theorem inv_map (h : FaultInv s) (hv : s.Valid key)
    (hne : pa ≠ 0) (hp : s.page key = pa) : FaultInv (s.map space va key pa) := by
  refine inv_of_same_mem space h rfl (fun v hvs => update_of_ne hvs ..) ?_ ?_
    (fun m hm => ?_) rfl
  · simp only [Faults.map, update_self]
    trivial
  · intro va' key' pa' e
    simp only [Faults.map, update_self] at e
    cases e
  · rcases mem_cons.mp hm with rfl | hm
    · exact .inr ⟨hv, hne, hp⟩
    · exact .inl hm

/-- **A page is allocated** for a fault. -/
theorem inv_allocate {space : Nat} (h : FaultInv s) {mem : Pmos} (hv : s.Valid key) (hs : getZeroedPage s.mem = some (pa, mem)) :
    FaultInv { s with mem := mem, pc := update s.pc space (.allocated va key pa) } := by
  obtain ⟨hinv, htaken, hfree, hpmos, -, -⟩ := inv_getZeroedPage h.mem hs
  have hpage : ∀ q j, getPageFromPmo (mem.pmos q) j = getPageFromPmo (s.mem.pmos q) j := fun q j => by
    rw [hpmos]
  refine inv_of_later space h hinv (fun k hk => ?_) (fun k _ _ => hpage _ _)
    (fun v hvs => update_of_ne hvs ..) ?_ (fun v va' key' pa' hvs hold => ?_)
    (fun m hm => .inl hm) (fun c hc => .inl hc) h.once
  · rw [Faults.Valid] at hk ⊢
    rwa [hpmos]
  · simp only [update_self]
    refine ⟨?_, htaken⟩
    rw [Faults.Valid]
    rwa [hpmos]
  -- the pages in hand of the others were not free
  have ht : Taken s.mem pa' := by
    have := h.pc v
    rw [hold] at this
    exact this.2
  have hsub : ∀ x, x ∈ mem.freePages → x ∈ s.mem.freePages := fun x hx =>
    hfree ▸ mem_cons_of_mem _ hx
  refine ⟨⟨ht.notNull, ht.aligned, fun hm => ht.notFree (hsub _ hm), fun q hq j hj => ?_⟩,
    fun va'' key'' e => ?_⟩
  · rw [hpage]
    exact ht.new q (hpmos ▸ hq) j hj
  · simp only [update_self, FaultPc.allocated.injEq] at e
    exact ht.notFree (e.2.2 ▸ hfree ▸ mem_cons_self)

/-- **A commit**: the index gets the page, or it has one and the kernel stops. -/
theorem inv_commit {space : Nat} (h : FaultInv s) (hpc : s.pc space = .allocated va key pa) (hbug : s.bug = false)
    (hs : s.commit space va key pa = some s') :
    FaultInv s' ∧ (s'.bug = false ↔ s.page key = 0) := by
  obtain ⟨⟨hon, hi⟩, ht⟩ : s.Valid key ∧ Taken s.mem pa := by
    have := h.pc space
    rwa [hpc] at this
  obtain ⟨hradix, hfresh⟩ := h.mem.radix key.pmo hon
  have hadd : Added (s.mem.pmos key.pmo).radix key.index pa s.mem.freeNodes _ :=
    radixAdd_spec hradix hfresh hi
  unfold Faults.commit at hs
  split at hs
  · rename_i hnone
    cases hs
    rw [hnone] at hadd
    cases hadd with
    | existing hget _ =>
      exact ⟨{ h with }, iff_of_false Bool.noConfusion hget⟩
  obtain ⟨mem, hcommit, rfl⟩ := Option.map_eq_some_iff.mp hs
  rcases commitPageToPmo_spec h.mem.radix hon hi ht.notNull with
    ⟨_, hnone⟩ | ⟨hzero, ⟨hnone, _⟩ | ⟨mem', hsome, hc⟩⟩
  · rw [hnone] at hcommit
    cases hcommit
  · rw [hnone] at hcommit
    cases hcommit
  rw [hsome] at hcommit
  cases hcommit
  refine ⟨?_, iff_of_true hbug hzero⟩
  have hvalid : ∀ k, s.Valid k → (mem.pmos k.pmo).OnDemand ∧ k.index < 2 ^ 64 := fun k hk =>
    ⟨(onDemand_congr (hc.fields k.pmo).1).mpr hk.1, hk.2⟩
  have hnew : getPageFromPmo (mem.pmos key.pmo) key.index = pa := by
    rw [hc.pages key.pmo hon key.index hi, if_pos ⟨rfl, rfl⟩]
  refine inv_of_later space h (inv_committed h.mem ht hc) hvalid (fun k hk hne => ?_)
    (fun v hvs => update_of_ne hvs ..) ?_ (fun v va' key' pa' hvs hold => ?_)
    (fun m hm => .inl hm) (fun c hcm => ?_) ?_
  · refine (hc.pages k.pmo hk.1 k.index hk.2).trans (if_neg fun e => hne ?_)
    rw [Faults.page, e.1, e.2]
    exact hzero
  · simp only [update_self]
    exact ⟨hvalid key ⟨hon, hi⟩, ht.notNull, hnew⟩
  · have ht' : Taken s.mem pa' := by
      have := h.pc v
      rw [hold] at this
      exact this.2
    have hne : pa ≠ pa' := fun e =>
      hvs (h.apart v space va' va key' key pa' hold (e ▸ hpc))
    refine ⟨⟨ht'.notNull, ht'.aligned, hc.freePages ▸ ht'.notFree, fun q hq j hj => ?_⟩,
      fun va'' key'' e => ?_⟩
    · have hq' : (s.mem.pmos q).OnDemand := (onDemand_congr (hc.fields q).1).mp hq
      rw [hc.pages q hq' j hj]
      split
      · exact hne
      · exact ht'.new q hq' j hj
    · simp only [update_self] at e
      cases e
  · rcases mem_cons.mp hcm with rfl | hcm
    · exact .inr ⟨hvalid key ⟨hon, hi⟩, ht.notNull, hnew⟩
    · exact .inl hcm
  refine nodup_cons.mpr ⟨fun hm => ?_, h.once⟩
  obtain ⟨c, hcm, e⟩ := mem_map.mp hm
  obtain ⟨-, hne, hpage⟩ := h.commits c hcm
  rw [e] at hpage
  exact hne (hpage.symm.trans hzero)

/-- **Every step keeps the invariant**, and reaches the `BUG_ON` exactly where a fault has been
    overtaken. -/
theorem Faults.step_inv {spaces : Nat → Vmspace} {pmoOf : Nat → Nat → Nat} {a : FaultAct}
    (h : FaultInv s) (hs : s.step spaces pmoOf a = some s') :
    FaultInv s' ∧ (s'.bug = false ↔ NotOvertaken s a) := by
  have hbug : s.bug = false := by
    by_contra hno
    rw [Faults.step, if_pos (Bool.eq_true_of_not_eq_false hno)] at hs
    cases hs
  rw [Faults.step, if_neg (by rw [hbug]; exact Bool.false_ne_true)] at hs
  cases a with
  | fault space addr =>
    simp only [Faults.act, Faults.start] at hs
    split at hs
    · cases hs
    split at hs
    · cases hs
      exact ⟨{ h with }, iff_of_true hbug trivial⟩
    split at hs
    · cases hs
    rename_i hon
    split at hs
    · cases hs
    cases hs
    refine ⟨inv_of_same_mem space h rfl (fun v hvs => update_of_ne hvs ..) ?_ ?_
      (fun m hm => .inl hm) rfl, iff_of_true hbug trivial⟩
    · simp only [update_self]
      exact ⟨not_not.mp hon, BitVec.isLt _⟩
    · intro va key pa e
      simp only [update_self] at e
      cases e
  | advance space =>
  have hpc := h.pc space
  simp only [Faults.act, Faults.advance] at hs
  show FaultInv s' ∧ (s'.bug = false ↔ s.Unclaimed (s.pc space))
  cases hcase : s.pc space with
  | idle =>
    rw [hcase] at hs
    cases hs
  | found va key =>
    rw [hcase] at hs hpc
    cases hs
    refine ⟨inv_of_same_mem space h rfl (fun v hvs => update_of_ne hvs ..) ?_ ?_
      (fun m hm => .inl hm) rfl, iff_of_true hbug trivial⟩
    · simp only [Faults.setPc, update_self]
      exact ⟨hpc, fun _ => rfl⟩
    · intro va' key' pa' e
      simp only [Faults.setPc, update_self] at e
      cases e
  | looked va key pa =>
    rw [hcase] at hs hpc
    simp only at hs
    split at hs
    · obtain ⟨⟨pa', mem⟩, hget, rfl⟩ := Option.map_eq_some_iff.mp hs
      exact ⟨inv_allocate h hpc.1 hget, iff_of_true hbug trivial⟩
    · rename_i hne
      cases hs
      exact ⟨inv_map space h hpc.1 hne (hpc.2 hne), iff_of_true hbug trivial⟩
  | allocated va key pa =>
    rw [hcase] at hs
    exact inv_commit h hcase hbug hs
  | committed va key pa =>
    rw [hcase] at hs hpc
    cases hs
    exact ⟨inv_map space h hpc.1 hpc.2.1 hpc.2.2, iff_of_true hbug trivial⟩

end Steps

/-! ## 4. Runs -/

theorem FaultInv.same {s : Faults} (h : FaultInv s) :
    ∀ m ∈ s.maps, ∀ m' ∈ s.maps, m.key = m'.key → m.pa = m'.pa := by
  intro m hm m' hm' e
  rw [← (h.maps m hm).2.2, ← (h.maps m' hm').2.2, e]

theorem faultInv_init {mem : Pmos} (h : mem.Inv) : FaultInv (Faults.init mem) :=
  ⟨h, fun _ => trivial, nofun, nofun, nofun, nodup_nil⟩

/-- **A run of faults is in order** exactly if no fault is overtaken: whenever a fault commits a
    page, no other one has committed a page for the index since it looked. -/
theorem faults_ok_iff (spaces : Nat → Vmspace) (pmoOf : Nat → Nat → Nat) (mem : Pmos)
    (hmem : mem.Inv) (acts : List FaultAct) :
    (∀ t ∈ trace (Faults.step spaces pmoOf) (Faults.init mem) acts, FaultsOk t.post) ↔
      ∀ t ∈ trace (Faults.step spaces pmoOf) (Faults.init mem) acts, NotOvertaken t.pre t.act := by
  refine trace_all_iff (I := FaultInv) (C := NotOvertaken) (G := fun t => FaultsOk t.post)
    (fun s a s' h hs => ?_) (fun s a s' h _ hs => (Faults.step_inv h hs).1) acts _ (faultInv_init hmem)
  obtain ⟨h', hbug⟩ := Faults.step_inv h hs
  exact ⟨fun hok => hbug.mp hok.noBug, fun hno => ⟨h'.same, h'.once, hbug.mpr hno⟩⟩

/-- An address space with one page of an anonymous object. -/
def onePageSpace : Vmspace := ⟨[(1, ⟨0x1000, 0x1000, .anonym⟩)], none, 0, 0, false, by decide⟩

/-- One fault after the other is in order. -/
theorem faults_ok_two : (freshPmos 4096).Inv ∧
    ∀ t ∈ trace (Faults.step (fun _ => onePageSpace) fun _ _ => 0) (Faults.init (freshPmos 4096))
      [.fault 0 0x1234, .advance 0, .advance 0, .advance 0, .advance 0, .fault 1 0x1234, .advance 1,
        .advance 1], FaultsOk t.post :=
  ⟨freshPmos_inv 4096, (faults_ok_iff _ _ _ (freshPmos_inv 4096) _).mpr (by decide)⟩

/-- Two address spaces fault on the page: both find none, both allocate one, and the second commit
    finds the key. -/
theorem faults_overtake :
    (exec (Faults.step (fun _ => onePageSpace) fun _ _ => 0) (Faults.init (freshPmos 4096))
      [.fault 0 0x1234, .fault 1 0x1234, .advance 0, .advance 1, .advance 0, .advance 1,
        .advance 0, .advance 1]).any (fun s => s.bug) = true := by
  decide

end ChCore.Mm
