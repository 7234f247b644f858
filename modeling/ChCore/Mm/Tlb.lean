/-
  File: ChCore/Mm/Tlb.lean
  Subject: The TLBs of x86_64 (`kernel/arch/x86_64/mm/tlb.c`, `handle_ipi_on_tlb_shootdown`) around a
    call of `unmap_range_in_pgtbl` or `mprotect_in_pgtbl`.

  A machine has the memory, one TLB and one `history_cpus` entry for each CPU, and what the kernel
  still has to do in the call. Between any two of its steps a CPU that runs the address space may
  fill its TLB from the page table, and other CPUs may begin or cease to run it.

  * `shootdown_coherent_iff` -- the calls after which no TLB has a stale entry of the range.
-/
import ChCore.Lib.Run
import ChCore.Mm.PageTableEdit

namespace ChCore.Mm

open Lib Function Option List

/-! ## 1. TLBs -/

/-- An entry of a TLB. -/
structure TlbEntry where
  pcid : Nat
  page : Nat
  pte : Pte

def invpcidFlushSingleContext (pcid : Nat) (tlb : List TlbEntry) : List TlbEntry :=
  tlb.filter fun e => e.pcid ≠ pcid

def invpcidFlushOne (pcid addr : Nat) (tlb : List TlbEntry) : List TlbEntry :=
  tlb.filter fun e => ¬ (e.pcid = pcid ∧ e.page % 2 ^ 36 = addr / PT_PAGE_SIZE % 2 ^ 36)

def TLB_SHOOTDOWN_THRESHOLD : Nat := 2

/-- `flush_local_tlb_opt`. What another CPU or this one fills in between two `invpcid` is as good
    as filled in after them: the page table does not change there. -/
def flushLocalTlbOpt (startVa pageCnt pcid : Nat) (tlb : List TlbEntry) : List TlbEntry :=
  if pageCnt > TLB_SHOOTDOWN_THRESHOLD then invpcidFlushSingleContext pcid tlb
  else (range pageCnt).foldl
    (fun tlb i => invpcidFlushOne pcid (startVa + i * PT_PAGE_SIZE) tlb) tlb

/-- The entry outlives `flush_local_tlb_opt`. -/
def TlbEntry.Spared (startVa pageCnt pcid : Nat) (e : TlbEntry) : Prop :=
  e.pcid = pcid → pageCnt ≤ TLB_SHOOTDOWN_THRESHOLD ∧
    ∀ i < pageCnt, e.page % 2 ^ 36 ≠ (startVa / PT_PAGE_SIZE + i) % 2 ^ 36

theorem mem_flushOnes (startVa pcid : Nat) (e : TlbEntry) (n : Nat) : ∀ tlb : List TlbEntry,
    e ∈ (range n).foldl
        (fun tlb i => invpcidFlushOne pcid (startVa + i * PT_PAGE_SIZE) tlb) tlb ↔
      e ∈ tlb ∧ (e.pcid = pcid →
        ∀ i < n, e.page % 2 ^ 36 ≠ (startVa / PT_PAGE_SIZE + i) % 2 ^ 36) := by
  induction n with
  | zero =>
    simp
  | succ n ih =>
    intro tlb
    rw [range_succ, foldl_append, foldl_cons, foldl_nil, invpcidFlushOne, mem_filter, ih]
    simp only [decide_eq_true_eq, not_and, add_pages, and_assoc]
    refine and_congr_right fun _ => ⟨fun h hp i hi => ?_, fun h => ⟨fun hp i hi => ?_, fun hp => ?_⟩⟩
    · rcases Nat.lt_succ_iff_lt_or_eq.mp hi with hi | rfl
      · exact h.1 hp i hi
      · exact h.2 hp
    · exact h hp i (by omega)
    · exact h hp n (by omega)

/-- **What `flush_local_tlb_opt` leaves.** -/
theorem mem_flushLocalTlbOpt {startVa pageCnt pcid : Nat} {tlb : List TlbEntry} {e : TlbEntry} :
    e ∈ flushLocalTlbOpt startVa pageCnt pcid tlb ↔ e ∈ tlb ∧ e.Spared startVa pageCnt pcid := by
  unfold flushLocalTlbOpt TlbEntry.Spared
  split
  · simp only [invpcidFlushSingleContext, mem_filter, ne_eq, decide_not,
      Bool.not_eq_eq_eq_not, Bool.not_true, decide_eq_false_iff_not]
    refine and_congr_right fun _ => ⟨fun h hp => absurd hp h, fun h hp => ?_⟩
    omega
  · rw [mem_flushOnes]
    refine and_congr_right fun _ => ⟨fun h hp => ⟨by omega, h hp⟩, fun h hp => (h hp).2⟩

/-! ## 2. The machine -/

variable {N : Nat}

/-- What the kernel does in the call. -/
inductive KernelStep (N : Nat) where
  | store (f : Frame) (i : Nat) (e : Pte)
  | flushLocal (startVa pageCnt : Nat)
  /-- `flush_remote_tlb_with_ipi`, with the test of `history_cpus` before it. -/
  | shootdown (target : Fin N) (startVa pageCnt : Nat)

/-- `ROUND_UP(len, PAGE_SIZE)` on 64 bits. -/
def roundUpPage (len : Nat) : Nat := (len + (PT_PAGE_SIZE - 1)) % 2 ^ 64 / PT_PAGE_SIZE * PT_PAGE_SIZE

/-- `page_cnt` of `flush_tlb_local_and_remote`. -/
def flushPages (len : Nat) : Nat := roundUpPage len / PT_PAGE_SIZE

/-- `flush_tlb_local_and_remote`. The other CPUs get the length in bytes for the number of pages. -/
def flushTlbLocalAndRemote (cpuid : Fin N) (startVa len : Nat) : List (KernelStep N) :=
  if len = 0 then []
  else .flushLocal startVa (flushPages len) ::
    ((finRange N).filter (· ≠ cpuid)).map fun i => .shootdown i startVa (roundUpPage len)

/-- `unmap_range_in_pgtbl` or `mprotect_in_pgtbl`. -/
inductive PtOp where
  | unmap
  | mprotect (flags : VmrProp)

/-- What it does to an entry. -/
def PtOp.edit : PtOp → Pte → Option Pte
  | .unmap => fun _ => some 0
  | .mprotect flags => protectPte x8664 flags

/-- The call up to the flush. -/
def PtOp.call (op : PtOp) (s : PtState) (pgtbl : Frame) (va len : Nat) : Option (PtState × Nat) :=
  match op with
  | .unmap => unmapRangeInPgtbl x8664 s pgtbl va len
  | .mprotect flags => mprotectInPgtbl x8664 s pgtbl va len flags

/-- **The whole call**: the stores of its loop, then the flush with the address the loop has come
    to. -/
def PtOp.steps (op : PtOp) (s : PtState) (pgtbl : Frame) (va len : Nat) (cpuid : Fin N) :
    List (KernelStep N) :=
  match op.call s pgtbl va len with
  | none => []
  | some (s', va') =>
    (newStores s s').map (fun x => .store x.1 x.2.1 x.2.2) ++ flushTlbLocalAndRemote cpuid va' len

structure Machine (N : Nat) where
  mem : Tables Frame Pte
  tlb : Fin N → List TlbEntry
  historyCpus : Fin N → Bool
  /-- The address space is the one of `current_thread` of the CPU. -/
  running : Fin N → Bool
  todo : List (KernelStep N)

inductive Event (N : Nat) where
  | kernel
  | fill (cpu : Fin N) (page : Nat)
  | run (cpu : Fin N)
  | leave (cpu : Fin N)

section Step

variable (pgtbl : Frame) (pcid : Nat) (cpuid : Fin N)

variable (m : Machine N)

/-- `handle_ipi_on_tlb_shootdown` on the CPU `i`. -/
def handleIpiOnTlbShootdown (i : Fin N) (startVa pageCnt : Nat) : Machine N :=
  { m with
    tlb := update m.tlb i (flushLocalTlbOpt startVa pageCnt pcid (m.tlb i))
    historyCpus :=
      if m.running i then m.historyCpus else update m.historyCpus i false }

/-- One step of the call. -/
def kernelStep : KernelStep N → Machine N
  | .store f i e => { m with mem := m.mem.set f i e }
  | .flushLocal startVa pageCnt =>
    { m with
      tlb := update m.tlb cpuid (flushLocalTlbOpt startVa pageCnt pcid (m.tlb cpuid)) }
  | .shootdown i startVa pageCnt =>
    if m.historyCpus i then handleIpiOnTlbShootdown pcid m i startVa pageCnt else m

/-- **One step of the machine.** The CPU that is in the call does not switch its thread. -/
def machineStep : Event N → Option (Machine N)
  | .kernel =>
    match m.todo with
    | [] => none
    | k :: rest => some { kernelStep pcid cpuid m k with todo := rest }
  | .fill i page =>
    if m.historyCpus i then
      (translation x8664 m.mem pgtbl page).map fun t =>
        { m with tlb := update m.tlb i (⟨pcid, page, t.2⟩ :: m.tlb i) }
    else none
  | .run i =>
    if i = cpuid then none
    else some { m with
      historyCpus := update m.historyCpus i true
      running := update m.running i true }
  | .leave i =>
    if i = cpuid then none else some { m with running := update m.running i false }

end Step

/-- The TLB entry agrees with the page table. -/
def Agrees (pgtbl : Frame) (mem : Tables Frame Pte) (e : TlbEntry) : Prop :=
  ∃ n, translation x8664 mem pgtbl e.page = some (n, e.pte)

/-- **No TLB has a stale entry for a page of the range.** -/
def Coherent (pgtbl : Frame) (pcid va len : Nat) (mem : Tables Frame Pte)
    (tlb : Fin N → List TlbEntry) : Prop :=
  ∀ c, ∀ e ∈ tlb c, e.pcid = pcid →
    ¬ OffPages (va / PT_PAGE_SIZE) (pageCount len) e.page → Agrees pgtbl mem e

/-- `history_cpus` marks every CPU that has entries of the address space. -/
def Marked (pcid : Nat) (historyCpus : Fin N → Bool) (tlb : Fin N → List TlbEntry) : Prop :=
  ∀ c, historyCpus c = false → ∀ e ∈ tlb c, e.pcid ≠ pcid

/-! ## 3. Every TLB is flushed after the last store -/

section Flush

variable {pgtbl : Frame} {pcid : Nat} {cpuid : Fin N} {m m' : Machine N} {va len : Nat}

/-- The CPU has no entry of the address space that is stale. -/
def Fresh (pgtbl : Frame) (pcid : Nat) (m : Machine N) (c : Fin N) : Prop :=
  ∀ e ∈ m.tlb c, e.pcid = pcid → Agrees pgtbl m.mem e

/-- The step is a store. -/
def KernelStep.isStore : KernelStep N → Bool
  | .store _ _ _ => true
  | _ => false

/-- **The state of a call that flushes every TLB**: before the flush there are stores to do; after
    it the memory stays, and the TLBs of the CPUs that have had their turn are fresh. -/
structure Flushed (pgtbl : Frame) (pcid : Nat) (cpuid : Fin N) (startVa pageCnt bytes : Nat)
    (m : Machine N) : Prop where
  marked : Marked pcid m.historyCpus m.tlb
  /-- The flush of this CPU clears its TLB, or there is nothing in it. -/
  here : TLB_SHOOTDOWN_THRESHOLD < pageCnt ∨ m.historyCpus cpuid = false
  there : TLB_SHOOTDOWN_THRESHOLD < bytes ∨ ∀ c, c = cpuid
  stage : (∃ stores, m.todo = stores ++ .flushLocal startVa pageCnt ::
        ((finRange N).filter (· ≠ cpuid)).map (.shootdown · startVa bytes) ∧
        ∀ k ∈ stores, k.isStore = true) ∨
      ∃ cs : List (Fin N), m.todo = cs.map (.shootdown · startVa bytes) ∧ (∀ c ∈ cs, c ≠ cpuid) ∧
        ∀ c, c ∉ cs → Fresh pgtbl pcid m c

variable {startVa pageCnt bytes : Nat}

theorem mem_update_flush (i c : Fin N) {e : TlbEntry}
    (he : e ∈ update m.tlb i (flushLocalTlbOpt startVa pageCnt pcid (m.tlb i)) c) :
    e ∈ m.tlb c := by
  by_cases hc : c = i
  · subst hc
    rw [update_self] at he
    exact (mem_flushLocalTlbOpt.mp he).1
  · rwa [update_of_ne hc] at he

theorem mem_update_fill {x e : TlbEntry} {c d : Fin N} (he : e ∈ update m.tlb c (x :: m.tlb c) d) :
    d = c ∧ e = x ∨ e ∈ m.tlb d := by
  by_cases hdc : d = c
  · subst hdc
    rw [update_self] at he
    exact (mem_cons.mp he).imp_left fun he => ⟨rfl, he⟩
  · rw [update_of_ne hdc] at he
    exact .inr he

theorem flush_clears {tlb : List TlbEntry} (hbig : TLB_SHOOTDOWN_THRESHOLD < pageCnt)
    {e : TlbEntry} (he : e ∈ flushLocalTlbOpt startVa pageCnt pcid tlb) : e.pcid ≠ pcid := by
  intro hp
  have := ((mem_flushLocalTlbOpt.mp he).2 hp).1
  omega

/-- A step of the call keeps this. -/
theorem Flushed.kernel (h : Flushed pgtbl pcid cpuid startVa pageCnt bytes m)
    (hs : machineStep pgtbl pcid cpuid m .kernel = some m') :
    Flushed pgtbl pcid cpuid startVa pageCnt bytes m' := by
  unfold machineStep at hs
  rcases h.stage with ⟨stores, htodo, hstores⟩ | ⟨cs, htodo, hcs, hfresh⟩
  · cases stores with
    | cons k stores =>
      rw [htodo] at hs
      cases hs
      have hk := hstores k mem_cons_self
      cases k with
      | store f i e =>
        exact ⟨h.marked, h.here, h.there, .inl ⟨stores, rfl,
          fun k hk => hstores k (mem_cons_of_mem _ hk)⟩⟩
      | flushLocal | shootdown => cases hk
    | nil =>
    rw [htodo, nil_append] at hs
    cases hs
    refine ⟨fun d hd e he => h.marked d hd e (mem_update_flush cpuid d he), h.here, h.there, .inr ⟨_, rfl, ?_, fun c hc => ?_⟩⟩
    · intro c hc
      exact of_decide_eq_true (mem_filter.mp hc).2
    -- this CPU
    obtain rfl : c = cpuid := by
      by_contra hne
      exact hc (mem_filter.mpr ⟨mem_finRange c, decide_eq_true hne⟩)
    intro e he hp
    simp only [kernelStep, update_self] at he
    rcases h.here with hbig | hunmarked
    · exact absurd hp (flush_clears hbig he)
    · exact absurd hp (h.marked c hunmarked e (mem_flushLocalTlbOpt.mp he).1)
  cases cs with
  | nil =>
    rw [htodo] at hs
    cases hs
  | cons c cs =>
  rw [htodo, map_cons] at hs
  cases hs
  have hc := hcs c mem_cons_self
  have hbig := h.there.resolve_right fun hall => hc (hall c)
  have hcs' : ∀ d ∈ cs, d ≠ cpuid := fun d hd => hcs d (mem_cons_of_mem _ hd)
  simp only [kernelStep]
  split
  · refine ⟨fun d hd e he => ?_, h.here.imp_right fun hun => ?_, h.there,
      .inr ⟨cs, rfl, hcs', fun d hd e he hp => ?_⟩⟩
    · by_cases hdc : d = c
      · subst hdc
        simp only [handleIpiOnTlbShootdown, update_self] at he
        exact flush_clears hbig he
      simp only [handleIpiOnTlbShootdown, update_of_ne hdc] at he hd
      refine h.marked d ?_ e he
      split at hd
      · exact hd
      · rwa [update_of_ne hdc] at hd
    · simp only [handleIpiOnTlbShootdown]
      split
      · exact hun
      · rwa [update_of_ne (hc.symm)]
    by_cases hdc : d = c
    · subst hdc
      simp only [handleIpiOnTlbShootdown, update_self] at he
      exact absurd hp (flush_clears hbig he)
    · simp only [handleIpiOnTlbShootdown, update_of_ne hdc] at he
      exact hfresh d (by simp [hdc, hd]) e he hp
  rename_i hun
  refine ⟨h.marked, h.here, h.there, .inr ⟨cs, rfl, hcs', fun d hd e he hp => ?_⟩⟩
  by_cases hdc : d = c
  · subst hdc
    exact absurd hp (h.marked d (by simpa using hun) e he)
  · exact hfresh d (by simp [hdc, hd]) e he hp

theorem fresh_fill {c d : Fin N} {page n : Nat} {pte : Pte}
    (ht : translation x8664 m.mem pgtbl page = some (n, pte)) (h : Fresh pgtbl pcid m d) :
    Fresh pgtbl pcid
      { m with tlb := update m.tlb c (⟨pcid, page, pte⟩ :: m.tlb c) } d := by
  intro e he hp
  rcases mem_update_fill he with ⟨-, rfl⟩ | he
  · exact ⟨n, ht⟩
  · exact h e he hp

theorem Flushed.step {ev : Event N} (h : Flushed pgtbl pcid cpuid startVa pageCnt bytes m)
    (hs : machineStep pgtbl pcid cpuid m ev = some m') :
    Flushed pgtbl pcid cpuid startVa pageCnt bytes m' := by
  cases ev with
  | kernel => exact h.kernel hs
  | fill c page =>
    obtain ⟨hc, hs⟩ := ite_none_right_eq_some.mp hs
    obtain ⟨⟨n, pte⟩, ht, rfl⟩ := map_eq_some_iff.mp hs
    refine ⟨fun d hd e he => ?_, h.here, h.there, h.stage.imp_right ?_⟩
    · rcases mem_update_fill he with ⟨rfl, -⟩ | he
      · exact absurd (hd.symm.trans hc) (by simp)
      · exact h.marked d hd e he
    · rintro ⟨cs, htodo, hcs, hfresh⟩
      exact ⟨cs, htodo, hcs, fun d hd => fresh_fill ht (hfresh d hd)⟩
  | run c =>
    obtain ⟨hc, hs⟩ := ite_none_left_eq_some.mp hs
    cases hs
    refine ⟨fun d hd e he => ?_, h.here.imp_right fun hun => ?_, h.there, h.stage⟩
    · by_cases hdc : d = c
      · subst hdc
        simp only [update_self] at hd
        cases hd
      · simp only [update_of_ne hdc] at hd
        exact h.marked d hd e he
    · simp only [update_of_ne (Ne.symm hc)]
      exact hun
  | leave c =>
    obtain ⟨-, hs⟩ := ite_none_left_eq_some.mp hs
    cases hs
    exact { h with }

/-- **At the end of the call every TLB is fresh.** -/
theorem Flushed.fresh (h : Flushed pgtbl pcid cpuid startVa pageCnt bytes m) (hend : m.todo = [])
    (c : Fin N) : Fresh pgtbl pcid m c := by
  rcases h.stage with ⟨stores, htodo, -⟩ | ⟨cs, htodo, -, hfresh⟩
  · rw [hend] at htodo
    simp at htodo
  rw [hend] at htodo
  cases cs with
  | nil => exact hfresh c not_mem_nil
  | cons d cs => cases htodo

end Flush

/-! ## 4. No store changes a translation -/

section Unmoved

variable {pgtbl : Frame} {pcid : Nat} {cpuid : Fin N} {m m' : Machine N} {va len : Nat}
  {edit : Pte → Option Pte} {P : Nat → Prop} {s : PtState}

/-- The step of the call that makes a store. -/
def storeStep (x : Frame × Nat × Pte) : KernelStep N := .store x.1 x.2.1 x.2.2

/-- An edit leaves the entries of the pages of `P` that are mapped. -/
def Neutral (pgtbl : Frame) (edit : Pte → Option Pte) (P : Nat → Prop) (s : PtState) : Prop :=
  ∀ w e, P w → translation x8664 s.mem pgtbl w = some (0, e) → (edit e).getD e = e

/-- A store of such an edit. -/
theorem Neutral.store {σ : PtState} {w : Nat} {l3 : Frame} {e : Pte}
    (h : Neutral pgtbl edit P s) (hedit : EditOk x8664 edit)
    (hsame : ∀ w, translation x8664 σ.mem pgtbl w = translation x8664 s.mem pgtbl w)
    (hinv : PtInv x8664 σ pgtbl) (hw : P w) (hp : σ.walk x8664 pgtbl (tablePath w) = some l3)
    (he : edit (σ.mem l3 (w % 512)) = some e) (w' : Nat) :
    translation x8664 (σ.store l3 (w % 512) e).mem pgtbl w' =
      translation x8664 s.mem pgtbl w' := by
  have htr := translation_of_walk hp
  rw [hinv.translation_store hp, ← hsame w']
  split
  · rename_i hww
    rw [translation_congr hww, htr]
    cases hpres : x8664.present (σ.mem l3 (w % 512)) with
    | false =>
      rw [hedit.absent _ _ hpres he]
      rfl
    | true =>
    -- the entry is stored as it was
    rw [hpres] at htr
    have hkeep := h w _ hw ((hsame w).symm.trans htr)
    rw [he, getD_some] at hkeep
    rw [hkeep, hpres]
  · rfl

/-- **The state of a call that changes no translation.** -/
structure Unmoved (pgtbl : Frame) (pcid va len : Nat) (edit : Pte → Option Pte) (P : Nat → Prop)
    (s : PtState) (m : Machine N) : Prop where
  todo : ∃ σ new s' rest, m.mem = σ.mem ∧ Stores x8664 pgtbl edit P σ new s' ∧
    m.todo = new.map storeStep ++ rest ∧ ∀ k ∈ rest, k.isStore = false
  same : ∀ w, translation x8664 m.mem pgtbl w = translation x8664 s.mem pgtbl w
  coherent : Coherent pgtbl pcid va len m.mem m.tlb

theorem Coherent.mono {mem mem' : Tables Frame Pte} {tlb tlb' : Fin N → List TlbEntry}
    (h : Coherent pgtbl pcid va len mem tlb)
    (hmem : ∀ w, translation x8664 mem' pgtbl w = translation x8664 mem pgtbl w)
    (hsub : ∀ c, ∀ e ∈ tlb' c, e ∈ tlb c) : Coherent pgtbl pcid va len mem' tlb' := by
  intro c e he hp hoff
  unfold Agrees
  rw [hmem]
  exact h c e (hsub c e he) hp hoff

section

variable (hneutral : Neutral pgtbl edit P s) (hedit : EditOk x8664 edit)
  (h : Unmoved pgtbl pcid va len edit P s m)

include hneutral hedit h

theorem Unmoved.kernel (hs : machineStep pgtbl pcid cpuid m .kernel = some m') :
    Unmoved pgtbl pcid va len edit P s m' := by
  obtain ⟨σ, new, s', rest, hmem, hstores, htodo, hrest⟩ := h.todo
  unfold machineStep at hs
  cases hstores with
  | @cons _ _ w l3 e new inv page table entry tail =>
    rw [htodo, map_cons] at hs
    cases hs
    have hnew := hneutral.store hedit (hmem ▸ h.same) inv page table entry
    have hset : m.mem.set l3 (w % 512) e = (σ.store l3 (w % 512) e).mem :=
      congrArg (fun mem => Tables.set mem l3 (w % 512) e) hmem
    refine ⟨⟨_, _, s', rest, hset, tail, rfl, hrest⟩, fun w => ?_, ?_⟩
    · exact (congrArg (translation x8664 · pgtbl w) hset).trans (hnew w)
    · refine h.coherent.mono (fun w => ?_) fun _ _ he => he
      exact ((congrArg (translation x8664 · pgtbl w) hset).trans (hnew w)).trans (h.same w).symm
  | nil =>
  rw [htodo] at hs
  cases rest with
  | nil => cases hs
  | cons k rest =>
  cases hs
  have hk := hrest k mem_cons_self
  have hrest' : ∀ k ∈ rest, k.isStore = false := fun k hk => hrest k (mem_cons_of_mem _ hk)
  cases k with
  | store => cases hk
  | flushLocal startVa pageCnt =>
    exact ⟨⟨σ, [], σ, rest, hmem, .nil σ, rfl, hrest'⟩, h.same,
      h.coherent.mono (fun _ => rfl) fun c _ he => mem_update_flush cpuid c he⟩
  | shootdown i startVa pageCnt =>
  by_cases hi : m.historyCpus i = true
  · simp only [kernelStep, hi, if_true]
    exact ⟨⟨σ, [], σ, rest, hmem, .nil σ, rfl, hrest'⟩, h.same,
      h.coherent.mono (fun _ => rfl) fun c _ he => mem_update_flush i c he⟩
  · simp only [kernelStep, hi]
    exact ⟨⟨σ, [], σ, rest, hmem, .nil σ, rfl, hrest'⟩, h.same, h.coherent⟩

theorem Unmoved.step {ev : Event N} (hs : machineStep pgtbl pcid cpuid m ev = some m') :
    Unmoved pgtbl pcid va len edit P s m' := by
  cases ev with
  | kernel => exact h.kernel hneutral hedit hs
  | fill c page =>
    obtain ⟨-, hs⟩ := ite_none_right_eq_some.mp hs
    obtain ⟨⟨n, pte⟩, ht, rfl⟩ := map_eq_some_iff.mp hs
    refine ⟨h.todo, h.same, fun d e he hp hoff => ?_⟩
    rcases mem_update_fill he with ⟨-, rfl⟩ | he
    · exact ⟨n, ht⟩
    · exact h.coherent d e he hp hoff
  | run c | leave c =>
    obtain ⟨-, hs⟩ := ite_none_left_eq_some.mp hs
    cases hs
    exact { h with }

end

end Unmoved

/-! ## 5. The call without interruption -/

section Kernel

variable {pgtbl : Frame} {pcid : Nat} {cpuid : Fin N}

/-- What a step does to the memory. -/
def KernelStep.memory : KernelStep N → Tables Frame Pte → Tables Frame Pte
  | .store f i e, mem => mem.set f i e
  | _, mem => mem

/-- The step leaves the entry in the TLB of `c`. -/
def KernelStep.Spares (pcid : Nat) (cpuid c : Fin N) (e : TlbEntry) : KernelStep N → Prop
  | .store _ _ _ => True
  | .flushLocal startVa pageCnt => c = cpuid → e.Spared startVa pageCnt pcid
  | .shootdown i startVa pageCnt => c = i → e.Spared startVa pageCnt pcid

theorem mem_update_of_spared {m : Machine N} {startVa pageCnt : Nat} {i c : Fin N} {e : TlbEntry}
    (he : e ∈ m.tlb c) (hsp : c = i → e.Spared startVa pageCnt pcid) :
    e ∈ update m.tlb i (flushLocalTlbOpt startVa pageCnt pcid (m.tlb i)) c := by
  by_cases hc : c = i
  · subst hc
    rw [update_self]
    exact mem_flushLocalTlbOpt.mpr ⟨he, hsp rfl⟩
  · rwa [update_of_ne hc]

theorem kernelStep_mem (pcid : Nat) (cpuid : Fin N) (m : Machine N) (k : KernelStep N) :
    (kernelStep pcid cpuid m k).mem = k.memory m.mem := by
  cases k with
  | store | flushLocal => rfl
  | shootdown i startVa pageCnt =>
    simp only [kernelStep]
    split <;> rfl

theorem kernelStep_tlb {m : Machine N} {k : KernelStep N} {c : Fin N} {e : TlbEntry}
    (he : e ∈ m.tlb c) (hsp : k.Spares pcid cpuid c e) : e ∈ (kernelStep pcid cpuid m k).tlb c := by
  cases k with
  | store => exact he
  | flushLocal => exact mem_update_of_spared he hsp
  | shootdown i startVa pageCnt =>
  simp only [kernelStep]
  split
  · exact mem_update_of_spared he hsp
  · exact he

/-- **The kernel goes through the call**, and nothing comes in between. -/
theorem run_kernel (pgtbl : Frame) (pcid : Nat) (cpuid : Fin N) (todo : List (KernelStep N)) : ∀ m : Machine N, m.todo = todo →
    ∃ m', exec (machineStep pgtbl pcid cpuid) m (replicate todo.length .kernel) = some m' ∧
      m'.todo = [] ∧ m'.mem = todo.foldl (fun mem k => k.memory mem) m.mem ∧
      ∀ c, ∀ e ∈ m.tlb c, (∀ k ∈ todo, k.Spares pcid cpuid c e) → e ∈ m'.tlb c := by
  induction todo with
  | nil => exact fun m hm => ⟨m, rfl, hm, rfl, fun _ _ he _ => he⟩
  | cons k rest ih =>
    intro m hm
    obtain ⟨m', hexec, hend, hmem, htlb⟩ := ih { kernelStep pcid cpuid m k with todo := rest } rfl
    refine ⟨m', ?_, hend, ?_, fun c e he hsp => ?_⟩
    · rw [length_cons, replicate_succ, exec, machineStep, hm]
      exact hexec
    · rw [hmem, foldl_cons, ← kernelStep_mem pcid cpuid m k]
    · exact htlb c e (kernelStep_tlb he (hsp k mem_cons_self))
        fun k' hk' => hsp k' (mem_cons_of_mem _ hk')

end Kernel

/-! ## 6. The calls after which the TLBs are coherent -/

section Call

variable {pgtbl : Frame} {pcid va len : Nat} {cpuid : Fin N} {s s' : PtState}
  {edit : Pte → Option Pte} {P : Nat → Prop}

theorem PtOp.call_eq (op : PtOp) (s : PtState) (pgtbl : Frame) (va len : Nat) :
    op.call s pgtbl va len = editRange x8664 op.edit s pgtbl va len := by
  cases op <;> rfl

theorem PtOp.editOk (op : PtOp) : EditOk x8664 op.edit := by
  cases op with
  | unmap => exact editOk_unmap x8664
  | mprotect flags => exact editOk_protect x8664 flags

theorem Stores.mem {new : List (Frame × Nat × Pte)} (h : Stores x8664 pgtbl edit P s new s') :
    s'.mem = (new.map storeStep).foldl (fun mem (k : KernelStep N) => k.memory mem) s.mem := by
  induction h with
  | nil s => rfl
  | cons inv page table entry _ ih =>
    rw [ih]
    rfl

/-- The loop goes on by an entry of the top level at most. -/
theorem hop_le (F : PteFormat) (s : PtState) (pgtbl : Frame) (v : Nat) :
    hop F s pgtbl v ≤ 2 ^ 27 := by
  cases hspan : span F s pgtbl v with
  | ok l3 =>
    rw [hop_of_ok hspan]
    exact Nat.one_le_two_pow
  | error k =>
  obtain ⟨l, hl, rfl, -⟩ := span_error hspan
  rw [hop_of_error hspan]
  simp only [mem_cons, not_mem_nil, or_false] at hl
  exact Nat.pow_le_pow_right (by omega) (by omega)

theorem stopAt_succ (F : PteFormat) (s : PtState) (pgtbl : Frame) (v j : Nat) :
    stopAt F s pgtbl v (j + 1) = stopAt F s pgtbl v j + hop F s pgtbl (stopAt F s pgtbl v j) := by
  rw [stopAt_add]
  rfl

/-- **The steps of a call** on a range without huge pages, and where its flush begins. -/
theorem PtOp.steps_spec (op : PtOp) (cpuid : Fin N) (hinv : PtInv x8664 s pgtbl)
    (hva : va % PT_PAGE_SIZE = 0)
    (hway : ∀ w, InPages (va / PT_PAGE_SIZE) (pageCount len) w → PlainWay x8664 s pgtbl w) :
    ∃ s' va' new, op.steps s pgtbl va len cpuid =
        new.map storeStep ++ flushTlbLocalAndRemote cpuid va' len ∧
      Edited x8664 pgtbl op.edit (Reached x8664 s pgtbl (va / PT_PAGE_SIZE) (pageCount len)) s s' ∧
      Stores x8664 pgtbl op.edit (Reached x8664 s pgtbl (va / PT_PAGE_SIZE) (pageCount len)) s
        new s' ∧
      va / PT_PAGE_SIZE + pageCount len ≤ va' / PT_PAGE_SIZE ∧
      va' / PT_PAGE_SIZE ≤ va / PT_PAGE_SIZE + pageCount len + 2 ^ 27 := by
  obtain ⟨hed, j, hend, hge, hlt⟩ := editLoop_spec op.editOk (pageCount len) va (pageCount len)
    hinv hway le_rfl
  obtain ⟨new, hnew⟩ := hed.stores
  have hcall : op.call s pgtbl va len =
      some (editLoop x8664 op.edit pgtbl (pageCount len) s va (pageCount len)) := by
    rw [op.call_eq, editRange, if_neg fun hc => hc.2 hva]
  rw [hva, zero_add] at hend
  have hdiv : (editLoop x8664 op.edit pgtbl (pageCount len) s va (pageCount len)).2 / PT_PAGE_SIZE =
      stopAt x8664 s pgtbl (va / PT_PAGE_SIZE) j := by
    rw [hend]
    exact Nat.mul_div_cancel _ (by decide)
  refine ⟨_, _, new, ?_, hed, hnew, hdiv ▸ hge, ?_⟩
  · unfold PtOp.steps
    rw [hcall]
    simp only [newStores_of_log hnew.log, reverse_reverse]
    rfl
  rw [hdiv]
  cases j with
  | zero =>
    show va / PT_PAGE_SIZE ≤ _
    omega
  | succ j =>
  have hlast := hlt j (Nat.lt_succ_self j)
  have hhop := hop_le x8664 s pgtbl (stopAt x8664 s pgtbl (va / PT_PAGE_SIZE) j)
  rw [stopAt_succ]
  omega

/-- The number of pages to flush, and the number the other CPUs are told: where rounding up
    overflows both are 0. -/
theorem flushPages_cases (h0 : 0 < len) (h : len < 2 ^ 64) :
    flushPages len = 0 ∧ roundUpPage len = 0 ∨
      0 < flushPages len ∧ flushPages len = pageCount len ∧
        TLB_SHOOTDOWN_THRESHOLD < roundUpPage len := by
  unfold flushPages roundUpPage pageCount TLB_SHOOTDOWN_THRESHOLD PT_PAGE_SIZE
  split <;> omega

theorem foldl_flush (cpuid : Fin N) (va len : Nat) (mem : Tables Frame Pte) :
    (flushTlbLocalAndRemote cpuid va len).foldl (fun mem k => k.memory mem) mem = mem := by
  unfold flushTlbLocalAndRemote
  split
  · rfl
  rw [foldl_cons]
  generalize (finRange N).filter (· ≠ cpuid) = cs
  induction cs with
  | nil => rfl
  | cons c cs ih => exact ih

variable {c : Fin N} {e : Pte}

/-- **A flush page by page spares the range**: it begins where the loop has ended. -/
theorem spares_flush {va' w : Nat} {k : KernelStep N}
    (hsmall : ¬ TLB_SHOOTDOWN_THRESHOLD < flushPages len)
    (hcases : flushPages len = 0 ∧ roundUpPage len = 0 ∨
      0 < flushPages len ∧ flushPages len = pageCount len ∧
        TLB_SHOOTDOWN_THRESHOLD < roundUpPage len) (hc : flushPages len = 0 ∨ c = cpuid)
    (hin : ¬ OffPages (va / PT_PAGE_SIZE) (pageCount len) w)
    (hge : va / PT_PAGE_SIZE + pageCount len ≤ va' / PT_PAGE_SIZE)
    (hle : va' / PT_PAGE_SIZE ≤ va / PT_PAGE_SIZE + pageCount len + 2 ^ 27)
    (hk : k ∈ flushTlbLocalAndRemote cpuid va' len) : k.Spares pcid cpuid c ⟨pcid, w, e⟩ := by
  simp only [OffPages, not_forall, not_not] at hin
  obtain ⟨j, hj, hmod⟩ := hin
  unfold flushTlbLocalAndRemote at hk
  split at hk
  · cases hk
  rcases mem_cons.mp hk with rfl | hk
  · refine fun _ _ => ⟨not_lt.mp hsmall, fun i hi => ?_⟩
    unfold TLB_SHOOTDOWN_THRESHOLD at hsmall
    show w % 2 ^ 36 ≠ (va' / PT_PAGE_SIZE + i) % 2 ^ 36
    omega
  obtain ⟨i, hi, rfl⟩ := mem_map.mp hk
  rintro rfl -
  rcases hcases with ⟨-, hz⟩ | ⟨hpos, -⟩
  · rw [hz]
    exact ⟨Nat.zero_le _, fun i hi => absurd hi (Nat.not_lt_zero i)⟩
  · refine absurd (hc.resolve_left (by omega)) ?_
    exact of_decide_eq_true (mem_filter.mp hi).2

/-- The machine at the beginning of a call. -/
def callStart (op : PtOp) (s : PtState) (pgtbl : Frame) (va len : Nat) (cpuid : Fin N)
    (historyCpus running : Fin N → Bool) (tlb : Fin N → List TlbEntry) : Machine N :=
  ⟨s.mem, tlb, historyCpus, running, op.steps s pgtbl va len cpuid⟩

/-- **However the CPUs interleave, no TLB has a stale entry of the range when the call returns**, if
    none had one before and `history_cpus` marks the CPUs that have run the address space. -/
def ShootdownSafe (op : PtOp) (s : PtState) (pgtbl : Frame) (pcid va len : Nat) (cpuid : Fin N)
    (historyCpus running : Fin N → Bool) : Prop :=
  ∀ tlb, Coherent pgtbl pcid va len s.mem tlb → Marked pcid historyCpus tlb →
    ∀ events m, exec (machineStep pgtbl pcid cpuid)
      (callStart op s pgtbl va len cpuid historyCpus running tlb) events = some m →
    m.todo = [] → Coherent pgtbl pcid va len m.mem m.tlb

variable {op : PtOp} {historyCpus running : Fin N → Bool}

/-- Every TLB is flushed after the last store. -/
theorem safe_of_flushed {va' : Nat} {new : List (Frame × Nat × Pte)} (h0 : len ≠ 0)
    (hsteps : op.steps s pgtbl va len cpuid =
      new.map storeStep ++ flushTlbLocalAndRemote cpuid va' len)
    (hhere : TLB_SHOOTDOWN_THRESHOLD < flushPages len ∨ historyCpus cpuid = false)
    (hthere : TLB_SHOOTDOWN_THRESHOLD < roundUpPage len ∨ ∀ c, c = cpuid) :
    ShootdownSafe op s pgtbl pcid va len cpuid historyCpus running := by
  intro tlb _ hmarked events m hexec hend
  have hstart : Flushed pgtbl pcid cpuid va' (flushPages len) (roundUpPage len)
      (callStart op s pgtbl va len cpuid historyCpus running tlb) := by
    refine ⟨hmarked, hhere, hthere, .inl ⟨new.map storeStep, ?_, fun k hk => ?_⟩⟩
    · show op.steps s pgtbl va len cpuid = _
      rw [hsteps, flushTlbLocalAndRemote, if_neg h0]
    · obtain ⟨x, -, rfl⟩ := mem_map.mp hk
      rfl
  have hflushed := exec_inv (fun _ _ _ h hs => Flushed.step h hs) events _ m hstart hexec
  exact fun c e he hp _ => hflushed.fresh hend c e he hp

/-- No store changes a translation. -/
theorem safe_of_neutral {va' : Nat} {new : List (Frame × Nat × Pte)} {P : Nat → Prop}
    (hsteps : op.steps s pgtbl va len cpuid =
      new.map storeStep ++ flushTlbLocalAndRemote cpuid va' len)
    (hstores : Stores x8664 pgtbl op.edit P s new s') (hneutral : Neutral pgtbl op.edit P s) :
    ShootdownSafe op s pgtbl pcid va len cpuid historyCpus running := by
  intro tlb hcoh _ events m hexec _
  have hstart : Unmoved pgtbl pcid va len op.edit P s
      (callStart op s pgtbl va len cpuid historyCpus running tlb) := by
    refine ⟨⟨s, new, s', _, rfl, hstores, hsteps, fun k hk => ?_⟩, fun _ => rfl, hcoh⟩
    unfold flushTlbLocalAndRemote at hk
    split at hk
    · cases hk
    rcases mem_cons.mp hk with rfl | hk
    · rfl
    · obtain ⟨i, -, rfl⟩ := mem_map.mp hk
      rfl
  exact (exec_inv (fun _ _ _ h hs => Unmoved.step hneutral op.editOk h hs) events _ m hstart
    hexec).coherent

/-- A CPU that is marked, or that begins to run the address space, fills its TLB before the first
    store. -/
theorem exists_fill (op : PtOp) (pcid va len : Nat) (running : Fin N → Bool) {w : Nat}
    (ht : translation x8664 s.mem pgtbl w = some (0, e))
    (hc : historyCpus c = true ∨ c ≠ cpuid) :
    ∃ events m, exec (machineStep pgtbl pcid cpuid)
      (callStart op s pgtbl va len cpuid historyCpus running fun _ => []) events = some m ∧
      m.mem = s.mem ∧ m.todo = op.steps s pgtbl va len cpuid ∧ ⟨pcid, w, e⟩ ∈ m.tlb c := by
  have hfill : ∀ m : Machine N, m.historyCpus c = true → m.mem = s.mem →
      machineStep pgtbl pcid cpuid m (.fill c w) =
        some { m with tlb := update m.tlb c (⟨pcid, w, e⟩ :: m.tlb c) } := by
    intro m hmark hmem
    simp only [machineStep, hmark, if_true, hmem, ht, map_some]
  have hmem : ∀ tlb : Fin N → List TlbEntry,
      (⟨pcid, w, e⟩ : TlbEntry) ∈ update tlb c (⟨pcid, w, e⟩ :: tlb c) c := by
    intro tlb
    rw [update_self]
    exact mem_cons_self
  rcases hc with hc | hc
  · exact ⟨[.fill c w], _, by rw [exec, hfill _ hc rfl]; rfl, rfl, rfl, hmem _⟩
  have hrun : machineStep pgtbl pcid cpuid
      (callStart op s pgtbl va len cpuid historyCpus running fun _ => []) (.run c) =
      some { callStart op s pgtbl va len cpuid historyCpus running fun _ => [] with
        historyCpus := update historyCpus c true
        running := update running c true } := if_neg hc
  refine ⟨[.run c, .fill c w],
    { callStart op s pgtbl va len cpuid historyCpus running fun _ => [] with
      historyCpus := update historyCpus c true
      running := update running c true
      tlb := update (fun _ => []) c [⟨pcid, w, e⟩] }, ?_, rfl, rfl, hmem fun _ => []⟩
  rw [exec, hrun, bind_some, exec, hfill _ (update_self _ _ _) rfl]
  rfl

/-- **An entry that stays**: a CPU fills its TLB before the first store and no flush of the call
    concerns the entry. -/
theorem not_safe_of_spared {w : Nat} (ht : translation x8664 s.mem pgtbl w = some (0, e))
    (hin : ¬ OffPages (va / PT_PAGE_SIZE) (pageCount len) w)
    (hmoved : ∀ n, translation x8664
      ((op.steps s pgtbl va len cpuid).foldl (fun mem k => k.memory mem) s.mem) pgtbl w ≠
        some (n, e)) (hc : historyCpus c = true ∨ c ≠ cpuid)
    (hspared : ∀ k ∈ op.steps s pgtbl va len cpuid, k.Spares pcid cpuid c ⟨pcid, w, e⟩) :
    ¬ ShootdownSafe op s pgtbl pcid va len cpuid historyCpus running := by
  intro hsafe
  obtain ⟨events, m1, hexec, hmem, htodo, he⟩ := exists_fill op pcid va len running ht hc
  obtain ⟨m', hexec', hend, hmem', htlb⟩ := run_kernel pgtbl pcid cpuid _ m1 htodo
  have hcoh := hsafe (fun _ => []) nofun
    nofun _ m' ((exec_append _ hexec).trans hexec') hend
  obtain ⟨n, hn⟩ := hcoh c _ (htlb c _ he hspared) rfl hin
  rw [hmem', hmem] at hn
  exact hmoved n hn

/-- The steps of any call: stores, then the flush. -/
theorem PtOp.steps_form (op : PtOp) (s : PtState) (pgtbl : Frame) (len : Nat) (cpuid : Fin N)
    (hva : va % PT_PAGE_SIZE = 0) :
    ∃ va' new, op.steps s pgtbl va len cpuid =
      map storeStep new ++ flushTlbLocalAndRemote cpuid va' len := by
  refine ⟨(editLoop x8664 op.edit pgtbl (pageCount len) s va (pageCount len)).2,
    Mm.newStores s (editLoop x8664 op.edit pgtbl (pageCount len) s va (pageCount len)).1, ?_⟩
  unfold PtOp.steps
  rw [op.call_eq, editRange, if_neg fun hc => hc.2 hva]
  rfl

/-- **The calls after which the TLBs are coherent.** By the time of the flush the loop has moved the
    address, so that a flush page by page concerns pages behind the range. The TLBs are coherent
    where the whole context is flushed, and where this CPU has never run the address space (and the
    number of pages has not overflown to 0, with which no CPU is flushed at all). On a range without
    huge pages the only other calls are those that change no entry the loop comes to. -/
theorem shootdown_coherent_iff (op : PtOp) (t : Pgtbl x8664) (pcid va len : Nat)
    (cpuid : Fin N) (historyCpus running : Fin N → Bool)
    (hva : va % PT_PAGE_SIZE = 0) (hpos : 0 < len) (hlen : len < 2 ^ 64) :
    (TLB_SHOOTDOWN_THRESHOLD < flushPages len ∨
        (historyCpus cpuid = false ∧ (flushPages len = 0 → ∀ c, c = cpuid)) →
      ShootdownSafe op t.state t.root pcid va len cpuid historyCpus running) ∧
    ((∀ w, InPages (va / PT_PAGE_SIZE) (pageCount len) w → PlainWay x8664 t.state t.root w) →
      (ShootdownSafe op t.state t.root pcid va len cpuid historyCpus running ↔
        TLB_SHOOTDOWN_THRESHOLD < flushPages len ∨
        (historyCpus cpuid = false ∧ (flushPages len = 0 → ∀ c, c = cpuid)) ∨
        Neutral t.root op.edit
          (Reached x8664 t.state t.root (va / PT_PAGE_SIZE) (pageCount len)) t.state)) := by
  have hcases := flushPages_cases hpos hlen
  have hflush : TLB_SHOOTDOWN_THRESHOLD < flushPages len ∨
      (historyCpus cpuid = false ∧ (flushPages len = 0 → ∀ c, c = cpuid)) →
      ShootdownSafe op t.state t.root pcid va len cpuid historyCpus running := by
    obtain ⟨va', new, hsteps⟩ := op.steps_form t.state t.root len cpuid hva
    rintro (hbig | ⟨hmark, hzero⟩)
    · exact safe_of_flushed (by omega) hsteps (.inl hbig)
        (.inl (by unfold TLB_SHOOTDOWN_THRESHOLD at *; omega))
    refine safe_of_flushed (by omega) hsteps (.inr hmark) ?_
    rcases hcases with ⟨hz, -⟩ | ⟨-, -, hbytes⟩
    · exact .inr (hzero hz)
    · exact .inl hbytes
  refine ⟨hflush, fun hway => ⟨fun hsafe => ?_, ?_⟩⟩
  · obtain ⟨s', va', new, hsteps, hed, hstores, hge, hle⟩ := op.steps_spec cpuid t.inv hva hway
    by_contra hnot
    simp only [not_or, Neutral, not_forall] at hnot
    obtain ⟨hsmall, hlocal, w, e, hreach, ht, hchange⟩ := hnot
    -- which CPU keeps the entry
    obtain ⟨c, hc, hall⟩ : ∃ c, (historyCpus c = true ∨ c ≠ cpuid) ∧
        (flushPages len = 0 ∨ c = cpuid) := by
      by_cases hmark : historyCpus cpuid = true
      · exact ⟨cpuid, .inl hmark, .inr rfl⟩
      have hmark' : historyCpus cpuid = false := by simpa using hmark
      simp only [hmark', true_and, Classical.not_imp, not_forall] at hlocal
      obtain ⟨hzero, c, hc⟩ := hlocal
      exact ⟨c, .inr hc, .inl hzero⟩
    refine not_safe_of_spared ht hreach.not_off (fun n => ?_) hc (fun k hk => ?_) hsafe
    · rw [hsteps, foldl_append, ← hstores.mem, foldl_flush, hed.hit w hreach, ht]
      simp only [editTranslation]
      split
      · simp only [ne_eq, some.injEq, Prod.mk.injEq, not_and]
        exact fun _ => hchange
      · simp
    · rw [hsteps] at hk
      rcases mem_append.mp hk with hk | hk
      · obtain ⟨x, -, rfl⟩ := mem_map.mp hk
        trivial
      · exact spares_flush hsmall hcases hall hreach.not_off hge hle hk
  · rintro (hbig | hmark | hneutral)
    · exact hflush (.inl hbig)
    · exact hflush (.inr hmark)
    · obtain ⟨s', va', new, hsteps, -, hstores, -⟩ := op.steps_spec cpuid t.inv hva hway
      exact safe_of_neutral hsteps hstores hneutral

end Call

/-- Three pages are mapped, and unmapped again. -/
theorem shootdown_coherent_mapped :
    ∃ t, (smallTable x8664).map 0x400000 0x80000 0x3000 VMR_WRITE = some t ∧
      ShootdownSafe .unmap t.state t.root 7 0x400000 0x3000 (0 : Fin 2) (fun _ => true)
        (fun _ => true) := by
  obtain ⟨t, ht⟩ := isSome_iff_exists.mp (by decide +kernel :
    ((smallTable x8664).map 0x400000 0x80000 0x3000 VMR_WRITE).isSome = true)
  obtain ⟨hroot, hmap⟩ := Pgtbl.map_spec ht
  have hplain : ∀ w, PlainWay x8664 t.state t.root w := fun w =>
    hroot ▸ hmap.tables.plainWay (smallTable_plain x8664 w)
  exact ⟨t, ht, ((shootdown_coherent_iff .unmap t 7 0x400000 0x3000 (0 : Fin 2) (fun _ => true)
    (fun _ => true) (by decide) (by decide) (by decide)).2 fun w _ => hplain w).mpr (.inl (by decide))⟩

/-- The tables after one page has been mapped at `0x400000`. -/
def onePage : Option PtState :=
  mapRangeInPgtbl x8664 (smallTable x8664).state 1 0x400000 0x80000 0x1000 VMR_WRITE

/-- The machine after that page has been filled into the TLB of the only CPU and then been
    unmapped. -/
def afterUnmap (s : PtState) : Option (Machine 1) :=
  exec (machineStep 1 7 0) (callStart .unmap s 1 0x400000 0x1000 0 (fun _ => true) (fun _ => true)
    fun _ => []) [.fill 0 0x400, .kernel, .kernel]

/-- The call has returned, the TLB holds the page and the page table does not. -/
def isStale (m : Machine 1) : Bool :=
  m.todo.isEmpty && (m.tlb 0).any fun e =>
    e.pcid == 7 && e.page == 0x400 && (translation x8664 m.mem 1 e.page).isNone

/-- **A stale entry**: the flush concerns the page behind the one that is unmapped. -/
theorem unmap_leaves_stale_entry :
    ∃ s, onePage = some s ∧ ¬ ShootdownSafe .unmap s 1 7 0x400000 0x1000 (0 : Fin 1)
      (fun _ => true) (fun _ => true) := by
  have hrun : (onePage.bind afterUnmap).any isStale = true := by decide +kernel
  obtain ⟨m, hm, hstale⟩ := (any_eq_true _ _).mp hrun
  obtain ⟨s, hs, hm⟩ := bind_eq_some_iff.mp hm
  refine ⟨s, hs, fun hsafe => ?_⟩
  simp only [isStale, Bool.and_eq_true, List.isEmpty_iff, List.any_eq_true, beq_iff_eq,
    isNone_iff_eq_none] at hstale
  obtain ⟨hend, e, he, ⟨hpcid, hpage⟩, hnone⟩ := hstale
  have hcoh := hsafe (fun _ => []) nofun
    nofun _ m hm hend
  have hin : ¬ OffPages (0x400000 / PT_PAGE_SIZE) (pageCount 0x1000) e.page := by
    rw [hpage]
    exact fun hoff => hoff 0 (by decide) (by decide)
  obtain ⟨n, hn⟩ := hcoh 0 e he hpcid hin
  exact absurd (hnone.symm.trans hn) (by simp)

end ChCore.Mm
