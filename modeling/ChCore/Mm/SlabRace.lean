/-
  File: ChCore/Mm/SlabRace.lean
  Subject: `alloc_in_slab` and `kfree` on many CPUs (`kernel/mm/slab.c`).

  `alloc_in_slab` reads `slabs[order]` before `_alloc_in_slab` takes the lock of the order, so that
  the header may have become the second slab when the search starts from it.

  * **`slabs_kept_iff`** -- over a run the slabs are in order exactly when each search starts from
    the first slab or finds a slot.
-/
import ChCore.Mm.Kmalloc

namespace ChCore.Mm

open Lib Function Option List

/-! ## 1. The steps -/

abbrev Cpu := Nat

/-- The allocators under many CPUs: the size and the header of each call of `alloc_in_slab` that has
    read `slabs[order]`, and the slabs that have ever been created for an order, the last one first. -/
structure SlabSys where
  mm : MmState
  reading : Cpu → Option (Nat × Nat)
  created : Nat → List Nat

inductive SlabAct where
  | read (cpu : Cpu) (size : Nat)
  | alloc (cpu : Cpu)
  | other (act : MmAct)
  deriving DecidableEq, Repr

/-- The call is one of `alloc_in_slab`. -/
def MmAct.slabSized : MmAct → Bool
  | .kmalloc size => decide (size ≤ KMALLOC_SLAB_SIZE)
  | _ => false

variable (s : SlabSys)

/-- `slabs[order]` is written when a slab is created, and only then. -/
def SlabSys.noted (order : Nat) (h : Heap) : Nat → List Nat :=
  if h.slabs order = s.mm.heap.slabs order then s.created
  else update s.created order (h.slabs order :: s.created order)

/-- **One step of one CPU.** -/
def SlabSys.step : SlabAct → Option SlabSys
  | .read cpu size =>
    if size ≤ KMALLOC_SLAB_SIZE ∧ s.reading cpu = none then
      some { s with
        reading := update s.reading cpu (some (size, s.mm.heap.slabs (slabOrder size))) }
    else none
  | .alloc cpu =>
    match s.reading cpu with
    | none => none
    | some (size, slabHeader) =>
      (allocInSlabNolock 2 s.mm.heap slabHeader (slabOrder size)).map fun (slot, slab, h) =>
        { mm := s.mm.record .kfree size (slot, .slot slab (slabOrder size), h)
          reading := update s.reading cpu none
          created := s.noted (slabOrder size) h }
  | .other act => if act.slabSized then none else (s.mm.step act).map fun mm => { s with mm }

/-- After `mm_init`. -/
def SlabSys.init (h : Heap) : SlabSys where
  mm := ⟨h, []⟩
  reading _ := none
  created order := if SLAB_MIN_ORDER ≤ order ∧ order ≤ SLAB_MAX_ORDER then [h.slabs order] else []

/-! ## 2. What is to hold -/

/-- From `start` the slab is reached through `next_slab`. -/
def Heap.Reaches (h : Heap) (start slab : Nat) : Prop :=
  ∃ l, Chain 0 (fun c => h.mem (c + 8)) start l ∧ slab ∈ l

/-- **No slab is lost, and none is created while a slot is free.** -/
structure SlabsOk (t : Transition SlabSys SlabAct) : Prop where
  reachable : ∀ order, ∀ slab ∈ t.post.created order,
    t.post.mm.heap.Reaches (t.post.mm.heap.slabs order) slab
  needed : ∀ order, t.post.mm.heap.slabs order ≠ t.pre.mm.heap.slabs order →
    ∀ slab ∈ t.pre.created order, t.pre.mm.heap.mem slab = 0

/-- **The header will do**: it is the first slab still, or a slab behind it has a free slot. -/
def HeaderGood : SlabAct → Prop
  | .alloc cpu => ∀ size header, s.reading cpu = some (size, header) →
      header = s.mm.heap.slabs (slabOrder size) ∨
        ∃ slab, s.mm.heap.Reaches header slab ∧ s.mm.heap.mem slab ≠ 0
  | _ => True

/-! ## 3. The invariant -/

/-- The slabs that have been created are those of the lists, and a header that has been read is one
    of them. -/
structure SlabSys.Inv (s : SlabSys) (free : Nat → List Nat) : Prop where
  mm : MmInv s.mm s.created free
  reading : ∀ {cpu size header}, s.reading cpu = some (size, header) →
    size ≤ KMALLOC_SLAB_SIZE ∧ header ∈ s.created (slabOrder size)

section Heap

variable {h : Heap} {P : Set Block} {chain free : Nat → List Nat}

theorem HeapInv.mem_eq_zero_iff (hi : HeapInv h P chain free) {o slab : Nat} (hs : slab ∈ chain o) :
    h.mem slab = 0 ↔ free slab = [] := by
  have hlist := hi.list hs
  constructor
  · exact hlist.eq_nil
  · intro e
    rwa [e] at hlist

variable {o header : Nat}

theorem HeapInv.reaches_iff (hi : HeapInv h P chain free) (hheader : header ∈ chain o) :
    ∃ rest, Chain 0 (fun c => h.mem (c + 8)) header (header :: rest) ∧
      header :: rest <:+ chain o ∧ ∀ slab, h.Reaches header slab ↔ slab ∈ header :: rest := by
  obtain ⟨rest, hchain, hsuf⟩ := (hi.chained o).suffix hheader
  refine ⟨rest, hchain, hsuf, fun slab => ⟨fun hr => ?_, fun hm => ⟨_, hchain, hm⟩⟩⟩
  obtain ⟨l, hl, hm⟩ := hr
  rwa [hl.unique hchain] at hm

theorem HeapInv.first_mem (hi : HeapInv h P chain free) {o slab : Nat} (hs : slab ∈ chain o) :
    ∃ tail, chain o = h.slabs o :: tail := by
  have hchain := hi.chained o
  cases hc : chain o with
  | nil =>
    rw [hc] at hs
    cases hs
  | cons c tail =>
    rw [hc] at hchain
    exact ⟨tail, by rw [hchain.1]⟩

/-- A call returns while there is memory for one more slab. -/
theorem allocInSlabNolock_room (hi : HeapInv h ∅ chain free) {rest slabs : List Nat}
    (ho : HasSlabs o) (hchain : Chain 0 (fun c => h.mem (c + 8)) header (header :: rest))
    (hsub : ∀ c ∈ header :: rest, c ∈ chain o) (hall : ∀ {o slab}, slab ∈ chain o → slab ∈ slabs)
    (hn : (slabs.length + 1) * 2 ^ SLAB_BLOCK_ORDER ≤ h.zone.pageNum) :
    ∃ slot slab h', allocInSlabNolock 2 h header o = some (slot, slab, h') := by
  rcases allocInSlabNolock_succ hi hchain hsub 1 with ⟨_, heq⟩ | ⟨slab, _, slot, _, _, hcall⟩
  · rcases initSlabCache_spec hi ho with ⟨_, hfew⟩ | ⟨slab, h', hcache, hnew⟩
    · obtain ⟨b, hb, hbo⟩ := hi.room hall hn
      exact absurd (hfew b hb) (Nat.not_lt_of_le hbo)
    obtain ⟨slot, l, _, hagain⟩ := hnew.first
    have hbind : allocInSlabNolock 2 h header o =
        allocInSlabNolock 1 (addSlab h' o slab header) slab o := by
      rw [heq, hcache, bind_some]
    exact ⟨_, _, _, hbind.trans (hagain header 0)⟩
  · exact ⟨_, _, _, hcall⟩

/-- **A call with an old header** that finds no slot puts the new slab in front of the header: the
    slab that was the first is no longer reached. -/
theorem stale_lost (hi : HeapInv h P chain free) {rest : List Nat} (ho : HasSlabs o)
    (hchain : Chain 0 (fun c => h.mem (c + 8)) header (header :: rest))
    (hsuf : header :: rest <:+ chain o) (hne : header ≠ h.slabs o)
    (hempty : ∀ c ∈ header :: rest, free c = []) {s slab : Nat} {h' : Heap}
    (hcall : allocInSlabNolock 2 h header o = some (s, slab, h')) :
    h'.slabs o = slab ∧ slab ∉ chain o ∧ ¬ h'.Reaches slab (h.slabs o) := by
  have hsub : ∀ c ∈ header :: rest, c ∈ chain o := fun c hc => hsuf.mem hc
  obtain ⟨tail, hfirst⟩ := hi.first_mem (hsub header mem_cons_self)
  have hmem0 : h.slabs o ∈ chain o := hfirst ▸ mem_cons_self
  rcases allocInSlabNolock_succ hi hchain hsub 1 with ⟨_, heq⟩ | ⟨c, hc, _, _, hfree, _⟩
  · rcases initSlabCache_spec hi ho with ⟨hcache, _⟩ | ⟨slab', h1, hcache, hnew⟩
    · rw [heq, hcache] at hcall
      cases hcall
    obtain ⟨s', l, hinv, hagain⟩ := hnew.first
    have hnewmem : slab' ∈ update chain o (slab' :: chain o) o :=
      mem_addSlab.mpr (.inl ⟨rfl, rfl⟩)
    rw [heq, hcache, bind_some, hagain header 0] at hcall
    cases hcall
    refine ⟨update_self .., hnew.fresh o, fun hr => ?_⟩
    set g := addSlab h1 o slab header
    set h2 := g.store slab (g.mem s)
    -- the links behind the header are the old ones
    have hlink : ∀ c ∈ chain o, g.mem (c + 8) = h.mem (c + 8) := by
      intro c hc
      have hcs : c + 8 ≠ slab + 8 := fun e => hnew.fresh o (Nat.add_right_cancel e ▸ hc)
      have hold := hinv.chained o
      rw [update_self] at hold
      have hsame := hold.2.2.next_eq (hi.chained o) c hc
      exact (update_of_ne hcs ..).trans ((update_of_ne hcs ..).symm.trans hsame)
    have hword : ∀ c ∈ chain o, h2.mem (c + 8) = h.mem (c + 8) := fun c hc =>
      (update_of_ne (hinv.head_ne hnewmem (mem_addSlab.mpr (.inr hc)) (by decide)
        (by decide)) ..).trans (hlink c hc)
    have hnext : h2.mem (slab + 8) = header :=
      (update_of_ne (by omega) ..).trans (update_self ..)
    have hnull : slab ≠ 0 := (hinv.chained o).ne_null hnewmem
    obtain ⟨l', hl', hm⟩ := hr
    have hnow : Chain 0 (fun c => h2.mem (c + 8)) slab (slab :: header :: rest) := by
      refine ⟨rfl, hnull, ?_⟩
      simp only [hnext]
      exact hchain.congr fun c hc => hword c (hsub c hc)
    rw [hl'.unique hnow] at hm
    rcases mem_cons.mp hm with e | hm
    · exact hnew.fresh o (e ▸ hmem0)
    rw [hfirst] at hsuf
    rcases suffix_cons_iff.mp hsuf with e | hsuf
    · exact hne (List.cons.inj e).1
    · have hnodup := (hi.chained o).nodup
      rw [hfirst] at hnodup
      exact (nodup_cons.mp hnodup).1 (hsuf.mem hm)
  · rw [hempty c hc] at hfree
    cases hfree

end Heap

/-! ## 4. Every step -/

section Steps

variable {s s' : SlabSys} {free : Nat → List Nat} {cpu size header : Nat}

theorem slabsOk_of_same {free' : Nat → List Nat} (hi : s.Inv free) (hi' : s'.Inv free')
    (hsame : s'.created = s.created) (a : SlabAct) : SlabsOk ⟨s, a, s'⟩ where
  reachable o slab hs := ⟨s'.created o, hi'.mm.heap.chained o, hs⟩
  needed o hne := by
    have hchain := hi'.mm.heap.chained o
    rw [hsame] at hchain
    exact absurd (hchain.start_eq (hi.mm.heap.chained o)) hne

/-- The CPU has got the slot of the slab. -/
def SlabSys.served (s : SlabSys) (cpu : Cpu) (size slot slab : Nat) (h : Heap) : SlabSys where
  mm := s.mm.record .kfree size (slot, .slot slab (slabOrder size), h)
  reading := update s.reading cpu none
  created := s.noted (slabOrder size) h

theorem SlabSys.served_self (s : SlabSys) (cpu : Cpu) (size slot slab : Nat) (h : Heap) :
    (s.served cpu size slot slab h).reading cpu = none := by
  simp only [SlabSys.served, update_self]

variable {h : Heap}

theorem SlabSys.served_of_ne {cpu' slot slab : Nat} (hne : cpu' ≠ cpu) :
    (s.served cpu size slot slab h).reading cpu' = s.reading cpu' := by
  simp only [SlabSys.served, update_of_ne hne]

theorem SlabSys.step_alloc (hr : s.reading cpu = some (size, header))
    (hs : s.step (.alloc cpu) = some s') : ∃ slot slab h,
      allocInSlabNolock 2 s.mm.heap header (slabOrder size) = some (slot, slab, h) ∧
      s' = s.served cpu size slot slab h := by
  simp only [SlabSys.step, hr] at hs
  obtain ⟨⟨slot, slab, h⟩, hcall, rfl⟩ := map_eq_some_iff.mp hs
  exact ⟨slot, slab, h, hcall, rfl⟩

theorem SlabSys.step_of_call (hr : s.reading cpu = some (size, header)) {slot slab : Nat} (hcall : allocInSlabNolock 2 s.mm.heap header (slabOrder size) = some (slot, slab, h)) :
    s.step (.alloc cpu) = some (s.served cpu size slot slab h) := by
  simp only [SlabSys.step, hr, hcall, map_some]
  rfl

theorem SlabSys.Inv.noted_eq (hi : s.Inv free) {chain : Nat → List Nat} {o slab : Nat}
    (hheader : header ∈ s.created o)
    (hgrow : SlabsGrow s.mm.heap s.created free o slab h chain) : s.noted o h = chain := by
  rcases hgrow with ⟨rfl, hslabs⟩ | ⟨rfl, hslabs, hfresh, _⟩
  · exact if_pos (congrFun hslabs o)
  have hslab : h.slabs o = slab := by
    rw [hslabs]
    exact update_self ..
  obtain ⟨tail, hfirst⟩ := hi.mm.heap.first_mem hheader
  have hne : slab ≠ s.mm.heap.slabs o := fun e => hfresh (by
    rw [e, hfirst]
    exact mem_cons_self)
  unfold SlabSys.noted
  rw [hslab, if_neg hne]

section

variable (hi : s.Inv free) (hr : s.reading cpu = some (size, header))

include hi hr

/-- A slot has been taken: the invariant afterwards. -/
theorem SlabSys.Inv.alloc_took {slot slab : Nat} {h : Heap} {chain free' : Nat → List Nat}
    (hinv : HeapInv h (pageBlocks s.mm.heap.zone s.mm.live) chain free')
    (htook : Took s.mm.heap s.created free (slabOrder size) slot slab h chain free')
    (hgrow : SlabsGrow s.mm.heap s.created free (slabOrder size) slab h chain) :
    (s.served cpu size slot slab h).Inv free' := by
  obtain ⟨hsize, hheader⟩ := hi.reading hr
  obtain ⟨hroom, _⟩ := slabOrder_spec size hsize
  have hcreated : (s.served cpu size slot slab h).created = chain := hi.noted_eq hheader hgrow
  refine ⟨?_, fun {cpu' size' header'} hr' => ?_⟩
  · rw [hcreated]
    exact (hi.mm.recordSlot hinv htook hroom).2.2
  by_cases hcpu : cpu' = cpu
  · subst hcpu
    rw [SlabSys.served_self] at hr'
    cases hr'
  · rw [SlabSys.served_of_ne hcpu] at hr'
    obtain ⟨hsize', hheader'⟩ := hi.reading hr'
    exact ⟨hsize', hcreated ▸ htook.slabs hheader'⟩

omit hi in
theorem headerGood_alloc : HeaderGood s (.alloc cpu) ↔
    (header = s.mm.heap.slabs (slabOrder size) ∨
      ∃ slab, s.mm.heap.Reaches header slab ∧ s.mm.heap.mem slab ≠ 0) := by
  constructor
  · exact fun h => h size header hr
  intro h size' header' hr'
  rw [hr] at hr'
  cases hr'
  exact h

/-- **With a good header** the critical section keeps the slabs in order. -/
theorem SlabSys.Inv.alloc_good (hgood : HeaderGood s (.alloc cpu))
    (hs : s.step (.alloc cpu) = some s') :
    (∃ free', s'.Inv free') ∧ SlabsOk ⟨s, .alloc cpu, s'⟩ := by
  obtain ⟨hsize, hheader⟩ := hi.reading hr
  obtain ⟨_, ho⟩ := slabOrder_spec size hsize
  obtain ⟨rest, hchain, hsuf, hreach⟩ := hi.mm.heap.reaches_iff hheader
  have hsub : ∀ c ∈ header :: rest, c ∈ s.created (slabOrder size) := fun c hc => hsuf.mem hc
  have hfound : header = s.mm.heap.slabs (slabOrder size) ∨ ∃ c ∈ header :: rest, free c ≠ [] := by
    refine ((headerGood_alloc hr).mp hgood).imp_right fun hslab => ?_
    obtain ⟨slab, hrs, hne⟩ := hslab
    have hm := (hreach slab).mp hrs
    exact ⟨slab, hm, mt (hi.mm.heap.mem_eq_zero_iff (hsub slab hm)).mpr hne⟩
  obtain ⟨slot, slab, h, hcall, rfl⟩ := SlabSys.step_alloc hr hs
  rcases allocInSlabNolock_spec hi.mm.heap ho hchain hsub hfound with
    ⟨hnone, _⟩ | ⟨slot', slab', h', chain', free', hsome, hinv, htook, hgrow⟩
  · rw [hnone] at hcall
    cases hcall
  rw [hsome] at hcall
  cases hcall
  have hinv' := hi.alloc_took hr hinv htook hgrow
  refine ⟨⟨free', hinv'⟩, fun o c hc => ⟨_, hinv'.mm.heap.chained o, hc⟩, fun o hne c hc => ?_⟩
  rcases hgrow with ⟨_, hslabs⟩ | ⟨_, hslabs, _, hfull⟩
  · exact absurd (congrFun hslabs o) hne
  have hoo : o = slabOrder size := by
    by_contra hoo
    exact hne ((congrFun hslabs o).trans (update_of_ne hoo ..))
  subst hoo
  exact (hi.mm.heap.mem_eq_zero_iff hc).mpr (hfull c hc)

/-- **With a bad one** it loses the first slab. -/
theorem SlabSys.Inv.alloc_bad (hbad : ¬ HeaderGood s (.alloc cpu))
    (hs : s.step (.alloc cpu) = some s') : ¬ SlabsOk ⟨s, .alloc cpu, s'⟩ := by
  obtain ⟨hsize, hheader⟩ := hi.reading hr
  obtain ⟨_, ho⟩ := slabOrder_spec size hsize
  obtain ⟨rest, hchain, hsuf, hreach⟩ := hi.mm.heap.reaches_iff hheader
  obtain ⟨tail, hfirst⟩ := hi.mm.heap.first_mem hheader
  have hmem0 : s.mm.heap.slabs (slabOrder size) ∈ s.created (slabOrder size) :=
    hfirst ▸ mem_cons_self
  obtain ⟨hne, hnone⟩ := not_or.mp (mt (headerGood_alloc hr).mpr hbad)
  have hempty : ∀ c ∈ header :: rest, free c = [] := by
    intro c hc
    by_contra hfree
    refine hnone ⟨c, (hreach c).mpr hc, mt (hi.mm.heap.mem_eq_zero_iff (hsuf.mem hc)).mp hfree⟩
  obtain ⟨slot, slab, h, hcall, rfl⟩ := SlabSys.step_alloc hr hs
  obtain ⟨hslab, hfresh, hlost⟩ := stale_lost hi.mm.heap ho hchain hsuf hne hempty hcall
  intro hok
  have hnew : h.slabs (slabOrder size) ≠ s.mm.heap.slabs (slabOrder size) := fun e =>
    hfresh (hslab ▸ e ▸ hmem0)
  have hin : s.mm.heap.slabs (slabOrder size) ∈ s.noted (slabOrder size) h (slabOrder size) := by
    unfold SlabSys.noted
    rw [if_neg hnew, update_self]
    exact mem_cons_of_mem _ hmem0
  exact hlost (hslab ▸ hok.reachable (slabOrder size) _ hin)

end

/-- The CPU has read the header. -/
def SlabSys.sees (s : SlabSys) (cpu : Cpu) (size : Nat) : SlabSys where
  mm := s.mm
  reading := update s.reading cpu (some (size, s.mm.heap.slabs (slabOrder size)))
  created := s.created

theorem SlabSys.sees_self (s : SlabSys) (cpu : Cpu) (size : Nat) :
    (s.sees cpu size).reading cpu = some (size, s.mm.heap.slabs (slabOrder size)) := by
  simp only [SlabSys.sees, update_self]

theorem SlabSys.sees_of_ne {cpu cpu' : Cpu} (hne : cpu' ≠ cpu) :
    (s.sees cpu size).reading cpu' = s.reading cpu' := by
  simp only [SlabSys.sees, update_of_ne hne]

theorem SlabSys.Inv.first (hi : s.Inv free) (hsize : size ≤ KMALLOC_SLAB_SIZE) :
    s.mm.heap.slabs (slabOrder size) ∈ s.created (slabOrder size) := by
  obtain ⟨_, ho⟩ := slabOrder_spec size hsize
  obtain ⟨c, l, hcons⟩ := exists_cons_of_ne_nil (hi.mm.filled ho.1 ho.2)
  have hc : c ∈ s.created (slabOrder size) := hcons ▸ mem_cons_self
  obtain ⟨tail, hfirst⟩ := hi.mm.heap.first_mem hc
  exact hfirst ▸ mem_cons_self

theorem SlabSys.Inv.sees (hi : s.Inv free) (cpu : Cpu) (hsize : size ≤ KMALLOC_SLAB_SIZE) :
    (s.sees cpu size).Inv free := by
  refine ⟨hi.mm, fun {cpu' size' header'} hr' => ?_⟩
  by_cases hcpu : cpu' = cpu
  · subst hcpu
    rw [SlabSys.sees_self] at hr'
    cases hr'
    exact ⟨hsize, hi.first hsize⟩
  · rw [SlabSys.sees_of_ne hcpu] at hr'
    exact hi.reading hr'

/-- **One step** keeps the slabs in order exactly when its header will do. -/
theorem SlabSys.step_iff {a : SlabAct} (hi : ∃ free, s.Inv free) (hs : s.step a = some s') :
    (SlabsOk ⟨s, a, s'⟩ ↔ HeaderGood s a) ∧ (HeaderGood s a → ∃ free, s'.Inv free) := by
  obtain ⟨free, hi⟩ := hi
  cases a with
  | read cpu size =>
    obtain ⟨⟨hsize, _⟩, hs⟩ := ite_none_right_eq_some.mp hs
    cases hs
    have hinv := hi.sees cpu hsize
    exact ⟨iff_of_true (slabsOk_of_same hi hinv rfl _) trivial, fun _ => ⟨free, hinv⟩⟩
  | alloc cpu =>
    cases hr : s.reading cpu with
    | none =>
      simp only [SlabSys.step, hr] at hs
      cases hs
    | some r =>
    obtain ⟨size, header⟩ := r
    refine ⟨⟨fun hok => ?_, fun hgood => (hi.alloc_good hr hgood hs).2⟩, fun hgood =>
      (hi.alloc_good hr hgood hs).1⟩
    by_contra hbad
    exact hi.alloc_bad hr hbad hs hok
  | other act =>
  simp only [SlabSys.step] at hs
  split at hs
  · cases hs
  rename_i hsized
  obtain ⟨mm, hmm, rfl⟩ := map_eq_some_iff.mp hs
  have hact : ∀ size, act = .kmalloc size → KMALLOC_SLAB_SIZE < size := by
    intro size e
    subst e
    exact not_le.mp fun hle => hsized (decide_eq_true hle)
  obtain ⟨free', hinv⟩ := MmState.step_chain hi.mm hact hmm
  have hinv' : SlabSys.Inv { s with mm } free' := ⟨hinv, hi.reading⟩
  exact ⟨iff_of_true (slabsOk_of_same hi hinv' rfl _) trivial, fun _ => ⟨free', hinv'⟩⟩

end Steps

/-! ## 5. Over a run -/

theorem FirstSlabs.created {z : Zone} {h : Heap} {chain free : Nat → List Nat}
    (hf : FirstSlabs z 7 h chain free) : (SlabSys.init h).created = chain := by
  funext o
  show (if SLAB_MIN_ORDER ≤ o ∧ o ≤ SLAB_MAX_ORDER then [h.slabs o] else []) = chain o
  split
  · rename_i ho
    obtain ⟨slab, hone⟩ := hf.one ho.1 (Nat.lt_succ_of_le ho.2)
    have hchain := hf.inv.chained o
    rw [hone] at hchain
    rw [hone, hchain.1]
  · rename_i ho
    exact (eq_nil_iff_forall_not_mem.mpr fun c hc => ho (hf.inv.range hc)).symm

theorem FirstSlabs.slabsInv {z : Zone} {h : Heap} {chain free : Nat → List Nat}
    (hf : FirstSlabs z 7 h chain free) : (SlabSys.init h).Inv free := by
  refine ⟨?_, fun hr => ?_⟩
  · rw [hf.created]
    exact hf.mmInv
  · cases hr

/-- **The slabs over a run**: for every interleaving on any number of CPUs, every slab ever created
    stays reachable and none is created while a slot is free exactly when each critical section has
    a header that is still the first slab of its order or finds a free slot behind it. -/
theorem slabs_kept_iff (m : Memory) (mem : Nat → Nat) (as : List SlabAct) :
    match mmInit m mem with
    | none => m.pageNum < 7 * 2 ^ SLAB_BLOCK_ORDER
    | some h =>
      (∀ t ∈ trace SlabSys.step (.init h) as, SlabsOk t) ↔
        ∀ t ∈ trace SlabSys.step (.init h) as, HeaderGood t.pre t.act := by
  rcases mmInit_firstSlabs m mem with ⟨hnone, hfew⟩ | ⟨z, h, chain, free, hsome, _, hf⟩
  · rw [hnone]
    exact hfew
  rw [hsome]
  exact trace_all_iff (I := fun s => ∃ free, SlabSys.Inv s free) (C := HeaderGood)
    (fun _ _ _ hI hs => (SlabSys.step_iff hI hs).1)
    (fun _ _ _ hI hC hs => (SlabSys.step_iff hI hs).2 hC) as _ ⟨free, hf.slabsInv⟩

/-! ## 6. Two CPUs with the same header -/

/-- Nobody is in `alloc_in_slab`, only slots are live, `c` is the one slab for the size, and there is
    memory for two slabs besides `slabs`. -/
structure Idle (s : SlabSys) (free : Nat → List Nat) (size c : Nat) (slabs : List Nat) : Prop where
  inv : s.Inv free
  idle : ∀ cpu, s.reading cpu = none
  pages : pageBlocks s.mm.heap.zone s.mm.live = ∅
  sized : size ≤ KMALLOC_SLAB_SIZE
  one : s.created (slabOrder size) = [c]
  all : ∀ {o slab}, slab ∈ s.created o → slab ∈ slabs
  room : (slabs.length + 2) * 2 ^ SLAB_BLOCK_ORDER ≤ s.mm.heap.zone.pageNum

section Race

variable {s : SlabSys} {free : Nat → List Nat} {size c : Nat} {slabs : List Nat}

section

variable (hi : Idle s free size c slabs)

include hi

theorem Idle.chain : s.mm.heap.slabs (slabOrder size) = c ∧
    Chain 0 (fun slab => s.mm.heap.mem (slab + 8)) c [c] := by
  have hchain := hi.inv.mm.heap.chained (slabOrder size)
  rw [hi.one] at hchain
  exact ⟨hchain.1, rfl, hchain.2⟩

theorem Idle.step_read (cpu : Cpu) : s.step (.read cpu size) = some (s.sees cpu size) :=
  if_pos ⟨hi.sized, hi.idle cpu⟩

/-- One slot is taken from the slab. -/
theorem Idle.take {x : Nat} {l : List Nat} (hfree : free c = x :: l) :
    ∃ s', exec SlabSys.step s [.read 0 size, .alloc 0] = some s' ∧
      Idle s' (update free c l) size c slabs := by
  obtain ⟨hfirst, hchain⟩ := hi.chain
  have hc : c ∈ s.created (slabOrder size) := hi.one ▸ mem_cons_self
  have hr : (s.sees 0 size).reading 0 = some (size, c) := hfirst ▸ s.sees_self 0 size
  have hcall : allocInSlabNolock 2 s.mm.heap c (slabOrder size) =
      some (x, c, s.mm.heap.store c (s.mm.heap.mem x)) := by
    rcases allocInSlabNolock_succ hi.inv.mm.heap hchain (fun d hd => hi.one ▸ hd) 1 with
      ⟨hempty, _⟩ | ⟨slab, hs, s', l', hfree', hcall⟩
    · rw [hempty c mem_cons_self] at hfree
      cases hfree
    obtain rfl := mem_singleton.mp hs
    rw [hfree] at hfree'
    cases hfree'
    exact hcall
  have hinv := inv_take hi.inv.mm.heap hc hfree
  have htook := took_take hi.inv.mm.heap hc hfree
  obtain ⟨_, hrec, _⟩ := hi.inv.mm.recordSlot hinv htook (slabOrder_spec size hi.sized).1
  have hpost := (hi.inv.sees 0 hi.sized).alloc_took hr hinv htook (.inl ⟨rfl, rfl⟩)
  have hnoted : ((s.sees 0 size).served 0 size x c
      (s.mm.heap.store c (s.mm.heap.mem x))).created = s.created := if_pos rfl
  refine ⟨_, ?_, hpost, fun cpu => ?_, ?_, hi.sized, ?_, fun hs => hi.all (hnoted ▸ hs), ?_⟩
  · have hstep := SlabSys.step_of_call hr hcall
    simp only [exec, hi.step_read 0, bind_some, hstep]
  · by_cases hcpu : cpu = 0
    · rw [hcpu, SlabSys.served_self]
    · rw [SlabSys.served_of_ne hcpu, SlabSys.sees_of_ne hcpu, hi.idle cpu]
  · show pageBlocks (s.mm.record .kfree size _).heap.zone (s.mm.record .kfree size _).live = ∅
    rw [hrec]
    exact (pageBlocks_slot rfl _ _ _ _ _ _).trans hi.pages
  · exact (congrFun hnoted _).trans hi.one
  · exact hi.room

/-- **The slab is used up.** -/
theorem Idle.drain : ∃ as s' free',
    exec SlabSys.step s as = some s' ∧ Idle s' free' size c slabs ∧ free' c = [] := by
  induction hl : free c generalizing s free with
  | nil => exact ⟨[], s, free, rfl, hi, hl⟩
  | cons x l ih =>
    obtain ⟨s1, hrun, hi1⟩ := hi.take hl
    obtain ⟨as, s', free', hrun', hi', hempty⟩ := ih hi1 (update_self ..)
    exact ⟨_, s', free', (exec_append as hrun).trans hrun', hi', hempty⟩

/-- The first of two CPUs that have read the header of the full slab creates a new one. -/
theorem Idle.grow (hempty : free c = []) :
    ∃ slot slab h free', allocInSlabNolock 2 s.mm.heap c (slabOrder size) = some (slot, slab, h) ∧
      HeapInv h ∅ (update s.created (slabOrder size) [slab, c]) free' ∧
      (((s.sees 0 size).sees 1 size).served 0 size slot slab h).Inv free' ∧
      slab ≠ c ∧ free' c = [] ∧ h.zone.pageNum = s.mm.heap.zone.pageNum := by
  obtain ⟨hfirst, hchain⟩ := hi.chain
  obtain ⟨_, ho⟩ := slabOrder_spec size hi.sized
  have hc : c ∈ s.created (slabOrder size) := hi.one ▸ mem_cons_self
  have hinv0 := (hi.inv.sees 0 hi.sized).sees 1 hi.sized
  have hr0 : ((s.sees 0 size).sees 1 size).reading 0 = some (size, c) := by
    rw [SlabSys.sees_of_ne (by decide), SlabSys.sees_self, hfirst]
  have hheap := hi.inv.mm.heap
  rw [hi.pages] at hheap
  obtain ⟨slot, slab, h, hcall⟩ := allocInSlabNolock_room hheap ho hchain
    (fun d hd => hi.one ▸ hd) hi.all ((Nat.mul_le_mul_right _ (Nat.le_succ _)).trans hi.room)
  rcases allocInSlabNolock_spec hi.inv.mm.heap ho hchain (fun d hd => hi.one ▸ hd)
    (.inl hfirst.symm) with ⟨hnone, _⟩ | ⟨_, _, _, chain', free', hsome, hinv, htook, hgrow⟩
  · rw [hnone] at hcall
    cases hcall
  rw [hcall] at hsome
  cases hsome
  have hinv1 := hinv0.alloc_took hr0 hinv htook hgrow
  rw [hi.pages] at hinv
  rcases hgrow with ⟨rfl, _⟩ | ⟨rfl, _, hfresh, _⟩
  -- the slot would have been a free one of `c`
  · have hslab := htook.held
    rw [hi.one, mem_singleton] at hslab
    have hwas := htook.was htook.held
    rw [hslab, hempty] at hwas
    cases hwas
  rw [hi.one] at hinv
  refine ⟨slot, slab, h, free', hcall, hinv, hinv1, fun e => hfresh (e ▸ hc), ?_, htook.pageNum⟩
  refine eq_nil_iff_forall_not_mem.mpr fun r hr => ?_
  have hold := htook.slots hc r hr
  rw [hempty] at hold
  cases hold

/-- **The second CPU does not see the new slab**, and takes it off the list with one of its own. -/
theorem Idle.race (hempty : free c = []) : ∃ s1 s2,
    exec SlabSys.step s [.read 0 size, .read 1 size, .alloc 0] = some s1 ∧
      s1.step (.alloc 1) = some s2 ∧ ¬ SlabsOk ⟨s1, .alloc 1, s2⟩ := by
  obtain ⟨hfirst, _⟩ := hi.chain
  obtain ⟨_, ho⟩ := slabOrder_spec size hi.sized
  obtain ⟨slot, slab, h, free', hcall, hinv, hinv1, hne, hempty', hnum⟩ := hi.grow hempty
  have hr0 : ((s.sees 0 size).sees 1 size).reading 0 = some (size, c) := by
    rw [SlabSys.sees_of_ne (by decide), SlabSys.sees_self, hfirst]
  have hr1 : (((s.sees 0 size).sees 1 size).served 0 size slot slab h).reading 1 =
      some (size, c) := by
    exact congrArg (fun x => some (size, x)) hfirst
  have hlist := hinv.chained (slabOrder size)
  rw [update_self] at hlist
  have hchain : Chain 0 (fun d => h.mem (d + 8)) c [c] := ⟨rfl, hlist.2.2.2⟩
  have hsub : ∀ d ∈ [c], d ∈ update s.created (slabOrder size) [slab, c]
      (slabOrder size) := by
    intro d hd
    rw [update_self]
    exact mem_cons_of_mem slab hd
  have hall : ∀ {o d}, d ∈ update s.created (slabOrder size) [slab, c] o →
      d ∈ slab :: slabs := by
    intro o d hd
    rw [← hi.one] at hd
    rcases mem_addSlab.mp hd with ⟨_, rfl⟩ | hd
    · exact mem_cons_self
    · exact mem_cons_of_mem _ (hi.all hd)
  obtain ⟨slot2, slab2, h2, hcall2⟩ := allocInSlabNolock_room hinv ho hchain hsub hall
    (hnum ▸ hi.room)
  have hstep1 := SlabSys.step_of_call hr0 hcall
  have hstep2 := SlabSys.step_of_call hr1 hcall2
  refine ⟨_, _, ?_, hstep2, hinv1.alloc_bad hr1 ?_ hstep2⟩
  · have hread : (s.sees 0 size).step (.read 1 size) = some ((s.sees 0 size).sees 1 size) :=
      if_pos ⟨hi.sized, (SlabSys.sees_of_ne (by decide)).trans (hi.idle 1)⟩
    simp only [exec, hi.step_read 0, hread, bind_some, hstep1]
  intro hgood
  rcases (headerGood_alloc hr1).mp hgood with e | ⟨d, hreach, hd⟩
  · exact hne (hlist.1.symm.trans e.symm)
  obtain ⟨l, hl, hm⟩ := hreach
  rw [hl.unique hchain] at hm
  obtain rfl := mem_singleton.mp hm
  exact hd ((hinv.mem_eq_zero_iff (hsub d hm)).mpr hempty')

end

end Race

/-- Memory for nine slabs. -/
def nineSlabs : Memory := ⟨2 ^ 20, 9 * 2 ^ SLAB_BLOCK_ORDER, by decide, by decide⟩

/-- **A slab is lost.** -/
theorem slab_lost : ∃ h as, mmInit nineSlabs (fun _ => 0) = some h ∧
    ∃ t ∈ trace SlabSys.step (.init h) as, ¬ SlabsOk t := by
  rcases mmInit_firstSlabs nineSlabs fun _ => 0 with ⟨_, hfew⟩ | ⟨z, h, chain, free, hsome, hnum, hf⟩
  · exact absurd hfew (by decide)
  obtain ⟨slabs, hlen, hall⟩ := hf.all
  have hinv := hf.slabsInv
  have hcreated : (SlabSys.init h).created = chain := hf.created
  have hidle : Idle (.init h) free 2048 (h.slabs 11) slabs := by
    refine ⟨hinv, fun _ => rfl, ?_, by decide, rfl, fun hs => hall (hcreated ▸ hs), ?_⟩
    · exact Set.eq_empty_of_forall_notMem fun b hb => by
        obtain ⟨a, ha, _⟩ := hb
        cases ha
    · show _ ≤ h.zone.pageNum
      rw [hlen, hf.pageNum, hnum]
      decide
  obtain ⟨as, s, free', hrun, hidle', hempty⟩ := hidle.drain
  obtain ⟨s₁, s₂, hrun', hstep, hbad⟩ := hidle'.race hempty
  refine ⟨h, as ++ ([.read 0 2048, .read 1 2048, .alloc 0] ++ [.alloc 1]), hsome, _,
    trace_append_mem hrun (trace_append_mem hrun' ?_), hbad⟩
  rw [trace_cons_some _ hstep]
  exact mem_cons_self

end ChCore.Mm
