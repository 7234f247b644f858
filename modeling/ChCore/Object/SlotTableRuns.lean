/-
  File: ChCore/Object/SlotTableRuns.lean
  Subject: Runs of `alloc_slot_id` and `free_slot_id` on one slot table.

  The comment at `full_slots_bmp` says that a set bit stands for a full word of `slots_bmp`, and
  `alloc_slot_id` is written to set that bit when it fills a word. It looks at the wrong array:
  it compares `full_slots_bmp[empty_idx / BITS_PER_LONG]` with all ones, not the word of
  `slots_bmp`. So no summary bit is ever set by a word filling up, and from id 64 on the word it
  looks at lies behind the array (which has one word for 4096 ids).

  * **`slot_table_run_iff`** -- a run takes free ids, inside the arrays and with the summary
    right, exactly when it never allocates with 63 ids or more taken.
-/
import ChCore.Object.SlotTable

namespace ChCore.Capability

open Lib Common List

variable {P : Type}

/-! ## 1. Runs, and what each call should do -/

inductive TableAct where
  | alloc (b : Beyond)
  | free (id : Nat)

/-- One call, with the growing of the table succeeding. `free_slot_id` is called on allocated
    ids only. -/
def tableStep (t : SlotTable P) : TableAct → Option (SlotTable P)
  | .alloc b => (allocSlotId Kzalloc.ok b t).map (·.table)
  | .free id => if bitIn t.slotsBmp id then some (freeSlotId t id) else none

/-- Bit `w` of `full_slots_bmp` is set exactly when all 64 bits of word `w` are. -/
def SummaryOk (t : SlotTable P) : Prop :=
  ∀ w < bitsToLongs t.slotsSize,
    (bitIn t.fullSlotsBmp w = true ↔ ∀ k < 64, bitIn t.slotsBmp (64 * w + k) = true)

/-- The id an allocation should take: the least free one, or the first of a new block. -/
def LeastFree (t : SlotTable P) (e : Nat) : Prop :=
  (e < t.slotsSize ∧ bitIn t.slotsBmp e = false ∧ ∀ i < e, bitIn t.slotsBmp i = true) ∨
  ((∀ i < t.slotsSize, bitIn t.slotsBmp i = true) ∧ e = t.slotsSize)

/-- **One call as it should be.** -/
def TableStepOk (tr : Transition (SlotTable P) TableAct) : Prop :=
  match tr.act with
  | .alloc b => ∃ r, allocSlotId Kzalloc.ok b tr.pre = some r ∧ (∀ a ∈ r.accesses, a.Inside) ∧
      SummaryOk tr.post ∧ ∃ e : Nat, r.ret = e ∧ LeastFree tr.pre e ∧
        ∀ i, bitIn tr.post.slotsBmp i = (decide (i = e) || bitIn tr.pre.slotsBmp i)
  | .free id => (∀ a ∈ freeSlotIdAccesses tr.pre id, a.Inside) ∧ SummaryOk tr.post ∧
      ∀ i, bitIn tr.post.slotsBmp i = (!decide (i = id) && bitIn tr.pre.slotsBmp i)

/-- The allocated ids. -/
def allocatedIds (t : SlotTable P) : Finset Nat :=
  (Finset.range t.slotsSize).filter (fun i => bitIn t.slotsBmp i = true)

/-- Fewer than 63 ids are taken when an allocation is made. -/
def FewIds (t : SlotTable P) : TableAct → Prop
  | .alloc _ => (allocatedIds t).card < 63
  | .free _ => True

/-! ## 2. Tables on which nothing went wrong yet -/

/-- No summary bit is set, the ids in use are below 64, and one of those is free. -/
structure LowTable (t : SlotTable P) : Prop where
  wf : TableWf t
  unmarked : ∀ w, bitIn t.fullSlotsBmp w = false
  low : ∀ i, bitIn t.slotsBmp i = true → i < 64
  room : t.slotsSize ≠ 0 → ∃ k < 64, bitIn t.slotsBmp k = false

theorem lowTable_zero {n : Nat} (hm : n % 64 = 0) (hle : n * 8 ≤ kmallocMax) :
    LowTable (zeroTable n : SlotTable P) where
  wf := zeroTable_wf hm hle
  unmarked w := bitIn_replicate_zero _ w
  low i hi := by
    rw [show bitIn (zeroTable (P := P) n).slotsBmp i = false from bitIn_replicate_zero _ i] at hi
    cases hi
  room _ := ⟨0, by omega, bitIn_replicate_zero _ 0⟩

variable {t : SlotTable P}

theorem LowTable.mem_ids (h : LowTable t) {i : Nat} :
    i ∈ allocatedIds t ↔ bitIn t.slotsBmp i = true := by
  unfold allocatedIds
  rw [Finset.mem_filter, Finset.mem_range]
  refine ⟨fun hi => hi.2, fun hi => ⟨?_, hi⟩⟩
  by_contra hge
  rw [h.wf.bit_beyond (by omega)] at hi
  cases hi

/-- The summary is right as long as the first word is not full. -/
theorem summaryOk_iff (hun : ∀ w, bitIn t.fullSlotsBmp w = false)
    (hlow : ∀ i, bitIn t.slotsBmp i = true → i < 64) (hpos : 0 < t.slotsSize) :
    SummaryOk t ↔ ∃ k < 64, bitIn t.slotsBmp k = false := by
  have hw : 0 < bitsToLongs t.slotsSize := by rw [lt_bitsToLongs_iff]; omega
  refine ⟨fun h => ?_, fun ⟨k, hk, hfree⟩ w hwlt => ⟨fun h => ?_, fun h => ?_⟩⟩
  · by_contra hno
    push Not at hno
    have h0 := (h 0 hw).mpr (fun k hk => by simpa using hno k hk)
    rw [hun 0] at h0
    cases h0
  · rw [hun w] at h
    cases h
  by_cases h0 : w = 0
  · subst h0
    have := h k hk
    rw [mul_zero, zero_add, hfree] at this
    cases this
  · have := hlow _ (h 0 (by omega))
    omega

theorem LowTable.start_zero (h : LowTable t) {w : Nat} (hw : StartWord t w) : w = 0 := by
  by_contra hne
  have h0 := hw.marked 0 (by omega)
  rw [h.unmarked 0] at h0
  cases h0

theorem LowTable.found (h : LowTable t) {w e : Nat} (hf : FoundIn t w e) :
    e < 64 ∧ ∀ i < e, bitIn t.slotsBmp i = true := by
  have hw := h.start_zero hf.start
  have hlt := hf.lt
  obtain ⟨k, hk, hfree⟩ := h.room (by omega)
  refine ⟨?_, fun i hi => hf.taken i (by omega) hi⟩
  by_contra hge
  rw [hf.taken k (by omega) (by omega)] at hfree
  cases hfree

theorem LowTable.nothingFree (h : LowTable t) (hn : NothingFree t) : t.slotsSize = 0 := by
  by_contra hne
  have hpos : 0 < bitsToLongs t.slotsSize := by rw [lt_bitsToLongs_iff]; omega
  have hwords := h.wf.words
  rcases hn with hall | ⟨w, hw, hset⟩
  · have h0 := hall 0 hpos
    rw [h.unmarked 0] at h0
    cases h0
  have h0 := h.start_zero hw
  obtain ⟨k, hk, hfree⟩ := h.room hne
  rw [hset k (by omega) (by omega)] at hfree
  cases hfree

/-! ## 3. One allocation -/

section

variable (hwf : TableWf t) (hun : ∀ w, bitIn t.fullSlotsBmp w = false) (hpos : 0 < t.slotsSize)
  (b : Beyond)

include hwf hun hpos b

/-- On an unmarked table the word of `full_slots_bmp` that is looked at is not all ones. -/
theorem view_full_ne : view t.fullSlotsBmp b.full 0 ≠ BitVec.allOnes 64 := by
  have hlen : 0 < t.fullSlotsBmp.length := by
    have := hwf.full_word hpos
    omega
  intro h
  rw [view_of_lt _ hlen, allOnes_iff_bitIn hlen] at h
  have h0 := h 0 (by omega)
  rw [hun] at h0
  cases h0

/-- What an allocation leaves when it takes an id below 64 of an unmarked table. -/
theorem takeSlotId_low {e : Nat} (he : e < 64) (acc : List Access) :
    takeSlotId b t e acc =
      { ret := e
        table := { t with slotsBmp := setBit t.slotsBmp e }
        accesses := acc ++ [⟨.slotsBmp, e / 64, t.slotsBmp.length⟩,
          ⟨.fullSlotsBmp, e / 64, t.fullSlotsBmp.length⟩] } := by
  have hdiv : e / 64 = 0 := Nat.div_eq_of_lt he
  unfold takeSlotId
  simp only [hdiv, if_neg (view_full_ne hwf hun hpos b)]

end

/-- The ids of a table after `e` is taken fill the first word exactly when there were 63. -/
theorem room_iff_few (h : LowTable t) {e : Nat} (he : e < 64) (hfree : bitIn t.slotsBmp e = false) :
    (∃ k < 64, (decide (k = e) || bitIn t.slotsBmp k) = false) ↔ (allocatedIds t).card < 63 := by
  have hnot : e ∉ allocatedIds t := by
    rw [h.mem_ids, hfree]
    exact Bool.false_ne_true
  have hsub : insert e (allocatedIds t) ⊆ Finset.range 64 := by
    intro i hi
    rw [Finset.mem_range]
    rcases Finset.mem_insert.mp hi with rfl | hi
    · exact he
    · exact h.low i (h.mem_ids.mp hi)
  have hcard : (insert e (allocatedIds t)).card = (allocatedIds t).card + 1 :=
    Finset.card_insert_of_notMem hnot
  have hle : (insert e (allocatedIds t)).card ≤ 64 := by
    simpa using Finset.card_le_card hsub
  refine ⟨fun ⟨k, hk, hclear⟩ => ?_, fun hlt => ?_⟩
  · -- a free position is missing from the taken ids, so they are not all 64
    have hk' : k ∉ insert e (allocatedIds t) := by
      rw [Finset.mem_insert, h.mem_ids]
      simpa using hclear
    have hlt : (insert e (allocatedIds t)).card < (Finset.range 64).card :=
      Finset.card_lt_card ⟨hsub, fun hsup => hk' (hsup (Finset.mem_range.mpr hk))⟩
    rw [Finset.card_range] at hlt
    omega
  by_contra hno
  push Not at hno
  have hsup : Finset.range 64 ⊆ insert e (allocatedIds t) := by
    intro k hk
    have hk' := hno k (Finset.mem_range.mp hk)
    rw [Finset.mem_insert, h.mem_ids]
    simpa [or_iff_not_imp_left] using hk'
  have := Finset.card_le_card hsup
  rw [Finset.card_range] at this
  omega

/-- **An allocation that takes the least id of a low table**: it is as it should be exactly when
    fewer than 63 ids were taken, and then the table stays low. `t1` is the table searched last
    (the table itself, or the first block of an empty one). -/
theorem low_take_iff {t1 : SlotTable P} (h : LowTable t) (h1 : LowTable t1) {b : Beyond} {e : Nat}
    {acc : List Access} (hacc : ∀ a ∈ acc, a.Inside) (hpos : 0 < t1.slotsSize) (he : e < 64)
    (hfree : bitIn t1.slotsBmp e = false) (hleast : LeastFree t e)
    (hbits : ∀ i, bitIn t1.slotsBmp i = bitIn t.slotsBmp i)
    (hres : allocSlotId Kzalloc.ok b t = some (takeSlotId b t1 e acc)) :
    (TableStepOk ⟨t, .alloc b, (takeSlotId b t1 e acc).table⟩ ↔ (allocatedIds t).card < 63) ∧
    ((allocatedIds t).card < 63 → LowTable (takeSlotId b t1 e acc).table) := by
  have htake := takeSlotId_low h1.wf h1.unmarked hpos b he acc
  have htaken := takeSlotId_taken h1.wf b acc (by have := h1.wf.size_mod; omega) hfree
  have hids : (allocatedIds t).card = (allocatedIds t1).card := by
    congr 1
    ext i
    rw [h.mem_ids, h1.mem_ids, hbits]
  rw [hids, ← room_iff_few h1 he hfree]
  have hbit := htaken.bit
  have hlow : ∀ i, bitIn (takeSlotId b t1 e acc).table.slotsBmp i = true → i < 64 := by
    intro i hi
    rw [hbit i, Bool.or_eq_true, decide_eq_true_eq] at hi
    rcases hi with rfl | hi
    · exact he
    · exact h1.low i hi
  have hun : ∀ w, bitIn (takeSlotId b t1 e acc).table.fullSlotsBmp w = false := by
    rw [htake]
    exact h1.unmarked
  have hsum := summaryOk_iff hun hlow (by have := htaken.size; omega)
  have hroom : (∃ k < 64, bitIn (takeSlotId b t1 e acc).table.slotsBmp k = false) ↔
      ∃ k < 64, (decide (k = e) || bitIn t1.slotsBmp k) = false := by
    simp only [hbit]
  rw [hroom] at hsum
  refine ⟨⟨fun hok => ?_, fun hr => ?_⟩, fun hr => ⟨htaken.wf, hun, hlow, fun _ => hroom.mpr hr⟩⟩
  · obtain ⟨r, _, _, hs, _⟩ := hok
    exact hsum.mp hs
  refine ⟨_, hres, fun a ha => ?_, hsum.mpr hr, e, takeSlotId_ret b t1 e acc, hleast, ?_⟩
  · have hdiv : e / 64 = 0 := Nat.div_eq_of_lt he
    have hb : 0 / 64 < t1.slotsBmp.length := h1.wf.bmp_word.mpr hpos
    have hf : 0 / 64 / 64 < t1.fullSlotsBmp.length := h1.wf.full_word hpos
    rw [htake] at ha
    simp only [hdiv, mem_append, mem_cons, not_mem_nil, or_false] at ha
    rcases ha with ha | rfl | rfl
    · exact hacc a ha
    · exact hb
    · exact hf
  · intro i
    rw [← hbits i]
    exact hbit i

theorem lowTable_grown {t' : SlotTable P} (h : LowTable t) (hg : Grown t t') : LowTable t' where
  wf := hg.wf
  unmarked w := by rw [hg.fullBit]; exact h.unmarked w
  low i hi := by rw [hg.bit] at hi; exact h.low i hi
  room _ := by
    by_cases h0 : t.slotsSize = 0
    · exact ⟨0, by omega, by rw [hg.bit]; exact h.wf.bit_beyond (by omega)⟩
    · obtain ⟨k, hk, hf⟩ := h.room h0
      exact ⟨k, hk, by rw [hg.bit]; exact hf⟩

theorem allocSlotId_ok_ne_fail {b : Beyond} (hwf : TableWf t) {r : AllocResult P}
    (h : allocSlotId Kzalloc.ok b t = some r) : 0 ≤ r.ret := by
  unfold allocSlotId at h
  split at h
  · cases h
  · rename_i r' t' acc hl
    rcases findLoop_cases hwf hl with ⟨_, _, hk⟩ | ⟨_, ⟨w, e, he, _⟩ | ⟨he, _⟩⟩
    · exact absurd rfl hk
    · cases he
    · cases he
  · cases h
    rw [takeSlotId_ret]
    exact Int.natCast_nonneg _

/-- **One call on a low table** is as it should be exactly when an allocation finds fewer than 63
    ids taken. -/
theorem low_step_iff {t' : SlotTable P} {a : TableAct} (h : LowTable t)
    (hs : tableStep t a = some t') :
    (TableStepOk ⟨t, a, t'⟩ ↔ FewIds t a) ∧ (FewIds t a → LowTable t') := by
  cases a with
  | alloc b =>
    obtain ⟨r, hr, rfl⟩ := Option.map_eq_some_iff.mp hs
    cases hout : allocSlotId_cases h.wf hr with
    | fail acc =>
      have hge := allocSlotId_ok_ne_fail h.wf hr
      simp only [ENOMEM] at hge
      omega
    | found acc w e hacc hf =>
      obtain ⟨he, hbelow⟩ := h.found hf
      have hpos : 0 < t.slotsSize := lt_of_le_of_lt (Nat.zero_le _) hf.lt
      exact low_take_iff h h hacc hpos he hf.free (.inl ⟨hf.lt, hf.free, hbelow⟩)
        (fun _ => rfl) hr
    | grown acc t1 hacc hn hg =>
    have h0 := h.nothingFree hn
    have h1 := lowTable_grown h hg
    have hpos : 0 < t1.slotsSize := by rw [hg.size]; omega
    have hfree : bitIn t1.slotsBmp t.slotsSize = false := by
      rw [hg.bit]; exact h.wf.bit_beyond le_rfl
    exact low_take_iff h h1 hacc hpos (by omega) hfree
      (.inr ⟨fun i hi => by omega, rfl⟩) hg.bit hr
  | free id =>
  simp only [tableStep] at hs
  split at hs
  · rename_i hid
    cases hs
    have hlt : id < t.slotsSize := by
      by_contra hge
      rw [h.wf.bit_beyond (by omega)] at hid
      cases hid
    have hbit := freeSlotId_bit t id
    have hwf := freeSlotId_wf h.wf id
    have hun : ∀ w, bitIn (freeSlotId t id).fullSlotsBmp w = false := by
      intro w
      show bitIn (clearBit t.fullSlotsBmp (id / 64)) w = false
      rw [bitIn_clearBit _ _ (by omega), h.unmarked, Bool.and_false]
    have hlow : ∀ i, bitIn (freeSlotId t id).slotsBmp i = true → i < 64 := by
      intro i hi
      rw [hbit i, Bool.and_eq_true] at hi
      exact h.low i hi.2
    have hroom : ∃ k < 64, bitIn (freeSlotId t id).slotsBmp k = false :=
      ⟨id, h.low id hid, by rw [hbit id]; simp⟩
    have hsum : SummaryOk (freeSlotId t id) :=
        (summaryOk_iff hun hlow (lt_of_le_of_lt (Nat.zero_le _) hlt)).mpr hroom
    refine ⟨⟨fun _ => trivial, fun _ => ⟨fun a ha => ?_, hsum, hbit⟩⟩,
      fun _ => ⟨hwf, hun, hlow, fun _ => hroom⟩⟩
    simp only [freeSlotIdAccesses, mem_cons, not_mem_nil, or_false] at ha
    rcases ha with rfl | rfl | rfl
    · exact h.wf.bmp_word.mpr hlt
    · exact h.wf.full_word hlt
    · rw [h.wf.slots_len]
      exact hlt
  · cases hs

/-! ## 4. Whole runs -/

theorem low_run_iff (h : LowTable t) (as : List TableAct) :
    (∀ tr ∈ trace tableStep t as, TableStepOk tr) ↔
      ∀ tr ∈ trace tableStep t as, FewIds tr.pre tr.act :=
  trace_all_iff (I := LowTable) (C := FewIds) (G := TableStepOk)
    (fun _ _ _ h hs => (low_step_iff h hs).1) (fun _ _ _ h hC hs => (low_step_iff h hs).2 hC)
    as t h

/-- **Every call of a run is as it should be exactly when no allocation of the run finds 63 ids
    or more taken**: for tables of every size `slot_table_init` makes, any order of allocations
    and releases, and whatever lies behind the arrays. -/
theorem slot_table_run_iff (size : Nat) (t₀ : SlotTable P)
    (hinit : slotTableInit Kzalloc.ok size = some (.ok t₀)) (as : List TableAct) :
    (∀ tr ∈ trace tableStep t₀ as, TableStepOk tr) ↔
      ∀ tr ∈ trace tableStep t₀ as, FewIds tr.pre tr.act := by
  obtain ⟨n, hm, hle, rfl, -⟩ := slotTableInit_ok hinit
  exact low_run_iff (lowTable_zero hm hle) as

instance (t : SlotTable P) (a : TableAct) : Decidable (FewIds t a) := by
  cases a <;> unfold FewIds <;> infer_instance

/-- Two allocations with a release between them, on a fresh table of one block. -/
theorem slot_table_run_short :
    slotTableInit (P := Nat) Kzalloc.ok 10 = some (.ok (zeroTable 64)) ∧
    ∀ tr ∈ trace tableStep (zeroTable 64 : SlotTable Nat)
      [.alloc .zero, .alloc .zero, .free 0, .alloc .zero], TableStepOk tr :=
  ⟨by decide, (slot_table_run_iff 10 (zeroTable 64) (by decide) _).mpr (by decide +kernel)⟩

/-- **The first failure**: on a fresh table of 64 slots the 64th allocation fills word 0 and
    leaves bit 0 of `full_slots_bmp` clear. -/
theorem slot_table_full_word :
    ¬ ∀ tr ∈ trace tableStep (zeroTable 64 : SlotTable Nat)
      (List.replicate 64 (.alloc .zero)), TableStepOk tr := by
  rw [low_run_iff (lowTable_zero (by omega) (by decide))]
  decide +kernel

end ChCore.Capability
