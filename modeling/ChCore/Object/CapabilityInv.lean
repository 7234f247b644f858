/-
  File: ChCore/Object/CapabilityInv.lean
  Subject: What every capability call keeps: tables, slots, copies lists and counts agree.

  `CapInv` ties the three kinds of memory together: a cell of a slot table holds a live slot that
  knows its group and its id; a live slot with an id lies in its table; a live slot is on the
  copies list of a live object; a copies list holds live slots of its object, each once; the
  count of an object is the length of its copies list plus the references held. A slot whose id
  is an error code lies in no table (`cap_copy` makes one when growing a table fails); that there
  is none is `NoStray`.

  Every call is a chain of three changes (`CapabilityCalls`), and each keeps `CapInv`:
  * `inv_setGroup` -- a table is replaced by one with the same ids and slots;
  * `inv_install` -- a new slot for an object (`cap_alloc`, `cap_copy`);
  * `inv_recount` -- a slot is released, a reference is taken or put, and the object goes with the
    last of them (`__cap_free`, `get_opaque`, `obj_put`).
-/
import ChCore.Object.Capability

namespace ChCore.Capability

open Lib Common Function List

/-! ## 1. The invariant -/

variable (s : Caps) (o : ObjPtr)

/-- The event ends the life of `o`, or runs its deinit function. -/
def Event.EndOf : Event → Prop
  | .publish _ => False
  | .deinit o' => o' = o
  | .free o' _ => o' = o

def Event.object : Event → ObjPtr
  | .publish o => o
  | .deinit o => o
  | .free o _ => o

structure CapInv (s : Caps) : Prop where
  wf : ∀ {g t}, s.groups g = some t → TableWf t
  groupLt : ∀ {g t}, s.groups g = some t → g < s.nextGroup
  bitCell : ∀ {g t}, s.groups g = some t → ∀ i, bitIn t.slotsBmp i = (t.cell i).isSome
  cellSlot : ∀ {g t i p}, s.groups g = some t → t.cell i = some p →
    ∃ sl, s.slots p = some sl ∧ sl.capGroup = g ∧ sl.slotId = i
  slotCell : ∀ {p sl}, s.slots p = some sl → ∀ {i : Nat}, sl.slotId = i →
    ∃ t, s.groups sl.capGroup = some t ∧ t.cell i = some p
  slotObj : ∀ {p sl}, s.slots p = some sl →
    sl.isvalid = true ∧ p < s.nextSlot ∧ ∃ ob, s.objects sl.object = some ob ∧ p ∈ ob.copies
  copySlot : ∀ {o ob p}, s.objects o = some ob → p ∈ ob.copies →
    ∃ sl, s.slots p = some sl ∧ sl.object = o
  nodup : ∀ {o ob}, s.objects o = some ob → ob.copies.Nodup
  count : ∀ {o ob}, s.objects o = some ob → ob.refcount = ob.copies.length + s.refs.count o
  refsLive : ∀ {o}, o ∈ s.refs → ∃ ob, s.objects o = some ob
  objLt : ∀ {o ob}, s.objects o = some ob → o < s.nextObj
  logLt : ∀ e ∈ s.log, e.object < s.nextObj
  logLive : ∀ {o ob}, s.objects o = some ob → ∀ e ∈ s.log, ¬ e.EndOf o
  published : ∀ {o ob}, s.objects o = some ob → (Published s o ↔ 0 < ob.refcount)

/-- Every live slot has an id, so it lies in its table. -/
def NoStray : Prop := ∀ {p sl}, s.slots p = some sl → 0 ≤ sl.slotId

theorem capInv_init : CapInv Caps.init where
  wf h := by cases h
  groupLt h := by cases h
  bitCell h := by cases h
  cellSlot h := by cases h
  slotCell h := by cases h
  slotObj h := by cases h
  copySlot h := by cases h
  nodup h := by cases h
  count h := by cases h
  refsLive h := absurd h not_mem_nil
  objLt h := by cases h
  logLt _ h := absurd h not_mem_nil
  logLive h := by cases h
  published h := by cases h

theorem noStray_init : NoStray Caps.init := nofun

theorem CapInv.cell_unique {s : Caps} (h : CapInv s) {g g' i i' p : Nat} {t t' : SlotTable SlotPtr}
    (hg : s.groups g = some t) (hg' : s.groups g' = some t') (hc : t.cell i = some p)
    (hc' : t'.cell i' = some p) : g = g' ∧ i = i' := by
  obtain ⟨sl, hsl, h1, h2⟩ := h.cellSlot hg hc
  obtain ⟨sl', hsl', h1', h2'⟩ := h.cellSlot hg' hc'
  rw [hsl] at hsl'
  cases hsl'
  refine ⟨h1.symm.trans h1', ?_⟩
  have e := h2.symm.trans h2'
  exact Int.ofNat_inj.mp e

/-! ## 2. Tables with the same ids and slots -/

theorem setGroup_groups (g : GroupPtr) (t : SlotTable SlotPtr) (g' : GroupPtr) :
    (s.setGroup g t).groups g' = if g' = g then some t else s.groups g' :=
  update_apply _ _ _ _

theorem update_eq_some {α β : Type} [DecidableEq α] {f : α → Option β} {a b : α} {x : Option β}
    {y : β} (h : update f a x b = some y) : b = a ∧ x = some y ∨ b ≠ a ∧ f b = some y := by
  rw [update_apply] at h
  split at h
  · exact .inl ⟨‹_›, h⟩
  · exact .inr ⟨‹_›, h⟩

/-- The tables of a state agree with its slots. -/
structure TablesOk (s : Caps) (slots : SlotPtr → Option ObjectSlot)
    (groups : GroupPtr → Option (SlotTable SlotPtr)) : Prop where
  wf : ∀ {g t}, groups g = some t → TableWf t
  groupLt : ∀ {g t}, groups g = some t → g < s.nextGroup
  bitCell : ∀ {g t}, groups g = some t → ∀ i, bitIn t.slotsBmp i = (t.cell i).isSome
  cellSlot : ∀ {g t i p}, groups g = some t → t.cell i = some p →
    ∃ sl, slots p = some sl ∧ sl.capGroup = g ∧ sl.slotId = i
  slotCell : ∀ {p sl}, slots p = some sl → ∀ {i : Nat}, sl.slotId = i →
    ∃ t, groups sl.capGroup = some t ∧ t.cell i = some p

section Change

variable {s s' : Caps} {g : GroupPtr} {t' : SlotTable SlotPtr} {o : ObjPtr} {x : Option Object}

/-- One table is replaced, or new: the slots of the other groups stay. -/
theorem CapInv.tablesOk_update (h : CapInv s) {slots : SlotPtr → Option ObjectSlot}
    (hwf : TableWf t') (hlt : g < s'.nextGroup) (hnext : s.nextGroup ≤ s'.nextGroup)
    (hbit : ∀ i, bitIn t'.slotsBmp i = (t'.cell i).isSome)
    (hcell : ∀ {i p}, t'.cell i = some p →
      ∃ sl, slots p = some sl ∧ sl.capGroup = g ∧ sl.slotId = i)
    (hkeep : ∀ {p sl}, s.slots p = some sl → sl.capGroup ≠ g → slots p = some sl)
    (hold : ∀ {t i p sl}, s.groups g = some t → t.cell i = some p → slots p = some sl →
      t'.cell i = some p) (hslot : ∀ {p sl}, slots p = some sl → s.slots p = some sl ∨
      sl.capGroup = g ∧ ∀ {i : Nat}, sl.slotId = i → t'.cell i = some p) :
    TablesOk s' slots (update s.groups g (some t')) where
  wf hg := by
    rcases update_eq_some hg with ⟨_, ⟨⟩⟩ | ⟨_, hg⟩
    · exact hwf
    · exact h.wf hg
  groupLt hg := by
    rcases update_eq_some hg with ⟨rfl, _⟩ | ⟨_, hg⟩
    · exact hlt
    · exact (h.groupLt hg).trans_le hnext
  bitCell hg := by
    rcases update_eq_some hg with ⟨_, ⟨⟩⟩ | ⟨_, hg⟩
    · exact hbit
    · exact h.bitCell hg
  cellSlot hg hc := by
    rcases update_eq_some hg with ⟨rfl, ⟨⟩⟩ | ⟨hne, hg⟩
    · exact hcell hc
    · obtain ⟨sl, hsl, rfl, hid⟩ := h.cellSlot hg hc
      exact ⟨sl, hkeep hsl hne, rfl, hid⟩
  slotCell {p sl} hp i hid := by
    rcases hslot hp with hp' | ⟨rfl, hown⟩
    · obtain ⟨t, ht, hc⟩ := h.slotCell hp' hid
      by_cases e : sl.capGroup = g
      · exact ⟨t', e ▸ update_self .., hold (e ▸ ht) hc hp⟩
      · exact ⟨t, (update_of_ne e ..).trans ht, hc⟩
    · exact ⟨t', update_self .., hown hid⟩

/-- What `CapInv` says about the object `o`. -/
structure ObjectOk (s : Caps) (o : ObjPtr) (ob : Object) : Prop where
  copySlot : ∀ {p}, p ∈ ob.copies → ∃ sl, s.slots p = some sl ∧ sl.object = o
  nodup : ob.copies.Nodup
  count : ob.refcount = ob.copies.length + s.refs.count o
  logLive : ∀ e ∈ s.log, ¬ e.EndOf o
  published : Published s o ↔ 0 < ob.refcount

theorem Event.EndOf.object_eq {e : Event} {o : ObjPtr} (h : e.EndOf o) : e.object = o := by
  cases e with
  | publish o' => exact h.elim
  | deinit o' => exact h
  | free o' ty => exact h

/-- **One object changes**, with its slots and the references to it; `x` is what becomes of it. -/
theorem inv_object (h : CapInv s) (hobj : s'.objects = update s.objects o x)
    (ht : TablesOk s' s'.slots s'.groups) (hlt : o < s'.nextObj)
    (hnext : s.nextSlot ≤ s'.nextSlot ∧ s.nextObj ≤ s'.nextObj)
    (hlog : ∀ {e}, e.object ≠ o → (e ∈ s'.log ↔ e ∈ s.log))
    (hrefs : ∀ o', o' ≠ o → s'.refs.count o' = s.refs.count o')
    (hslots : ∀ {p sl}, sl.object ≠ o → (s'.slots p = some sl ↔ s.slots p = some sl))
    (hown : ∀ {p sl}, s'.slots p = some sl → sl.object = o →
      sl.isvalid = true ∧ p < s'.nextSlot ∧ ∃ ob, x = some ob ∧ p ∈ ob.copies)
    (hheld : o ∈ s'.refs → ∃ ob, x = some ob) (hx : ∀ {ob}, x = some ob → ObjectOk s' o ob) :
    CapInv s' := by
  have hself : s'.objects o = x := by rw [hobj, update_self]
  have hother : ∀ {o'}, o' ≠ o → s'.objects o' = s.objects o' := fun hne => by
    rw [hobj, update_of_ne hne]
  have hcases : ∀ {o' ob}, s'.objects o' = some ob →
      o' = o ∧ x = some ob ∨ o' ≠ o ∧ s.objects o' = some ob := fun ho =>
    update_eq_some (hobj ▸ ho)
  refine ⟨ht.wf, ht.groupLt, ht.bitCell, ht.cellSlot, ht.slotCell, fun {p sl} hp => ?_,
    fun ho hp => ?_, fun ho => ?_, fun ho => ?_, fun {o'} ho => ?_, fun ho => ?_, fun e he => ?_,
    fun ho e he hend => ?_, fun ho => ?_⟩
  · by_cases e : sl.object = o
    · rw [e, hself]
      exact hown hp e
    · obtain ⟨hv, hp', hex⟩ := h.slotObj ((hslots e).mp hp)
      rw [hother e]
      exact ⟨hv, hp'.trans_le hnext.1, hex⟩
  · rcases hcases ho with ⟨rfl, ho⟩ | ⟨hne, ho⟩
    · exact (hx ho).copySlot hp
    · obtain ⟨sl, hsl, rfl⟩ := h.copySlot ho hp
      exact ⟨sl, (hslots hne).mpr hsl, rfl⟩
  · rcases hcases ho with ⟨rfl, ho⟩ | ⟨_, ho⟩
    · exact (hx ho).nodup
    · exact h.nodup ho
  · rcases hcases ho with ⟨rfl, ho⟩ | ⟨hne, ho⟩
    · exact (hx ho).count
    · rw [hrefs _ hne]
      exact h.count ho
  · by_cases e : o' = o
    · rw [e, hself]
      exact hheld (e ▸ ho)
    · rw [hother e]
      rw [← count_pos_iff, hrefs o' e, count_pos_iff] at ho
      exact h.refsLive ho
  · rcases hcases ho with ⟨rfl, _⟩ | ⟨_, ho⟩
    · exact hlt
    · exact (h.objLt ho).trans_le hnext.2
  · by_cases eo : e.object = o
    · exact eo ▸ hlt
    · exact (h.logLt e ((hlog eo).mp he)).trans_le hnext.2
  · rcases hcases ho with ⟨rfl, ho⟩ | ⟨hne, ho⟩
    · exact (hx ho).logLive e he hend
    · have hne' : e.object ≠ o := fun e' => hne (hend.object_eq.symm.trans e')
      exact h.logLive ho e ((hlog hne').mp he) hend
  · rcases hcases ho with ⟨rfl, ho⟩ | ⟨hne, ho⟩
    · exact (hx ho).published
    · rw [← h.published ho]
      exact hlog hne

theorem CapInv.tables (h : CapInv s) {groups : GroupPtr → Option (SlotTable SlotPtr)} {n : GroupPtr}
    (ht : TablesOk { s with nextGroup := n } s.slots groups) :
    CapInv { s with groups := groups, nextGroup := n } :=
  { ht, h with }

end Change

theorem inv_setGroup {s : Caps} (h : CapInv s) {g : GroupPtr} {t t' : SlotTable SlotPtr}
    (hg : s.groups g = some t) (hwf : TableWf t')
    (hbit : ∀ i, bitIn t'.slotsBmp i = bitIn t.slotsBmp i) (hcell : ∀ i, t'.cell i = t.cell i) :
    CapInv (s.setGroup g t') := by
  refine h.tables (h.tablesOk_update hwf (h.groupLt hg) le_rfl (fun i => ?_)
    (fun {i p} hc => h.cellSlot hg (hcell i ▸ hc)) (fun hp _ => hp) (fun ht hc _ => ?_) .inl)
  · rw [hbit, hcell]
    exact h.bitCell hg i
  · cases hg.symm.trans ht
    exact (hcell _).trans hc

/-! ## 3. A new slot for an object -/

/-- What a call that makes a new slot `p` for `o` does to the state. `t'` is the table of the
    group afterwards: its cells are the old ones, and `p` under its own id. -/
structure Installs (s : Caps) (o : ObjPtr) (ob ob' : Object) (sl : ObjectSlot)
    (t t' : SlotTable SlotPtr) : Prop where
  group : s.groups sl.capGroup = some t
  object : s.objects o = some ob
  wf : TableWf t'
  bit : ∀ i, bitIn t'.slotsBmp i = (t'.cell i).isSome
  cell : ∀ i x, t'.cell i = some x → t.cell i = some x ∨ (x = s.nextSlot ∧ sl.slotId = i)
  keeps : ∀ i x, t.cell i = some x → t'.cell i = some x
  own : ∀ i : Nat, sl.slotId = i → t'.cell i = some s.nextSlot
  slot : sl.isvalid = true ∧ sl.object = o
  mem : ∀ x, x ∈ ob'.copies ↔ x = s.nextSlot ∨ x ∈ ob.copies
  nodup : ob'.copies.Nodup
  length : ob'.copies.length = ob.copies.length + 1
  refcount : ob'.refcount = ob.refcount + 1

/-- The state after a new slot is made; `log` may have grown by the publication. -/
def installed (ob' : Object) (sl : ObjectSlot) (t' : SlotTable SlotPtr)
    (log : List Event) : Caps :=
  { ((s.setObject o (some ob')).setSlot s.nextSlot (some sl)).setGroup sl.capGroup t' with
    nextSlot := s.nextSlot + 1, log := log }

section Install

variable {s : Caps} {o : ObjPtr} {ob ob' : Object} {sl : ObjectSlot} {t t' : SlotTable SlotPtr}
  {log : List Event}

theorem installed_slots (p : SlotPtr) :
    (installed s o ob' sl t' log).slots p = if p = s.nextSlot then some sl else s.slots p :=
  update_apply _ _ _ _

theorem installed_groups (g : GroupPtr) :
    (installed s o ob' sl t' log).groups g = if g = sl.capGroup then some t' else s.groups g :=
  update_apply _ _ _ _

theorem CapInv.fresh_slot (h : CapInv s) : s.slots s.nextSlot = none := by
  cases hp : s.slots s.nextSlot with
  | none => rfl
  | some sl => exact absurd (h.slotObj hp).2.1 (lt_irrefl _)

theorem CapInv.slot_ne_next (h : CapInv s) {p : SlotPtr} {sl : ObjectSlot}
    (hp : s.slots p = some sl) : p ≠ s.nextSlot := by
  intro e
  rw [e, h.fresh_slot] at hp
  cases hp

theorem inv_install (h : CapInv s) (hi : Installs s o ob ob' sl t t')
    (hlog : log = s.log ∧ 0 < ob.refcount ∨ log = s.log ++ [.publish o]) :
    CapInv (installed s o ob' sl t' log) := by
  have hslots : ∀ {p sl'}, s.slots p = some sl' →
      update s.slots s.nextSlot (some sl) p = some sl' := fun hp =>
    (update_of_ne (h.slot_ne_next hp) ..).trans hp
  have hnew : update s.slots s.nextSlot (some sl) s.nextSlot = some sl := update_self ..
  have hmem : ∀ {e}, e ∈ log ↔ e ∈ s.log ∨ e = .publish o ∧ log = s.log ++ [.publish o] := by
    rcases hlog with ⟨rfl, _⟩ | rfl <;> simp
  refine inv_object h rfl (h.tablesOk_update hi.wf (h.groupLt hi.group) le_rfl hi.bit
      (fun {i p} hc => ?_) (fun hp _ => hslots hp) (fun ht hc _ => ?_) fun hp => ?_)
    (h.objLt hi.object) ⟨Nat.le_succ _, le_rfl⟩ (fun {e} hne => ?_) (fun _ _ => rfl)
    (fun {p sl'} hne => ⟨fun hp => ?_, hslots⟩) (fun {p sl'} hp ho => ?_) (fun _ => ⟨ob', rfl⟩)
    fun hx => ?_
  · rcases hi.cell i p hc with hold | ⟨rfl, hid⟩
    · obtain ⟨sl', hsl, hold⟩ := h.cellSlot hi.group hold
      exact ⟨sl', hslots hsl, hold⟩
    · exact ⟨sl, hnew, rfl, hid⟩
  · cases hi.group.symm.trans ht
    exact hi.keeps _ _ hc
  · rcases update_eq_some hp with ⟨rfl, ⟨⟩⟩ | ⟨_, hp⟩
    · exact .inr ⟨rfl, hi.own _⟩
    · exact .inl hp
  · refine hmem.trans ⟨fun he => he.resolve_right fun he => hne ?_, .inl⟩
    rw [he.1]
    rfl
  · rcases update_eq_some hp with ⟨_, ⟨⟩⟩ | ⟨_, hp⟩
    · exact absurd hi.slot.2 hne
    · exact hp
  · rcases update_eq_some hp with ⟨rfl, ⟨⟩⟩ | ⟨_, hp⟩
    · exact ⟨hi.slot.1, Nat.lt_succ_self _, ob', rfl, (hi.mem _).mpr (.inl rfl)⟩
    · obtain ⟨hv, hlt, ob1, hob1, hin⟩ := h.slotObj hp
      rw [ho, hi.object] at hob1
      cases hob1
      exact ⟨hv, Nat.lt_succ_of_lt hlt, ob', rfl, (hi.mem p).mpr (.inr hin)⟩
  cases hx
  refine ⟨fun {p} hp => ?_, hi.nodup, ?_, fun e he hend => ?_, fun _ => ?_, fun _ => ?_⟩
  · rcases (hi.mem p).mp hp with rfl | hold
    · exact ⟨sl, hnew, hi.slot.2⟩
    · obtain ⟨sl', hsl, ho⟩ := h.copySlot hi.object hold
      exact ⟨sl', hslots hsl, ho⟩
  · rw [hi.refcount, hi.length, h.count hi.object]
    exact Nat.add_right_comm ..
  · rcases hmem.mp he with he | ⟨rfl, _⟩
    · exact h.logLive hi.object e he hend
    · exact hend
  · exact hi.refcount ▸ Nat.succ_pos _
  · refine hmem.mpr ?_
    rcases hlog with ⟨_, hpos⟩ | hlog
    · exact .inl ((h.published hi.object).mpr hpos)
    · exact .inr ⟨rfl, hlog⟩

theorem noStray_install (hn : NoStray s) (hid : 0 ≤ sl.slotId) :
    NoStray (installed s o ob' sl t' log) := by
  intro p sl' hp
  rw [installed_slots] at hp
  split at hp
  · cases hp
    exact hid
  · exact hn hp

end Install

/-! ## 4. Slots and references that go, references that come -/

/-- What is logged when `o` is freed; `runs` says whether the path calls deinit functions. -/
def endsOf (type : ObjectType) (runs : Bool) : List Event :=
  (if runs && type.hasDeinit then [.deinit o] else []) ++ [.free o type]

theorem endsOf_object {o : ObjPtr} {type : ObjectType} {runs : Bool} {e : Event}
    (he : e ∈ endsOf o type runs) : e.object = o := by
  rcases mem_append.mp he with he | he
  · split at he
    · rw [mem_singleton.mp he]
      rfl
    · exact absurd he not_mem_nil
  · rw [mem_singleton.mp he]
    rfl

/-- The object `o` when its copies list has become `copies` and the references held are `refs`:
    it keeps their number as its count, or is freed as there are none. -/
inductive Recount (o : ObjPtr) (ob : Object) (copies : List SlotPtr) (refs : List ObjPtr)
    (runs : Bool) : Option Object → List Event → Prop where
  | kept (h : 0 < copies.length + refs.count o) :
      Recount o ob copies refs runs
        (some { ob with copies := copies, refcount := copies.length + refs.count o }) []
  | freed (hc : copies = []) (hr : refs.count o = 0) :
      Recount o ob copies refs runs none (endsOf o ob.type runs)

/-- The state with other slots, tables and references, and the object `o` recounted. -/
def recounted (x : Option Object) (slots : SlotPtr → Option ObjectSlot)
    (groups : GroupPtr → Option (SlotTable SlotPtr)) (refs : List ObjPtr) (ends : List Event) :
    Caps :=
  { s with
    objects := update s.objects o x, slots := slots, groups := groups, refs := refs,
    log := s.log ++ ends }

section Recounting

variable {s : Caps} {o : ObjPtr} {ob : Object} {copies : List SlotPtr} {refs : List ObjPtr}
  {runs : Bool} {x : Option Object} {ends : List Event} {slots : SlotPtr → Option ObjectSlot}
  {groups : GroupPtr → Option (SlotTable SlotPtr)}

theorem recounted_objects (o' : ObjPtr) :
    (recounted s o x slots groups refs ends).objects o' = if o' = o then x else s.objects o' :=
  update_apply _ _ _ _

/-- The slots that are left are old ones; those of `o` are the new copies list. -/
structure SlotsOk (s : Caps) (o : ObjPtr) (copies : List SlotPtr)
    (slots : SlotPtr → Option ObjectSlot) : Prop where
  old : ∀ {p sl}, slots p = some sl → s.slots p = some sl ∧ (sl.object = o → p ∈ copies)
  copy : ∀ {p}, p ∈ copies → ∃ sl, slots p = some sl ∧ sl.object = o
  other : ∀ {p sl}, s.slots p = some sl → sl.object ≠ o → slots p = some sl
  nodup : copies.Nodup

theorem Recount.log_iff (hr : Recount o ob copies refs runs x ends) {e : Event}
    (he : e.object ≠ o) : e ∈ s.log ++ ends ↔ e ∈ s.log := by
  refine ⟨fun h => ?_, mem_append_left _⟩
  rcases mem_append.mp h with h | h
  · exact h
  · cases hr with
    | kept => exact absurd h not_mem_nil
    | freed => exact absurd (endsOf_object h) he

theorem inv_recount (h : CapInv s) (hob : s.objects o = some ob) (hpos : 0 < ob.refcount)
    (hr : Recount o ob copies refs runs x ends) (ht : TablesOk s slots groups)
    (hs : SlotsOk s o copies slots) (hrefs : ∀ o', o' ≠ o → refs.count o' = s.refs.count o') :
    CapInv (recounted s o x slots groups refs ends) := by
  refine inv_object h rfl { ht with } (h.objLt hob)
    ⟨le_rfl, le_rfl⟩ hr.log_iff hrefs (fun hne => ⟨fun hp => (hs.old hp).1, fun hp => hs.other hp hne⟩)
    (fun {p sl} hp e => ?_) (fun ho => ?_) fun hx => ?_
  · obtain ⟨hold, hin⟩ := hs.old hp
    obtain ⟨hv, hlt, _⟩ := h.slotObj hold
    refine ⟨hv, hlt, ?_⟩
    have hp' := hin e
    cases hr with
    | kept => exact ⟨_, rfl, hp'⟩
    | freed hc =>
      rw [hc] at hp'
      exact absurd hp' not_mem_nil
  · cases hr with
    | kept => exact ⟨_, rfl⟩
    | freed _ hc => exact absurd ho (count_eq_zero.mp hc)
  cases hr with
  | freed => cases hx
  | kept hpos' =>
    cases hx
    refine ⟨hs.copy, hs.nodup, rfl, fun e he => h.logLive hob e ?_, fun _ => hpos', fun _ => ?_⟩
    · simpa [recounted] using he
    · exact mem_append_left _ ((h.published hob).mpr hpos)

theorem CapInv.slotsOk (h : CapInv s) (hob : s.objects o = some ob) : SlotsOk s o ob.copies s.slots where
  old {p sl} hp := by
    refine ⟨hp, fun e => ?_⟩
    obtain ⟨_, _, ob1, hob1, hmem⟩ := h.slotObj hp
    rw [e, hob] at hob1
    cases hob1
    exact hmem
  copy hp := h.copySlot hob hp
  other hp _ := hp
  nodup := h.nodup hob

theorem inv_recount_refs (h : CapInv s) (hob : s.objects o = some ob) (hpos : 0 < ob.refcount)
    (hr : Recount o ob ob.copies refs runs x ends)
    (hrefs : ∀ o', o' ≠ o → refs.count o' = s.refs.count o') :
    CapInv (recounted s o x s.slots s.groups refs ends) :=
  inv_recount h hob hpos hr { h with } (h.slotsOk hob) hrefs

theorem CapInv.refcount_pos (h : CapInv s) {p : SlotPtr} {sl : ObjectSlot}
    (hob : s.objects sl.object = some ob) (hp : s.slots p = some sl) : 0 < ob.refcount := by
  rw [h.count hob]
  exact Nat.add_pos_left (length_pos_of_mem (((h.slotsOk hob).old hp).2 rfl)) _

/-- The slot `p` under `n` in the table of `g` is released: the rest is as it was. -/
theorem inv_recount_slot (h : CapInv s) {g : GroupPtr} {t : SlotTable SlotPtr} {n : Nat}
    {p : SlotPtr} {sl : ObjectSlot} (hg : s.groups g = some t) (hc : t.cell n = some p)
    (hp : s.slots p = some sl) (hob : s.objects sl.object = some ob)
    (hr : Recount sl.object ob (ob.copies.erase p) s.refs runs x ends) :
    CapInv (recounted s sl.object x (update s.slots p none)
      (update s.groups g (some (freeSlotId t n))) s.refs ends) := by
  have hnd := h.nodup hob
  have hgone : ∀ {q sl'}, update s.slots p none q = some sl' → q ≠ p ∧ s.slots q = some sl' := by
    intro q sl' hq
    rcases update_eq_some hq with ⟨_, ⟨⟩⟩ | hq
    exact hq
  refine inv_recount h hob (h.refcount_pos hob hp) hr ?_ ?_ (fun _ _ => rfl)
  -- no other cell holds `p`, so every slot that is still in a table is still there
  · refine h.tablesOk_update (freeSlotId_wf (h.wf hg) n) (h.groupLt hg) le_rfl (fun i => ?_)
      (fun {i q} hq => ?_) (fun {q sl'} hq hne => ?_) (fun {t' i q sl'} ht' hq hq' => ?_)
      fun hq => .inl (hgone hq).2
    · rw [freeSlotId_bit, freeSlotId_cell, h.bitCell hg]
      by_cases ei : i = n <;> simp [ei]
    · rw [freeSlotId_cell] at hq
      split at hq
      · cases hq
      rename_i ei
      obtain ⟨sl', hsl', hplace⟩ := h.cellSlot hg hq
      have hne : q ≠ p := fun e => ei (h.cell_unique hg hg (e ▸ hq) hc).2
      exact ⟨sl', (update_of_ne hne ..).trans hsl', hplace⟩
    · have hne' : q ≠ p := by
        rintro rfl
        obtain ⟨sl1, hsl1, hg1, _⟩ := h.cellSlot hg hc
        cases hq.symm.trans hsl1
        exact hne hg1
      exact (update_of_ne hne' ..).trans hq
    cases hg.symm.trans ht'
    have hne : i ≠ n := by
      rintro rfl
      cases hc.symm.trans hq
      exact (hgone hq').1 rfl
    rw [freeSlotId_cell, if_neg hne]
    exact hq
  exact
    { old := fun {q sl'} hq => by
        obtain ⟨hne, hq⟩ := hgone hq
        exact ⟨hq, fun e => (mem_erase_of_ne hne).mpr (((h.slotsOk hob).old hq).2 e)⟩
      copy := fun {q} hq => by
        obtain ⟨hne, hq'⟩ := hnd.mem_erase_iff.mp hq
        rw [update_of_ne hne]
        exact h.copySlot hob hq'
      other := fun {q sl'} hq hne => by
        have hne' : q ≠ p := by
          rintro rfl
          cases hp.symm.trans hq
          exact hne rfl
        exact (update_of_ne hne' ..).trans hq
      nodup := hnd.erase p }

end Recounting

end ChCore.Capability
