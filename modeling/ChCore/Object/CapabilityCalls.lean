/-
  File: ChCore/Object/CapabilityCalls.lean
  Subject: What each capability call does to a state that satisfies `CapInv`.

  * `capStep_noStray` -- no call makes a slot without a table, as long as no copy needs a table
    to grow that cannot grow.
-/
import ChCore.Object.CapabilityInv

namespace ChCore.Capability

open Lib Common Function Option List

/-! ## 1. What each call does -/

/-- Another table with the same ids and the same slots. -/
structure SameSlots (t t' : SlotTable SlotPtr) : Prop where
  wf : TableWf t'
  bit : ∀ i, bitIn t'.slotsBmp i = bitIn t.slotsBmp i
  cell : ∀ i, t'.cell i = t.cell i

/-- A call failed: no slot, no object and no reference changed, a table may have grown. -/
def Untouched (s s' : Caps) : Prop :=
  s' = s ∨ ∃ g t t', s.groups g = some t ∧ SameSlots t t' ∧ s' = s.setGroup g t'

section Calls

variable {s s' : Caps} {env : Env}

theorem inv_untouched (h : CapInv s) (hu : Untouched s s') : CapInv s' := by
  rcases hu with rfl | ⟨g, t, t', hg, hsame, rfl⟩
  · exact h
  · exact inv_setGroup h hg hsame.wf hsame.bit hsame.cell

theorem Untouched.slots_eq (hu : Untouched s s') : s'.slots = s.slots := by
  rcases hu with rfl | ⟨g, t, t', _, _, rfl⟩
  · rfl
  · rfl

theorem Untouched.log_eq (hu : Untouched s s') : s'.log = s.log := by
  rcases hu with rfl | ⟨g, t, t', _, _, rfl⟩
  · rfl
  · rfl

variable {g src dst : GroupPtr} {t : SlotTable SlotPtr} {r id : Int} {o : ObjPtr} {ob : Object}
  {sl slot : ObjectSlot} {p : SlotPtr} {rights : Option Nat}

theorem CapInv.cell_of_free (h : CapInv s) (hg : s.groups g = some t) {i : Nat}
    (hfree : bitIn t.slotsBmp i = false) : t.cell i = none := by
  rw [h.bitCell hg, isSome_eq_false_iff, isNone_iff_eq_none] at hfree
  exact hfree

/-- An id that was taken is given back: `out_free_slot_id`. -/
theorem sameSlots_giveBack (h : CapInv s) (hg : s.groups g = some t) {r : AllocResult SlotPtr}
    (ha : allocSlotId env.kz env.beyond t = some r) :
    SameSlots t (freeSlotIdInt r.table r.ret) := by
  unfold freeSlotIdInt
  rcases allocSlotId_spec (h.wf hg) ha with ⟨hret, htab⟩ | ⟨e, hret, htaken⟩
  · rw [hret, htab]
    exact ⟨h.wf hg, fun _ => rfl, fun _ => rfl⟩
  rw [hret, if_neg (by omega)]
  refine ⟨freeSlotId_wf htaken.wf e, fun i => ?_, fun i => ?_⟩
  · rw [freeSlotId_bit, htaken.bit]
    by_cases hi : i = e
    · simp [hi, htaken.free]
    · simp [hi]
  rw [freeSlotId_cell, htaken.cell]
  split
  · rename_i hi
    rw [hi]
    exact (h.cell_of_free hg htaken.free).symm
  · rfl

/-- An id is taken and a slot installed under it. An error code as the id leaves the table. -/
theorem installs_of_alloc (h : CapInv s) {ob' : Object} {t' : SlotTable SlotPtr}
    {r : AllocResult SlotPtr} (hg : s.groups sl.capGroup = some t)
    (ha : allocSlotId env.kz env.beyond t = some r) (hid : sl.slotId = r.ret)
    (hi : installSlot env.beyond r.table r.ret s.nextSlot = some t') (hob : s.objects o = some ob)
    (hsl : sl.isvalid = true ∧ sl.object = o) (hperm : ob'.copies.Perm (s.nextSlot :: ob.copies))
    (hcount : ob'.refcount = ob.refcount + 1) : Installs s o ob ob' sl t t' := by
  have hfresh : s.nextSlot ∉ ob.copies := by
    intro hmem
    obtain ⟨sl', hsl', _⟩ := h.copySlot hob hmem
    exact h.slot_ne_next hsl' rfl
  have hmem : ∀ x, x ∈ ob'.copies ↔ x = s.nextSlot ∨ x ∈ ob.copies := by
    intro x
    rw [hperm.mem_iff, mem_cons]
  have hnd : ob'.copies.Nodup :=
    hperm.nodup_iff.mpr (nodup_cons.mpr ⟨hfresh, h.nodup hob⟩)
  have hlen : ob'.copies.length = ob.copies.length + 1 := hperm.length_eq
  rcases allocSlotId_spec (h.wf hg) ha with ⟨hret, htab⟩ | ⟨e, hret, htaken⟩
  · rcases installSlot_cases hi with ⟨_, rfl⟩ | ⟨n, hn, _⟩
    · rw [htab]
      refine ⟨hg, hob, h.wf hg, h.bitCell hg, fun i x hx => .inl hx, fun i x hx => hx,
        fun i hi => ?_, hsl, hmem, hnd, hlen, hcount⟩
      rw [hid, hret] at hi
      exact absurd hi (by unfold ENOMEM; omega)
    · rw [hret] at hn
      exact absurd hn (by unfold ENOMEM; omega)
  rcases installSlot_cases hi with ⟨hneg, _⟩ | ⟨n, hn, rfl⟩
  · exact absurd hneg (by omega)
  obtain rfl : n = e := by omega
  have hcell := set_cell htaken.wf htaken.lt s.nextSlot
  have hnone := h.cell_of_free hg htaken.free
  refine ⟨hg, hob, set_wf htaken.wf n _, fun i => ?_, fun i x hx => ?_, fun i x hx => ?_,
    fun i hi => ?_, hsl, hmem, hnd, hlen, hcount⟩
  · rw [hcell]
    rw [htaken.bit]
    split
    · simp [*]
    · rename_i hne
      rw [htaken.cell, h.bitCell hg]
      simp [hne]
  · rw [hcell] at hx
    split at hx
    · rename_i ei
      cases hx
      exact .inr ⟨rfl, by rw [hid, hret, ei]⟩
    · rw [htaken.cell] at hx
      exact .inl hx
  · rw [hcell]
    split
    · rename_i ei
      rw [ei, hnone] at hx
      cases hx
    · rw [htaken.cell]
      exact hx
  · obtain rfl : n = i := by omega
    rw [hcell, if_pos rfl]

/-- **`cap_alloc`** fails, or publishes the object under a new id. -/
theorem capAlloc_cases (h : CapInv s) {rights : Nat} (hc : capAlloc env s g o rights = some (r, s')) :
    Untouched s s' ∨ ∃ ob ob' sl t t', Installs s o ob ob' sl t t' ∧ 0 ≤ sl.slotId ∧
      s' = installed s o ob' sl t' (s.log ++ [.publish o]) := by
  unfold capAlloc at hc
  split at hc
  · rename_i ob t hob hg
    split at hc
    · cases hc
    rename_i res ha
    split at hc
    · rename_i hneg
      cases hc
      rcases allocSlotId_spec (h.wf hg) ha with ⟨_, htab⟩ | ⟨e, hret, _⟩
      · rw [htab]
        exact .inl (.inr ⟨g, t, t, hg, ⟨h.wf hg, fun _ => rfl, fun _ => rfl⟩, rfl⟩)
      · exact absurd hneg (by omega)
    rename_i hnn
    split at hc
    · cases hc
      exact .inl (.inr ⟨g, t, _, hg, sameSlots_giveBack h hg ha, rfl⟩)
    simp only at hc
    split at hc
    · cases hc
    rename_i hz
    split at hc
    · cases hc
    rename_i t' hi
    cases hc
    have hz' : ob.refcount = 0 := by simpa using hz
    exact .inr ⟨ob, _, ⟨res.ret, g, true, rights, o⟩, t, t',
      installs_of_alloc h hg ha rfl hi hob ⟨rfl, rfl⟩ (List.Perm.refl _) (by rw [hz']),
      by simpa using hnn, rfl⟩
  · cases hc

theorem insertBehind_perm {node new : SlotPtr} :
    ∀ {ps : List SlotPtr}, node ∈ ps → (insertBehind node new ps).Perm (new :: ps)
  | [], h => absurd h not_mem_nil
  | p :: ps, h => by
    unfold insertBehind
    split
    · exact List.Perm.swap _ _ _
    rename_i hne
    have hmem : node ∈ ps := by
      rcases mem_cons.mp h with e | e
      · exact absurd e.symm hne
      · exact e
    exact ((insertBehind_perm hmem).cons p).trans (List.Perm.swap _ _ _)

/-- Growing the destination table fails although the copy needs it: the case `cap_copy` does not
    see. -/
def GrowFails (env : Env) (t : SlotTable SlotPtr) : Prop :=
  (findEmpty env.beyond t).1 = none ∧ env.kz ≠ Kzalloc.ok
  deriving Decidable

/-- The copy of a valid source slot finds a free id in the destination, or can grow it. -/
def CopyFits (env : Env) (s : Caps) (src dst : GroupPtr) (srcSlotId : Int) : Prop :=
  ∀ tsrc tdst p, s.groups src = some tsrc → s.groups dst = some tdst →
    getSlot tsrc srcSlotId = some p → ¬ GrowFails env tdst

/-- The second `get_slot` of `cap_copy` answers what the first did: a table that grew has moved and
    holds the same slots. -/
theorem getSlot_again (h : CapInv s) {tsrc tdst : SlotTable SlotPtr} {r : AllocResult SlotPtr}
    (hsrc : s.groups src = some tsrc) (hdst : s.groups dst = some tdst)
    (hp : getSlot tsrc id = some p) (ha : allocSlotId env.kz env.beyond tdst = some r) :
    getSlot (if src = dst then r.table else tsrc) id = some p := by
  obtain ⟨n, rfl, hcell⟩ := (getSlot_eq_some (h.wf hsrc)).mp hp
  split
  · rename_i e
    rw [e, hdst] at hsrc
    cases hsrc
    rcases allocSlotId_spec (h.wf hdst) ha with ⟨_, htab⟩ | ⟨_, _, htaken⟩
    · rw [htab]
      exact hp
    · exact (getSlot_eq_some htaken.wf).mpr ⟨n, rfl, (htaken.cell n).trans hcell⟩
  · exact hp

/-- **`cap_copy`** fails, or makes a slot for the object of the source slot. -/
theorem capCopy_cases (h : CapInv s) (hc : capCopy env s src dst id rights = some (r, s')) :
    (r < 0 ∧ Untouched s s') ∨ ∃ o ob ob' sl t t', Installs s o ob ob' sl t t' ∧
      0 < ob.refcount ∧ (CopyFits env s src dst id → 0 ≤ sl.slotId) ∧
      s' = installed s o ob' sl t' s.log := by
  unfold capCopy at hc
  split at hc
  · rename_i tsrc tdst hsrc hdst
    split at hc
    · cases hc
      exact .inl ⟨by decide, .inl rfl⟩
    rename_i p hp
    split at hc
    · cases hc
    split at hc
    · cases hc
      exact .inl ⟨by decide, .inl rfl⟩
    split at hc
    · cases hc
    rename_i res ha
    have hspec := allocSlotId_spec (h.wf hdst) ha
    split at hc
    · -- the value the source compares with is never returned
      rename_i hm1
      rcases hspec with ⟨hret, _⟩ | ⟨e, hret, _⟩
      · rw [hret] at hm1
        exact absurd hm1 (by decide)
      · exact absurd hm1 (by omega)
    split at hc
    · cases hc
      exact .inl ⟨by decide, .inr ⟨dst, tdst, _, hdst, sameSlots_giveBack h hdst ha, rfl⟩⟩
    split at hc
    · cases hc
    rename_i q hq
    have hq' : q = p := by
      rw [getSlot_again h hsrc hdst hp ha] at hq
      exact (some.inj hq).symm
    split at hc
    · cases hc
    rename_i slot hslot
    split at hc
    · cases hc
    rename_i ob hob
    simp only at hc
    split at hc
    · cases hc
    rename_i t' hi
    cases hc
    have hmem : q ∈ ob.copies := ((h.slotsOk hob).old hslot).2 rfl
    have hpos := h.refcount_pos hob hslot
    refine .inr ⟨slot.object, ob, _,
      ⟨res.ret, dst, true, rights.getD slot.rights, slot.object⟩, tdst, t',
      installs_of_alloc h hdst ha rfl hi hob ⟨rfl, rfl⟩
        (insertBehind_perm hmem) rfl, hpos, fun hfits => ?_, rfl⟩
    by_contra hneg
    exact hfits _ _ _ hsrc hdst hp
      (allocSlotId_neg (h.wf hdst) ha (by simpa using hneg))
  · cases hc

/-- The inputs for which `cap_copy` returns an error code: the source id names no slot; or there is
    no memory for the slot; or the destination cannot grow, and the word of the heap that
    `install_slot` takes for a part of the bitmap does not stop the kernel. -/
def CopyRefused (env : Env) (tsrc tdst : SlotTable SlotPtr) (id : Int) : Prop :=
  getSlot tsrc id = none ∨
    ¬ ((findEmpty env.beyond tdst).1 = none ∧ AtLimit tdst) ∧
      (env.kmalloc = false ∨
        GrowFails env tdst ∧
          getBit (toUnsigned (-ENOMEM)) (view tdst.slotsBmp env.beyond.bmp) = true)

theorem capCopy_groups {r : Int × Caps} (hc : capCopy env s src dst id rights = some r) :
    ∃ tsrc tdst, s.groups src = some tsrc ∧ s.groups dst = some tdst := by
  unfold capCopy at hc
  split at hc
  · rename_i tsrc tdst hsrc hdst
    exact ⟨tsrc, tdst, hsrc, hdst⟩
  · cases hc

/-- **When `cap_copy` returns an error code.** -/
theorem capCopy_error_iff (h : CapInv s) {tsrc tdst : SlotTable SlotPtr}
    (hsrc : s.groups src = some tsrc) (hdst : s.groups dst = some tdst) :
    (∃ r s', capCopy env s src dst id rights = some (r, s') ∧ r < 0) ↔
      CopyRefused env tsrc tdst id := by
  unfold CopyRefused capCopy
  simp only [hsrc, hdst]
  cases hp : getSlot tsrc id with
  | none => exact ⟨fun _ => .inl rfl, fun _ => ⟨_, _, rfl, by decide⟩⟩
  | some p =>
  obtain ⟨n, rfl, hcell⟩ := (getSlot_eq_some (h.wf hsrc)).mp hp
  obtain ⟨sl, hsl, _⟩ := h.cellSlot hsrc hcell
  obtain ⟨hv, _, ob, hob, _⟩ := h.slotObj hsl
  simp only [hsl, hv, Bool.not_true, Bool.false_eq_true, if_false, reduceCtorEq, false_or]
  have hlim := allocSlotId_eq_none (k := env.kz) (b := env.beyond) (h.wf hdst)
  cases ha : allocSlotId env.kz env.beyond tdst with
  | none => exact ⟨fun ⟨_, _, h', _⟩ => (by cases h'), fun ⟨h', _⟩ => absurd (hlim.mp ha) h'⟩
  | some r =>
  have hfits : ¬ ((findEmpty env.beyond tdst).1 = none ∧ AtLimit tdst) := by
    rw [← hlim, ha]
    exact nofun
  have hagain := getSlot_again h hsrc hdst hp ha
  simp only [hagain, hsl, hob]
  cases hk : env.kmalloc with
  | false =>
    refine ⟨fun _ => ⟨hfits, .inl rfl⟩, fun _ => ?_⟩
    split
    · exact ⟨_, _, rfl, by decide⟩
    · exact ⟨_, _, rfl, by decide⟩
  | true =>
  simp only [Bool.not_true, Bool.false_eq_true, if_false, reduceCtorEq, false_or]
  rcases allocSlotId_spec (h.wf hdst) ha with ⟨hret, htab⟩ | ⟨e, hret, htaken⟩
  · have hg : GrowFails env tdst :=
      allocSlotId_neg (h.wf hdst) ha (by rw [hret]; decide)
    rw [hret, htab]
    cases hbit : getBit (toUnsigned (-ENOMEM)) (view tdst.slotsBmp env.beyond.bmp) with
    | false =>
      have hstop : installSlot env.beyond tdst (-ENOMEM) s.nextSlot = none := if_pos hbit
      rw [hstop]
      exact ⟨fun ⟨_, _, h', _⟩ => (by cases h'), fun ⟨_, _, h'⟩ => (by cases h')⟩
    | true =>
    have hwild : installSlot env.beyond tdst (-ENOMEM) s.nextSlot = some tdst := by
      unfold installSlot
      rw [hbit, if_neg (by decide), if_pos (by decide)]
    rw [hwild]
    exact ⟨fun _ => ⟨hfits, hg, rfl⟩, fun _ => ⟨_, _, rfl, by decide⟩⟩
  obtain ⟨t', ht'⟩ := installSlot_taken (b := env.beyond) htaken s.nextSlot
  rw [hret, if_neg (by omega), ht']
  refine ⟨fun ⟨r', _, h', hneg⟩ => ?_, fun ⟨_, hg, _⟩ => ?_⟩
  · simp only [some.injEq, Prod.mk.injEq] at h'
    omega
  obtain ⟨acc, hfail⟩ := allocSlotId_fails (h.wf hdst) hg.1 hg.2
    (fun hl => hfits ⟨hg.1, hl⟩)
  rw [ha] at hfail
  cases hfail
  have hret' : -ENOMEM = (e : Int) := hret
  exact absurd hret' (by unfold ENOMEM; omega)

/-- What `__cap_free` of a valid slot leaves. -/
structure FreesSlot (s s' : Caps) (g : GroupPtr) (id : Int) (n : Nat) (t : SlotTable SlotPtr)
    (p : SlotPtr) (sl : ObjectSlot) (ob : Object) (x : Option Object) (ends : List Event) :
    Prop where
  isId : id = n
  group : s.groups g = some t
  cell : t.cell n = some p
  slot : s.slots p = some sl
  object : s.objects sl.object = some ob
  count : Recount sl.object ob (ob.copies.erase p) s.refs true x ends
  post : s' = recounted s sl.object x (update s.slots p none)
    (update s.groups g (some (freeSlotId t n))) s.refs ends

/-- **`__cap_free`** fails and changes nothing, or releases the slot. -/
theorem capFree_cases (h : CapInv s) (hc : capFree s g id = some (r, s')) :
    (r ≠ 0 ∧ s' = s ∧ ∀ t, s.groups g = some t → getSlot t id = none) ∨
    (r = 0 ∧ ∃ n t p sl ob x ends, FreesSlot s s' g id n t p sl ob x ends) := by
  unfold capFree at hc
  split at hc
  · cases hc
  rename_i t hg
  split at hc
  · rename_i hnull
    cases hc
    refine .inl ⟨by decide, rfl, fun t' hg' => ?_⟩
    rw [hg] at hg'
    cases hg'
    exact hnull
  rename_i p hp
  obtain ⟨n, rfl, hcell⟩ := (getSlot_eq_some (h.wf hg)).mp hp
  split at hc
  · cases hc
  rename_i sl hsl
  split at hc
  · rename_i hv
    rw [(h.slotObj hsl).1] at hv
    cases hv
  split at hc
  · cases hc
  rename_i ob hob
  have hmem : p ∈ ob.copies := ((h.slotsOk hob).old hsl).2 rfl
  have hlen := length_erase_of_mem hmem
  have hpos := length_pos_of_mem hmem
  have hcount := h.count hob
  have hid : freeSlotIdInt t (n : Int) = freeSlotId t n := by
    unfold freeSlotIdInt
    rfl
  rw [hid] at hc
  simp only at hc
  split at hc
  · split at hc
    · cases hc
    rename_i hempty
    cases hc
    have hempty' : ob.copies.erase p = [] := not_not.mp hempty
    refine .inr ⟨rfl, n, t, p, sl, ob, none, endsOf sl.object ob.type true, rfl,
      hg, hcell, hsl, hob, .freed hempty' (by omega), ?_⟩
    unfold endsOf
    cases hd : ob.type.hasDeinit
    · simp [kfreeObject, Caps.logged, Caps.setObject, Caps.setSlot, Caps.setGroup, recounted]
    · simp [kfreeObject, Caps.logged, Caps.setObject, Caps.setSlot, Caps.setGroup, recounted]
  cases hc
  have hrc : ob.refcount - 1 =
      (ob.copies.erase p).length + s.refs.count sl.object := by omega
  refine .inr ⟨rfl, n, t, p, sl, ob, _, [], rfl, hg, hcell, hsl, hob, .kept (by omega), ?_⟩
  rw [hrc]
  simp [Caps.setObject, Caps.setSlot, Caps.setGroup, recounted]

/-- **`get_opaque`** answers `NULL` and changes nothing, or takes one reference on the object of
    the slot. -/
theorem getOpaque_cases (h : CapInv s) {type : Option ObjectType} {res : Option ObjPtr}
    (hc : (getOpaque env s g id type).1 = some (res, s')) :
    (res = none ∧ s' = s) ∨ ∃ (n : Nat) (t : _) (p : _) (sl : _) (ob : _) (x : _),
      id = n ∧ s.groups g = some t ∧
      t.cell n = some p ∧ s.slots p = some sl ∧ s.objects sl.object = some ob ∧
      (type = none ∨ type = some ob.type) ∧ res = some sl.object ∧
      Recount sl.object ob ob.copies (sl.object :: s.refs) false (some x) [] ∧
      s' = recounted s sl.object (some x) s.slots s.groups (sl.object :: s.refs) [] := by
  unfold getOpaque at hc
  split at hc
  · cases hc
  rename_i t hg
  split at hc
  · cases hc
  · cases hc
    exact .inl ⟨rfl, rfl⟩
  split at hc
  · cases hc
  rename_i p hp
  obtain ⟨n, rfl, hcell⟩ := (getSlot_eq_some (h.wf hg)).mp hp
  split at hc
  · cases hc
  rename_i sl hsl
  split at hc
  · cases hc
  split at hc
  · cases hc
  rename_i ob hob
  split at hc
  · rename_i hty
    cases hc
    have hrc : ob.refcount + 1 =
        ob.copies.length + (sl.object :: s.refs).count sl.object := by
      rw [count_cons_self, h.count hob]
      omega
    refine .inr ⟨n, t, p, sl, ob, _, rfl, hg, hcell, hsl, hob, hty, rfl, .kept (by omega), ?_⟩
    rw [hrc]
    simp [Caps.setObject, recounted]
  · cases hc
    exact .inl ⟨rfl, rfl⟩

/-- The object `o` with one more reference, held by the caller. -/
def referenced (s : Caps) (o : ObjPtr) (ob : Object) : Caps :=
  { s.setObject o (some { ob with refcount := ob.refcount + 1 }) with refs := o :: s.refs }

/-- **`get_opaque` of an id that is not in use** answers `NULL`. -/
theorem getOpaque_free (h : CapInv s) {n : Nat} (hg : s.groups g = some t) (hn : n < t.slotsSize)
    (hc : t.cell n = none) (type : Option ObjectType) :
    getOpaque env s g (n : Int) type =
      (some (none, s), [⟨.slotsBmp, n / 64, t.slotsBmp.length⟩]) := by
  unfold getOpaque
  rw [hg]
  simp only
  rw [isValidSlotId_of_lt (h.wf hg) (h.bitCell hg) _ _ hn, hc]
  rfl

/-- **`get_opaque` of an id in use** answers the object of its slot with one more reference, or
    `NULL` where the type is another. -/
theorem getOpaque_used (h : CapInv s) {n : Nat} (hg : s.groups g = some t) (hc : t.cell n = some p)
    (hsl : s.slots p = some sl) (hob : s.objects sl.object = some ob) (type : Option ObjectType) :
    getOpaque env s g (n : Int) type =
      (some (if type = none ∨ type = some ob.type then
          (some sl.object, referenced s sl.object ob) else (none, s)),
        slotReads t n ++ [⟨.slots, n, t.slots.length⟩]) := by
  have hn : n < t.slotsSize := by
    by_contra hge
    have hbit := (h.wf hg).bit_beyond (not_lt.mp hge)
    rw [h.bitCell hg, hc] at hbit
    cases hbit
  have hv : sl.isvalid = true := (h.slotObj hsl).1
  unfold getOpaque
  rw [hg]
  simp only
  rw [isValidSlotId_of_lt (h.wf hg) (h.bitCell hg) _ _ hn, hc]
  have hget : getSlot t (n : Int) = some p := (getSlot_eq_some (h.wf hg)).mpr ⟨n, rfl, hc⟩
  simp only [isSome_some, if_true, hget, hsl, hv, hob, Bool.not_true, Bool.false_eq_true,
    if_false, Int.toNat_natCast]
  split
  · rfl
  · rfl

/-- **`obj_put`** of a held reference gives it back; the object goes with its last one, and no
    deinit function is called. -/
theorem objPut_cases (h : CapInv s) (hmem : o ∈ s.refs) (hc : objPut s o = some s') :
    ∃ ob x ends, s.objects o = some ob ∧
      Recount o ob ob.copies (s.refs.erase o) false x ends ∧
      s' = recounted s o x s.slots s.groups (s.refs.erase o) ends := by
  unfold objPut at hc
  split at hc
  · cases hc
  rename_i ob hob
  have hpos : 0 < s.refs.count o := count_pos_iff.mpr hmem
  have hcount := h.count hob
  have herase : (s.refs.erase o).count o = s.refs.count o - 1 := count_erase_self
  split at hc
  · cases hc
    refine ⟨ob, none, endsOf o ob.type false, hob, .freed ?_ (by omega), ?_⟩
    · exact eq_nil_of_length_eq_zero (by omega)
    · simp [kfreeObject, Caps.logged, Caps.setObject, recounted, endsOf]
  · cases hc
    have hrc : ob.refcount - 1 = ob.copies.length + (s.refs.erase o).count o := by omega
    refine ⟨ob, _, [], hob, .kept (by omega), ?_⟩
    rw [hrc]
    simp [Caps.setObject, recounted]

/-! ## 2. The invariant over the calls -/

theorem FreesSlot.inv (h : CapInv s) {n : Nat} {x : Option Object} {ends : List Event}
    (hf : FreesSlot s s' g id n t p sl ob x ends) : CapInv s' := by
  rw [hf.post]
  exact inv_recount_slot h hf.group hf.cell hf.slot hf.object hf.count

theorem FreesSlot.slot_old {n : Nat} {x : Option Object} {ends : List Event}
    (hf : FreesSlot s s' g id n t p sl ob x ends) {q : SlotPtr} {sl' : ObjectSlot}
    (hq : s'.slots q = some sl') : s.slots q = some sl' := by
  rw [hf.post] at hq
  have hq' : update s.slots p none q = some sl' := hq
  rw [update_apply] at hq'
  split at hq'
  · cases hq'
  · exact hq'

/-- A slot knows its place, so `__cap_free` of that place releases the slot. -/
theorem freesSlot_of_slot (h : CapInv s) (hslot : s.slots p = some slot)
    (hf : capFree s slot.capGroup slot.slotId = some (0, s')) :
    ∃ n t ob x ends, FreesSlot s s' slot.capGroup slot.slotId n t p slot ob x ends := by
  rcases capFree_cases h hf with ⟨hr, _⟩ | ⟨_, n, t, q, sl, ob, x, ends, hfs⟩
  · exact absurd rfl hr
  obtain ⟨t', ht', hcell⟩ := h.slotCell hslot hfs.isId
  rw [hfs.group] at ht'
  cases ht'
  rw [hfs.cell] at hcell
  cases hcell
  have hsl := hfs.slot
  rw [hslot] at hsl
  cases hsl
  exact ⟨n, t, ob, x, ends, hfs⟩

/-- One round of the walk of `obj_free`: a reference is held, so the object stays. -/
theorem freeHead {ps : List SlotPtr} (h : CapInv s) (hmem : o ∈ s.refs)
    (hob : s.objects o = some ob) (hps : ob.copies = p :: ps) (hslot : s.slots p = some slot)
    (hso : slot.object = o) (hf : capFree s slot.capGroup slot.slotId = some (0, s')) :
    CapInv s' ∧ s'.refs = s.refs ∧ s'.log = s.log ∧
      (∀ q sl, s'.slots q = some sl → s.slots q = some sl) ∧
      ∃ ob', s'.objects o = some ob' ∧ ob'.type = ob.type ∧ ob'.copies = ps := by
  obtain ⟨n, t, ob1, x, ends, hfs⟩ := freesSlot_of_slot h hslot hf
  have hinv := hfs.inv h
  have hold : ∀ q sl, s'.slots q = some sl → s.slots q = some sl := fun _ _ hq => hfs.slot_old hq
  obtain ⟨hid, hg, hc, hsl, hob1, hcount, hpost⟩ := hfs
  rw [hso, hob] at hob1
  cases hob1
  rw [hso, hps, erase_cons_head] at hcount
  rw [hso] at hpost
  have hpos : 0 < s.refs.count o := count_pos_iff.mpr hmem
  cases hcount with
  | freed _ hz => exact absurd hz (by omega)
  | kept _ =>
    subst hpost
    exact ⟨hinv, rfl, append_nil _, hold, _, (recounted_objects o).trans (if_pos rfl), rfl, rfl⟩

/-- **The walk of `obj_free`**: with a reference held on the object it releases every slot of the
    copies list, and the object stays. -/
theorem freeCopies_spec {o : ObjPtr} : ∀ {ps : List SlotPtr} {s s' : Caps} {ob : Object},
    CapInv s → o ∈ s.refs → s.objects o = some ob → ob.copies = ps → freeCopies ps s = some s' →
    CapInv s' ∧ s'.refs = s.refs ∧ s'.log = s.log ∧
      (∀ q sl, s'.slots q = some sl → s.slots q = some sl) ∧
      ∃ ob', s'.objects o = some ob' ∧ ob'.type = ob.type ∧ ob'.copies = []
  | [], s, s', ob, h, hmem, hob, hps, hf => by
    cases hf
    exact ⟨h, rfl, rfl, fun _ _ hq => hq, ob, hob, rfl, hps⟩
  | p :: ps, s, s', ob, h, hmem, hob, hps, hf => by
    have hp : p ∈ ob.copies := by rw [hps]; exact mem_cons_self
    obtain ⟨slot, hslot, hso⟩ := h.copySlot hob hp
    unfold freeCopies at hf
    rw [hslot] at hf
    simp only at hf
    split at hf
    · cases hf
    rename_i r s1 hfree
    split at hf
    · cases hf
    rename_i hr
    rw [not_not.mp hr] at hfree
    obtain ⟨h1, hrefs, hlog, hold, ob1, hob1, hty, hps1⟩ :=
      freeHead h hmem hob hps hslot hso hfree
    obtain ⟨h2, hrefs', hlog', hold', ob2, hob2, hty', hps2⟩ :=
      freeCopies_spec h1 (hrefs ▸ hmem) hob1 hps1 hf
    exact ⟨h2, hrefs'.trans hrefs, hlog'.trans hlog,
      fun q sl hq => hold q sl (hold' q sl hq), ob2, hob2, hty'.trans hty, hps2⟩

section

variable (h : CapInv s)

include h

/-- With a reference held `obj_free` is the walk over the copies list. -/
theorem objFree_held (hmem : o ∈ s.refs) (hob : s.objects o = some ob) :
    objFree s o = freeCopies ob.copies s := by
  have hpos : 0 < s.refs.count o := count_pos_iff.mpr hmem
  have hcount := h.count hob
  unfold objFree
  rw [hob]
  exact if_neg (by omega)

/-- **`cap_revoke`** fails and changes nothing, or leaves the object without slots, and frees it
    when no reference is held, without a call of its deinit function. -/
theorem capRevoke_cases (hc : capRevoke env s g id = some (r, s')) :
    (s' = s ∧ ∀ t, s.groups g = some t → getSlot t id = none) ∨
    ∃ (n : Nat) (t : _) (p : _) (sl : _) (ob : _),
      id = n ∧ s.groups g = some t ∧ t.cell n = some p ∧
      s.slots p = some sl ∧ s.objects sl.object = some ob ∧ CapInv s' ∧
      (∀ q sl', s'.slots q = some sl' → s.slots q = some sl') ∧
      s'.log = s.log ++
        (if ob.refcount = ob.copies.length then endsOf sl.object ob.type false else []) := by
  unfold capRevoke at hc
  split at hc
  · cases hc
  · rename_i s1 hget
    cases hc
    rcases getOpaque_cases h hget with ⟨_, rfl⟩ | ⟨n, t, p, sl, ob, x, _, _, _, _, _, _, hres, _⟩
    · refine .inl ⟨rfl, fun t hg => ?_⟩
      by_contra hne
      obtain ⟨p, hp⟩ := ne_none_iff_exists'.mp hne
      obtain ⟨n, rfl, hcell⟩ := (getSlot_eq_some (h.wf hg)).mp hp
      obtain ⟨sl, hsl, _⟩ := h.cellSlot hg hcell
      obtain ⟨_, _, ob, hob, _⟩ := h.slotObj hsl
      rw [getOpaque_used h hg hcell hsl hob] at hget
      cases hget
    · cases hres
  rename_i o s1 hget
  split at hc
  · cases hc
  rename_i s2 hfree
  split at hc
  · cases hc
  rename_i s3 hput
  cases hc
  rcases getOpaque_cases h hget with
    ⟨hres, _⟩ | ⟨n, t, p, sl, ob, x, rfl, hg, hcell, hsl, hob, _, hres, hcount, hpost⟩
  · cases hres
  cases hres
  have hinv1 : CapInv s1 := by
    rw [hpost]
    exact inv_recount_refs h hob (h.refcount_pos hob hsl) hcount
      (fun o' ho' => count_cons_of_ne (ho'.symm))
  cases hcount with
  | kept _ =>
  subst hpost
  rw [objFree_held hinv1 mem_cons_self
    ((recounted_objects sl.object).trans (if_pos rfl))] at hfree
  obtain ⟨hinv2, hrefs, hlog, hslots, ob2, hob2, htype, hnil⟩ :=
    freeCopies_spec hinv1 mem_cons_self
      ((recounted_objects sl.object).trans (if_pos rfl)) rfl hfree
  have hrefs' : s2.refs = sl.object :: s.refs := hrefs
  have hmem : sl.object ∈ s2.refs := by rw [hrefs']; exact mem_cons_self
  obtain ⟨ob3, y, ends, hob3, hcount3, hpost3⟩ := objPut_cases hinv2 hmem hput
  rw [hob2] at hob3
  cases hob3
  have hpos2 : 0 < ob2.refcount := by
    rw [hinv2.count hob2]
    exact Nat.add_pos_right _ (count_pos_iff.mpr hmem)
  have hinv3 := inv_recount_refs hinv2 hob2 hpos2 hcount3
    (fun o' ho' => count_erase_of_ne ho')
  refine .inr ⟨n, t, p, sl, ob, rfl, hg, hcell, hsl, hob, hpost3 ▸ hinv3, fun q sl' hq => ?_, ?_⟩
  · rw [hpost3] at hq
    exact hslots q sl' hq
  rw [hpost3]
  show s2.log ++ ends = _
  have hlog' : s2.log = s.log := hlog.trans (append_nil _)
  rw [hlog']
  have hc := h.count hob
  rw [hrefs', erase_cons_head, hnil] at hcount3
  cases hcount3 with
  | kept hk => rw [if_neg (by simp only [length_nil] at hk; omega)]
  | freed _ hz =>
    rw [if_pos (by omega)]
    have htype' : ob2.type = ob.type := htype
    rw [htype']

/-- A new object: no slot, no reference and no event names it yet. -/
theorem inv_objAlloc (type : ObjectType) (size : Nat) : CapInv (objAlloc s type size) := by
  have hslot : ∀ {p sl}, s.slots p = some sl → sl.object ≠ s.nextObj := by
    intro p sl hp
    obtain ⟨_, _, ob, hob, _⟩ := h.slotObj hp
    exact ne_of_lt (h.objLt hob)
  have href : s.nextObj ∉ s.refs := by
    intro hmem
    obtain ⟨ob, hob⟩ := h.refsLive hmem
    exact lt_irrefl _ (h.objLt hob)
  have hlog : ∀ e ∈ s.log, e.object ≠ s.nextObj := fun e he => ne_of_lt (h.logLt e he)
  refine inv_object h rfl { h with } (Nat.lt_succ_self _)
    ⟨le_rfl, Nat.le_succ _⟩ (fun _ => Iff.rfl) (fun _ _ => rfl) (fun _ => Iff.rfl)
    (fun hp e => absurd e (hslot hp)) (fun ho => absurd ho href) fun hx => ?_
  cases hx
  exact
    { copySlot := nofun
      nodup := nodup_nil
      count := ((zero_add _).trans (count_eq_zero.mpr href)).symm
      logLive := fun e he hend => hlog e he hend.object_eq
      published := ⟨fun hp => absurd rfl (hlog _ hp), fun hp => absurd hp (lt_irrefl 0)⟩ }

theorem inv_newGroup {size : Nat} (hn : newGroup env s size = some s') : CapInv s' := by
  unfold newGroup at hn
  split at hn
  · cases hn
  · cases hn
  rename_i t ht
  cases hn
  obtain ⟨n, hm, hle, rfl, _⟩ := slotTableInit_ok ht
  have hcell : ∀ i, (zeroTable n : SlotTable SlotPtr).cell i = none := by
    intro i
    show ((List.replicate n none)[i]?).join = none
    rw [List.getElem?_replicate]
    split <;> rfl
  refine h.tables (h.tablesOk_update (zeroTable_wf hm hle) (Nat.lt_succ_self _) (Nat.le_succ _)
    (fun i => ?_) (fun {i p} hc => ?_) (fun hp _ => hp)
    (fun ht _ _ => absurd (h.groupLt ht) (lt_irrefl _)) .inl)
  · rw [hcell]
    exact bitIn_replicate_zero _ i
  · rw [hcell] at hc
    cases hc

theorem inv_capAlloc {rights : Nat} (hc : capAlloc env s g o rights = some (r, s')) :
    CapInv s' := by
  rcases capAlloc_cases h hc with hu | ⟨ob, ob', sl, t, t', hi, _, rfl⟩
  · exact inv_untouched h hu
  · exact inv_install h hi (.inr rfl)

theorem inv_capCopy (hc : capCopy env s src dst id rights = some (r, s')) : CapInv s' := by
  rcases capCopy_cases h hc with ⟨_, hu⟩ | ⟨o, ob, ob', sl, t, t', hi, hpos, _, rfl⟩
  · exact inv_untouched h hu
  · exact inv_install h hi (.inl ⟨rfl, hpos⟩)

theorem inv_capFree (hc : capFree s g id = some (r, s')) : CapInv s' := by
  rcases capFree_cases h hc with ⟨_, rfl, _⟩ | ⟨_, n, t, p, sl, ob, x, ends, hf⟩
  · exact h
  · exact hf.inv h

theorem inv_getOpaque {type : Option ObjectType} {res : Option ObjPtr}
    (hc : (getOpaque env s g id type).1 = some (res, s')) : CapInv s' := by
  rcases getOpaque_cases h hc with
    ⟨_, rfl⟩ | ⟨n, t, p, sl, ob, x, _, _, _, hsl, hob, _, _, hcount, rfl⟩
  · exact h
  exact inv_recount_refs h hob (h.refcount_pos hob hsl) hcount
    (fun o' ho' => count_cons_of_ne (ho'.symm))

theorem inv_objPut (hmem : o ∈ s.refs) (hc : objPut s o = some s') : CapInv s' := by
  obtain ⟨ob, x, ends, hob, hcount, rfl⟩ := objPut_cases h hmem hc
  have hpos : 0 < ob.refcount := by
    rw [h.count hob]
    exact Nat.add_pos_right _ (count_pos_iff.mpr hmem)
  exact inv_recount_refs h hob hpos hcount (fun o' ho' => count_erase_of_ne ho')

end

/-- `cap_move` is `cap_copy` and, where that succeeded, `cap_free`. -/
theorem capMove_cases (hc : capMove env s src dst id rights = some (r, s')) :
    (∃ r', capCopy env s src dst id rights = some (r', s')) ∨
    ∃ r1 s1 r2, capCopy env s src dst id rights = some (r1, s1) ∧
      capFree s1 src id = some (r2, s') := by
  unfold capMove at hc
  split at hc
  · cases hc
  rename_i r1 s1 hcopy
  split at hc
  · cases hc
    exact .inl ⟨_, hcopy⟩
  split at hc
  · cases hc
  rename_i r2 s2 hfree
  split at hc
  · cases hc
  · cases hc
    exact .inr ⟨_, _, _, hcopy, hfree⟩

/-- **Every call keeps the invariant**, whatever the allocator answers. -/
theorem capStep_inv (h : CapInv s) {a : CapAct} (hs : capStep s a = some s') : CapInv s' := by
  cases a with
  | group env size => exact inv_newGroup h hs
  | alloc type size =>
    cases hs
    exact inv_objAlloc h type size
  | publish env g o rights =>
    obtain ⟨⟨r, _⟩, hc, rfl⟩ := map_eq_some_iff.mp hs
    exact inv_capAlloc h hc
  | copy env src dst id rights =>
    obtain ⟨⟨r, _⟩, hc, rfl⟩ := map_eq_some_iff.mp hs
    exact inv_capCopy h hc
  | move env src dst id rights =>
    obtain ⟨⟨r, _⟩, hc, rfl⟩ := map_eq_some_iff.mp hs
    rcases capMove_cases hc with ⟨r', hcopy⟩ | ⟨r1, s1, r2, hcopy, hfree⟩
    · exact inv_capCopy h hcopy
    · exact inv_capFree (inv_capCopy h hcopy) hfree
  | free g id =>
    obtain ⟨⟨r, _⟩, hc, rfl⟩ := map_eq_some_iff.mp hs
    exact inv_capFree h hc
  | revoke env g id =>
    obtain ⟨⟨r, _⟩, hc, rfl⟩ := map_eq_some_iff.mp hs
    rcases capRevoke_cases h hc with ⟨rfl, _⟩ | ⟨_, _, _, _, _, _, _, _, _, _, hinv, _⟩
    · exact h
    · exact hinv
  | get env g id type =>
    obtain ⟨⟨r, _⟩, hc, rfl⟩ := map_eq_some_iff.mp hs
    exact inv_getOpaque h hc
  | put o =>
    simp only [capStep] at hs
    split at hs
    · rename_i hmem
      exact inv_objPut h hmem hs
    · cases hs

/-- The copies of a step fit into their tables. -/
def StepFits (s : Caps) : CapAct → Prop
  | .copy env src dst id _ => CopyFits env s src dst id
  | .move env src dst id _ => CopyFits env s src dst id
  | _ => True

theorem noStray_capCopy (h : CapInv s) (hn : NoStray s)
    (hc : capCopy env s src dst id rights = some (r, s')) (hfits : CopyFits env s src dst id) :
    NoStray s' := by
  rcases capCopy_cases h hc with ⟨_, hu⟩ | ⟨o, ob, ob', sl, t, t', hi, hpos, hid, rfl⟩
  · intro p sl hp
    rw [hu.slots_eq] at hp
    exact hn hp
  · exact noStray_install hn (hid hfits)

theorem noStray_capFree (h : CapInv s) (hn : NoStray s) (hc : capFree s g id = some (r, s')) :
    NoStray s' := by
  rcases capFree_cases h hc with ⟨_, rfl, _⟩ | ⟨_, n, t, p, sl, ob, x, ends, hf⟩
  · exact hn
  · exact fun hq => hn (hf.slot_old hq)

/-- **Every slot lies in its table**, as long as no copy needs a table to grow that cannot. -/
theorem capStep_noStray (h : CapInv s) (hn : NoStray s) {a : CapAct} (hf : StepFits s a)
    (hs : capStep s a = some s') : NoStray s' := by
  cases a with
  | group env size =>
    simp only [capStep, newGroup] at hs
    split at hs
    · cases hs
    · cases hs
    · cases hs
      exact hn
  | alloc type size =>
    cases hs
    exact hn
  | publish env g o rights =>
    obtain ⟨⟨r, _⟩, hc, rfl⟩ := map_eq_some_iff.mp hs
    rcases capAlloc_cases h hc with hu | ⟨ob, ob', sl, t, t', hi, hid, rfl⟩
    · intro p sl hp
      rw [hu.slots_eq] at hp
      exact hn hp
    · exact noStray_install hn hid
  | copy env src dst id rights =>
    obtain ⟨⟨r, _⟩, hc, rfl⟩ := map_eq_some_iff.mp hs
    exact noStray_capCopy h hn hc hf
  | move env src dst id rights =>
    obtain ⟨⟨r, _⟩, hc, rfl⟩ := map_eq_some_iff.mp hs
    rcases capMove_cases hc with ⟨r', hcopy⟩ | ⟨r1, s1, r2, hcopy, hfree⟩
    · exact noStray_capCopy h hn hcopy hf
    · exact noStray_capFree (inv_capCopy h hcopy) (noStray_capCopy h hn hcopy hf) hfree
  | free g id =>
    obtain ⟨⟨r, _⟩, hc, rfl⟩ := map_eq_some_iff.mp hs
    exact noStray_capFree h hn hc
  | revoke env g id =>
    obtain ⟨⟨r, _⟩, hc, rfl⟩ := map_eq_some_iff.mp hs
    rcases capRevoke_cases h hc with ⟨rfl, _⟩ | ⟨_, _, _, _, _, _, _, _, _, _, _, hold, _⟩
    · exact hn
    · exact fun hq => hn (hold _ _ hq)
  | get env g id type =>
    obtain ⟨⟨r, _⟩, hc, rfl⟩ := map_eq_some_iff.mp hs
    rcases getOpaque_cases h hc with ⟨_, rfl⟩ | ⟨_, _, _, _, _, _, _, _, _, _, _, _, _, _, rfl⟩
    · exact hn
    · exact hn
  | put o =>
  simp only [capStep] at hs
  split at hs
  · rename_i hmem
    obtain ⟨ob, x, ends, _, _, rfl⟩ := objPut_cases h hmem hs
    exact hn
  · cases hs

/-! ## 3. No call follows a dangling pointer

The model stops where the kernel would read freed memory. Under the invariant it does not: what
can stop a call is the size limit of a table, an `int` past a table (`isValidSlotId_past`), and a
slot in no table. -/

/-- **`__cap_free` returns**, for every `int`. -/
theorem capFree_total (h : CapInv s) (hg : s.groups g = some t) (id : Int) :
    ∃ r s', capFree s g id = some (r, s') := by
  unfold capFree
  rw [hg]
  simp only
  cases hp : getSlot t id with
  | none => exact ⟨_, _, rfl⟩
  | some p =>
  obtain ⟨n, rfl, hcell⟩ := (getSlot_eq_some (h.wf hg)).mp hp
  obtain ⟨sl, hsl, _⟩ := h.cellSlot hg hcell
  obtain ⟨hv, _, ob, hob, hmem⟩ := h.slotObj hsl
  have hcount := h.count hob
  have hlen := length_erase_of_mem hmem
  simp only [hsl, hv, Bool.not_true, Bool.false_eq_true, if_false, hob]
  split
  · -- the last reference was this slot, so the `BUG_ON` does not see another
    have hnil : ob.copies.erase p = [] := eq_nil_of_length_eq_zero (by omega)
    rw [if_neg (not_not.mpr hnil)]
    exact ⟨_, _, rfl⟩
  · exact ⟨_, _, rfl⟩

theorem getSlot_own (h : CapInv s) (hslot : s.slots p = some slot) (hid : 0 ≤ slot.slotId) :
    ∃ t, s.groups slot.capGroup = some t ∧ getSlot t slot.slotId = some p := by
  obtain ⟨i, hi⟩ := Int.eq_ofNat_of_zero_le hid
  obtain ⟨t, ht, hcell⟩ := h.slotCell hslot hi
  exact ⟨t, ht, (getSlot_eq_some (h.wf ht)).mpr ⟨i, hi, hcell⟩⟩

/-- **`__cap_free` of a slot with an id** returns 0. -/
theorem capFree_own (h : CapInv s) (hslot : s.slots p = some slot) (hid : 0 ≤ slot.slotId) :
    ∃ s', capFree s slot.capGroup slot.slotId = some (0, s') := by
  obtain ⟨t, ht, hget⟩ := getSlot_own h hslot hid
  obtain ⟨r, s1, hfree⟩ := capFree_total h ht slot.slotId
  rcases capFree_cases h hfree with ⟨_, _, hnone⟩ | ⟨hr, _⟩
  · rw [hnone t ht] at hget
    cases hget
  · exact ⟨s1, hr ▸ hfree⟩

/-- **`obj_put` of a held reference returns.** -/
theorem objPut_total (h : CapInv s) (hmem : o ∈ s.refs) : ∃ s', objPut s o = some s' := by
  obtain ⟨ob, hob⟩ := h.refsLive hmem
  unfold objPut
  rw [hob]
  simp only
  split
  · exact ⟨_, rfl⟩
  · exact ⟨_, rfl⟩

end Calls

end ChCore.Capability
