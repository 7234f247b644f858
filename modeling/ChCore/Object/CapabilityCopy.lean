/-
  File: ChCore/Object/CapabilityCopy.lean
  Subject: `cap_copy` where memory runs out (`kernel/object/capability.c`).

  A copy asks for memory up to four times: three arrays if the destination table has to grow, and
  the slot. Whatever is refused, the copy should be there or nothing should have changed.

  * **`cap_copy_iff`** -- `CopyOk` exactly under `CopyClean`, in every state a run reaches.
-/
import ChCore.Object.CapabilityRuns

namespace ChCore.Capability

open Lib Common Function Option

/-! ## 1. What is to hold -/

/-- The object that a slot id of a group refers to. -/
def Caps.objectAt (s : Caps) (g : GroupPtr) (id : Int) : Option ObjPtr := do
  let t ← s.groups g
  let p ← getSlot t id
  let sl ← s.slots p
  some sl.object

/-- The id `r` of `dst` refers to the object of the source slot, which has one more reference. -/
def Copied (s s' : Caps) (src dst : GroupPtr) (id r : Int) : Prop :=
  ∃ o ob ob', s.objectAt src id = some o ∧ s'.objectAt dst r = some o ∧ s.objects o = some ob ∧
    s'.objects o = some ob' ∧ ob'.refcount = ob.refcount + 1

variable (env : Env) (tsrc tdst : SlotTable SlotPtr) (id : Int)

/-- `install_slot` and `free_slot_id` get an id of the table, if one of them is called. -/
def StoresInside : Prop :=
  ∀ p r, getSlot tsrc id = some p → allocSlotId env.kz env.beyond tdst = some r → 0 ≤ r.ret

/-- **All or nothing.** -/
def CopyOk (s : Caps) (src dst : GroupPtr) (tsrc tdst : SlotTable SlotPtr) (id : Int)
    (rights : Option Nat) : Prop :=
  ∃ r s', capCopy env s src dst id rights = some (r, s') ∧ StoresInside env tsrc tdst id ∧
    ((0 ≤ r ∧ bitIn tdst.slotsBmp r.toNat = false ∧ Copied s s' src dst id r) ∨ (r < 0 ∧ s' = s))

/-- **The memory a copy needs.** With a free id in the destination the slot can be refused if the bit
    of the id's word in `full_slots_bmp` is clear. A destination that must grow has to be below the
    limit of `kmalloc` and to get all it asks for. -/
def CopyClean : Prop :=
  getSlot tsrc id = none ∨
    match (findEmpty env.beyond tdst).1 with
    | some e => env.kmalloc = true ∨ bitIn tdst.fullSlotsBmp (e / 64) = false
    | none => env.kz = Kzalloc.ok ∧ ¬ AtLimit tdst ∧ env.kmalloc = true

section Copy

variable {s : Caps} {env : Env} {src dst : GroupPtr} {tsrc tdst : SlotTable SlotPtr} {id : Int}
  {rights : Option Nat}

/-! ## 2. The two ends of a copy -/

theorem setGroup_eq_self_iff {t : SlotTable SlotPtr} (hg : s.groups dst = some tdst) :
    s.setGroup dst t = s ↔ t = tdst := by
  refine ⟨fun h => ?_, fun h => ?_⟩
  · have hgroup : (s.setGroup dst t).groups dst = some t := update_self ..
    rw [h, hg] at hgroup
    exact (some.inj hgroup).symm
  · rw [h, Caps.setGroup, ← hg, update_eq_self]

variable {p : SlotPtr} {r : AllocResult SlotPtr}

section

variable {e : Nat} (h : CapInv s) (hsrc : s.groups src = some tsrc)
  (hdst : s.groups dst = some tdst) (hp : getSlot tsrc id = some p)
  (ha : allocSlotId env.kz env.beyond tdst = some r) (hret : r.ret = e)

include h hsrc hdst hp ha hret

/-- A copy that gets an id and a slot. -/
theorem capCopy_taken (ht : Taken tdst r.table e) (hk : env.kmalloc = true) :
    ∃ s', capCopy env s src dst id rights = some ((e : Int), s') ∧ Copied s s' src dst id e := by
  obtain ⟨n, rfl, hcell⟩ := (getSlot_eq_some (h.wf hsrc)).mp hp
  obtain ⟨sl, hsl, -⟩ := h.cellSlot hsrc hcell
  obtain ⟨hvalid, hlt, ob, hob, -⟩ := h.slotObj hsl
  obtain ⟨t', ht'⟩ := installSlot_taken (b := env.beyond) ht s.nextSlot
  have hwf' : TableWf t' ∧ t'.cell e = some s.nextSlot := by
    rcases installSlot_cases ht' with ⟨hneg, -⟩ | ⟨m, hm, rfl⟩
    · exact absurd hneg (by omega)
    · obtain rfl : m = e := by omega
      exact ⟨set_wf ht.wf m _, by rw [set_cell ht.wf ht.lt, if_pos rfl]⟩
  have hcopy : capCopy env s src dst n rights = some ((e : Int), installed s sl.object
      { ob with copies := insertBehind p s.nextSlot ob.copies, refcount := ob.refcount + 1 }
      ⟨e, dst, true, rights.getD sl.rights, sl.object⟩ t' s.log) := by
    unfold capCopy
    simp only [hsrc, hdst, hp, hsl, hvalid, ha, hk, hret, Bool.not_true, Bool.false_eq_true, if_false,
      getSlot_again h hsrc hdst hp ha, hob, ht', if_neg (show ¬ (e : Int) = -1 by omega)]
    rfl
  refine ⟨_, hcopy, sl.object, ob, _, ?_, ?_, hob, update_self .., rfl⟩
  · rw [Caps.objectAt, hsrc]
    simp only [bind_eq_bind, bind_some, hp, hsl]
  · rw [Caps.objectAt, installed_groups]
    simp only [bind_eq_bind, bind_some,
      (getSlot_eq_some hwf'.1).mpr ⟨e, rfl, hwf'.2⟩, installed_slots, if_true]

theorem capCopy_noSlot (hk : env.kmalloc = false) :
    capCopy env s src dst id rights = some (-ENOMEM, s.setGroup dst (freeSlotId r.table e)) := by
  obtain ⟨n, rfl, hcell⟩ := (getSlot_eq_some (h.wf hsrc)).mp hp
  obtain ⟨sl, hsl, -⟩ := h.cellSlot hsrc hcell
  obtain ⟨hvalid, -⟩ := h.slotObj hsl
  unfold capCopy
  simp only [hsrc, hdst, hp, hsl, hvalid, ha, hk, hret, Bool.not_true, Bool.not_false,
    Bool.false_eq_true, if_false, if_true, if_neg (show ¬ (e : Int) = -1 by omega), freeSlotIdInt,
    if_neg (show ¬ (e : Int) < 0 by omega), Int.toNat_natCast]

/-! ## 3. The equivalence -/

/-- A copy that gets an id: it is all right unless there is no slot and giving the id back does not
    restore the table. -/
theorem copyOk_taken (ht : Taken tdst r.table e) :
    CopyOk env s src dst tsrc tdst id rights ↔
      env.kmalloc = true ∨ freeSlotId r.table e = tdst := by
  have hin : StoresInside env tsrc tdst id := by
    intro _ r' _ ha'
    rw [ha] at ha'
    cases ha'
    rw [hret]
    exact Int.natCast_nonneg e
  cases hk : env.kmalloc with
  | true =>
    obtain ⟨s', hc, hcopied⟩ : ∃ s', capCopy env s src dst id rights = some ((e : Int), s') ∧
      Copied s s' src dst id e := capCopy_taken h hsrc hdst hp ha hret ht hk
    refine ⟨fun _ => .inl rfl, fun _ => ⟨e, s', hc, hin, .inl ⟨?_, ?_, hcopied⟩⟩⟩
    · exact Int.natCast_nonneg e
    · exact ht.free
  | false =>
  have hc : capCopy env s src dst id rights =
    some (-ENOMEM, s.setGroup dst (freeSlotId r.table e)) :=
    capCopy_noSlot h hsrc hdst hp ha hret hk
  unfold CopyOk
  rw [hc]
  refine ⟨fun hok => .inr ?_, fun hback => ?_⟩
  · obtain ⟨_, _, he, -, hend⟩ := hok
    cases he
    rcases hend with ⟨hpos, -⟩ | ⟨-, hsame⟩
    · exact absurd hpos (by decide)
    · exact (setGroup_eq_self_iff hdst).mp hsame
  · rcases hback with hfalse | hback
    · cases hfalse
    · exact ⟨_, _, rfl, hin, .inr ⟨by decide, (setGroup_eq_self_iff hdst).mpr hback⟩⟩

end

/-- A copy into a table that has to grow, and can. -/
theorem copyOk_grown (h : CapInv s) (hsrc : s.groups src = some tsrc)
    (hdst : s.groups dst = some tdst) (hp : getSlot tsrc id = some p)
    (hf : (findEmpty env.beyond tdst).1 = none) (hlim : ¬ AtLimit tdst) (hkz : env.kz = Kzalloc.ok) :
    CopyOk env s src dst tsrc tdst id rights ↔ env.kmalloc = true := by
  have hwf := h.wf hdst
  obtain ⟨t', acc, hg, ha⟩ := allocSlotId_grows hwf hf hlim
  rw [← hkz] at ha
  have hlt : tdst.slotsSize < t'.slotsSize := by rw [hg.size]; omega
  have hfree := hwf.bit_beyond (le_refl tdst.slotsSize)
  have ht := takeSlotId_taken hg.wf env.beyond acc hlt (by rw [hg.bit, hfree])
  have ht' : Taken tdst (takeSlotId env.beyond t' tdst.slotsSize acc).table tdst.slotsSize :=
    ⟨ht.wf, ht.lt, le_trans (le_of_lt hlt) ht.size, hfree,
      fun i => by rw [ht.bit, hg.bit], fun i => by rw [ht.cell, hg.cell]⟩
  rw [copyOk_taken h hsrc hdst hp ha (takeSlotId_ret ..) ht']
  refine ⟨fun hor => ?_, .inl⟩
  rcases hor with hk | hsame
  · exact hk
  -- a table that has grown does not shrink
  have hle := ht.size
  have hsize : (takeSlotId env.beyond t' tdst.slotsSize acc).table.slotsSize = tdst.slotsSize :=
    congrArg (fun t => t.slotsSize) hsame
  omega

theorem copyOk_iff (h : CapInv s) (hsrc : s.groups src = some tsrc)
    (hdst : s.groups dst = some tdst) :
    CopyOk env s src dst tsrc tdst id rights ↔ CopyClean env tsrc tdst id := by
  have hwf := h.wf hdst
  unfold CopyClean
  cases hp : getSlot tsrc id with
  | none =>
    have hc : capCopy env s src dst id rights = some (-ECAPBILITY, s) := by
      unfold capCopy
      simp only [hsrc, hdst, hp]
    refine ⟨fun _ => .inl rfl, fun _ => ⟨_, _, hc, fun p _ hp' => ?_, .inr ⟨by decide, rfl⟩⟩⟩
    rw [hp] at hp'
    cases hp'
  | some p =>
  simp only [reduceCtorEq, false_or]
  cases hf : (findEmpty env.beyond tdst).1 with
  | some e =>
    obtain ⟨acc, ha⟩ := allocSlotId_found (k := env.kz) hf
    obtain ⟨w, hfound⟩ := (findEmpty_spec hwf env.beyond).1 e hf
    rw [copyOk_taken h hsrc hdst hp ha (takeSlotId_ret ..)
      (takeSlotId_taken hwf _ acc hfound.lt hfound.free),
      freeSlotId_takeSlotId_iff hwf _ acc hfound.lt hfound.free (h.cell_of_free hdst hfound.free)]
  | none =>
  by_cases hlim : AtLimit tdst
  · -- the request for the larger table stops the kernel
    refine ⟨fun hok => ?_, fun hclean => absurd hlim hclean.2.1⟩
    obtain ⟨r, s', hc, -⟩ := hok
    have hnone := (allocSlotId_eq_none (k := env.kz) hwf).mpr ⟨hf, hlim⟩
    obtain ⟨n, rfl, hcell⟩ := (getSlot_eq_some (h.wf hsrc)).mp hp
    obtain ⟨sl, hsl, -⟩ := h.cellSlot hsrc hcell
    unfold capCopy at hc
    simp only [hsrc, hdst, hp, hsl, (h.slotObj hsl).1, Bool.not_true, Bool.false_eq_true, if_false,
      hnone] at hc
    cases hc
  by_cases hkz : env.kz = Kzalloc.ok
  · rw [copyOk_grown h hsrc hdst hp hf hlim hkz]
    exact ⟨fun hk => ⟨hkz, hlim, hk⟩, fun hclean => hclean.2.2⟩
  -- the error code is taken for an id
  refine ⟨fun hok => ?_, fun hclean => absurd hclean.1 hkz⟩
  obtain ⟨r, s', -, hin, -⟩ := hok
  obtain ⟨acc, ha⟩ := allocSlotId_fails (b := env.beyond) hwf hf hkz hlim
  have hpos : 0 ≤ -ENOMEM := hin p _ hp ha
  exact absurd hpos (by decide)

end Copy

/-- **`cap_copy` is all or nothing exactly when `CopyClean` holds**, in every state a run reaches. -/
theorem cap_copy_iff (as : List CapAct) (s : Caps) (hrun : exec capStep Caps.init as = some s)
    (env : Env) (src dst : GroupPtr) (tsrc tdst : SlotTable SlotPtr)
    (hsrc : s.groups src = some tsrc) (hdst : s.groups dst = some tdst) (id : Int)
    (rights : Option Nat) :
    CopyOk env s src dst tsrc tdst id rights ↔ CopyClean env tsrc tdst id := by
  have h : CapInv s := exec_inv (fun _ _ _ hI hs => capStep_inv hI hs) as _ _ capInv_init hrun
  exact copyOk_iff h hsrc hdst

/-- The published object is copied within its group. -/
theorem cap_copy_published :
    CopyOk .ample publishedState 0 0 publishedTable publishedTable 0 none := by
  refine (cap_copy_iff publishedRun publishedState publishedState_run .ample 0 0 publishedTable
    publishedTable publishedTable_group publishedTable_group 0 none).mpr (.inr ?_)
  have hf : (findEmpty Env.ample.beyond publishedTable).1 = some 1 := by decide +kernel
  rw [hf]
  exact .inl rfl

/-- An object is copied 64 times into a group of 64 slots. -/
def fullRun : List CapAct :=
  [.group .ample 64, .group .ample 64, .alloc .pmo 8, .publish .ample 0 0 7] ++
    List.replicate 64 (.copy .ample 0 1 0 none)

/-- Its state, as a value. -/
def fullState : Caps := (exec capStep Caps.init fullRun).getD Caps.init

/-- **An error that is half a copy**: no memory is left for a larger table, and there is some for the
    slot. The call returns `-ENOMEM` and the object has one more reference. -/
theorem cap_copy_half :
    (∃ r s', capCopy .exhausted fullState 0 1 0 none = some (r, s') ∧ r = -ENOMEM ∧
      (fullState.objects 0).map (·.refcount) = some 65 ∧
      (s'.objects 0).map (·.refcount) = some 66) ∧
    ∀ tsrc tdst, fullState.groups 0 = some tsrc → fullState.groups 1 = some tdst →
      ¬ CopyOk .exhausted fullState 0 1 tsrc tdst 0 none := by
  have hend : (capCopy .exhausted fullState 0 1 0 none).any (fun r => r.1 = -ENOMEM ∧
      (fullState.objects 0).map (·.refcount) = some 65 ∧
      (r.2.objects 0).map (·.refcount) = some 66) = true := by
    decide +kernel
  obtain ⟨⟨r, s'⟩, hc, hall⟩ := (Option.any_eq_true ..).mp hend
  obtain ⟨hr : r = _, hbefore, hafter⟩ := of_decide_eq_true hall
  refine ⟨⟨r, s', hc, hr, hbefore, hafter⟩, fun tsrc tdst _ _ hok => ?_⟩
  obtain ⟨_, _, hc', -, hor⟩ := hok
  rw [hc] at hc'
  cases hc'
  rcases hor with ⟨hpos, -⟩ | ⟨-, hsame⟩
  · rw [hr] at hpos
    exact absurd hpos (by decide)
  · have hsame' : (s'.objects 0).map (·.refcount) = some 65 := hsame ▸ hbefore
    exact absurd (hsame'.symm.trans hafter) (by decide)

/-! ## 4. The room for new slots -/

/-- An id is there for a slot: the search finds one, or the table can be made larger. -/
def HasId (t : SlotTable SlotPtr) : Prop :=
  (findEmpty env.beyond t).1 ≠ none ∨ env.kz = Kzalloc.ok ∧ ¬ AtLimit t

/-- **The room for new slots**: one after the other they find the memory and an id, each in the table
    with the slots before it. -/
def Room (q : SlotPtr) (t : SlotTable SlotPtr) : List Env → Prop
  | [] => True
  | env :: envs => env.kmalloc = true ∧ HasId env t ∧ ∀ a t',
      allocSlotId env.kz env.beyond t = some a → installSlot env.beyond a.table a.ret q = some t' →
        Room (q + 1) t' envs

section Room

variable {s s' : Caps} {env : Env} {src dst : GroupPtr} {tsrc tdst : SlotTable SlotPtr} {id r : Int}

theorem objectAt_isSome (h : CapInv s) (hsrc : s.groups src = some tsrc) :
    (∃ o, s.objectAt src id = some o) ↔ getSlot tsrc id ≠ none := by
  unfold Caps.objectAt
  rw [hsrc]
  cases hp : getSlot tsrc id with
  | none => simp [hp]
  | some p =>
    obtain ⟨n, rfl, hcell⟩ := (getSlot_eq_some (h.wf hsrc)).mp hp
    obtain ⟨sl, hsl, -⟩ := h.cellSlot hsrc hcell
    simp [hp, hsl]

/-- **A copy leaves the other slots alone.** -/
theorem objectAt_capCopy (h : CapInv s) (hc : capCopy env s src dst id none = some (r, s'))
    {g : GroupPtr} {i : Int} {o : ObjPtr} (ho : s.objectAt g i = some o) :
    s'.objectAt g i = some o := by
  obtain ⟨t, ht, ho1⟩ := bind_eq_some_iff.mp ho
  obtain ⟨p, hp, ho2⟩ := bind_eq_some_iff.mp ho1
  obtain ⟨sl, hsl, hobj⟩ := bind_eq_some_iff.mp ho2
  obtain ⟨n, rfl, hcell⟩ := (getSlot_eq_some (h.wf ht)).mp hp
  have hgoal : ∀ t', s'.groups g = some t' → TableWf t' → t'.cell n = some p →
      s'.slots p = some sl → s'.objectAt g n = some o := by
    intro t' ht' hwf hcell' hsl'
    rw [Caps.objectAt, ht']
    simp only [bind_eq_bind, bind_some, (getSlot_eq_some hwf).mpr ⟨n, rfl, hcell'⟩, hsl']
    exact hobj
  rcases capCopy_cases h hc with ⟨-, rfl | ⟨g', u, u', hu, hsame, rfl⟩⟩ |
    ⟨o', ob, ob', sl', u, u', hi, -, -, rfl⟩
  · exact hgoal t ht (h.wf ht) hcell hsl
  · by_cases hg : g = g'
    · subst hg
      rw [ht] at hu
      cases hu
      exact hgoal u' (update_self ..) hsame.wf ((hsame.cell n).trans hcell) hsl
    · exact hgoal t ((update_of_ne hg ..).trans ht) (h.wf ht) hcell hsl
  have hslot : (installed s o' ob' sl' u' s.log).slots p = some sl := by
    rw [installed_slots, if_neg (h.slot_ne_next hsl)]
    exact hsl
  by_cases hg : g = sl'.capGroup
  · have hu := hi.group
    rw [← hg, ht] at hu
    cases hu
    exact hgoal u' (by rw [installed_groups, if_pos hg]) hi.wf (hi.keeps n p hcell) hslot
  · exact hgoal t (by rw [installed_groups, if_neg hg]; exact ht) (h.wf ht) hcell hslot

/-- **What a copy returns**: an error code, or what `alloc_slot_id` has returned, with the slot
installed there. -/
theorem capCopy_ret (hdst : s.groups dst = some tdst)
    (hc : capCopy env s src dst id none = some (r, s')) :
    r = -ECAPBILITY ∨ r = -ENOMEM ∨ env.kmalloc = true ∧ ∃ a t',
      allocSlotId env.kz env.beyond tdst = some a ∧ a.ret = r ∧
      installSlot env.beyond a.table a.ret s.nextSlot = some t' ∧ s'.groups dst = some t' ∧
      s'.nextSlot = s.nextSlot + 1 := by
  obtain ⟨tsrc, _, hsrc, _⟩ := capCopy_groups hc
  unfold capCopy at hc
  simp only [hsrc, hdst] at hc
  split at hc
  · cases hc
    exact .inl rfl
  split at hc
  · cases hc
  split at hc
  · cases hc
    exact .inl rfl
  split at hc
  · cases hc
  rename_i a ha
  split at hc
  · cases hc
    exact .inr (.inl rfl)
  split at hc
  · cases hc
    exact .inr (.inl rfl)
  rename_i hk
  split at hc
  · cases hc
  split at hc
  · cases hc
  split at hc
  · cases hc
  split at hc
  · cases hc
  rename_i t' hi
  cases hc
  refine .inr (.inr ⟨by simpa using hk, a, t', ha, rfl, hi, ?_, rfl⟩)
  exact update_self ..

theorem objectAt_neg (h : CapInv s) (hr : r < 0) (o : ObjPtr) : s.objectAt dst r ≠ some o := by
  intro ho
  obtain ⟨t, ht, ho1⟩ := bind_eq_some_iff.mp ho
  obtain ⟨p, hp, -⟩ := bind_eq_some_iff.mp ho1
  obtain ⟨n, rfl, -⟩ := (getSlot_eq_some (h.wf ht)).mp hp
  omega

/-- **`alloc_slot_id` returns an id** exactly if there is one. -/
theorem hasId_iff (hwf : TableWf tdst) :
    HasId env tdst ↔ ∃ a, allocSlotId env.kz env.beyond tdst = some a ∧ 0 ≤ a.ret := by
  cases hf : (findEmpty env.beyond tdst).1 with
  | some e =>
    obtain ⟨acc, ha⟩ := allocSlotId_found (k := env.kz) hf
    have hret := takeSlotId_ret env.beyond tdst e acc
    refine ⟨fun _ => ⟨_, ha, by omega⟩, fun _ => .inl ?_⟩
    rw [hf]
    exact some_ne_none e
  | none =>
  by_cases hlim : AtLimit tdst
  · have hnone := (allocSlotId_eq_none (k := env.kz) hwf).mpr ⟨hf, hlim⟩
    refine ⟨fun hid => ?_, fun hid => ?_⟩
    · rcases hid with hfound | ⟨-, hno⟩
      · exact absurd hf hfound
      · exact absurd hlim hno
    · obtain ⟨a, ha, -⟩ := hid
      rw [hnone] at ha
      cases ha
  by_cases hk : env.kz = Kzalloc.ok
  · obtain ⟨t', acc, -, ha⟩ := allocSlotId_grows hwf hf hlim
    have hret := takeSlotId_ret env.beyond t' tdst.slotsSize acc
    exact ⟨fun _ => ⟨_, hk ▸ ha, by omega⟩, fun _ => .inr ⟨hk, hlim⟩⟩
  obtain ⟨acc, ha⟩ := allocSlotId_fails (b := env.beyond) hwf hf hk hlim
  refine ⟨fun hid => ?_, fun hid => ?_⟩
  · rcases hid with hfound | ⟨hok, -⟩
    · exact absurd hf hfound
    · exact absurd hok hk
  · obtain ⟨a, ha', hpos⟩ := hid
    rw [ha] at ha'
    cases ha'
    exact absurd (show (0 : Int) ≤ -ENOMEM from hpos) (by decide)

/-- **A copy that is served** has found an id and the memory for it. -/
theorem capCopy_served (hdst : s.groups dst = some tdst)
    (hc : capCopy env s src dst id none = some (r, s')) (hr : 0 ≤ r) :
    env.kmalloc = true ∧ ∃ a t', allocSlotId env.kz env.beyond tdst = some a ∧ a.ret = r ∧
      installSlot env.beyond a.table a.ret s.nextSlot = some t' ∧ s'.groups dst = some t' ∧
      s'.nextSlot = s.nextSlot + 1 := by
  rcases capCopy_ret hdst hc with rfl | rfl | hserved
  · exact absurd hr (by decide)
  · exact absurd hr (by decide)
  · exact hserved

/-- **A copy that finds an id and the memory for it is served.** -/
theorem served_of_room (h : CapInv s) (hdst : s.groups dst = some tdst) {o : ObjPtr}
    (ho : s.objectAt src id = some o) (hc : capCopy env s src dst id none = some (r, s'))
    (hk : env.kmalloc = true) {a : AllocResult SlotPtr}
    (ha : allocSlotId env.kz env.beyond tdst = some a) (hpos : 0 ≤ a.ret) :
    r = a.ret ∧ s'.objectAt dst r = some o := by
  obtain ⟨tsrc, _, hsrc, -⟩ := capCopy_groups hc
  obtain ⟨p, hp⟩ := ne_none_iff_exists'.mp ((objectAt_isSome h hsrc).mp ⟨o, ho⟩)
  rcases allocSlotId_spec (h.wf hdst) ha with ⟨hret, -⟩ | ⟨e, hret, ht⟩
  · rw [hret] at hpos
    exact absurd hpos (by decide)
  obtain ⟨u, hu, hcopied⟩ : ∃ u, capCopy env s src dst id none = some ((e : Int), u) ∧
    Copied s u src dst id e := capCopy_taken h hsrc hdst hp ha hret ht hk
  rw [hc] at hu
  cases hu
  obtain ⟨o', _, _, ho', hnew, -⟩ := hcopied
  rw [ho] at ho'
  cases ho'
  exact ⟨hret.symm, hnew⟩

theorem groups_capCopy (h : CapInv s) (hdst : s.groups dst = some tdst)
    (hc : capCopy env s src dst id none = some (r, s')) : ∃ t, s'.groups dst = some t := by
  rcases capCopy_cases h hc with ⟨-, rfl | ⟨g, u, u', hu, -, rfl⟩⟩ |
    ⟨o, ob, ob', sl, u, u', -, -, -, rfl⟩
  · exact ⟨tdst, hdst⟩
  · rw [setGroup_groups]
    split
    · exact ⟨u', rfl⟩
    · exact ⟨tdst, hdst⟩
  · rw [installed_groups]
    split
    · exact ⟨u', rfl⟩
    · exact ⟨tdst, hdst⟩

end Room

end ChCore.Capability
