/-
  File: ChCore/Object/Revoke.lean
  Subject: `cap_revoke` from `create_root_cap_group` on (`kernel/object/capability.c`,
    `kernel/object/cap_group.c`).

  Two things are added to the state of `Capability.lean`. A cap_group is part of an object, and is
  gone with it. And the object of the root cap_group is not made by `obj_alloc`: its `copies_head`
  and its `copies_lock` are what `kmalloc` left there, and its slots are in a ring without them.

  * **`cap_revoke_iff`** -- in every state a run reaches, the revocation of a valid slot is right
    exactly when the object is `Revocable`.
-/
import ChCore.Object.CapabilityCalls

namespace ChCore.Capability

open Lib Common Function Option List

/-! ## 1. The state -/

/-- What the memory of the root cap_group's object holds where `create_root_cap_group` has not
    written: `copies_lock` can be taken; `copies_head` points to itself. -/
structure Uninit where
  lockFree : Bool
  headEmpty : Bool
  deriving DecidableEq, Repr

/-- The capabilities, with the object that each cap_group is a part of. For the object `root` the
    list `copies` is the ring that its slots form. -/
structure Kernel where
  caps : Caps
  owner : GroupPtr → Option ObjPtr
  root : ObjPtr
  uninit : Uninit

variable (env : Env) (k : Kernel) (uninit : Uninit) (o : ObjPtr) (g : GroupPtr)

/-- The memory of the cap_group has not been released. -/
def Kernel.live : Bool :=
  (k.owner g).any fun o => (k.caps.objects o).isSome

/-- The object of a valid slot. -/
def slotObject (s : Caps) (g : GroupPtr) (slotId : Int) : Option ObjPtr :=
  (s.groups g).bind fun t => (getSlot t slotId).bind fun p => (s.slots p).map (·.object)

/-! ## 2. The source -/

/-- `create_root_cap_group`. The slot of the group's own capability is linked to itself. -/
def createRootCapGroup (env env' : Env) (size vmspaceSize : Nat) (uninit : Uninit) :
    Option Kernel :=
  match slotTableInit env.kz BASE_OBJECT_NUM with
  | some (.ok t) =>
    match allocSlotId env.kz env.beyond t with
    | none => none
    | some r =>
      -- `BUG_ON(slot_id != CAP_GROUP_OBJ_ID)`
      if r.ret ≠ 0 ∨ env.kmalloc = false then none
      else
        let s := objAlloc { Caps.init.setGroup 0 t with nextGroup := 1 } .capGroup size
        let ob : Object := { type := .capGroup, size, copies := [0], refcount := 1 }
        let slot : ObjectSlot := ⟨0, 0, true, 0, 0⟩
        let table := { r.table with slots := r.table.slots.set 0 (some 0) }
        let s := { (((s.setObject 0 (some ob)).setSlot 0 (some slot)).setGroup 0 table).logged
          (.publish 0) with nextSlot := 1 }
        -- `BUG_ON(slot_id != VMSPACE_OBJ_ID)`
        match capAlloc env' (objAlloc s .vmspace vmspaceSize) 0 1 0 with
        | some (1, s) => some ⟨s, fun g => if g = 0 then some 0 else none, 0, uninit⟩
        | _ => none
  | _ => none

/-- `__cap_free`. For a slot of the root's object the lock and the `BUG_ON` behind the last reference
    read memory that has never been written. -/
def Kernel.capFree (copiesListLocked : Bool) (g : GroupPtr) (slotId : Int) :
    Option (Int × Kernel) :=
  let ofRoot : Prop := slotObject k.caps g slotId = some k.root
  if k.live g = false then none
  else if ofRoot ∧ copiesListLocked = false ∧ k.uninit.lockFree = false then none
  else match Capability.capFree k.caps g slotId with
    | none => none
    | some (r, s) =>
      if ofRoot ∧ s.objects k.root = none ∧ k.uninit.headEmpty = false then none
      else some (r, { k with caps := s })

def Kernel.capMove (src dst : GroupPtr) (srcSlotId : Int)
    (newRights : Option Nat) : Option (Int × Kernel) :=
  match capCopy env k.caps src dst srcSlotId newRights with
  | none => none
  | some (r, s) =>
    if r < 0 then some (r, { k with caps := s })
    else match Kernel.capFree { k with caps := s } false src srcSlotId with
      | none => none
      | some (r', k') => if r' ≠ 0 then none else some (r', k')

/-- The walk of `obj_free` over the copies list. -/
def Kernel.freeCopies : List SlotPtr → Kernel → Option Kernel
  | [], k => some k
  | p :: ps, k =>
    match k.caps.slots p with
    | none => none
    | some slot =>
      match k.capFree true slot.capGroup slot.slotId with
      | none => none
      -- `BUG_ON(r != 0)`
      | some (r, k') => if r ≠ 0 then none else Kernel.freeCopies ps k'

/-- `obj_free`. The walk from the root's `copies_head` is over at once or never comes back to it. -/
def Kernel.objFree : Option Kernel :=
  match k.caps.objects o with
  | none => none
  | some ob =>
    if ob.refcount = 0 then some { k with caps := kfreeObject k.caps o ob }
    else if o = k.root then
      if k.uninit.lockFree = true ∧ k.uninit.headEmpty = true then some k else none
    else k.freeCopies ob.copies

def Kernel.capRevoke (slotId : Int) : Option (Int × Kernel) :=
  if k.live g = false then none
  else match (getOpaque env k.caps g slotId none).1 with
    | none => none
    | some (none, s) => some (-ECAPBILITY, { k with caps := s })
    | some (some o, s) =>
      match Kernel.objFree { k with caps := s } o with
      | none => none
      | some k' => (objPut k'.caps o).map fun s => (0, { k' with caps := s })

/-- **One call.** A cap_group is made together with its object. -/
def Kernel.step : CapAct → Option Kernel
  | .group env size =>
    (newGroup env k.caps size).map fun s =>
      { k with
        caps := objAlloc s .capGroup size
        owner := update k.owner k.caps.nextGroup (some s.nextObj) }
  | .alloc type size =>
    if type = .capGroup then none else some { k with caps := objAlloc k.caps type size }
  | .publish env g o rights =>
    if k.live g = false then none
    else (capAlloc env k.caps g o rights).map fun x => { k with caps := x.2 }
  | .copy env src dst id rights =>
    if k.live src = false ∨ k.live dst = false then none
    else (capCopy env k.caps src dst id rights).map fun x => { k with caps := x.2 }
  | .move env src dst id rights =>
    if k.live src = false ∨ k.live dst = false then none
    else (k.capMove env src dst id rights).map (·.2)
  | .free g id => (k.capFree false g id).map (·.2)
  | .revoke env g id => (k.capRevoke env g id).map (·.2)
  | .get env g id type =>
    if k.live g = false then none
    else (objGet env k.caps g id type).map fun x => { k with caps := x.2 }
  | .put o => if o ∈ k.caps.refs then (objPut k.caps o).map fun s => { k with caps := s } else none

/-! ## 3. What a revocation is to leave -/

/-- Slots and objects other than those of `o` are as they were. -/
structure Frame (o : ObjPtr) (s s' : Caps) : Prop where
  slots : ∀ q sl, s.slots q = some sl → sl.object ≠ o → s'.slots q = some sl
  cells : ∀ g t i q sl, s.groups g = some t → t.cell i = some q → s.slots q = some sl →
    sl.object ≠ o → ∃ t', s'.groups g = some t' ∧ t'.cell i = some q
  objects : ∀ o', o' ≠ o → s'.objects o' = s.objects o'

/-- **No slot in any cap_group refers to `o`**, and nothing else has changed. -/
structure Revoked (o : ObjPtr) (s s' : Caps) : Prop where
  gone : ∀ g t i p sl, s'.groups g = some t → t.cell i = some p → s'.slots p = some sl →
    sl.object ≠ o
  frame : Frame o s s'

/-- **`cap_revoke` returns 0 and has revoked the object.** -/
def RevokeRight (slotId : Int) (o : ObjPtr) : Prop :=
  ∃ k', k.capRevoke env g slotId = some (0, k') ∧ Revoked o k.caps k'.caps

/-- **The objects that can be revoked**: not the root's own, and every slot that refers to the object
    has an id and lies in a live cap_group. -/
def Kernel.Revocable : Prop :=
  o ≠ k.root ∧ ∀ q sl, k.caps.slots q = some sl → sl.object = o →
    0 ≤ sl.slotId ∧ k.live sl.capGroup = true

theorem Frame.refl (s : Caps) : Frame o s s :=
  ⟨fun _ _ hq _ => hq, fun _ t _ _ _ hg hc _ _ => ⟨t, hg, hc⟩, fun _ _ => rfl⟩

theorem Frame.trans {o : ObjPtr} {s1 s2 s3 : Caps} (h : Frame o s1 s2) (h' : Frame o s2 s3) :
    Frame o s1 s3 := by
  refine ⟨fun q sl hq hne => h'.slots q sl (h.slots q sl hq hne) hne,
    fun g t i q sl hg hc hq hne => ?_, fun o' hne => (h'.objects o' hne).trans (h.objects o' hne)⟩
  obtain ⟨t2, hg2, hc2⟩ := h.cells g t i q sl hg hc hq hne
  exact h'.cells g t2 i q sl hg2 hc2 (h.slots q sl hq hne) hne

theorem Frame.of_object {o : ObjPtr} {s s' : Caps} (hslots : s'.slots = s.slots)
    (hgroups : s'.groups = s.groups) (hobj : ∀ o', o' ≠ o → s'.objects o' = s.objects o') :
    Frame o s s' :=
  ⟨fun _ _ hq _ => hslots ▸ hq, fun _ t _ _ _ hg hc _ _ => ⟨t, hgroups ▸ hg, hc⟩, hobj⟩

/-! ## 4. One slot is freed -/

section FreeOne

variable {s s' : Caps} {o : ObjPtr} {g : GroupPtr} {id : Int} {n : Nat} {t : SlotTable SlotPtr}
  {p : SlotPtr} {sl : ObjectSlot} {ob : Object} {x : Option Object} {ends : List Event}

theorem FreesSlot.frame (hf : FreesSlot s s' g id n t p sl ob x ends) : Frame sl.object s s' := by
  rw [hf.post]
  refine ⟨fun q sl' hq hne => ?_, fun g' t' i q sl' hg' hc hq hne => ?_, fun o' hne => ?_⟩
  · have hqp : q ≠ p := by
      intro e
      rw [e, hf.slot] at hq
      cases hq
      exact hne rfl
    exact (update_of_ne hqp none s.slots).trans hq
  · by_cases hgg : g' = g
    · subst hgg
      rw [hf.group] at hg'
      cases hg'
      refine ⟨freeSlotId t n, update_self _ _ _, ?_⟩
      rw [freeSlotId_cell, if_neg]
      · exact hc
      intro e
      rw [e, hf.cell] at hc
      cases hc
      rw [hf.slot] at hq
      cases hq
      exact hne rfl
    · exact ⟨t', (update_of_ne hgg _ s.groups).trans hg', hc⟩
  · exact (recounted_objects o').trans (if_neg hne)

theorem FreesSlot.slots_eq (hf : FreesSlot s s' g id n t p sl ob x ends) :
    s'.slots = update s.slots p none := by
  rw [hf.post]
  rfl

end FreeOne

/-! ## 5. The walk over the copies list -/

/-- The two states differ in the capabilities only. -/
def Kernel.SameBase (k k' : Kernel) : Prop :=
  k'.owner = k.owner ∧ k'.root = k.root ∧ k'.uninit = k.uninit

section Walk

variable {k k' : Kernel} {o : ObjPtr} {g : GroupPtr} {id : Int}

theorem Kernel.capFree_some {locked : Bool} {r : Int} (h : k.capFree locked g id = some (r, k')) :
    k.live g = true ∧ Capability.capFree k.caps g id = some (r, k'.caps) ∧ k.SameBase k' := by
  unfold Kernel.capFree at h
  simp only at h
  split at h
  · cases h
  rename_i hlive
  split at h
  · cases h
  split at h
  · cases h
  rename_i r' s hfree
  split at h
  · cases h
  · cases h
    exact ⟨by simpa using hlive, hfree, rfl, rfl, rfl⟩

theorem Kernel.capFree_of_ne (locked : Bool) {r : Int} {s : Caps} (hlive : k.live g = true)
    (hroot : slotObject k.caps g id ≠ some k.root)
    (h : Capability.capFree k.caps g id = some (r, s)) :
    k.capFree locked g id = some (r, { k with caps := s }) := by
  unfold Kernel.capFree
  simp only [hlive, hroot, false_and, if_false, h, Bool.true_eq_false]

theorem Kernel.freeCopies_some {ps : List SlotPtr} (h : k.freeCopies ps = some k') :
    Capability.freeCopies ps k.caps = some k'.caps ∧ k.SameBase k' := by
  induction ps generalizing k with
  | nil =>
    cases h
    exact ⟨rfl, rfl, rfl, rfl⟩
  | cons p ps ih =>
    unfold Kernel.freeCopies at h
    unfold Capability.freeCopies
    obtain ⟨slot, hslot⟩ : ∃ slot, k.caps.slots p = some slot := by
      refine Option.ne_none_iff_exists'.mp fun hnone => ?_
      rw [hnone] at h
      cases h
    simp only [hslot] at h ⊢
    split at h
    · cases h
    rename_i r k1 hfree
    obtain ⟨_, hcaps, ho, hr, hu⟩ := Kernel.capFree_some hfree
    rw [hcaps]
    simp only
    split at h
    · cases h
    rename_i hzero
    obtain ⟨hwalk, ho', hr', hu'⟩ := ih h
    rw [if_neg hzero]
    exact ⟨hwalk, ho'.trans ho, hr'.trans hr, hu'.trans hu⟩

theorem freeCopies_frame {ps : List SlotPtr} {s s' : Caps} {ob : Object} (h : CapInv s)
    (hmem : o ∈ s.refs) (hob : s.objects o = some ob) (hps : ob.copies = ps)
    (hf : Capability.freeCopies ps s = some s') : Frame o s s' := by
  induction ps generalizing s ob with
  | nil =>
    cases hf
    exact .refl o _
  | cons p ps ih =>
    have hp : p ∈ ob.copies := by
      rw [hps]
      exact mem_cons_self
    obtain ⟨slot, hslot, hso⟩ := h.copySlot hob hp
    unfold Capability.freeCopies at hf
    rw [hslot] at hf
    simp only at hf
    split at hf
    · cases hf
    rename_i r s1 hfree
    split at hf
    · cases hf
    rename_i hr
    rw [not_not.mp hr] at hfree
    obtain ⟨n, t, ob', x, ends, hfs⟩ := freesSlot_of_slot h hslot hfree
    obtain ⟨h1, hrefs, _, _, ob1, hob1, _, hps1⟩ := freeHead h hmem hob hps hslot hso hfree
    exact (hso ▸ hfs.frame).trans (ih h1 (hrefs ▸ hmem) hob1 hps1 hf)

theorem slotObject_own {s : Caps} (h : CapInv s) {p : SlotPtr} {slot : ObjectSlot}
    (hslot : s.slots p = some slot) (hid : 0 ≤ slot.slotId) :
    slotObject s slot.capGroup slot.slotId = some slot.object := by
  obtain ⟨t, ht, hget⟩ := getSlot_own h hslot hid
  simp only [slotObject, ht, hget, hslot, bind_some, map_some]

/-- A group is as live as it was when another object goes, and its own stays. -/
theorem Kernel.live_congr (hbase : k.SameBase k') (hframe : Frame o k.caps k'.caps)
    (hob : (k.caps.objects o).isSome = (k'.caps.objects o).isSome) (g : GroupPtr) :
    k'.live g = k.live g := by
  unfold Kernel.live
  rw [hbase.1]
  cases k.owner g with
  | none => rfl
  | some o' =>
  by_cases ho : o' = o
  · subst ho
    exact hob.symm
  · exact congrArg Option.isSome (hframe.objects o' ho)

/-- The slot has an id, and its cap_group is live. -/
def Kernel.Placed (k : Kernel) (p : SlotPtr) : Prop :=
  ∀ sl, k.caps.slots p = some sl → 0 ≤ sl.slotId ∧ k.live sl.capGroup = true

section

variable (h : CapInv k.caps) (hmem : o ∈ k.caps.refs)

include h hmem

/-- **The walk returns exactly when every slot of the list has its place.** -/
theorem freeCopies_returns_iff {ps : List SlotPtr} {ob : Object} (hob : k.caps.objects o = some ob)
    (hps : ob.copies = ps) (hroot : o ≠ k.root) :
    (∃ k', k.freeCopies ps = some k') ↔ ∀ p ∈ ps, k.Placed p := by
  induction ps generalizing k ob with
  | nil => exact iff_of_true ⟨k, rfl⟩ nofun
  | cons p ps ih =>
    have hp : p ∈ ob.copies := by
      rw [hps]
      exact mem_cons_self
    have hpps : p ∉ ps := (nodup_cons.mp (hps ▸ h.nodup hob)).1
    obtain ⟨slot, hslot, hso⟩ := h.copySlot hob hp
    -- one round: what the rest of the walk finds is what was there before
    have hround : ∀ k1, k.capFree true slot.capGroup slot.slotId = some (0, k1) →
        ((∃ k', k1.freeCopies ps = some k') ↔ ∀ q ∈ ps, k.Placed q) := by
      intro k1 hfree
      obtain ⟨_, hcaps, hbase⟩ := Kernel.capFree_some hfree
      obtain ⟨n, t, ob', x, ends, hfs⟩ := freesSlot_of_slot h hslot hcaps
      obtain ⟨h1, hrefs, _, _, ob1, hob1, _, hps1⟩ := freeHead h hmem hob hps hslot hso hcaps
      have hlive := Kernel.live_congr hbase (hso ▸ hfs.frame) (by rw [hob, hob1]; rfl)
      rw [ih h1 (hrefs ▸ hmem) hob1 hps1 (hbase.2.1 ▸ hroot)]
      refine forall_congr' fun q => forall_congr' fun hq => ?_
      have hqp : q ≠ p := fun e => hpps (e ▸ hq)
      unfold Kernel.Placed
      rw [hfs.slots_eq, update_of_ne hqp]
      simp only [hlive]
    constructor
    · intro hw
      obtain ⟨k', hw⟩ := hw
      unfold Kernel.freeCopies at hw
      rw [hslot] at hw
      simp only at hw
      split at hw
      · cases hw
      rename_i r k1 hfree
      split at hw
      · cases hw
      rename_i hzero
      rw [not_not.mp hzero] at hfree
      obtain ⟨hlive, hcaps, _⟩ := Kernel.capFree_some hfree
      obtain ⟨n, t, ob', x, ends, hfs⟩ := freesSlot_of_slot h hslot hcaps
      refine forall_mem_cons.mpr ⟨fun sl hsl => ?_, (hround k1 hfree).mp ⟨k', hw⟩⟩
      rw [hslot] at hsl
      cases hsl
      exact ⟨hfs.isId ▸ Int.natCast_nonneg n, hlive⟩
    intro hall
    obtain ⟨hhead, htail⟩ := forall_mem_cons.mp hall
    obtain ⟨hid, hlive⟩ := hhead slot hslot
    obtain ⟨s1, hcaps⟩ := capFree_own h hslot hid
    have hne : slotObject k.caps slot.capGroup slot.slotId ≠ some k.root := by
      rw [slotObject_own h hslot hid, hso]
      exact fun e => hroot (some.inj e)
    have hfree := Kernel.capFree_of_ne true hlive hne hcaps
    obtain ⟨k', hw⟩ := (hround _ hfree).mpr htail
    refine ⟨k', ?_⟩
    unfold Kernel.freeCopies
    rw [hslot]
    simp only [hfree]
    exact hw

/-- With a reference held, `obj_free` is the walk; for the root it is over at once, if it comes so
    far. -/
theorem Kernel.objFree_held {ob : Object} (hob : k.caps.objects o = some ob) :
    k.objFree o = if o = k.root then
        if k.uninit.lockFree = true ∧ k.uninit.headEmpty = true then some k else none
      else k.freeCopies ob.copies := by
  have hpos : 0 < k.caps.refs.count o := count_pos_iff.mpr hmem
  have hcount := h.count hob
  unfold Kernel.objFree
  rw [hob]
  exact if_neg (by omega)

theorem Kernel.objFree_inv (hf : k.objFree o = some k') :
    CapInv k'.caps ∧ k'.caps.refs = k.caps.refs := by
  obtain ⟨ob, hob⟩ := h.refsLive hmem
  rw [Kernel.objFree_held h hmem hob] at hf
  split at hf
  · split at hf
    · cases hf
      exact ⟨h, rfl⟩
    · cases hf
  · obtain ⟨hinv, hrefs, _⟩ := freeCopies_spec h hmem hob rfl (Kernel.freeCopies_some hf).1
    exact ⟨hinv, hrefs⟩

end

end Walk

/-! ## 6. The invariant along every run -/

section Runs

variable {k k' : Kernel}

variable {id r : Int}

theorem Kernel.capFree_inv (h : CapInv k.caps) {locked : Bool} {g : GroupPtr} (hf : k.capFree locked g id = some (r, k')) : CapInv k'.caps :=
  inv_capFree h (Kernel.capFree_some hf).2.1

theorem Kernel.capMove_inv (h : CapInv k.caps) {env : Env} {src dst : GroupPtr} {rights : Option Nat} (hm : k.capMove env src dst id rights = some (r, k')) : CapInv k'.caps := by
  unfold Kernel.capMove at hm
  split at hm
  · cases hm
  rename_i r1 s hcopy
  have hinv := inv_capCopy h hcopy
  split at hm
  · cases hm
    exact hinv
  split at hm
  · cases hm
  rename_i r2 k2 hfree
  split at hm
  · cases hm
  · cases hm
    exact Kernel.capFree_inv (k := { k with caps := s }) hinv hfree

theorem Kernel.capRevoke_inv (h : CapInv k.caps) {env : Env} {g : GroupPtr} (hr : k.capRevoke env g id = some (r, k')) : CapInv k'.caps := by
  unfold Kernel.capRevoke at hr
  split at hr
  · cases hr
  split at hr
  · cases hr
  · rename_i s hget
    cases hr
    exact inv_getOpaque h hget
  rename_i o s hget
  have hinv : CapInv s := inv_getOpaque h hget
  have hmem : o ∈ s.refs := by
    rcases getOpaque_cases h hget with
      ⟨hres, _⟩ | ⟨_, _, _, _, _, _, _, _, _, _, _, _, hres, _, hpost⟩
    · cases hres
    · cases hres
      rw [hpost]
      exact mem_cons_self
  split at hr
  · cases hr
  rename_i k1 hfree
  obtain ⟨hinv1, hrefs⟩ := Kernel.objFree_inv (k := { k with caps := s }) hinv hmem hfree
  obtain ⟨s2, hput, hpair⟩ := map_eq_some_iff.mp hr
  cases hpair
  exact inv_objPut hinv1 (hrefs ▸ hmem) hput

/-- **One call keeps the invariant.** -/
theorem Kernel.step_inv (h : CapInv k.caps) {a : CapAct} (hs : k.step a = some k') :
    CapInv k'.caps := by
  cases a with
  | group env size =>
    obtain ⟨s, hnew, rfl⟩ := map_eq_some_iff.mp hs
    exact inv_objAlloc (inv_newGroup h hnew) .capGroup size
  | alloc type size =>
    obtain ⟨-, hs⟩ := ite_none_left_eq_some.mp hs
    cases hs
    exact inv_objAlloc h type size
  | publish env g o rights =>
    obtain ⟨-, hs⟩ := ite_none_left_eq_some.mp hs
    obtain ⟨x, hc, rfl⟩ := map_eq_some_iff.mp hs
    exact inv_capAlloc h hc
  | copy env src dst id rights =>
    obtain ⟨-, hs⟩ := ite_none_left_eq_some.mp hs
    obtain ⟨x, hc, rfl⟩ := map_eq_some_iff.mp hs
    exact inv_capCopy h hc
  | move env src dst id rights =>
    obtain ⟨-, hs⟩ := ite_none_left_eq_some.mp hs
    obtain ⟨x, hc, rfl⟩ := map_eq_some_iff.mp hs
    exact Kernel.capMove_inv h hc
  | free g id =>
    obtain ⟨x, hc, rfl⟩ := map_eq_some_iff.mp hs
    exact Kernel.capFree_inv h hc
  | revoke env g id =>
    obtain ⟨x, hc, rfl⟩ := map_eq_some_iff.mp hs
    exact Kernel.capRevoke_inv h hc
  | get env g id type =>
    obtain ⟨-, hs⟩ := ite_none_left_eq_some.mp hs
    obtain ⟨x, hc, rfl⟩ := map_eq_some_iff.mp hs
    exact inv_getOpaque h hc
  | put o =>
    obtain ⟨hmem, hs⟩ := ite_none_right_eq_some.mp hs
    obtain ⟨s, hput, rfl⟩ := map_eq_some_iff.mp hs
    exact inv_objPut h hmem hput

/-- **It holds at the start**: the root's slot is installed as any other. -/
theorem createRootCapGroup_inv {env env' : Env} {size vmspaceSize : Nat} {uninit : Uninit}
    (h : createRootCapGroup env env' size vmspaceSize uninit = some k) : CapInv k.caps := by
  unfold createRootCapGroup at h
  split at h
  · rename_i t hinit
    split at h
    · cases h
    rename_i r halloc
    split at h
    · cases h
    rename_i hret
    have hret : r.ret = 0 := not_not.mp (not_or.mp hret).1
    simp only at h
    split at h
    · rename_i s hcap
      cases h
      have hnew : newGroup env Caps.init BASE_OBJECT_NUM =
          some { Caps.init.setGroup 0 t with nextGroup := 1 } := by
        rw [newGroup, hinit]
        rfl
      have hinv := inv_objAlloc (inv_newGroup capInv_init hnew) .capGroup size
      have hg : (objAlloc { Caps.init.setGroup 0 t with nextGroup := 1 } .capGroup size).groups 0 =
          some t := (setGroup_groups Caps.init 0 t 0).trans (if_pos rfl)
      rcases allocSlotId_spec (hinv.wf hg) halloc with ⟨hbad, _⟩ | ⟨e, he, htaken⟩
      · rw [hret] at hbad
        exact absurd hbad (by decide)
      obtain rfl : e = 0 := by omega
      obtain ⟨t', hi⟩ := installSlot_taken (b := env.beyond) htaken (0 : SlotPtr)
      have ht' : t' = { r.table with slots := r.table.slots.set 0 (some 0) } := by
        rcases installSlot_cases hi with ⟨hneg, _⟩ | ⟨n, hn, ht'⟩
        · exact absurd hneg (by decide)
        · obtain rfl : n = 0 := by omega
          exact ht'
      subst ht'
      have hinst : Installs _ 0 { type := .capGroup, size, copies := [], refcount := 0 }
          { type := .capGroup, size, copies := [0], refcount := 1 } ⟨0, 0, true, 0, 0⟩ t
          { r.table with slots := r.table.slots.set 0 (some 0) } :=
        installs_of_alloc hinv hg halloc hret.symm (by rw [hret]; exact hi)
          rfl ⟨rfl, rfl⟩ (List.Perm.refl _) rfl
      exact inv_capAlloc
        (inv_objAlloc (inv_install hinv hinst (.inr rfl)) .vmspace vmspaceSize) hcap
    · cases h
  · cases h

end Runs

/-! ## 7. Revocation -/

section Revocation

variable {k : Kernel} {env : Env} {g : GroupPtr} {t : SlotTable SlotPtr} {n : Nat} {p : SlotPtr}
  {sl : ObjectSlot} {ob : Object}

/-- The state in which `obj_free` is called. -/
def Kernel.holding (k : Kernel) (o : ObjPtr) (ob : Object) : Kernel :=
  { k with caps := referenced k.caps o ob }

theorem Kernel.capRevoke_used (h : CapInv k.caps) (hlive : k.live g = true)
    (hg : k.caps.groups g = some t) (hc : t.cell n = some p) (hsl : k.caps.slots p = some sl)
    (hob : k.caps.objects sl.object = some ob) :
    k.capRevoke env g n = ((k.holding sl.object ob).objFree sl.object).bind fun k' =>
      (objPut k'.caps sl.object).map fun s => (0, { k' with caps := s }) := by
  unfold Kernel.capRevoke
  rw [if_neg (by rw [hlive]; decide), getOpaque_used h hg hc hsl hob]
  show (match (k.holding sl.object ob).objFree sl.object with
    | none => none
    | some k' => (objPut k'.caps sl.object).map fun s => ((0 : Int), { k' with caps := s })) = _
  cases (k.holding sl.object ob).objFree sl.object with
  | none => rfl
  | some k' => rfl

theorem Kernel.holding_frame (o : ObjPtr) (ob : Object) : Frame o k.caps (k.holding o ob).caps :=
  .of_object rfl rfl fun _ hne => update_of_ne hne _ _

theorem Kernel.holding_object (o : ObjPtr) (ob : Object) :
    (k.holding o ob).caps.objects o = some { ob with refcount := ob.refcount + 1 } :=
  update_self _ _ _

theorem Kernel.holding_inv (h : CapInv k.caps) (hg : k.caps.groups g = some t)
    (hc : t.cell n = some p) (hsl : k.caps.slots p = some sl)
    (hob : k.caps.objects sl.object = some ob) : CapInv (k.holding sl.object ob).caps := by
  have hget : (getOpaque .ample k.caps g n none).1 =
      some (some sl.object, referenced k.caps sl.object ob) := by
    rw [getOpaque_used h hg hc hsl hob, if_pos (.inl rfl)]
  exact inv_getOpaque h hget

/-- The walk over the object's list returns exactly when each of its slots has its place. -/
theorem Kernel.holding_walk_iff {o : ObjPtr} (h : CapInv k.caps) (h' : CapInv (k.holding o ob).caps)
    (hob : k.caps.objects o = some ob) (hroot : o ≠ k.root) :
    (∃ k', (k.holding o ob).freeCopies ob.copies = some k') ↔ k.Revocable o := by
  have hbase : k.SameBase (k.holding o ob) := ⟨rfl, rfl, rfl⟩
  have hlive := Kernel.live_congr hbase (k.holding_frame o ob)
    (by rw [hob, k.holding_object]; rfl)
  rw [freeCopies_returns_iff h' mem_cons_self (k.holding_object o ob) rfl hroot]
  constructor
  · intro hall
    refine ⟨hroot, fun q sl hq ho => ?_⟩
    obtain ⟨_, _, ob', hob', hmem⟩ := h.slotObj hq
    rw [ho, hob] at hob'
    cases hob'
    rw [← hlive]
    exact hall q hmem sl hq
  · intro hall q hmem sl hq
    obtain ⟨sl', hq', ho⟩ := h.copySlot hob hmem
    have hsl : sl' = sl := some.inj (hq'.symm.trans hq)
    rw [hlive]
    exact hall.2 q sl hq (hsl ▸ ho)

theorem objPut_frame {s s' : Caps} {o : ObjPtr} (h : CapInv s) (hmem : o ∈ s.refs)
    (hput : objPut s o = some s') : s'.slots = s.slots ∧ s'.groups = s.groups ∧ Frame o s s' := by
  obtain ⟨_, _, _, _, _, rfl⟩ := objPut_cases h hmem hput
  exact ⟨rfl, rfl, .of_object rfl rfl fun o' hne => (recounted_objects o').trans (if_neg hne)⟩

section

variable (h : CapInv k.caps) (hlive : k.live g = true) (hg : k.caps.groups g = some t)
  (hc : t.cell n = some p) (hsl : k.caps.slots p = some sl)

include h hlive hg hc hsl

/-- **The root's own capability stays**: `obj_free` has walked over nothing. -/
theorem Kernel.not_revokeRight_root (hroot : sl.object = k.root) :
    ¬ RevokeRight env k g n sl.object := by
  intro hr
  obtain ⟨k', hk, hrev⟩ := hr
  obtain ⟨_, _, ob, hob, _⟩ := h.slotObj hsl
  have h' := Kernel.holding_inv h hg hc hsl hob
  have hroot' : sl.object = (k.holding sl.object ob).root := hroot
  rw [Kernel.capRevoke_used h hlive hg hc hsl hob,
    Kernel.objFree_held h' mem_cons_self (k.holding_object _ ob), if_pos hroot'] at hk
  split at hk
  · obtain ⟨s, hput, hpair⟩ := map_eq_some_iff.mp hk
    cases hpair
    obtain ⟨hslots, hgroups, _⟩ := objPut_frame h' mem_cons_self hput
    refine hrev.gone g t n p sl ?_ hc ?_ rfl
    · rw [hgroups]
      exact hg
    · rw [hslots]
      exact hsl
  · cases hk

/-- **Any other object is revoked** when each of its slots has its place. -/
theorem Kernel.revokeRight_iff_of_ne (hroot : sl.object ≠ k.root) :
    RevokeRight env k g n sl.object ↔ k.Revocable sl.object := by
  obtain ⟨_, _, ob, hob, _⟩ := h.slotObj hsl
  have h' := Kernel.holding_inv h hg hc hsl hob
  have hmem : sl.object ∈ (k.holding sl.object ob).caps.refs := mem_cons_self
  have hob' := k.holding_object sl.object ob
  have hroot' : sl.object ≠ (k.holding sl.object ob).root := hroot
  rw [← Kernel.holding_walk_iff h h' hob hroot, RevokeRight,
    Kernel.capRevoke_used h hlive hg hc hsl hob, Kernel.objFree_held h' hmem hob', if_neg hroot']
  constructor
  · intro hr
    obtain ⟨_, hk, _⟩ := hr
    obtain ⟨k1, hwalk, _⟩ := bind_eq_some_iff.mp hk
    exact ⟨k1, hwalk⟩
  intro hw
  obtain ⟨k1, hwalk⟩ := hw
  have hcaps := (Kernel.freeCopies_some hwalk).1
  obtain ⟨h1, hrefs, _, _, ob1, hob1, _, hempty⟩ := freeCopies_spec h' hmem hob' rfl hcaps
  have hmem1 : sl.object ∈ k1.caps.refs := hrefs ▸ hmem
  obtain ⟨s2, hput⟩ := objPut_total h1 hmem1
  obtain ⟨hslots, _, hframe⟩ := objPut_frame h1 hmem1 hput
  refine ⟨{ k1 with caps := s2 }, ?_, ?_, ?_⟩
  · rw [hwalk, bind_some, hput]
    rfl
  · -- a slot of the object would still be in the list
    intro g' t' i q sl' _ _ hq ho
    obtain ⟨_, _, ob2, hob2, hin⟩ := h1.slotObj (hslots ▸ hq : k1.caps.slots q = some sl')
    rw [ho, hob1] at hob2
    cases hob2
    rw [hempty] at hin
    exact not_mem_nil hin
  · exact ((k.holding_frame sl.object ob).trans
      (freeCopies_frame h' hmem hob' rfl hcaps)).trans hframe

end

/-- **Revocation**: in every state that a run from `create_root_cap_group` reaches, `cap_revoke` of a
    valid slot returns 0 and revokes its object exactly when the object is not the root cap_group's
    own and every slot that refers to it has an id and lies in a live cap_group. -/
theorem cap_revoke_iff {env₀ env₁ : Env} {size vmspaceSize : Nat} {uninit : Uninit} {k₀ : Kernel}
    (hboot : createRootCapGroup env₀ env₁ size vmspaceSize uninit = some k₀) (as : List CapAct)
    (hrun : exec Kernel.step k₀ as = some k) (env : Env) (hlive : k.live g = true)
    (hg : k.caps.groups g = some t) (hc : t.cell n = some p) (hsl : k.caps.slots p = some sl) :
    RevokeRight env k g n sl.object ↔ k.Revocable sl.object := by
  have h : CapInv k.caps :=
    exec_inv (I := fun k => CapInv k.caps) (fun _ _ _ hI hs => Kernel.step_inv hI hs) as k₀ k
      (createRootCapGroup_inv hboot) hrun
  by_cases hroot : sl.object = k.root
  · exact iff_of_false (Kernel.not_revokeRight_root h hlive hg hc hsl hroot)
      fun hrev => hrev.1 hroot
  · exact Kernel.revokeRight_iff_of_ne h hlive hg hc hsl hroot

end Revocation

/-- The state after boot. -/
def booted : Kernel :=
  (createRootCapGroup .ample .ample 8 8 uninit).getD ⟨Caps.init, fun _ => none, 0, uninit⟩

theorem booted_boot : createRootCapGroup .ample .ample 8 8 uninit = some (booted uninit) := by
  have hsome : (createRootCapGroup .ample .ample 8 8 uninit).isSome := by
    obtain ⟨lockFree, headEmpty⟩ := uninit
    cases lockFree <;> cases headEmpty <;> decide +kernel
  obtain ⟨k, hk⟩ := isSome_iff_exists.mp hsome
  unfold booted
  rw [hk]
  rfl

/-- The root's table after boot. -/
def bootedTable : SlotTable SlotPtr :=
  ((booted uninit).caps.groups 0).getD (zeroTable 0)

theorem bootedTable_group :
    (booted ⟨true, false⟩).caps.groups 0 = some (bootedTable ⟨true, false⟩) := by
  have hsome : ((booted ⟨true, false⟩).caps.groups 0).isSome := by decide +kernel
  obtain ⟨t, ht⟩ := isSome_iff_exists.mp hsome
  unfold bootedTable
  rw [ht]
  rfl

theorem cap_revoke_vmspace : RevokeRight .ample (booted ⟨true, false⟩) 0 1 1 := by
  have hlive : (booted ⟨true, false⟩).live 0 = true := by decide +kernel
  have hslots : ∀ q : Nat, q < 2 →
      (booted ⟨true, false⟩).caps.slots q = some ⟨q, 0, true, 0, q⟩ := by decide +kernel
  refine (cap_revoke_iff (booted_boot ⟨true, false⟩) [] rfl .ample hlive
    bootedTable_group (by decide +kernel) (hslots 1 (by decide))).mpr
    ⟨by decide +kernel, fun q sl hq _ => ?_⟩
  have hlt : q < 2 :=
    lt_of_lt_of_eq ((createRootCapGroup_inv (booted_boot _)).slotObj hq).2.1 (by decide +kernel)
  have hsl : (⟨q, 0, true, 0, q⟩ : ObjectSlot) = sl :=
    some.inj ((hslots q hlt).symm.trans hq)
  subst hsl
  exact ⟨Int.natCast_nonneg q, hlive⟩

/-- **The root's own capability cannot be revoked.** With a `copies_head` that does not point to
    itself `obj_free` does not return; with one that does, 0 is returned and the slot is left. -/
theorem root_revoke_fails :
    slotObject (booted ⟨true, false⟩).caps 0 0 = some 0 ∧
    slotObject (booted ⟨true, true⟩).caps 0 0 = some 0 ∧
    ¬ RevokeRight .ample (booted ⟨true, false⟩) 0 0 0 ∧
    ¬ RevokeRight .ample (booted ⟨true, true⟩) 0 0 0 := by
  refine ⟨by decide +kernel, by decide +kernel, fun hr => ?_, fun hr => ?_⟩
  · obtain ⟨k', hk, _⟩ := hr
    have hnone : ((booted ⟨true, false⟩).capRevoke .ample 0 0).isNone := by decide +kernel
    rw [hk] at hnone
    cases hnone
  obtain ⟨k', hk, hrev⟩ := hr
  have hleft : (((booted ⟨true, true⟩).capRevoke .ample 0 0).bind fun x =>
      slotObject x.2.caps 0 0) = some 0 := by decide +kernel
  rw [hk, bind_some] at hleft
  obtain ⟨t, ht, hslot⟩ := bind_eq_some_iff.mp hleft
  obtain ⟨p, hp, hobj⟩ := bind_eq_some_iff.mp hslot
  obtain ⟨sl, hsl, ho⟩ := map_eq_some_iff.mp hobj
  have hinv := Kernel.capRevoke_inv (createRootCapGroup_inv (booted_boot _)) hk
  obtain ⟨n, _, hcell⟩ := (getSlot_eq_some (hinv.wf ht)).mp hp
  exact hrev.gone 0 t n p sl ht hcell hsl ho

end ChCore.Capability
