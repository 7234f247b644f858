/-
  File: ChCore/Object/CapabilityRuns.lean
  Subject: Reference counts, deinit functions and slot ids over whole runs of capability calls.

  * `cap_counts_run` -- in every run whose copies fit into their tables the count of a published
    object is the number of slots that point to it plus the references held, its copies list is
    these slots, and it is gone exactly when the sum is 0;
  * `deinit_run_iff` -- every freed object ran its deinit function exactly once before, exactly
    when no `obj_put` and no `cap_revoke` of the run drops the last reference on an object that
    has one;
  * `get_opaque_iff` -- `get_opaque` stays inside the table and answers as it should exactly for
    the ids below `slots_size`.
-/
import ChCore.Object.CapabilityCalls

namespace ChCore.Capability

open Lib Common Option List Int

/-! ## 1. The slots that point to an object -/

section Pointing

variable {s : Caps} {o : ObjPtr}

variable {t : SlotTable SlotPtr} {p : SlotPtr}

theorem mem_slots_iff : p ∈ t.slots.filterMap id ↔ ∃ i, t.cell i = some p := by
  rw [mem_filterMap]
  refine ⟨fun ⟨c, hc, e⟩ => ?_, fun ⟨i, hi⟩ => ?_⟩
  · obtain ⟨i, hi⟩ := mem_iff_getElem?.mp hc
    refine ⟨i, ?_⟩
    unfold SlotTable.cell
    rw [hi]
    exact e
  unfold SlotTable.cell at hi
  cases hc : t.slots[i]? with
  | none =>
    rw [hc] at hi
    cases hi
  | some c =>
    rw [hc] at hi
    exact ⟨c, mem_iff_getElem?.mpr ⟨i, hc⟩, hi⟩

theorem mem_pointingIn :
    p ∈ pointingIn s t o ↔ (∃ i, t.cell i = some p) ∧ ∃ sl, s.slots p = some sl ∧ sl.object = o := by
  unfold pointingIn
  rw [mem_filter, mem_slots_iff]
  refine and_congr_right fun _ => ?_
  cases s.slots p with
  | none => simp
  | some sl => simp

theorem mem_pointingGroup {g : GroupPtr} :
    p ∈ (s.groups g).elim [] (fun t => pointingIn s t o) ↔
      ∃ t, s.groups g = some t ∧ p ∈ pointingIn s t o := by
  cases s.groups g with
  | none => simp
  | some t => simp

theorem mem_pointing :
    p ∈ pointing s o ↔ ∃ g, g < s.nextGroup ∧ ∃ t, s.groups g = some t ∧ p ∈ pointingIn s t o := by
  unfold pointing
  rw [mem_flatMap]
  refine exists_congr fun g => ?_
  rw [mem_range, mem_pointingGroup]

theorem CapInv.nodup_pointingIn (h : CapInv s) {g : GroupPtr} (hg : s.groups g = some t) :
    (pointingIn s t o).Nodup := by
  refine List.Nodup.filter _ ?_
  unfold List.Nodup
  rw [pairwise_filterMap, pairwise_iff_getElem]
  intro i j hi hj hlt p hp q hq e
  have hcell : ∀ {k : Nat} {c : SlotPtr} (hk : k < t.slots.length), id t.slots[k] = some c →
      t.cell k = some c := by
    intro k c hk hc
    unfold SlotTable.cell
    rw [List.getElem?_eq_getElem hk]
    exact hc
  rw [e] at hp
  have := (h.cell_unique hg hg (hcell hi hp) (hcell hj hq)).2
  omega

/-- No slot is counted twice: a slot lies in one cell of one table. -/
theorem CapInv.nodup_pointing (h : CapInv s) : (pointing s o).Nodup := by
  unfold pointing
  rw [nodup_flatMap]
  refine ⟨fun g _ => ?_, nodup_range.imp fun {g g'} hne p hp hp' => hne ?_⟩
  · cases hg : s.groups g with
    | none => exact nodup_nil
    | some t => exact h.nodup_pointingIn hg
  obtain ⟨t, hg, hp⟩ := mem_pointingGroup.mp hp
  obtain ⟨t', hg', hp'⟩ := mem_pointingGroup.mp hp'
  obtain ⟨⟨i, hi⟩, _⟩ := mem_pointingIn.mp hp
  obtain ⟨⟨j, hj⟩, _⟩ := mem_pointingIn.mp hp'
  exact (h.cell_unique hg hg' hi hj).1

/-- **The copies list is the slots that point to the object**, where every slot is in a table. -/
theorem CapInv.copies_perm (h : CapInv s) (hn : NoStray s) {ob : Object}
    (hob : s.objects o = some ob) : ob.copies.Perm (pointing s o) := by
  refine (perm_ext_iff_of_nodup (h.nodup hob) h.nodup_pointing).mpr fun p => ?_
  rw [mem_pointing]
  refine ⟨fun hp => ?_, fun ⟨g, _, t, hg, hp⟩ => ?_⟩
  · obtain ⟨sl, hsl, hso⟩ := h.copySlot hob hp
    obtain ⟨i, hi⟩ := eq_ofNat_of_zero_le (hn hsl)
    obtain ⟨t, ht, hc⟩ := h.slotCell hsl hi
    exact ⟨sl.capGroup, h.groupLt ht, t, ht, mem_pointingIn.mpr ⟨⟨i, hc⟩, sl, hsl, hso⟩⟩
  · obtain ⟨_, sl, hsl, hso⟩ := mem_pointingIn.mp hp
    exact ((h.slotsOk hob).old hsl).2 hso

end Pointing

/-! ## 2. Counts -/

variable (as : List CapAct) (s : Caps)

/-- The slots in all tables that point to `o`, plus the references held on it. -/
def holders (o : ObjPtr) : Nat := (pointing s o).length + s.refs.count o

/-- **The count of an object is right**: a live object counts its holders and lists their slots,
    each once, and has some; an object that is gone has none. -/
def CountsOk (o : ObjPtr) : Prop :=
  match s.objects o with
  | some ob => ob.refcount = holders s o ∧ ob.copies.Perm (pointing s o) ∧ ob.copies.Nodup ∧
      holders s o ≠ 0
  | none => holders s o = 0

instance (s : Caps) (o : ObjPtr) : Decidable (CountsOk s o) := by
  unfold CountsOk
  exact match s.objects o with
    | some _ => inferInstance
    | none => inferInstance

theorem countsOk_of_inv {s : Caps} (h : CapInv s) (hn : NoStray s) {o : ObjPtr}
    (hp : Published s o) : CountsOk s o := by
  unfold CountsOk holders
  split
  · rename_i ob hob
    have hperm := h.copies_perm hn hob
    have hcount := h.count hob
    have hpos := (h.published hob).mp hp
    rw [hperm.length_eq] at hcount
    exact ⟨hcount, hperm, h.nodup hob, by omega⟩
  rename_i hob
  have hslots : pointing s o = [] := by
    refine eq_nil_iff_forall_not_mem.mpr fun p hp => ?_
    obtain ⟨g, _, t, _, hp⟩ := mem_pointing.mp hp
    obtain ⟨_, sl, hsl, hso⟩ := mem_pointingIn.mp hp
    obtain ⟨_, _, ob, hob', _⟩ := h.slotObj hsl
    rw [hso, hob] at hob'
    cases hob'
  have hrefs : s.refs.count o = 0 := by
    refine count_eq_zero.mpr fun hmem => ?_
    obtain ⟨ob, hob'⟩ := h.refsLive hmem
    rw [hob] at hob'
    cases hob'
  rw [hslots, hrefs]
  rfl

/-- **Counts over a run**: after each call of a run whose copies fit into their tables, the count
    of every published object is right. -/
theorem cap_counts_run (hfits : ∀ tr ∈ trace capStep Caps.init as, StepFits tr.pre tr.act) :
    ∀ tr ∈ trace capStep Caps.init as, ∀ o, Published tr.post o → CountsOk tr.post o := by
  intro tr htr o hp
  obtain ⟨hinv, hn⟩ := (trace_inv (I := fun s => CapInv s ∧ NoStray s) (C := StepFits)
    (fun s a s' hI hC hs => ⟨capStep_inv hI.1 hs, capStep_noStray hI.1 hI.2 hC hs⟩)
    as Caps.init ⟨capInv_init, noStray_init⟩ hfits tr htr).2
  exact countsOk_of_inv hinv hn hp

instance (env : Env) (s : Caps) (src dst : GroupPtr) (id : Int) :
    Decidable (CopyFits env s src dst id) :=
  match hs : s.groups src, hd : s.groups dst with
  | some tsrc, some tdst =>
    match hp : getSlot tsrc id with
    | some p => decidable_of_iff (¬ GrowFails env tdst)
        ⟨fun h _ _ _ _ hd' _ => by rw [hd] at hd'; cases hd'; exact h,
          fun h => h tsrc tdst p hs hd hp⟩
    | none => isTrue fun _ _ _ hs' _ hp' => by rw [hs] at hs'; cases hs'; rw [hp] at hp'; cases hp'
  | none, _ => isTrue fun _ _ _ hs' _ _ => by rw [hs] at hs'; cases hs'
  | some _, none => isTrue fun _ _ _ _ hd' _ => by rw [hd] at hd'; cases hd'

instance (s : Caps) (a : CapAct) : Decidable (StepFits s a) := by
  cases a <;> unfold StepFits <;> infer_instance

/-- No table can grow, and the heap behind the bitmaps is all ones. -/
def Env.exhausted : Env :=
  ⟨⟨false, false, false⟩, true, ⟨fun _ => BitVec.allOnes 64, fun _ => BitVec.allOnes 64⟩, false⟩

/-- An object is copied into a second group, referenced, moved back, and revoked. -/
def sharedRun : List CapAct :=
  [.group .ample 64, .group .ample 64, .alloc .pmo 8, .publish .ample 0 0 7, .copy .ample 0 1 0 none,
   .get .ample 1 0 .pmo, .move .ample 1 0 0 (some 1), .revoke .ample 0 1, .put 0]

theorem cap_counts_shared :
    (∀ tr ∈ trace capStep Caps.init sharedRun, StepFits tr.pre tr.act) ∧
    ∀ tr ∈ trace capStep Caps.init sharedRun, ∀ o, Published tr.post o → CountsOk tr.post o :=
  have hfits : ∀ tr ∈ trace capStep Caps.init sharedRun, StepFits tr.pre tr.act := by
    decide +kernel
  ⟨hfits, cap_counts_run sharedRun hfits⟩

/-- The object is copied 64 times into a group of 64 slots, and once more when no memory is left. -/
def overfullRun : List CapAct :=
  [.group .ample 64, .group .ample 64, .alloc .pmo 8, .publish .ample 0 0 7] ++
    List.replicate 64 (.copy .ample 0 1 0 none) ++ [.copy .exhausted 0 1 0 none]

/-- **The failed copy counts**: the last `cap_copy` of the run returns an error code as the id, and
    the object has a slot on its copies list, and in its count, that is in no table. -/
theorem cap_counts_overfull :
    ¬ ∀ tr ∈ trace capStep Caps.init overfullRun, ∀ o, Published tr.post o → CountsOk tr.post o := by
  intro h
  have hend : (exec capStep Caps.init overfullRun).any
      (fun s => Published s 0 ∧ ¬ CountsOk s 0) = true := by decide +kernel
  obtain ⟨tr, htr, hp, hno⟩ := trace_of_exec hend
  exact hno (h tr htr 0 hp)

/-! ## 3. Deinit functions -/

/-- **Every object of a type with a deinit function is freed after exactly one run of it.** -/
def DeinitOnce (log : List Event) : Prop :=
  ∀ i o type, log[i]? = some (.free o type) → type.hasDeinit = true →
    (log.take i).count (.deinit o) = 1

/-- The step does not drop the last reference on an object with a deinit function in `obj_put`:
    a `put` is not the last one, a `revoke` leaves a reference. -/
def DeinitRuns : CapAct → Prop
  | .put o => ∀ ob, s.objects o = some ob → ob.type.hasDeinit = true → ob.refcount ≠ 1
  | .revoke _ g id => ∀ t p sl ob, s.groups g = some t → getSlot t id = some p →
      s.slots p = some sl → s.objects sl.object = some ob → ob.type.hasDeinit = true →
      ob.refcount ≠ ob.copies.length
  | _ => True

theorem deinitOnce_append {log ends : List Event} (h : DeinitOnce log) :
    DeinitOnce (log ++ ends) ↔ ∀ i o type, ends[i]? = some (.free o type) →
      type.hasDeinit = true → (log ++ ends.take i).count (.deinit o) = 1 := by
  refine ⟨fun h' i o type hi hd => ?_, fun h' i o type hi hd => ?_⟩
  · have hi' : (log ++ ends)[log.length + i]? = some (.free o type) := by
      rw [List.getElem?_append_right (by omega), Nat.add_sub_cancel_left]
      exact hi
    have := h' _ o type hi' hd
    rwa [take_length_add_append] at this
  by_cases hlt : i < log.length
  · rw [List.getElem?_append_left hlt] at hi
    rw [take_append_of_le_length (le_of_lt hlt)]
    exact h i o type hi hd
  · obtain ⟨j, rfl⟩ := Nat.exists_eq_add_of_le (not_lt.mp hlt)
    rw [List.getElem?_append_right (by omega), Nat.add_sub_cancel_left] at hi
    rw [take_length_add_append]
    exact h' j o type hi hd

theorem deinitOnce_publish {log : List Event} (h : DeinitOnce log) (o : ObjPtr) :
    DeinitOnce (log ++ [.publish o]) := by
  refine (deinitOnce_append h).mpr fun i o' type hi _ => ?_
  cases i with
  | zero => cases hi
  | succ i => cases hi

/-- **The end of a live object**: it is logged as it should be exactly when its type has no deinit
    function or the path calls it. -/
theorem deinitOnce_ends {s : Caps} (h : CapInv s) (hd : DeinitOnce s.log) {o : ObjPtr} {ob : Object}
    (hob : s.objects o = some ob) (runs : Bool) :
    DeinitOnce (s.log ++ endsOf o ob.type runs) ↔ (ob.type.hasDeinit = true → runs = true) := by
  have hzero : s.log.count (.deinit o) = 0 :=
    count_eq_zero.mpr fun hmem => h.logLive hob _ hmem rfl
  rw [deinitOnce_append hd]
  unfold endsOf
  cases hty : ob.type.hasDeinit with
  | false =>
    refine ⟨nofun, fun _ i o' type hi hd' => ?_⟩
    simp only [Bool.and_false, Bool.false_eq_true, if_false, nil_append] at hi
    cases i with
    | zero =>
      cases hi
      rw [hty] at hd'
      cases hd'
    | succ i => cases hi
  | true =>
  cases runs with
  | false =>
    refine ⟨fun h => ?_, fun h => absurd (h rfl) (by decide)⟩
    have := h 0 o ob.type rfl hty
    simp only [take_zero, append_nil, hzero] at this
    exact absurd this (by decide)
  | true =>
  refine ⟨fun _ _ => rfl, fun _ i o' type hi _ => ?_⟩
  match i with
  | 0 => cases hi
  | 1 =>
    cases hi
    simp [hzero]
  | i + 2 => cases hi

section Steps

variable {s s' : Caps} {env : Env}

variable {id : Int}

/-- The object a revocation of a slot in use is about. -/
theorem deinitRuns_revoke {g : GroupPtr} {t : SlotTable SlotPtr} {p : SlotPtr}
    {sl : ObjectSlot} {ob : Object} (hg : s.groups g = some t) (hp : getSlot t id = some p)
    (hsl : s.slots p = some sl) (hob : s.objects sl.object = some ob) :
    DeinitRuns s (.revoke env g id) ↔
      (ob.type.hasDeinit = true → ob.refcount ≠ ob.copies.length) := by
  refine ⟨fun h => h t p sl ob hg hp hsl hob, fun h t' p' sl' ob' hg' hp' hsl' hob' => ?_⟩
  rw [hg] at hg'
  cases hg'
  rw [hp] at hp'
  cases hp'
  rw [hsl] at hsl'
  cases hsl'
  rw [hob] at hob'
  cases hob'
  exact h

/-- `__cap_free` calls the deinit function before it frees. -/
theorem deinitOnce_capFree (h : CapInv s) (hd : DeinitOnce s.log) {g : GroupPtr} {r : Int}
    (hc : capFree s g id = some (r, s')) : DeinitOnce s'.log := by
  rcases capFree_cases h hc with ⟨_, rfl, _⟩ | ⟨_, n, t, p, sl, ob, x, ends, hf⟩
  · exact hd
  rw [hf.post]
  show DeinitOnce (s.log ++ ends)
  cases hf.count with
  | kept => rw [append_nil]; exact hd
  | freed => exact (deinitOnce_ends h hd hf.object true).mpr fun _ => rfl

theorem log_capCopy (h : CapInv s) {src dst : GroupPtr} {rights : Option Nat} {r : Int}
    (hc : capCopy env s src dst id rights = some (r, s')) : s'.log = s.log := by
  rcases capCopy_cases h hc with ⟨_, hu⟩ | ⟨o, ob, ob', sl, t, t', _, _, _, rfl⟩
  · exact hu.log_eq
  · rfl

/-- **One call**: the log stays right exactly when the call does not drop the last reference on an
    object with a deinit function in `obj_put`. -/
theorem deinit_step_iff (h : CapInv s) (hd : DeinitOnce s.log) {a : CapAct}
    (hs : capStep s a = some s') : DeinitOnce s'.log ↔ DeinitRuns s a := by
  cases a with
  | group env size =>
    refine ⟨fun _ => trivial, fun _ => ?_⟩
    simp only [capStep, newGroup] at hs
    split at hs
    · cases hs
    · cases hs
    · cases hs
      exact hd
  | alloc type size =>
    cases hs
    exact ⟨fun _ => trivial, fun _ => hd⟩
  | publish env g o rights =>
    refine ⟨fun _ => trivial, fun _ => ?_⟩
    obtain ⟨⟨r, _⟩, hc, rfl⟩ := map_eq_some_iff.mp hs
    rcases capAlloc_cases h hc with hu | ⟨ob, ob', sl, t, t', _, _, rfl⟩
    · rw [hu.log_eq]
      exact hd
    · exact deinitOnce_publish hd o
  | copy env src dst id rights =>
    refine ⟨fun _ => trivial, fun _ => ?_⟩
    obtain ⟨⟨r, _⟩, hc, rfl⟩ := map_eq_some_iff.mp hs
    rw [log_capCopy h hc]
    exact hd
  | move env src dst id rights =>
    refine ⟨fun _ => trivial, fun _ => ?_⟩
    obtain ⟨⟨r, _⟩, hc, rfl⟩ := map_eq_some_iff.mp hs
    rcases capMove_cases hc with ⟨r', hcopy⟩ | ⟨r1, s1, r2, hcopy, hfree⟩
    · rw [log_capCopy h hcopy]
      exact hd
    · have hd1 : DeinitOnce s1.log := by rw [log_capCopy h hcopy]; exact hd
      exact deinitOnce_capFree (inv_capCopy h hcopy) hd1 hfree
  | free g id =>
    refine ⟨fun _ => trivial, fun _ => ?_⟩
    obtain ⟨⟨r, _⟩, hc, rfl⟩ := map_eq_some_iff.mp hs
    exact deinitOnce_capFree h hd hc
  | revoke env g id =>
    obtain ⟨⟨r, _⟩, hc, rfl⟩ := map_eq_some_iff.mp hs
    rcases capRevoke_cases h hc with
      ⟨rfl, hnone⟩ | ⟨n, t, p, sl, ob, rfl, hg, hcell, hsl, hob, _, _, hlog⟩
    · refine ⟨fun _ t p sl ob hg hp => ?_, fun _ => hd⟩
      rw [hnone t hg] at hp
      cases hp
    have hget : getSlot t (n : Int) = some p := (getSlot_eq_some (h.wf hg)).mpr ⟨n, rfl, hcell⟩
    rw [deinitRuns_revoke hg hget hsl hob]
    rw [hlog]
    split
    · rename_i hlast
      rw [deinitOnce_ends h hd hob]
      exact ⟨fun h' hty => absurd (h' hty) (by decide), fun h' hty => absurd hlast (h' hty)⟩
    · rename_i hmore
      rw [append_nil]
      exact ⟨fun _ _ => hmore, fun _ => hd⟩
  | get env g id type =>
    refine ⟨fun _ => trivial, fun _ => ?_⟩
    obtain ⟨⟨r, _⟩, hc, rfl⟩ := map_eq_some_iff.mp hs
    rcases getOpaque_cases h hc with ⟨_, rfl⟩ | ⟨_, _, _, _, _, _, _, _, _, _, _, _, _, _, rfl⟩
    · exact hd
    · show DeinitOnce (s.log ++ [])
      rw [append_nil]
      exact hd
  | put o =>
  simp only [capStep] at hs
  split at hs
  · rename_i hmem
    obtain ⟨ob, x, ends, hob, hcount, rfl⟩ := objPut_cases h hmem hs
    have hpos : 0 < s.refs.count o := count_pos_iff.mpr hmem
    have herase : (s.refs.erase o).count o = s.refs.count o - 1 := count_erase_self
    have hrc := h.count hob
    show DeinitOnce (s.log ++ ends) ↔ _
    cases hcount with
    | kept hk =>
      rw [append_nil]
      refine ⟨fun _ ob' hob' _ => ?_, fun _ => hd⟩
      rw [hob] at hob'
      cases hob'
      omega
    | freed hnil hz =>
      rw [deinitOnce_ends h hd hob]
      refine ⟨fun h' ob' hob' hty => ?_, fun h' hty => ?_⟩
      · rw [hob] at hob'
        cases hob'
        exact absurd (h' hty) (by decide)
      · rw [hnil, length_nil] at hrc
        exact absurd (by omega) (h' ob hob hty)
  · cases hs

end Steps

/-- **Deinit functions over a run**: after every call of a run each freed object has run its
    deinit function exactly once before, exactly when no call of the run drops the last reference
    on an object with a deinit function in `obj_put`. -/
theorem deinit_run_iff :
    (∀ tr ∈ trace capStep Caps.init as, DeinitOnce tr.post.log) ↔
      ∀ tr ∈ trace capStep Caps.init as, DeinitRuns tr.pre tr.act :=
  trace_all_iff (I := fun s => CapInv s ∧ DeinitOnce s.log) (C := DeinitRuns)
    (G := fun tr => DeinitOnce tr.post.log)
    (fun _ _ _ hI hs => deinit_step_iff hI.1 hI.2 hs)
    (fun _ _ _ hI hC hs => ⟨capStep_inv hI.1 hs, (deinit_step_iff hI.1 hI.2 hs).mpr hC⟩)
    as Caps.init ⟨capInv_init, nofun⟩

/-- A thread with one capability is revoked. -/
def revokedRun : List CapAct :=
  [.group .ample 64, .alloc .thread 8, .publish .ample 0 0 7, .revoke .ample 0 0]

/-- **`cap_revoke` frees a thread and never calls `thread_deinit`.** -/
theorem deinit_revoked : ¬ ∀ tr ∈ trace capStep Caps.init revokedRun, DeinitOnce tr.post.log := by
  intro h
  have hend : (exec capStep Caps.init revokedRun).any
      (fun s => s.log = [.publish 0, .free 0 .thread]) = true := by decide +kernel
  obtain ⟨tr, htr, hlog⟩ := trace_of_exec hend
  have h1 := h tr htr 1 0 .thread (by rw [hlog]; rfl) rfl
  rw [hlog] at h1
  exact absurd h1 (by decide)

/-! ## 4. Slot ids -/

/-- **What `get_opaque` should do with any `int`**: read inside the arrays; answer `NULL` and
    change nothing for an `int` that is no id in use; for an id in use answer the object of its
    slot with one more reference, or `NULL` and no change where the type is another. -/
structure GetOpaqueOk (env : Env) (s : Caps) (g : GroupPtr) (t : SlotTable SlotPtr) (slotId : Int)
    (type : Option ObjectType) : Prop where
  inside : ∀ a ∈ (getOpaque env s g slotId type).2, a.Inside
  null : slotId < 0 ∨ (t.slotsSize : Int) ≤ slotId ∨ bitIn t.slotsBmp slotId.toNat = false →
    (getOpaque env s g slotId type).1 = some (none, s)
  object : 0 ≤ slotId → slotId < t.slotsSize → bitIn t.slotsBmp slotId.toNat = true →
    ∃ p sl ob, t.cell slotId.toNat = some p ∧ s.slots p = some sl ∧ sl.capGroup = g ∧
      sl.slotId = slotId ∧ s.objects sl.object = some ob ∧
      (getOpaque env s g slotId type).1 =
        some (if type = none ∨ type = some ob.type then
          (some sl.object, referenced s sl.object ob) else (none, s))

/-- **`get_opaque` is as it should be exactly for an `int` below `slots_size`**, in every state a
    run reaches. -/
theorem get_opaque_iff (hrun : exec capStep Caps.init as = some s)
    (env : Env) (g : GroupPtr) (t : SlotTable SlotPtr) (hg : s.groups g = some t) (slotId : Int)
    (hint : -2 ^ 31 ≤ slotId ∧ slotId < 2 ^ 31) (type : Option ObjectType) :
    GetOpaqueOk env s g t slotId type ↔ slotId < t.slotsSize := by
  have h : CapInv s := exec_inv (fun _ _ _ hI hs => capStep_inv hI hs) as _ _ capInv_init hrun
  have hwf := h.wf hg
  refine ⟨fun hok => ?_, fun hlt => ?_⟩
  · by_contra hge
    obtain ⟨n, rfl⟩ := eq_ofNat_of_zero_le (a := slotId) (by omega)
    obtain ⟨a, ha, hout⟩ := isValidSlotId_past hwf env.beyond env.wild (n := n) (by omega) (by omega)
    refine hout (hok.inside a ?_)
    unfold getOpaque
    rw [hg]
    simp only
    cases hv : isValidSlotId env.beyond env.wild t (n : Int) with
    | mk v acc =>
    rw [hv] at ha
    cases v with
    | none => exact ha
    | some v =>
    cases v with
    | false => exact ha
    | true =>
    -- `get_slot` makes the range check right and answers `NULL`
    have hnull : getSlot t (n : Int) = none := by
      unfold getSlot
      rw [if_pos (by omega)]
    rw [hnull]
    exact ha
  rcases Int.lt_or_le slotId 0 with hneg | hnn
  · have heq : getOpaque env s g slotId type = (some (none, s), []) := by
      unfold getOpaque
      rw [hg]
      simp only
      rw [isValidSlotId_neg hwf _ _ hneg hint.1]
    refine ⟨fun a ha => ?_, fun _ => by rw [heq], fun h0 => by omega⟩
    rw [heq] at ha
    exact absurd ha not_mem_nil
  obtain ⟨n, rfl⟩ := eq_ofNat_of_zero_le hnn
  have hn : n < t.slotsSize := by omega
  cases hc : t.cell n with
  | none =>
    have heq : getOpaque env s g (n : Int) type = _ := getOpaque_free h hg hn hc type
    have hbit : bitIn t.slotsBmp n = false := by rw [h.bitCell hg, hc]; rfl
    refine ⟨fun a ha => ?_, fun _ => by rw [heq], fun _ _ hb => ?_⟩
    · rw [heq] at ha
      exact slotReads_inside hwf hn a (mem_cons.mpr (.inl (mem_singleton.mp ha)))
    · rw [toNat_natCast, hbit] at hb
      cases hb
  | some p =>
  obtain ⟨sl, hsl, hgrp, hid⟩ := h.cellSlot hg hc
  obtain ⟨_, _, ob, hob, _⟩ := h.slotObj hsl
  have heq : getOpaque env s g (n : Int) type = _ := getOpaque_used h hg hc hsl hob type
  have hbit : bitIn t.slotsBmp n = true := by rw [h.bitCell hg, hc]; rfl
  refine ⟨fun a ha => ?_, fun hout => ?_, fun _ _ _ => ?_⟩
  · rw [heq] at ha
    rcases mem_append.mp ha with ha | ha
    · exact slotReads_inside hwf hn a ha
    rw [mem_singleton.mp ha]
    rw [hwf.slots_len]
    exact hn
  · rw [toNat_natCast, hbit] at hout
    rcases hout with h1 | h1 | h1
    · omega
    · omega
    · cases h1
  · exact ⟨p, sl, ob, hc, hsl, hgrp, hid, hob, by rw [heq]⟩

/-- A group with one published object. -/
def publishedRun : List CapAct := [.group .ample 64, .alloc .pmo 8, .publish .ample 0 0 7]

/-- Its state, as a value. -/
def publishedState : Caps := (exec capStep Caps.init publishedRun).getD Caps.init

theorem publishedState_run : exec capStep Caps.init publishedRun = some publishedState := by
  have hsome : (exec capStep Caps.init publishedRun).isSome := by decide +kernel
  obtain ⟨s, hs⟩ := isSome_iff_exists.mp hsome
  unfold publishedState
  rw [hs]
  rfl

/-- Its table, as a value. -/
def publishedTable : SlotTable SlotPtr := (publishedState.groups 0).getD (zeroTable 0)

theorem publishedTable_group : publishedState.groups 0 = some publishedTable := by
  have hsome : (publishedState.groups 0).isSome := by decide +kernel
  obtain ⟨t, ht⟩ := isSome_iff_exists.mp hsome
  unfold publishedTable
  rw [ht]
  rfl

theorem get_opaque_published : GetOpaqueOk .ample publishedState 0 publishedTable 0 (some .pmo) :=
  (get_opaque_iff publishedRun publishedState publishedState_run .ample 0 publishedTable
    publishedTable_group 0 (by decide) (some .pmo)).mpr (by decide +kernel)

/-- **The range check lets ids past the table through**: id 64 of a table of 64 slots reads word 1
    of a bitmap of one word. -/
theorem get_opaque_past : ¬ GetOpaqueOk .ample publishedState 0 publishedTable 64 (some .pmo) := by
  intro h
  have hin := h.inside
  revert hin
  decide +kernel

end ChCore.Capability
