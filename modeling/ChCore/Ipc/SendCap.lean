/-
  File: ChCore/Ipc/SendCap.lean
  Subject: ipc_send_cap with the slots of the message (kernel/ipc/connection.c).

  The capabilities of a message are copied one by one into the group of the server, and the ids are
  written back to the message. A copy that fails should take back the ones before it; its result is
  kept in an unsigned variable, so that the test for it never holds.

  * **`ipc_send_cap_iff`** -- all or nothing, exactly if there is nothing to copy, or every
    capability is one of the client and the server has room for all of them.
-/
import ChCore.Ipc.Connection
import ChCore.Object.CapabilityCopy

namespace ChCore.Ipc

open Lib Capability List

/-! ## 1. The source -/

def MAX_CAP_TRANSFER : Nat := 8

/-- What `ipc_send_cap` works on: the capabilities, the words at `ipc_msg + cap_slots_offset`, and
the number of temporary buffers. -/
structure SendState where
  caps : Caps
  slots : Nat → BitVec 64
  buffers : Nat

/-- `kmalloc` and `kfree` of `cap_buf`. -/
def SendState.kmalloc (s : SendState) : SendState := { s with buffers := s.buffers + 1 }

def SendState.kfree (s : SendState) : SendState := { s with buffers := s.buffers - 1 }

/-- The rest of its inputs: the memory each copy finds, whether the buffer can be had, and whether
the message is memory of the user. -/
structure SendCall where
  src : GroupPtr
  dst : GroupPtr
  capNum : Nat
  env : Nat → Env
  buf : Bool
  inUser : Bool

/-- A word as an argument of type `int`. -/
def slotId (c : BitVec 64) : Int := (c.setWidth 32).toInt

/-- `copy_to_user` of the buffer. -/
def writeSlots (slots : Nat → BitVec 64) (buf : List (BitVec 64)) : Nat → BitVec 64 :=
  fun i => buf.getD i (slots i)

/-- How the loop is left: with all copies, or with those before the one that failed. -/
inductive LoopEnd where
  | all (buf : List (BitVec 64)) (caps : Caps)
  | failed (buf : List (BitVec 64)) (caps : Caps)

/-- The loop over the buffer. `dest_cap` is a `u64`. -/
def sendCapLoop (src dst : GroupPtr) : List (Env × BitVec 64) → List (BitVec 64) → Caps →
    Option LoopEnd
  | [], buf, caps => some (.all buf caps)
  | (env, c) :: cs, buf, caps =>
    match capCopy env caps src dst (slotId c) none with
    | none => none
    | some (r, caps) =>
      let destCap := BitVec.ofInt 64 r
      if destCap < 0#64 then some (.failed buf caps)
      else sendCapLoop src dst cs (buf ++ [destCap]) caps

/-- The loop at `out_free_cap`, from the last copy to the first. -/
def freeCaps (dst : GroupPtr) : List (BitVec 64) → Caps → Option Caps
  | [], caps => some caps
  | c :: cs, caps =>
    match capFree caps dst (slotId c) with
    | none => none
    | some (_, caps) => freeCaps dst cs caps

variable (caps : Caps) (c : SendCall)

/-- The capabilities of the message, each with the memory its copy finds. -/
def SendCall.sent (s : SendState) : List (Env × BitVec 64) :=
  (List.range c.capNum).map fun i => (c.env i, s.slots i)

/-- `ipc_send_cap`. `copy_from_user` and `copy_to_user` return 0 or stop the kernel. -/
def ipcSendCapMsg (s : SendState) : Option (Int × SendState) :=
  if c.capNum = 0 then some (0, s)
  else if c.capNum ≥ MAX_CAP_TRANSFER then some (-EINVAL, s)
  else if !c.inUser then none
  else if !c.buf then some (-ENOMEM, s)
  else
    let s := s.kmalloc
    match sendCapLoop c.src c.dst (c.sent s) [] s.caps with
    | none => none
    | some (.failed buf caps) =>
      -- `r` is still the 0 of `copy_from_user`
      (freeCaps c.dst buf.reverse caps).map fun caps => (0, SendState.kfree { s with caps := caps })
    | some (.all buf caps) =>
      some (0, SendState.kfree { s with caps := caps, slots := writeSlots s.slots buf })

/-! ## 2. What is to hold -/

/-- A word of the message before and after: a capability of the client and an id of the server for
the same object. -/
def Sent (s t : Caps) (src dst : GroupPtr) (before after : BitVec 64) : Prop :=
  ∃ o, s.objectAt src (slotId before) = some o ∧ t.objectAt dst (slotId after) = some o

/-- **All or nothing.** -/
structure SendRight (c : SendCall) (s t : SendState) (ret : Int) : Prop where
  sent : ret = 0 → ∀ i, i < c.capNum → Sent s.caps t.caps c.src c.dst (s.slots i) (t.slots i)
  failed : ret ≠ 0 → t.caps.groups c.dst = s.caps.groups c.dst ∧ t.slots = s.slots
  buffer : t.buffers = s.buffers

/-- There is nothing to copy, or every capability is there and so is the room. -/
def SendClean (s : SendState) (tsrc tdst : SlotTable SlotPtr) : Prop :=
  c.capNum = 0 ∨ MAX_CAP_TRANSFER ≤ c.capNum ∨ c.buf = false ∨
    (∀ i, i < c.capNum → getSlot tsrc (slotId (s.slots i)) ≠ none) ∧
      Room s.caps.nextSlot tdst ((List.range c.capNum).map c.env)

/-! ## 3. One copy -/

/-- It is an `int`. -/
theorem slotId_capCopy {s s' : Caps} {env : Env} {src dst : GroupPtr} {id r : Int} (h : CapInv s)
    (hc : capCopy env s src dst id none = some (r, s')) :
    slotId (BitVec.ofInt 64 r) = r := by
  have hrange : -2 ^ 31 ≤ r ∧ r < 2 ^ 31 := by
    obtain ⟨tsrc, tdst, -, hdst⟩ := capCopy_groups hc
    rcases capCopy_ret hdst hc with rfl | rfl | ⟨-, a, t', ha, rfl, -⟩
    · decide
    · decide
    rcases allocSlotId_spec (h.wf hdst) ha with ⟨hret, -⟩ | ⟨e, hret, ht⟩
    · rw [hret]
      decide
    have hlt := ht.lt
    have hint := ht.wf.lt_int
    omega
  have hword : ((BitVec.ofInt 64 r).setWidth 32).toInt = r.bmod (2 ^ 32) := by
    rw [← BitVec.signExtend_eq_setWidth_of_le _ (by decide), BitVec.toInt_signExtend,
      BitVec.toInt_ofInt]
    exact Int.bmod_bmod_of_dvd (by decide)
  rw [slotId, hword]
  exact Int.bmod_eq_of_le (by omega) (by omega)

/-! ## 4. The loop -/

section Loop

variable {src dst : GroupPtr}

/-- **The loop comes to its end**, and with capabilities that are those of the source the words it
leaves refer to their objects exactly if the destination has room for all of them. -/
theorem sendCapLoop_all : ∀ {cs : List (Env × BitVec 64)} {buf : List (BitVec 64)} {s : Caps}
    {tdst : SlotTable SlotPtr} {e : LoopEnd}, CapInv s → s.groups dst = some tdst →
    sendCapLoop src dst cs buf s = some e → ∃ rs s', e = .all (buf ++ rs) s' ∧
      rs.length = cs.length ∧ CapInv s' ∧
      (∀ g i o, s.objectAt g i = some o → s'.objectAt g i = some o) ∧
      ((∀ c ∈ cs, ∃ o, s.objectAt src (slotId c.2) = some o) →
        (List.Forall₂ (Sent s s' src dst) (cs.map Prod.snd) rs ↔
          Room s.nextSlot tdst (cs.map Prod.fst)))
  | [], buf, s, tdst, e, hs, _, h => by
    cases h
    exact ⟨[], s, by rw [append_nil], rfl, hs, fun _ _ _ ho => ho, fun _ => by simp [Room]⟩
  | (env, c) :: cs, buf, s, tdst, e, hs, hdst, h => by
    rw [sendCapLoop] at h
    split at h
    · cases h
    rename_i r s1 hc
    simp only [BitVec.not_lt_zero, if_false] at h
    obtain ⟨t1, ht1⟩ := groups_capCopy hs hdst hc
    obtain ⟨rs, s', rfl, hlen, hs', hkeep, hiff⟩ := sendCapLoop_all (inv_capCopy hs hc) ht1 h
    have hkeep1 : ∀ g i o, s.objectAt g i = some o → s1.objectAt g i = some o :=
      fun g i o ho => objectAt_capCopy hs hc ho
    refine ⟨BitVec.ofInt 64 r :: rs, s', by rw [append_assoc]; rfl,
      by rw [length_cons, hlen, length_cons], hs',
      fun g i o ho => hkeep g i o (hkeep1 g i o ho), fun hvalid => ?_⟩
    obtain ⟨o, ho⟩ := hvalid _ mem_cons_self
    have htail : ∀ c ∈ cs, ∃ o, s.objectAt src (slotId c.2) = some o :=
      fun c hcs => hvalid c (mem_cons_of_mem _ hcs)
    have hiff1 := hiff fun c hcs => (htail c hcs).imp fun o ho => hkeep1 _ _ o ho
    have hsent : List.Forall₂ (Sent s s' src dst) (cs.map Prod.snd) rs ↔
        List.Forall₂ (Sent s1 s' src dst) (cs.map Prod.snd) rs := by
      refine ⟨fun hall => hall.imp fun x y hxy => ?_, fun hall => ?_⟩
      · obtain ⟨o, hx, hy⟩ := hxy
        exact ⟨o, hkeep1 _ _ o hx, hy⟩
      -- a capability that was there before the copy is still the same one
      have hmem : ∀ x ∈ cs.map Prod.snd, ∃ o, s.objectAt src (slotId x) = some o :=
        forall_mem_map.mpr htail
      have hboth := (forall₂_and_left _ _).mpr ⟨hmem, hall⟩
      refine hboth.imp fun x y hxy => ?_
      obtain ⟨⟨o, hx⟩, o', hx', hy⟩ := hxy
      rw [hkeep1 _ _ o hx] at hx'
      cases hx'
      exact ⟨o, hx, hy⟩
    rw [map_cons, map_cons, forall₂_cons, hsent, hiff1]
    constructor
    · intro hall
      obtain ⟨⟨o', ho', hnew⟩, hroom⟩ := hall
      have hr : 0 ≤ r := by
        by_contra hneg
        rw [slotId_capCopy hs hc] at hnew
        exact objectAt_neg hs' (by omega) o' hnew
      obtain ⟨hk, a, t', ha, hret, hi, hg, hn⟩ := capCopy_served hdst hc hr
      rw [ht1] at hg
      cases hg
      rw [hn] at hroom
      refine ⟨hk, (hasId_iff (hs.wf hdst)).mpr ⟨a, ha, hret ▸ hr⟩, fun a' t' ha' hi' => ?_⟩
      rw [ha] at ha'
      cases ha'
      rw [hi] at hi'
      cases hi'
      exact hroom
    intro hroom
    obtain ⟨hk, hid, hroom⟩ := hroom
    obtain ⟨a, ha, hpos⟩ := (hasId_iff (hs.wf hdst)).mp hid
    obtain ⟨hret, hnew⟩ := served_of_room hs hdst ho hc hk ha hpos
    obtain ⟨-, a', t', ha', hret', hi, hg, hn⟩ := capCopy_served hdst hc (hret ▸ hpos)
    rw [ht1] at hg
    cases hg
    rw [hn]
    refine ⟨⟨o, ho, ?_⟩, hroom a' t1 ha' hi⟩
    rw [slotId_capCopy hs hc]
    exact hkeep _ _ o hnew

end Loop

/-! ## 5. All or nothing -/

/-- The test of the copy never holds. -/
theorem sendCapLoop_ne_failed {src dst : GroupPtr} : ∀ {cs : List (Env × BitVec 64)}
    {buf buf' : List (BitVec 64)} {s s' : Caps},
    sendCapLoop src dst cs buf s ≠ some (.failed buf' s')
  | [], buf, buf', s, s', h => by cases h
  | (env, c) :: cs, buf, buf', s, s', h => by
    rw [sendCapLoop] at h
    split at h
    · cases h
    simp only [BitVec.not_lt_zero, if_false] at h
    exact sendCapLoop_ne_failed h

/-- **How the code ends**: at one of its checks, or with all copies made. -/
theorem ipcSendCapMsg_cases {c : SendCall} {s t : SendState} {ret : Int}
    (h : ipcSendCapMsg c s = some (ret, t)) :
    (t = s ∧ (c.capNum = 0 ∧ ret = 0 ∨ MAX_CAP_TRANSFER ≤ c.capNum ∧ ret = -EINVAL ∨
      (0 < c.capNum ∧ c.capNum < MAX_CAP_TRANSFER) ∧ c.inUser = true ∧ c.buf = false ∧
        ret = -ENOMEM)) ∨
    ((0 < c.capNum ∧ c.capNum < MAX_CAP_TRANSFER) ∧ c.inUser = true ∧ c.buf = true ∧ ret = 0 ∧
      ∃ rs caps', t = ⟨caps', writeSlots s.slots rs, s.buffers⟩ ∧
        sendCapLoop c.src c.dst (c.sent s) [] s.caps = some (.all rs caps')) := by
  unfold ipcSendCapMsg at h
  split at h
  · rename_i hzero
    cases h
    exact .inl ⟨rfl, .inl ⟨hzero, rfl⟩⟩
  split at h
  · rename_i hmax
    cases h
    exact .inl ⟨rfl, .inr (.inl ⟨hmax, rfl⟩)⟩
  have hnum : 0 < c.capNum ∧ c.capNum < MAX_CAP_TRANSFER := ⟨by omega, by omega⟩
  cases huser : c.inUser with
  | false =>
    rw [huser] at h
    cases h
  | true =>
  cases hbuf : c.buf with
  | false =>
    rw [huser, hbuf] at h
    cases h
    exact .inl ⟨rfl, .inr (.inr ⟨hnum, rfl, rfl, rfl⟩)⟩
  | true =>
  simp only [huser, hbuf, Bool.not_true, Bool.false_eq_true, if_false] at h
  split at h
  · cases h
  · rename_i hloop
    exact absurd hloop sendCapLoop_ne_failed
  · rename_i rs caps' hloop
    cases h
    exact .inr ⟨hnum, rfl, rfl, rfl, rs, caps', rfl, hloop⟩

/-- The words written back, one by one. -/
theorem forall_writeSlots_iff {R : BitVec 64 → BitVec 64 → Prop} {slots : Nat → BitVec 64}
    {rs : List (BitVec 64)} {n : Nat} (hlen : rs.length = n) :
    (∀ i, i < n → R (slots i) (writeSlots slots rs i)) ↔
      List.Forall₂ R ((List.range n).map slots) rs := by
  rw [forall₂_iff_get]
  constructor
  · intro hall
    refine ⟨by rw [length_map, length_range, hlen], fun i hi hrs => ?_⟩
    have hR := hall i (by rwa [← hlen])
    rw [writeSlots, getD_eq_getElem _ _ hrs] at hR
    simpa using hR
  · intro hall i hi
    have hrs : i < rs.length := by rwa [hlen]
    have hR := hall.2 i (by simpa using hi) hrs
    rw [writeSlots, getD_eq_getElem _ _ hrs]
    simpa using hR

/-- **All or nothing, and when.** -/
theorem ipc_send_cap_iff (as : List CapAct) (caps : Caps)
    (hrun : exec capStep Caps.init as = some caps) (c : SendCall) (s t : SendState)
    (hcaps : s.caps = caps) (tsrc tdst : SlotTable SlotPtr)
    (hsrc : caps.groups c.src = some tsrc) (hdst : caps.groups c.dst = some tdst) (ret : Int)
    (h : ipcSendCapMsg c s = some (ret, t)) : SendRight c s t ret ↔ SendClean c s tsrc tdst := by
  subst hcaps
  have hinv : CapInv s.caps :=
    exec_inv (fun _ _ _ hI hs => capStep_inv hI hs) as _ _ capInv_init hrun
  rcases ipcSendCapMsg_cases h with ⟨rfl, hend⟩ |
    ⟨⟨hpos, hlt⟩, -, hbuf, rfl, rs, caps', rfl, hloop⟩
  · have hstay : SendClean c t tsrc tdst ∧ (ret = 0 → c.capNum = 0) := by
      rcases hend with ⟨hzero, -⟩ | ⟨hmax, rfl⟩ | ⟨-, -, hbuf, rfl⟩
      · exact ⟨.inl hzero, fun _ => hzero⟩
      · exact ⟨.inr (.inl hmax), fun hret => absurd hret (by decide)⟩
      · exact ⟨.inr (.inr (.inl hbuf)), fun hret => absurd hret (by decide)⟩
    refine ⟨fun _ => hstay.1, fun _ => ⟨fun hret i hi => ?_, fun _ => ⟨rfl, rfl⟩, rfl⟩⟩
    rw [hstay.2 hret] at hi
    exact absurd hi (by omega)
  obtain ⟨rs', s', hall, hlen, -, -, hiff⟩ := sendCapLoop_all hinv hdst hloop
  cases hall
  rw [nil_append]
  have hvalid : (∀ p ∈ c.sent s, ∃ o, s.caps.objectAt c.src (slotId p.2) = some o) ↔
      ∀ i, i < c.capNum → getSlot tsrc (slotId (s.slots i)) ≠ none := by
    simp only [SendCall.sent, forall_mem_map, mem_range, objectAt_isSome hinv hsrc]
  have hlen' : rs'.length = c.capNum := by
    rw [hlen, SendCall.sent, length_map, length_range]
  have hfst : (c.sent s).map Prod.fst = (List.range c.capNum).map c.env := map_map
  have hsnd : (c.sent s).map Prod.snd = (List.range c.capNum).map s.slots := map_map
  rw [hfst, hsnd, ← forall_writeSlots_iff hlen'] at hiff
  constructor
  · intro hright
    have hsent := hright.sent rfl
    have hslots : ∀ i, i < c.capNum → getSlot tsrc (slotId (s.slots i)) ≠ none := fun i hi =>
      (objectAt_isSome hinv hsrc).mp ((hsent i hi).imp fun o ho => ho.1)
    exact .inr (.inr (.inr ⟨hslots, (hiff (hvalid.mpr hslots)).mp hsent⟩))
  intro hclean
  rcases hclean with hzero | hmax | hnobuf | ⟨hslots, hroom⟩
  · exact absurd hzero (by omega)
  · exact absurd hmax (by omega)
  · rw [hbuf] at hnobuf
    cases hnobuf
  · exact ⟨fun _ => (hiff (hvalid.mpr hslots)).mpr hroom, fun hret => absurd rfl hret, rfl⟩

/-- Capabilities that are sent within a group. -/
def sendSelf (n : Nat) : SendCall := ⟨0, 0, n, fun _ => .ample, true, true⟩

variable (w : BitVec 64)

/-- A message with one word in every slot. -/
def oneSlot : SendState := ⟨caps, fun _ => w, 0⟩

theorem oneSlot_caps : (oneSlot caps w).caps = caps := rfl

theorem oneSlot_slots (i : Nat) : (oneSlot caps w).slots i = w := rfl

/-- **Two capabilities that are sent**: slot 0 of the group, twice. -/
theorem ipc_send_cap_twice :
    ∃ t, ipcSendCapMsg (sendSelf 2) (oneSlot publishedState 0#64) = some (0, t) ∧
      SendRight (sendSelf 2) (oneSlot publishedState 0#64) t 0 := by
  set m := oneSlot publishedState 0#64
  have hend : (ipcSendCapMsg (sendSelf 2) m).any (fun r => r.1 = 0) = true := by
    decide +kernel
  have hslot : getSlot publishedTable (slotId 0#64) ≠ none := by decide +kernel
  have hfound : (findEmpty Env.ample.beyond publishedTable).1 ≠ none := by decide +kernel
  have hnext : ((allocSlotId .ok Env.ample.beyond publishedTable).bind fun a => installSlot
      Env.ample.beyond a.table a.ret publishedState.nextSlot).all
        (fun t => (findEmpty Env.ample.beyond t).1 ≠ none) = true := by decide +kernel
  obtain ⟨⟨ret, t⟩, h, hret⟩ := (Option.any_eq_true ..).mp hend
  obtain rfl : ret = 0 := of_decide_eq_true hret
  have hslots : ∀ i, i < (sendSelf 2).capNum →
      getSlot publishedTable (slotId (m.slots i)) ≠ none := by
    intro i _
    rw [oneSlot_slots]
    exact hslot
  have hroom : Room m.caps.nextSlot publishedTable
      ((List.range (sendSelf 2).capNum).map (sendSelf 2).env) := by
    refine ⟨rfl, .inl hfound, fun a t' ha ht' => ⟨rfl, .inl ?_, fun _ _ _ _ => trivial⟩⟩
    have ha' : allocSlotId .ok Env.ample.beyond publishedTable = some a := ha
    have ht'' : installSlot Env.ample.beyond a.table a.ret publishedState.nextSlot = some t' := ht'
    rw [ha', Option.bind_some, ht''] at hnext
    exact of_decide_eq_true hnext
  have hsrc : (sendSelf 2).src = 0 := rfl
  have hdst : (sendSelf 2).dst = 0 := rfl
  have hiff := ipc_send_cap_iff publishedRun publishedState publishedState_run (sendSelf 2)
    m t (oneSlot_caps _ _) publishedTable publishedTable
    (by rw [hsrc]; exact publishedTable_group) (by rw [hdst]; exact publishedTable_group) 0 h
  exact ⟨t, h, hiff.mpr (.inr (.inr (.inr ⟨hslots, hroom⟩)))⟩

/-- **A capability that is not there**: the call returns 0, and the message has the error code. -/
theorem ipc_send_cap_code :
    ∃ t, ipcSendCapMsg (sendSelf 1) (oneSlot publishedState 9#64) = some (0, t) ∧
      t.slots 0 = BitVec.ofInt 64 (-ECAPBILITY) ∧
      ¬ SendRight (sendSelf 1) (oneSlot publishedState 9#64) t 0 := by
  have hend : (ipcSendCapMsg (sendSelf 1) (oneSlot publishedState 9#64)).any (fun r => r.1 = 0 ∧
      r.2.slots 0 = BitVec.ofInt 64 (-ECAPBILITY)) = true := by
    decide +kernel
  have hnone : publishedState.objectAt 0 (slotId 9#64) = none := by decide +kernel
  obtain ⟨⟨ret, t⟩, h, hcode⟩ := (Option.any_eq_true ..).mp hend
  obtain ⟨rfl, hslot⟩ := of_decide_eq_true hcode
  refine ⟨t, h, hslot, fun hright => ?_⟩
  obtain ⟨o, ho, -⟩ := hright.sent rfl 0 Nat.one_pos
  rw [oneSlot_caps] at ho
  have hsome : publishedState.objectAt 0 (slotId 9#64) = some o := ho
  rw [hnone] at hsome
  cases hsome

end ChCore.Ipc
