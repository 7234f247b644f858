/-
  File: ChCore/Object/Recycle.lean
  Subject: The ring buffer between the kernel and the recycle thread of procmgr
    (`kernel/object/recycle.c`, `user/procmgr/recycle.c`).

  The kernel is the producer: `notify_user_recycler` writes a message at the producer offset, or
  saves it in a list when `get_free_slot_in_msg_buffer` finds none. The recycle thread is the
  consumer: it waits for a signal and then reads messages at the consumer offset until the two
  offsets are equal. A call of `notify_user_recycler` is one step (it holds
  `recycle_buffer_lock`); the consumer is cut into its reads and writes of the shared page, so a
  notification may come between any two of them.

  `sent`, `processed` and `offsets` are not in the memory of either side: the messages passed to
  `notify_user_recycler`, the messages the thread has read, the offsets of all message accesses.

  * `recycle_run` -- in every run in which the offsets do not run into each other, the thread does
    not go on at the end of the page, and no message passes a saved one: the messages are
    processed in the order they were sent, none is lost, doubled or overwritten, and every access
    is inside the page;
  * `recycle_overrun` -- the 256th message makes a full ring look empty.

  `kmalloc` of a list node is taken to succeed, and the walk over the list of saved messages reads
  the link of the node it has just freed: `kfree` puts its own link over `prev`, not over `next`.
-/
import ChCore.Lib.Run

namespace ChCore.Recycle

open Lib Function List

/-! ## 1. The page and its two sides -/

/-- `START_OFFSET`, `END_OFFSET`, `MSG_SIZE`. -/
def startOffset : Nat := 16

def endOffset : Nat := 4096

def msgSize : Nat := 16

/-- `struct recycle_msg` without its padding. -/
structure RecycleMsg where
  badge : Nat
  exitcode : Int
  deriving DecidableEq, Repr

/-- Where the recycle thread is in `recycle_routine`. -/
inductive Consumer where
  /-- in `usys_wait` -/
  | waiting
  /-- before `retrieve_one_msg` -/
  | looking
  /-- `msg` points to `off`, nothing read yet -/
  | retrieved (off : Nat)
  /-- `msg->badge` read -/
  | identified (off : Nat) (badge : Nat)
  /-- `msg->exitcode` read, the process recycled -/
  | recycled (off : Nat)
  deriving DecidableEq, Repr

structure Ring where
  producer : Nat
  consumer : Nat
  buffer : Nat → RecycleMsg
  /-- the list behind `recycle_msg_head`, from its first node on -/
  saved : List RecycleMsg
  signals : Nat
  thread : Consumer
  sent : List RecycleMsg
  processed : List RecycleMsg
  offsets : List Nat

variable (r : Ring) (buffer : Nat → RecycleMsg)

/-- The state after `sys_register_recycle`: both offsets at the start, any bytes in the page. -/
def Ring.init : Ring where
  producer := startOffset
  consumer := startOffset
  buffer := buffer
  saved := []
  signals := 0
  thread := .waiting
  sent := []
  processed := []
  offsets := []

/-! ## 2. The producer -/

/-- `get_free_slot_in_msg_buffer`: the slot and the new producer offset (`none` = `0`). -/
def getFreeSlot (pOff cOff : Nat) : Option (Nat × Nat) :=
  if pOff ≥ cOff ∧ pOff < endOffset then some (pOff, pOff + msgSize)
  else if pOff = endOffset ∧ cOff > startOffset then some (startOffset, startOffset + msgSize)
  else if pOff < cOff then some (pOff, pOff + msgSize)
  else none

def setMsg (off : Nat) (m : RecycleMsg) : Ring :=
  { r with buffer := update r.buffer off m, offsets := off :: r.offsets }

/-- The loop that moves saved messages into the buffer, from the first node on. -/
def putSaved : List RecycleMsg → Ring → Ring
  | [], r => { r with saved := [] }
  | m :: ms, r =>
    match getFreeSlot r.producer r.consumer with
    | none => { r with saved := m :: ms }
    | some (off, p) => putSaved ms (setMsg { r with producer := p } off m)

def notifyUserRecycler (m : RecycleMsg) : Ring :=
  let r := { r with sent := r.sent ++ [m] }
  match getFreeSlot r.producer r.consumer with
  -- `list_add` puts the node at the head
  | none => { r with saved := m :: r.saved }
  | some (off, p) =>
    let r := putSaved r.saved (setMsg { r with producer := p } off m)
    { r with signals := r.signals + 1 }

/-! ## 3. The consumer -/

/-- `retrieve_one_msg`: the offset of the message (`none` = `NULL`). -/
def retrieveOneMsg : Option Nat :=
  if r.producer ≠ r.consumer then some r.consumer else none

/-- `increase_consumer_offset`; at the end of the page it sets a local variable only. -/
def increaseConsumerOffset (off : Nat) : Option Ring :=
  if off < endOffset then some { r with consumer := off + msgSize }
  -- `assert(c_off == END_OFFSET)`
  else if off = endOffset then some r
  else none

/-! ## 4. Runs -/

inductive Act where
  | notify (m : RecycleMsg)
  | wait
  | retrieve
  | readBadge
  | readExitcode
  | increase
  deriving DecidableEq, Repr

/-- **One step** of the kernel or of the recycle thread. -/
def step : Act → Option Ring
  | .notify m => some (notifyUserRecycler r m)
  | .wait =>
    if r.thread = .waiting ∧ 0 < r.signals then
      some { r with signals := r.signals - 1, thread := .looking } else none
  | .retrieve =>
    if r.thread = .looking then
      match retrieveOneMsg r with
      | some off => some { r with thread := .retrieved off }
      | none => some { r with thread := .waiting }
    else none
  | .readBadge =>
    match r.thread with
    | .retrieved off =>
      some { r with thread := .identified off (r.buffer off).badge, offsets := off :: r.offsets }
    | _ => none
  | .readExitcode =>
    match r.thread with
    | .identified off badge =>
      some { r with
        thread := .recycled off, offsets := off :: r.offsets
        processed := r.processed ++ [⟨badge, (r.buffer off).exitcode⟩] }
    | _ => none
  | .increase =>
    match r.thread with
    | .recycled off => (increaseConsumerOffset r off).map (fun r => { r with thread := .looking })
    | _ => none

/-! ## 5. What the ring holds -/

/-- The offsets from `a` up to `b`. -/
def span (a b : Nat) : List Nat := List.range' a ((b - a) / msgSize) msgSize

/-- The offsets of the messages in the ring, in the order of the ring: from the consumer offset to
    the producer offset, over the end of the page. -/
def ringOffsets : List Nat :=
  if r.consumer ≤ r.producer then span r.consumer r.producer
  else span r.consumer endOffset ++ span startOffset r.producer

/-- Whether the thread has read the message at the consumer offset and not moved on yet. -/
def Consumer.hasRead : Consumer → Bool
  | .recycled _ => true
  | _ => false

/-- The messages in the ring that are still to be processed. -/
def unread : List RecycleMsg :=
  ((ringOffsets r).map r.buffer).drop (if r.thread.hasRead then 1 else 0)

/-- **The ring is a queue**: what was processed is a prefix of what was sent, every other message
    is there in its order -- in the ring, or saved -- and every access was inside the page. -/
structure RingOk (r : Ring) : Prop where
  inOrder : r.processed <+: r.sent
  kept : r.sent = r.processed ++ unread r ++ r.saved.reverse
  inPage : ∀ off ∈ r.offsets, startOffset ≤ off ∧ off < endOffset

/-- What a step may not meet: a write after which the offsets are equal although the ring is full,
    a write with saved messages waiting, a read at the end of the page. -/
def StepSafe : Act → Prop
  | .notify _ => r.producer + msgSize ≠ r.consumer ∧
      ¬ (r.producer = endOffset ∧ r.consumer = startOffset + msgSize) ∧
      (r.saved = [] ∨ getFreeSlot r.producer r.consumer = none)
  | .retrieve => r.consumer = endOffset → r.producer = endOffset
  | _ => True

/-! ### Spans -/

theorem startOffset_eq : startOffset = 16 := rfl

theorem endOffset_eq : endOffset = 4096 := rfl

theorem msgSize_eq : msgSize = 16 := rfl

theorem span_self (a : Nat) : span a a = [] := by
  unfold span
  rw [Nat.sub_self]
  rfl

theorem span_snoc {a b : Nat} (hle : a ≤ b) (hdiv : 16 ∣ b - a) :
    span a (b + msgSize) = span a b ++ [b] := by
  obtain ⟨k, hk⟩ := hdiv
  have hm := msgSize_eq
  have h1 : (b + msgSize - a) / msgSize = k + 1 := by rw [hm]; omega
  have h2 : (b - a) / msgSize = k := by rw [hm]; omega
  have h3 : a + msgSize * k = b := by rw [hm]; omega
  unfold span
  rw [h1, h2, List.range'_concat, h3]

theorem span_cons {a b : Nat} (hlt : a < b) (hdiv : 16 ∣ b - a) :
    span a b = a :: span (a + msgSize) b := by
  obtain ⟨k, hk⟩ := hdiv
  obtain ⟨j, rfl⟩ : ∃ j, k = j + 1 := ⟨k - 1, by omega⟩
  have hm := msgSize_eq
  have h1 : (b - a) / msgSize = j + 1 := by rw [hm]; omega
  have h2 : (b - (a + msgSize)) / msgSize = j := by rw [hm]; omega
  unfold span
  rw [h1, h2, List.range'_succ]

theorem mem_span {a b x : Nat} (hx : x ∈ span a b) : a ≤ x ∧ x < b := by
  obtain ⟨i, hi, rfl⟩ := mem_range'.mp hx
  rw [msgSize_eq] at hi ⊢
  omega

theorem map_update_of_notMem {l : List Nat} {f : Nat → RecycleMsg} {off : Nat} {m : RecycleMsg}
    (h : off ∉ l) : l.map (update f off m) = l.map f := by
  refine map_congr_left fun x hx => update_of_ne ?_ _ _
  rintro rfl
  exact h hx

/-! ## 6. The invariant -/

/-- The thread stands at the consumer offset, inside the page, and the ring is not empty. -/
structure AtMessage (r : Ring) (off : Nat) : Prop where
  head : off = r.consumer
  inPage : off < endOffset
  nonempty : r.producer ≠ r.consumer

/-- What the thread knows about the ring, at each of its places. -/
def Consumer.Knows : Consumer → Prop
  | .waiting => True
  | .looking => True
  | .retrieved off => AtMessage r off
  | .identified off badge => AtMessage r off ∧ badge = (r.buffer off).badge
  | .recycled off => AtMessage r off

/-- An offset of the ring: aligned, and in the page or at its end. -/
structure IsOffset (off : Nat) : Prop where
  aligned : 16 ∣ off
  ge : startOffset ≤ off
  le : off ≤ endOffset

theorem isOffset_start : IsOffset startOffset := ⟨⟨1, rfl⟩, le_rfl, by decide⟩

structure RingInv (r : Ring) : Prop where
  producer : IsOffset r.producer
  consumer : IsOffset r.consumer
  thread : r.thread.Knows r
  kept : r.sent = r.processed ++ unread r ++ r.saved.reverse
  inPage : ∀ off ∈ r.offsets, startOffset ≤ off ∧ off < endOffset

theorem ringInv_init : RingInv (Ring.init buffer) where
  producer := isOffset_start
  consumer := isOffset_start
  thread := trivial
  kept := by
    have h : ringOffsets (Ring.init buffer) = [] :=
      (if_pos (le_refl startOffset)).trans (span_self startOffset)
    unfold unread
    rw [h]
    rfl
  inPage _ h := absurd h not_mem_nil

theorem ringOk_of_inv {r : Ring} (h : RingInv r) : RingOk r where
  inOrder := by
    rw [h.kept, append_assoc]
    exact prefix_append _ _
  __ := h

section Steps

variable {r : Ring}

/-- A slot `off` behind the ring, with the producer offset `p` after it is taken. -/
structure Behind (r : Ring) (off p : Nat) : Prop where
  producer : IsOffset p
  inPage : startOffset ≤ off ∧ off < endOffset
  ne : p ≠ r.consumer
  fresh : off ∉ ringOffsets r
  notHead : r.producer ≠ r.consumer → off ≠ r.consumer
  last : ∀ r' : Ring, r'.producer = p → r'.consumer = r.consumer →
    ringOffsets r' = ringOffsets r ++ [off]

variable {off p : Nat}

/-- **A free slot is behind the ring**, where the offsets do not run into each other. -/
theorem getFreeSlot_behind (h : RingInv r) (hf : getFreeSlot r.producer r.consumer = some (off, p))
    (hs1 : r.producer + msgSize ≠ r.consumer)
    (hs2 : ¬ (r.producer = endOffset ∧ r.consumer = startOffset + msgSize)) : Behind r off p := by
  obtain ⟨hp1, hp2, hp3⟩ := h.producer
  obtain ⟨hc1, hc2, hc3⟩ := h.consumer
  have hS := startOffset_eq
  have hE := endOffset_eq
  have hM := msgSize_eq
  unfold getFreeSlot at hf
  split at hf
  · -- the ring does not wrap, and there is room before the end
    rename_i hcase
    cases hf
    have hring : ringOffsets r = span r.consumer r.producer := if_pos hcase.1
    refine ⟨⟨by omega, by omega, by omega⟩, by omega, by omega, fun hmem => ?_, fun hne => hne,
      fun r' h1 h2 => ?_⟩
    · rw [hring] at hmem
      have := mem_span hmem
      omega
    · rw [hring]
      unfold ringOffsets
      rw [h1, h2, if_pos (by omega)]
      exact span_snoc hcase.1 (by omega)
  split at hf
  · -- the producer is at the end and starts again behind the consumer
    rename_i hcase
    cases hf
    have hring : ringOffsets r = span r.consumer endOffset := by
      unfold ringOffsets
      rw [hcase.1, if_pos hc3]
    refine ⟨⟨by omega, by omega, by omega⟩, by omega, by omega, fun hmem => ?_,
      fun _ => by omega, fun r' h1 h2 => ?_⟩
    · rw [hring] at hmem
      have := mem_span hmem
      omega
    · rw [hring]
      unfold ringOffsets
      rw [h1, h2, if_neg (by omega), span_snoc le_rfl (by omega)]
      rfl
  split at hf
  · -- the producer is behind the consumer already
    cases hf
    have hring : ringOffsets r = span r.consumer endOffset ++ span startOffset r.producer :=
      if_neg (by omega)
    refine ⟨⟨by omega, by omega, by omega⟩, by omega, by omega, fun hmem => ?_,
      fun hne => hne, fun r' h1 h2 => ?_⟩
    · rw [hring] at hmem
      rcases mem_append.mp hmem with hmem | hmem
      · have := mem_span hmem
        omega
      · have := mem_span hmem
        omega
    · rw [hring, append_assoc]
      unfold ringOffsets
      rw [h1, h2, if_neg (by omega), span_snoc hp2 (by omega)]
  · cases hf

/-- **The head of a ring that is not empty** is at the consumer offset; moving the offset on
    leaves the rest. -/
theorem ringOffsets_head (h : RingInv r) (hne : r.producer ≠ r.consumer)
    (hlt : r.consumer < endOffset) :
    ∃ l, ringOffsets r = r.consumer :: l ∧
      ∀ r' : Ring, r'.producer = r.producer → r'.consumer = r.consumer + msgSize →
        ringOffsets r' = l := by
  obtain ⟨hp1, hp2, hp3⟩ := h.producer
  obtain ⟨hc1, hc2, hc3⟩ := h.consumer
  have hE := endOffset_eq
  have hM := msgSize_eq
  unfold ringOffsets
  by_cases hle : r.consumer ≤ r.producer
  · refine ⟨span (r.consumer + msgSize) r.producer, ?_, fun r' h1 h2 => ?_⟩
    · rw [if_pos hle]
      exact span_cons (by omega) (by omega)
    · rw [h1, h2, if_pos (by omega)]
  · refine ⟨span (r.consumer + msgSize) endOffset ++ span startOffset r.producer, ?_,
      fun r' h1 h2 => ?_⟩
    · rw [if_neg hle, span_cons hlt (by omega)]
      rfl
    · rw [h1, h2, if_neg (by omega)]

theorem unread_read {l : List Nat} (hl : ringOffsets r = r.consumer :: l)
    (ht : r.thread.hasRead = true) : unread r = l.map r.buffer := by
  unfold unread
  rw [hl, ht]
  rfl

theorem unread_all (ht : r.thread.hasRead = false) : unread r = (ringOffsets r).map r.buffer := by
  unfold unread
  rw [ht]
  rfl

theorem inv_save (h : RingInv r) (m : RecycleMsg) :
    RingInv { r with sent := r.sent ++ [m], saved := m :: r.saved } where
  __ := h
  thread := by
    have hk := h.thread
    cases ht : r.thread with
    | waiting => trivial
    | looking => trivial
    | retrieved off =>
      rw [ht] at hk
      exact { hk with }
    | identified off badge =>
      rw [ht] at hk
      exact ⟨{ hk.1 with }, hk.2⟩
    | recycled off =>
      rw [ht] at hk
      exact { hk with }
  kept := by
    show r.sent ++ [m] = r.processed ++ unread r ++ (m :: r.saved).reverse
    rw [h.kept, reverse_cons]
    simp only [append_assoc]

/-- The state after a message is written to a slot behind the ring. -/
def written (r : Ring) (m : RecycleMsg) (off p : Nat) : Ring :=
  { setMsg { r with producer := p, sent := r.sent ++ [m] } off m with signals := r.signals + 1 }

theorem Behind.atMessage (hb : Behind r off p) (m : RecycleMsg) {o : Nat}
    (ha : AtMessage r o) : AtMessage (written r m off p) o ∧
      (written r m off p).buffer o = r.buffer o := by
  refine ⟨⟨ha.head, ha.inPage, hb.ne⟩, update_of_ne ?_ _ _⟩
  rw [ha.head]
  exact Ne.symm (hb.notHead ha.nonempty)

/-- A notification that finds a slot puts the message behind the ring. -/
theorem inv_written (h : RingInv r) (hsaved : r.saved = []) (hb : Behind r off p)
    (m : RecycleMsg) : RingInv (written r m off p) where
  producer := hb.producer
  consumer := h.consumer
  thread := by
    have hk := h.thread
    show r.thread.Knows _
    cases ht : r.thread with
    | waiting => trivial
    | looking => trivial
    | retrieved o =>
      rw [ht] at hk
      exact (hb.atMessage m hk).1
    | identified o badge =>
      rw [ht] at hk
      obtain ⟨ha, hbuf⟩ := hb.atMessage m hk.1
      refine ⟨ha, ?_⟩
      rw [hbuf]
      exact hk.2
    | recycled o =>
      rw [ht] at hk
      exact (hb.atMessage m hk).1
  kept := by
    have hring : ringOffsets (written r m off p) = ringOffsets r ++ [off] := hb.last _ rfl rfl
    have hmap : (ringOffsets (written r m off p)).map (written r m off p).buffer =
        (ringOffsets r).map r.buffer ++ [m] := by
      rw [hring, map_append]
      congr 1
      · exact map_update_of_notMem hb.fresh
      · show [update r.buffer off m off] = [m]
        rw [update_self]
    have hun : unread (written r m off p) = unread r ++ [m] := by
      unfold unread
      rw [hmap]
      show ((ringOffsets r).map r.buffer ++ [m]).drop (if r.thread.hasRead then 1 else 0) = _
      cases ht : r.thread with
      | recycled o =>
        -- the message being processed is still in the ring, so the ring is not empty
        have hk := h.thread
        rw [ht] at hk
        obtain ⟨l, hl, _⟩ := ringOffsets_head h hk.nonempty (hk.head ▸ hk.inPage)
        rw [hl]
        rfl
      | waiting => rfl
      | looking => rfl
      | retrieved o => rfl
      | identified o badge => rfl
    show r.sent ++ [m] = r.processed ++ unread (written r m off p) ++ r.saved.reverse
    rw [hun, h.kept, hsaved]
    simp only [reverse_nil, append_nil, append_assoc]
  inPage o ho := by
    rcases mem_cons.mp ho with rfl | ho
    · exact hb.inPage
    · exact h.inPage o ho

theorem notify_slot {m : RecycleMsg} (hsaved : r.saved = [])
    (hf : getFreeSlot r.producer r.consumer = some (off, p)) :
    notifyUserRecycler r m = written r m off p := by
  unfold notifyUserRecycler
  simp only [hf, hsaved, putSaved, setMsg, written]

theorem inv_notify (h : RingInv r) (m : RecycleMsg) (hs : StepSafe r (.notify m)) :
    RingInv (notifyUserRecycler r m) := by
  obtain ⟨hs1, hs2, hs3⟩ := hs
  cases hf : getFreeSlot r.producer r.consumer with
  | none =>
    unfold notifyUserRecycler
    simp only [hf]
    exact inv_save h m
  | some slot =>
  have hsaved : r.saved = [] := by
    rcases hs3 with hs3 | hs3
    · exact hs3
    · rw [hf] at hs3
      cases hs3
  rw [notify_slot hsaved hf]
  exact inv_written h hsaved (getFreeSlot_behind h hf hs1 hs2) m

/-- **One step keeps the invariant** where it is safe. -/
theorem step_inv {r r' : Ring} {a : Act} (h : RingInv r) (hs : StepSafe r a)
    (ha : step r a = some r') : RingInv r' := by
  cases a with
  | notify m =>
    cases ha
    exact inv_notify h m hs
  | wait =>
    simp only [step] at ha
    split at ha
    · rename_i hw
      cases ha
      refine { h with thread := trivial, kept := ?_ }
      rw [h.kept, unread_all (by rw [hw.1]; rfl)]
      rfl
    · cases ha
  | retrieve =>
    simp only [step, retrieveOneMsg] at ha
    split at ha
    · rename_i hl
      have hkept := h.kept
      rw [unread_all (by rw [hl]; rfl)] at hkept
      split at ha
      · rename_i off hoff
        cases ha
        split at hoff
        · rename_i hne
          cases hoff
          have hlt : r.consumer < endOffset := by
            refine Nat.lt_of_le_of_ne h.consumer.le fun e => hne ?_
            rw [e]
            exact hs e
          exact ⟨h.producer, h.consumer, ⟨rfl, hlt, hne⟩, hkept, h.inPage⟩
        · cases hoff
      · cases ha
        exact { h with thread := trivial, kept := hkept }
    · cases ha
  | readBadge =>
    simp only [step] at ha
    split at ha
    · rename_i off ht
      cases ha
      have hk := h.thread
      rw [ht] at hk
      have hkept := h.kept
      rw [unread_all (by rw [ht]; rfl)] at hkept
      refine ⟨h.producer, h.consumer, ⟨{ hk with }, rfl⟩, hkept, fun o ho => ?_⟩
      rcases mem_cons.mp ho with rfl | ho
      · exact ⟨hk.head ▸ h.consumer.ge, hk.inPage⟩
      · exact h.inPage o ho
    · cases ha
  | readExitcode =>
    simp only [step] at ha
    split at ha
    · rename_i off badge ht
      cases ha
      have hk := h.thread
      rw [ht] at hk
      obtain ⟨hat, hbadge⟩ := hk
      have hoff := hat.head
      subst hoff
      obtain ⟨l, hl, _⟩ := ringOffsets_head h hat.nonempty hat.inPage
      refine ⟨h.producer, h.consumer, ⟨rfl, hat.inPage, hat.nonempty⟩, ?_, fun o ho => ?_⟩
      · have hkept := h.kept
        rw [unread_all (by rw [ht]; rfl)] at hkept
        show r.sent = r.processed ++ [⟨badge, (r.buffer r.consumer).exitcode⟩] ++
          ((ringOffsets r).map r.buffer).drop 1 ++ r.saved.reverse
        rw [hkept, hl, hbadge]
        simp only [map_cons, drop_succ_cons, drop_zero, append_assoc, cons_append, nil_append]
      · rcases mem_cons.mp ho with rfl | ho
        · exact ⟨h.consumer.ge, hat.inPage⟩
        · exact h.inPage o ho
    · cases ha
  | increase =>
  simp only [step] at ha
  split at ha
  · rename_i off ht
    have hk := h.thread
    rw [ht] at hk
    have hoff := hk.head
    subst hoff
    obtain ⟨l, hl, hnext⟩ := ringOffsets_head h hk.nonempty hk.inPage
    simp only [increaseConsumerOffset, if_pos hk.inPage, Option.map_some] at ha
    cases ha
    have hin := hk.inPage
    have hal := h.consumer.aligned
    have hge := h.consumer.ge
    have hE := endOffset_eq
    have hM := msgSize_eq
    refine ⟨h.producer, ⟨?_, ?_, ?_⟩, trivial, ?_, h.inPage⟩
    · show 16 ∣ r.consumer + msgSize
      omega
    · show startOffset ≤ r.consumer + msgSize
      omega
    · show r.consumer + msgSize ≤ endOffset
      omega
    have hkept := h.kept
    rw [unread_read hl (by rw [ht]; rfl)] at hkept
    rw [unread_all rfl,
      hnext { r with consumer := r.consumer + msgSize, thread := .looking } rfl rfl]
    exact hkept
  · cases ha

end Steps

/-! ## 7. Whole runs -/

/-- **The ring over a run**: in every run whose steps are safe, from any contents of the page, the
    ring is a queue after every step. -/
theorem recycle_run (as : List Act)
    (hsafe : ∀ tr ∈ trace step (Ring.init buffer) as, StepSafe tr.pre tr.act) :
    ∀ tr ∈ trace step (Ring.init buffer) as, RingOk tr.post := by
  intro tr htr
  have hinv := trace_inv (I := RingInv) (C := StepSafe) (fun _ _ _ h hC hs => step_inv h hC hs)
    as _ (ringInv_init buffer) hsafe tr htr
  exact ringOk_of_inv hinv.2

instance (r : Ring) (a : Act) : Decidable (StepSafe r a) := by
  cases a <;> unfold StepSafe <;> infer_instance

/-- Two messages sent, the second while the first is being read; both processed. -/
def twoMessages : List Act :=
  [.notify ⟨7, 0⟩, .wait, .retrieve, .readBadge, .notify ⟨8, -1⟩, .readExitcode, .increase,
   .retrieve, .readBadge, .readExitcode, .increase, .retrieve]

theorem recycle_two :
    (∀ tr ∈ trace step (Ring.init fun _ => ⟨0, 0⟩) twoMessages, StepSafe tr.pre tr.act) ∧
    ∀ tr ∈ trace step (Ring.init fun _ => ⟨0, 0⟩) twoMessages, RingOk tr.post :=
  have hsafe : ∀ tr ∈ trace step (Ring.init fun _ => ⟨0, 0⟩) twoMessages,
      StepSafe tr.pre tr.act := by decide +kernel
  ⟨hsafe, recycle_run _ _ hsafe⟩

/-- 255 messages fill the page, one is processed, two more are sent, one more is processed. -/
def overrun : List Act :=
  (List.range 255).map (fun i => .notify ⟨i, 0⟩) ++
    [.wait, .retrieve, .readBadge, .readExitcode, .increase, .notify ⟨255, 0⟩, .notify ⟨256, 0⟩,
     .retrieve, .readBadge, .readExitcode]

/-- **A full ring looks empty**: the 256th message takes the slot of the first, which makes the
    offsets equal; the 257th overwrites the second, which was never read, and is processed in its
    place. -/
theorem recycle_overrun :
    ¬ ∀ tr ∈ trace step (Ring.init fun _ => ⟨0, 0⟩) overrun, RingOk tr.post := by
  intro h
  have hend : (exec step (Ring.init fun _ => ⟨0, 0⟩) overrun).any
      (fun r => ¬ r.processed <+: r.sent) = true := by decide +kernel
  obtain ⟨tr, htr, hbad⟩ := trace_of_exec hend
  exact hbad (h tr htr).inOrder

end ChCore.Recycle
