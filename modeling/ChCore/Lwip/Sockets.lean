/-
  File: ChCore/Lwip/Sockets.lean
  Subject: The socket tables of the network server (`user/lwip/main.c`): one table of socket
    numbers for each client, found by the client's badge.

  A client names a connection by its index in the client's table, so that the table is all that
  keeps the clients apart. A new table is filled with -1 up to its 4096th byte, which is its
  1024th entry; `get_socket` lets the index 4096 pass, and `free_socket` lets every index pass.

  * **`sockets_right_iff`** -- over any run, every answer is right and every index is one of the
    table exactly when no call meets an entry that `malloc` has left or an index it may not use.
-/
import ChCore.Common.Errno
import ChCore.Lib.Run

namespace ChCore.Lwip

open Lib Function Option List

/-! ## 1. The source -/

def MAX_SOCK_PER_CLIENT : Nat := 4096
/-- The badge of the list head. -/
def HEAD_BADGE : BitVec 64 := -1

/-- The badge of a client. -/
abbrev Client := { badge : BitVec 64 // badge ≠ HEAD_BADGE }

/-- `struct sockinfo_node`, as an element of the list. -/
structure SockinfoNode where
  badge : BitVec 64
  socketTable : Nat → Int

/-- The list head: of its table the source sets the first entry only. -/
def head : SockinfoNode := ⟨HEAD_BADGE, fun i => if i = 0 then -1 else 0⟩

variable (nodes : List SockinfoNode) (badge : BitVec 64)

/-- The table of the first node with the badge. -/
def tableOf : Option (Nat → Int) :=
  (nodes.find? fun node => node.badge = badge).map SockinfoNode.socketTable

/-- A store into the table of the first node with the badge. -/
def storeTable (badge : BitVec 64) (i : Nat) (fd : Int) : List SockinfoNode → List SockinfoNode
  | [] => []
  | node :: rest =>
    if node.badge = badge then
      { node with socketTable := update node.socketTable i fd } :: rest
    else node :: storeTable badge i fd rest

variable (contents : Nat → Int)

/-- `memset(cur->socket_table, -1, MAX_SOCK_PER_CLIENT)`: the length is in bytes, and an entry has
    four of them. -/
def memsetTable : Nat → Int :=
  fun i => if i < MAX_SOCK_PER_CLIENT / 4 then -1 else contents i

/-- `register_sockinfo_node`; `contents` is what the memory that `malloc` returns holds. -/
def registerSockinfoNode : List SockinfoNode :=
  match tableOf nodes badge with
  | some _ => nodes
  | none => nodes ++ [⟨badge, memsetTable contents⟩]

/-- `get_socket` (`none` = an index outside the table). -/
def getSocket (connId : Int) : Option Int :=
  if connId < 0 ∨ connId > MAX_SOCK_PER_CLIENT then some (-EINVAL)
  else match tableOf nodes badge with
    | none => some (-EINVAL)
    | some table => if connId < MAX_SOCK_PER_CLIENT then some (table connId.toNat) else none

/-- The loop of `set_socket`, with `n` entries left. -/
def findFree (table : Nat → Int) : Nat → Nat → Option Nat
  | 0, _ => none
  | n + 1, i => if table i = -1 then some i else findFree table n (i + 1)

def setSocket (socketFd : Int) (contents : Nat → Int) : List SockinfoNode × Int :=
  let nodes := registerSockinfoNode nodes badge contents
  match (tableOf nodes badge).bind fun table => findFree table MAX_SOCK_PER_CLIENT 0 with
  | some i => (storeTable badge i socketFd nodes, i)
  | none => (nodes, -ENOSPC)

/-- `free_socket` (`none` = an index outside the table). -/
def freeSocket (connId : Int) : Option (List SockinfoNode × Int) :=
  match tableOf nodes badge with
  | none => some (nodes, -EINVAL)
  | some _ =>
    if 0 ≤ connId ∧ connId < MAX_SOCK_PER_CLIENT then
      some (storeTable badge connId.toNat (-1) nodes, 0)
    else none

/-- The calls of the server. It registers a socket only if its number is not negative. -/
inductive SockCall where
  | set (badge : Client) (socketFd : Nat) (contents : Nat → Int)
  | get (badge : Client) (connId : Int)
  | free (badge : Client) (connId : Int)

structure Server where
  nodes : List SockinfoNode
  /-- The calls so far with their results, the newest first. No function reads it. -/
  history : List (SockCall × Int)
  /-- The last call has used an index outside a table. What it has read or overwritten there is
      undefined, and the run ends. -/
  outside : Bool

def Server.answer (s : Server) (call : SockCall) (nodes : List SockinfoNode) (ret : Int) : Server :=
  ⟨nodes, (call, ret) :: s.history, false⟩

/-- One call. -/
def sockStep (s : Server) (call : SockCall) : Option Server :=
  if s.outside then none
  else some <| match call with
    | .set badge fd contents =>
      let r := setSocket s.nodes badge fd contents
      s.answer call r.1 r.2
    | .get badge connId =>
      match getSocket s.nodes badge connId with
      | none => { s with outside := true }
      | some ret => s.answer call s.nodes ret
    | .free badge connId =>
      match freeSocket s.nodes badge connId with
      | none => { s with outside := true }
      | some r => s.answer call r.1 r.2

/-- The server as it starts. -/
def server : Server := ⟨[head], [], false⟩

/-! ## 2. What the answers are to be -/

/-- **The socket behind a connection** of a client: the last call about it has been the
    `set_socket` that returned it. -/
def connected : List (SockCall × Int) → Client → Int → Option Nat
  | [], _, _ => none
  | (.set badge fd _, ret) :: h, b, c =>
    if badge = b ∧ ret = c ∧ 0 ≤ ret then some fd else connected h b c
  | (.free badge connId, _) :: h, b, c =>
    if badge = b ∧ connId = c then none else connected h b c
  | (.get _ _, _) :: h, b, c => connected h b c

/-- **The contract of one call**, given the calls before it. -/
def AnswerRight (h : List (SockCall × Int)) : SockCall → Int → Prop
  | .get b c, ret => (∀ fd : Nat, ret = fd ↔ connected h b c = some fd) ∧
      (connected h b c = none → ret < 0)
  | .set b _ _, ret => ret = -ENOSPC →
      ∀ i < MAX_SOCK_PER_CLIENT, connected h b i ≠ none
  | .free _ _, _ => True

/-- The call has used an index of the table, and its answer is right. -/
def StepRight (t : Transition Server SockCall) : Prop :=
  t.post.outside = false ∧
    ∀ ret, t.post.history = (t.act, ret) :: t.pre.history → AnswerRight t.pre.history t.act ret

/-! ## 3. When they are -/

/-- The client has registered a socket. -/
def registered (h : List (SockCall × Int)) (b : Client) : Bool :=
  h.any fun x => match x.1 with
    | .set badge _ _ => badge = b
    | _ => false

/-- What the memory of a new table leaves in an entry that `memset` does not reach. -/
def leftover (c : Int) : Option Int :=
  if MAX_SOCK_PER_CLIENT / 4 ≤ c ∧ c < MAX_SOCK_PER_CLIENT ∧ contents c.toNat ≠ -1 then
    some (contents c.toNat)
  else none

/-- **What `malloc` has left in an entry** of a client's table and no call has cleared. -/
def stale : List (SockCall × Int) → Client → Int → Option Int
  | [], _, _ => none
  | (.set badge _ contents, _) :: h, b, c =>
    if badge = b ∧ registered h b = false then leftover contents c else stale h b c
  | (.free badge connId, _) :: h, b, c => if badge = b ∧ connId = c then none else stale h b c
  | (.get _ _, _) :: h, b, c => stale h b c

/-- **The condition on a call**, given the calls before it: a client that has a table does not name
    the index 4096, frees an index of the table only, and does not look at an entry in which
    `malloc` has left a number that is not negative; a new connection finds an entry that is
    neither in use nor left over, unless all are in use. -/
def CallFits (h : List (SockCall × Int)) : SockCall → Prop
  | .get b c => registered h b = true →
      c ≠ MAX_SOCK_PER_CLIENT ∧ ∀ g, stale h b c = some g → g < 0
  | .set b _ _ =>
    (∃ i < MAX_SOCK_PER_CLIENT, connected h b i = none ∧ stale h b i = none) ∨
    ∀ i < MAX_SOCK_PER_CLIENT, connected h b i ≠ none
  | .free b c => registered h b = true → 0 ≤ c ∧ c < MAX_SOCK_PER_CLIENT

/-! ## 4. The list and the loop -/

theorem tableOf_storeTable (badge b : BitVec 64) (i : Nat) (fd : Int) (nodes : List SockinfoNode) :
    tableOf (storeTable badge i fd nodes) b =
      if badge = b then (tableOf nodes b).map (update · i fd) else tableOf nodes b := by
  induction nodes with
  | nil => simp [storeTable, tableOf]
  | cons node rest ih =>
    unfold tableOf at ih ⊢
    unfold storeTable
    by_cases hnode : node.badge = badge
    · by_cases hb : badge = b
      · simp [hnode, hb]
      · simp [hnode, hb]
    · rw [if_neg hnode]
      by_cases hb : node.badge = b
      · have hne : badge ≠ b := fun e => hnode (hb.trans e.symm)
        simp [hb, hne]
      · simpa [hb] using ih

/-- `register_sockinfo_node` leaves the tables that are there and makes the client's if it is not. -/
theorem tableOf_register (badge b : BitVec 64) (contents : Nat → Int) :
    tableOf (registerSockinfoNode nodes badge contents) b =
      if badge = b ∧ tableOf nodes b = none then some (memsetTable contents)
      else tableOf nodes b := by
  unfold registerSockinfoNode
  cases ht : tableOf nodes badge with
  | some t =>
    have hno : ¬ (badge = b ∧ tableOf nodes b = none) := by
      intro ⟨e, hnone⟩
      rw [e, hnone] at ht
      cases ht
    rw [if_neg hno]
  | none =>
  unfold tableOf
  by_cases hb : badge = b
  · subst hb
    unfold tableOf at ht
    rw [map_eq_none_iff] at ht
    simp [ht]
  · simp [hb]

theorem findFree_some {table : Nat → Int} {n i j : Nat} (h : findFree table n i = some j) :
    j < i + n ∧ table j = -1 := by
  induction n generalizing i with
  | zero => cases h
  | succ n ih =>
    unfold findFree at h
    split at h
    · rename_i hfree
      cases h
      exact ⟨by omega, hfree⟩
    · obtain ⟨hlt, hfree⟩ := ih h
      exact ⟨by omega, hfree⟩

theorem findFree_eq_none_iff {table : Nat → Int} {n i : Nat} :
    findFree table n i = none ↔ ∀ j, i ≤ j → j < i + n → table j ≠ -1 := by
  induction n generalizing i with
  | zero =>
    refine iff_of_true rfl fun j h1 h2 => ?_
    omega
  | succ n ih =>
    unfold findFree
    by_cases hfree : table i = -1
    · rw [if_pos hfree]
      exact iff_of_false (by simp) fun h => h i (le_refl i) (by omega) hfree
    rw [if_neg hfree, ih]
    constructor
    · intro h j h1 h2
      rcases Nat.eq_or_lt_of_le h1 with rfl | hlt
      · exact hfree
      · exact h j hlt (by omega)
    · intro h j h1 h2
      exact h j (by omega) (by omega)

/-! ## 5. The histories -/

section History

variable {h : List (SockCall × Int)} {b : Client} {c : Int}

theorem registered_cons_set (badge : Client) (fd : Nat) (m : Nat → Int) (r : Int) :
    registered ((.set badge fd m, r) :: h) b = (decide (badge = b) || registered h b) := by
  simp [registered]

theorem connected_of_not_registered (hb : registered h b = false) : connected h b c = none := by
  induction h with
  | nil => rfl
  | cons x h ih =>
    obtain ⟨call, r⟩ := x
    cases call with
    | set badge fd m =>
      rw [registered_cons_set, Bool.or_eq_false_iff, decide_eq_false_iff_not] at hb
      rw [connected, if_neg fun hc => hb.1 hc.1]
      exact ih hb.2
    | get badge d => exact ih hb
    | free badge d =>
      unfold connected
      split
      · rfl
      · exact ih hb

/-- What is left over is no -1 and lies where `memset` does not reach. -/
theorem stale_bounds {g : Int} (hg : stale h b c = some g) :
    g ≠ -1 ∧ ((MAX_SOCK_PER_CLIENT / 4 : Nat) : Int) ≤ c ∧ c < MAX_SOCK_PER_CLIENT := by
  induction h with
  | nil => cases hg
  | cons x h ih =>
    obtain ⟨call, r⟩ := x
    cases call with
    | set badge fd m =>
      unfold stale at hg
      split at hg
      · obtain ⟨⟨h1, h2, h3⟩, e⟩ := ite_none_right_eq_some.mp hg
        cases e
        exact ⟨h3, h1, h2⟩
      · exact ih hg
    | get badge d => exact ih hg
    | free badge d =>
      unfold stale at hg
      split at hg
      · cases hg
      · exact ih hg

theorem stale_of_not_registered (hb : registered h b = false) : stale h b c = none := by
  induction h with
  | nil => rfl
  | cons x h ih =>
    obtain ⟨call, r⟩ := x
    cases call with
    | set badge fd m =>
      rw [registered_cons_set, Bool.or_eq_false_iff, decide_eq_false_iff_not] at hb
      rw [stale, if_neg fun hc => hb.1 hc.1]
      exact ih hb.2
    | get badge d => exact ih hb
    | free badge d =>
      unfold stale
      split
      · rfl
      · exact ih hb

end History

/-- What an entry holds, from what is connected there and what is left over there. -/
def entryValue : Option Nat → Option Int → Int
  | some fd, _ => fd
  | none, left => left.getD (-1)

theorem entryValue_free_iff {conn : Option Nat} {left : Option Int} (hleft : left ≠ some (-1)) :
    entryValue conn left = -1 ↔ conn = none ∧ left = none := by
  cases conn with
  | some fd => simp [entryValue]
  | none =>
    cases left with
    | none => simp [entryValue]
    | some g => simpa [entryValue] using fun e => hleft (congrArg some e)

/-! ## 6. The invariant -/

/-- **The tables hold the connections and what is left over.** -/
structure SockInv (s : Server) : Prop where
  inside : s.outside = false
  tables : ∀ b : Client, tableOf s.nodes b = none ↔ registered s.history b = false
  entries : ∀ (b : Client) t, tableOf s.nodes b = some t → ∀ i < MAX_SOCK_PER_CLIENT,
    t i = entryValue (connected s.history b i) (stale s.history b i)
  range : ∀ (b : Client) c, connected s.history b c ≠ none → 0 ≤ c ∧ c < MAX_SOCK_PER_CLIENT
  apart : ∀ (b : Client) c, connected s.history b c ≠ none → stale s.history b c = none

theorem sockInv_server : SockInv server where
  inside := rfl
  tables b := by
    have hb : HEAD_BADGE ≠ b.1 := fun e => b.2 e.symm
    simp [server, tableOf, head, hb, registered]
  entries b t ht := by
    have hb : HEAD_BADGE ≠ b.1 := fun e => b.2 e.symm
    simp [server, tableOf, head, hb] at ht
  range _ _ h := absurd rfl h
  apart _ _ h := absurd rfl h

variable {s : Server} {call : SockCall}

theorem SockInv.isRegistered (h : SockInv s) {b : Client} {t : Nat → Int}
    (ht : tableOf s.nodes b = some t) : registered s.history b = true := by
  by_contra hno
  rw [Bool.not_eq_true] at hno
  rw [(h.tables b).mpr hno] at ht
  cases ht

/-- The table a call of `set_socket` looks at: the client's, or a new one. -/
theorem SockInv.registered_table (h : SockInv s) (b : Client) (fd : Nat) (m : Nat → Int) (r : Int) :
    ∃ t, tableOf (registerSockinfoNode s.nodes b m) b = some t ∧ ∀ i < MAX_SOCK_PER_CLIENT,
      t i = entryValue (connected s.history b i) (stale ((.set b fd m, r) :: s.history) b i) := by
  rw [tableOf_register]
  cases ht : tableOf s.nodes b with
  | some t =>
    have hreg := h.isRegistered ht
    refine ⟨t, by simp, fun i hi => ?_⟩
    rw [stale, if_neg (by simp [hreg])]
    exact h.entries b t ht i hi
  | none =>
  have hreg := (h.tables b).mp ht
  refine ⟨memsetTable m, by simp, fun i hi => ?_⟩
  rw [stale, if_pos ⟨rfl, hreg⟩, connected_of_not_registered hreg]
  unfold memsetTable leftover entryValue
  by_cases hlt : i < MAX_SOCK_PER_CLIENT / 4
  · rw [if_pos hlt, if_neg (by omega)]
    rfl
  rw [if_neg hlt]
  by_cases hm : m i = -1
  · simp [hm]
  · rw [if_pos ⟨by omega, by omega, by simpa using hm⟩]
    simp

/-! ## 7. The calls -/

theorem stepRight_answer {nodes : List SockinfoNode} {ret : Int} :
    StepRight ⟨s, call, s.answer call nodes ret⟩ ↔ AnswerRight s.history call ret := by
  unfold StepRight Server.answer
  constructor
  · exact fun h => h.2 ret rfl
  intro h
  refine ⟨rfl, fun r hr => ?_⟩
  simp only [List.cons.injEq, Prod.mk.injEq, true_and, and_true] at hr
  exact hr ▸ h

theorem not_stepRight_outside : ¬ StepRight ⟨s, call, { s with outside := true }⟩ := by
  intro h
  cases h.1

section Calls

variable {s : Server} (h : SockInv s) (b : Client)

include h

variable (fd : Nat) (m : Nat → Int)

/-- **`set_socket`** takes an entry that is neither connected nor left over, if there is one. -/
theorem setSocket_cases :
    (∃ i < MAX_SOCK_PER_CLIENT, connected s.history b i = none ∧
      stale ((.set b fd m, i) :: s.history) b i = none ∧
      setSocket s.nodes b fd m = (storeTable b i fd (registerSockinfoNode s.nodes b m), (i : Int))) ∨
    (∀ i < MAX_SOCK_PER_CLIENT, connected s.history b i ≠ none ∨ stale s.history b i ≠ none) ∧
      setSocket s.nodes b fd m = (registerSockinfoNode s.nodes b m, -ENOSPC) := by
  obtain ⟨t, ht, hentry⟩ := h.registered_table b fd m 0
  have hsame : ∀ r c, stale ((.set b fd m, r) :: s.history) b c =
      stale ((.set b fd m, 0) :: s.history) b c := fun _ _ => rfl
  have hfree : ∀ i < MAX_SOCK_PER_CLIENT, t i = -1 ↔ connected s.history b i = none ∧
      stale ((.set b fd m, 0) :: s.history) b i = none := by
    intro i hi
    rw [hentry i hi]
    exact entryValue_free_iff fun hg => absurd rfl (stale_bounds hg).1
  unfold setSocket
  simp only [ht, bind_some]
  cases hf : findFree t MAX_SOCK_PER_CLIENT 0 with
  | some i =>
    obtain ⟨hi, hti⟩ := findFree_some hf
    obtain ⟨hc, hl⟩ := (hfree i hi).mp hti
    exact .inl ⟨i, hi, hc, (hsame _ _).trans hl, rfl⟩
  | none =>
  rw [findFree_eq_none_iff] at hf
  refine .inr ⟨fun i hi => ?_, rfl⟩
  have hti := hf i (Nat.zero_le i) (by omega)
  rw [Ne, hfree i hi, not_and_or] at hti
  refine hti.imp_right fun hl => ?_
  -- a new table has free entries
  have hreg : registered s.history b = true := by
    by_contra hno
    rw [Bool.not_eq_true] at hno
    refine hf 0 (le_refl 0) (by decide) ((hfree 0 (by decide)).mpr ⟨?_, ?_⟩)
    · exact connected_of_not_registered hno
    · rw [stale, if_pos ⟨rfl, hno⟩]
      simp [leftover, MAX_SOCK_PER_CLIENT]
  rw [stale, if_neg (by simp [hreg])] at hl
  exact hl

omit h in
/-- What every other client sees of `set_socket`. -/
theorem set_other (r : Int) {b' : Client} (hb : b ≠ b') (c : Int) :
    registered ((.set b fd m, r) :: s.history) b' = registered s.history b' ∧
    connected ((.set b fd m, r) :: s.history) b' c = connected s.history b' c ∧
    stale ((.set b fd m, r) :: s.history) b' c = stale s.history b' c ∧
    tableOf (registerSockinfoNode s.nodes b m) b' = tableOf s.nodes b' := by
  have hne : b.1 ≠ b'.1 := fun e => hb (Subtype.ext e)
  refine ⟨by simp [registered_cons_set, hb], ?_, ?_, ?_⟩
  · rw [connected, if_neg fun hc => hb hc.1]
  · rw [stale, if_neg fun hc => hb hc.1]
  · rw [tableOf_register, if_neg fun hc => hne hc.1]

/-- The invariant after `set_socket`, from the client's own table. -/
theorem SockInv.set_of {r : Int} {nodes : List SockinfoNode}
    {t : Nat → Int} (hother : ∀ b' : Client, b ≠ b' →
      tableOf nodes b' = tableOf (registerSockinfoNode s.nodes b m) b')
    (ht : tableOf nodes b = some t) (hentry : ∀ i < MAX_SOCK_PER_CLIENT, t i =
      entryValue (connected ((.set b fd m, r) :: s.history) b i)
        (stale ((.set b fd m, r) :: s.history) b i))
    (hr : 0 ≤ r → r < MAX_SOCK_PER_CLIENT ∧ stale ((.set b fd m, r) :: s.history) b r = none) :
    SockInv (s.answer (.set b fd m) nodes r) where
  inside := rfl
  tables b' := by
    show tableOf nodes b' = none ↔ registered ((.set b fd m, r) :: s.history) b' = false
    by_cases hb : b = b'
    · subst hb
      simp [ht, registered_cons_set]
    · obtain ⟨hreg, -, -, htab⟩ := set_other (s := s) b fd m r hb 0
      rw [hother b' hb, htab, hreg]
      exact h.tables b'
  entries b' t' ht' i hi := by
    by_cases hb : b = b'
    · subst hb
      have e : t = t' := some.inj (ht.symm.trans ht')
      exact e ▸ hentry i hi
    obtain ⟨-, hconn, hstale, htab⟩ := set_other (s := s) b fd m r hb i
    have ht0 : tableOf s.nodes b' = some t' := by rw [← htab, ← hother b' hb, ← ht']; rfl
    show t' i = entryValue (connected ((.set b fd m, r) :: s.history) b' i) _
    rw [hconn, h.entries b' t' ht0 i hi]
    exact congrArg _ hstale.symm
  range b' c hc := by
    have hc' : connected ((.set b fd m, r) :: s.history) b' c ≠ none := hc
    unfold connected at hc'
    split at hc'
    · rename_i hset
      exact ⟨hset.2.1 ▸ hset.2.2, hset.2.1 ▸ (hr hset.2.2).1⟩
    · exact h.range b' c hc'
  apart b' c hc := by
    have hc' : connected ((.set b fd m, r) :: s.history) b' c ≠ none := hc
    show stale ((.set b fd m, r) :: s.history) b' c = none
    unfold connected at hc'
    split at hc'
    · rename_i hset
      obtain ⟨rfl, rfl, hpos⟩ := hset
      exact (hr hpos).2
    have hold := h.apart b' c hc'
    unfold stale
    split
    · rename_i hnew
      rw [connected_of_not_registered hnew.2] at hc'
      exact absurd rfl hc'
    · exact hold

theorem SockInv.set :
    SockInv (s.answer (.set b fd m) (setSocket s.nodes b fd m).1 (setSocket s.nodes b fd m).2) := by
  rcases setSocket_cases h b fd m with ⟨i, hi, hconn, hstale, e⟩ | ⟨-, e⟩
  · obtain ⟨t, ht, hentry⟩ := h.registered_table b fd m i
    rw [e]
    refine h.set_of b (t := update t i fd) fd m (fun b' hb => ?_) ?_ (fun j hj => ?_)
      fun _ => ⟨Int.ofNat_lt.mpr hi, hstale⟩
    · rw [tableOf_storeTable, if_neg fun e => hb (Subtype.ext e)]
    · rw [tableOf_storeTable, if_pos rfl, ht]
      rfl
    by_cases hij : j = i
    · subst hij
      rw [update_self, connected, if_pos ⟨rfl, rfl, Int.natCast_nonneg j⟩]
      rfl
    · rw [update_of_ne hij, connected, if_neg fun hc => hij (by omega), hentry j hj]
  · obtain ⟨t, ht, hentry⟩ := h.registered_table b fd m (-ENOSPC)
    have hneg : ¬ (0 : Int) ≤ -ENOSPC := by decide
    rw [e]
    refine h.set_of b fd m (fun _ _ => rfl) ht (fun j hj => ?_) fun hpos => absurd hpos hneg
    rw [connected, if_neg fun hc => hneg hc.2.2, hentry j hj]

theorem set_right_iff :
    AnswerRight s.history (.set b fd m) (setSocket s.nodes b fd m).2 ↔
      CallFits s.history (.set b fd m) := by
  rcases setSocket_cases h b fd m with ⟨i, hi, hconn, hstale, e⟩ | ⟨hfull, e⟩
  · refine iff_of_true (fun hr => ?_) (.inl ⟨i, hi, hconn, ?_⟩)
    · rw [e] at hr
      have hneg : (i : Int) = -28 := hr
      omega
    unfold stale at hstale
    split at hstale
    · rename_i hnew
      exact stale_of_not_registered hnew.2
    · exact hstale
  rw [e]
  constructor
  · exact fun hr => .inr (hr rfl)
  intro hor _
  rcases hor with ⟨i, hi, hconn, hstale⟩ | hall
  · rcases hfull i hi with hno | hno
    · exact absurd hconn hno
    · exact absurd hstale hno
  · exact hall

/-- **`get_socket`** looks at the entry. -/
theorem get_right_iff (c : Int) :
    (∃ ret, getSocket s.nodes b c = some ret ∧ AnswerRight s.history (.get b c) ret) ↔
      CallFits s.history (.get b c) := by
  unfold AnswerRight CallFits getSocket
  have hrange := h.range b c
  by_cases hc : c < 0 ∨ c > MAX_SOCK_PER_CLIENT
  · have hnone : connected s.history b c = none := by
      by_contra hno
      have := hrange hno
      omega
    rw [if_pos hc]
    refine iff_of_true ⟨_, rfl, fun fd => ?_, fun _ => by decide⟩ fun _ => ⟨by omega, ?_⟩
    · rw [hnone]
      exact iff_of_false (fun e => by have : (-22 : Int) = fd := e; omega) (by simp)
    · intro g hg
      have := stale_bounds hg
      omega
  rw [if_neg hc]
  cases ht : tableOf s.nodes b with
  | none =>
    have hreg := (h.tables b).mp ht
    have hnone : connected s.history b c = none := connected_of_not_registered hreg
    refine iff_of_true ⟨_, rfl, fun fd => ?_, fun _ => by decide⟩ fun hyes => ?_
    · rw [hnone]
      exact iff_of_false (fun e => by have : (-22 : Int) = fd := e; omega) (by simp)
    · rw [hreg] at hyes
      cases hyes
  | some t =>
  have hreg := h.isRegistered ht
  by_cases hlt : c < MAX_SOCK_PER_CLIENT
  · have hcn : ((c.toNat : Nat) : Int) = c := by omega
    have hent := h.entries b t ht c.toNat (by omega)
    rw [hcn] at hent
    simp only [hlt, if_true, some.injEq, exists_eq_left', hent]
    have hapart := h.apart b c
    cases hconn : connected s.history b c with
    | some fd =>
      have hst := hapart (by simp [hconn])
      refine iff_of_true ⟨fun fd' => ?_, nofun⟩ fun _ => ⟨by omega, ?_⟩
      · simp [entryValue]
      · intro g hg
        rw [hst] at hg
        cases hg
    | none =>
    constructor
    · intro ⟨_, hneg⟩ _
      refine ⟨by omega, fun g hg => ?_⟩
      have := hneg rfl
      rw [hg] at this
      exact this
    intro hfit
    have hneg : entryValue none (stale s.history b c) < 0 := by
      cases hst : stale s.history b c with
      | none => decide
      | some g => exact (hfit hreg).2 g hst
    refine ⟨fun fd => iff_of_false (fun e => ?_) (by simp), fun _ => hneg⟩
    omega
  · refine iff_of_false (fun hex => ?_) fun hfit => ?_
    · obtain ⟨ret, hret, -⟩ := hex
      simp [hlt] at hret
    · exact (hfit hreg).1 (by omega)

/-- **`free_socket`** stays inside the table exactly where the condition holds. -/
theorem free_some_iff (c : Int) :
    (∃ r, freeSocket s.nodes b c = some r) ↔ CallFits s.history (.free b c) := by
  unfold freeSocket CallFits
  cases ht : tableOf s.nodes b with
  | none =>
    refine iff_of_true ⟨_, rfl⟩ fun hreg => ?_
    rw [(h.tables b).mp ht] at hreg
    cases hreg
  | some t =>
    have hreg := h.isRegistered ht
    by_cases hc : 0 ≤ c ∧ c < MAX_SOCK_PER_CLIENT
    · simp [hc]
    · simp [hc, hreg]

theorem SockInv.free {c : Int} {r : List SockinfoNode × Int}
    (hr : freeSocket s.nodes b c = some r) : SockInv (s.answer (.free b c) r.1 r.2) := by
  have htab : ∀ b' : Client, tableOf r.1 b' = if b = b' then
      (tableOf s.nodes b').map (update · c.toNat (-1)) else tableOf s.nodes b' := by
    intro b'
    have hsub : (b.1 = b'.1) ↔ b = b' := Subtype.ext_iff.symm
    unfold freeSocket at hr
    split at hr
    · rename_i ht
      cases hr
      by_cases hb : b = b'
      · subst hb
        simp [ht]
      · simp [hb]
    · obtain ⟨-, hr⟩ := ite_none_right_eq_some.mp hr
      cases hr
      simp only [tableOf_storeTable, hsub]
  have hin : tableOf s.nodes b ≠ none → 0 ≤ c ∧ c < MAX_SOCK_PER_CLIENT := by
    intro hsome
    refine (free_some_iff h b c).mp ⟨r, hr⟩ ?_
    by_contra hno
    rw [Bool.not_eq_true] at hno
    exact hsome ((h.tables b).mpr hno)
  refine ⟨rfl, fun b' => ?_, fun b' t ht i hi => ?_, fun b' d hd => ?_, fun b' d hd => ?_⟩
  · show tableOf r.1 b' = none ↔ registered s.history b' = false
    rw [htab b', ← h.tables b']
    by_cases hb : b = b'
    · simp [hb]
    · simp [hb]
  · show t i = entryValue (connected ((.free b c, r.2) :: s.history) b' i)
      (stale ((.free b c, r.2) :: s.history) b' i)
    have ht' : tableOf r.1 b' = some t := ht
    rw [htab b'] at ht'
    by_cases hb : b = b'
    · subst hb
      rw [if_pos rfl] at ht'
      obtain ⟨t0, ht0, rfl⟩ := map_eq_some_iff.mp ht'
      obtain ⟨hc0, hc1⟩ := hin (by simp [ht0])
      by_cases hi' : c = i
      · subst hi'
        simp [connected, stale, entryValue]
      · rw [update_of_ne (by omega), connected, stale, if_neg fun e => hi' e.2,
          if_neg fun e => hi' e.2, h.entries b t0 ht0 i hi]
    · rw [if_neg hb] at ht'
      rw [connected, stale, if_neg fun e => hb e.1, if_neg fun e => hb e.1, h.entries b' t ht' i hi]
  · have hd' : connected ((.free b c, r.2) :: s.history) b' d ≠ none := hd
    rw [connected] at hd'
    split at hd'
    · exact absurd rfl hd'
    · exact h.range b' d hd'
  have hd' : connected ((.free b c, r.2) :: s.history) b' d ≠ none := hd
  show stale ((.free b c, r.2) :: s.history) b' d = none
  rw [connected] at hd'
  rw [stale]
  split at hd'
  · exact absurd rfl hd'
  · rename_i hno
    rw [if_neg hno]
    exact h.apart b' d hd'

end Calls

/-! ## 8. Runs -/

/-- One call is right exactly when it meets the condition. -/
theorem stepRight_iff {s' : Server} (h : SockInv s) (hs : sockStep s call = some s') :
    StepRight ⟨s, call, s'⟩ ↔ CallFits s.history call := by
  unfold sockStep at hs
  rw [h.inside] at hs
  simp only [Bool.false_eq_true, if_false, some.injEq] at hs
  subst hs
  cases call with
  | set b fd m => rw [stepRight_answer, set_right_iff h]
  | get b c =>
    rw [← get_right_iff h]
    cases hg : getSocket s.nodes b c with
    | none =>
      simp only [hg]
      exact iff_of_false not_stepRight_outside (by simp)
    | some ret =>
      simp only [hg, stepRight_answer, some.injEq, exists_eq_left']
  | free b c =>
  rw [← free_some_iff h]
  cases hf : freeSocket s.nodes b c with
  | none =>
    simp only [hf]
    exact iff_of_false not_stepRight_outside (by simp)
  | some r =>
    simp only [hf, stepRight_answer]
    exact iff_of_true trivial ⟨r, rfl⟩

theorem sockInv_step {s' : Server} (h : SockInv s) (hfit : CallFits s.history call)
    (hs : sockStep s call = some s') : SockInv s' := by
  unfold sockStep at hs
  rw [h.inside] at hs
  simp only [Bool.false_eq_true, if_false, some.injEq] at hs
  subst hs
  cases call with
  | set b fd m => exact h.set b fd m
  | get b c =>
    obtain ⟨ret, hret, -⟩ := (get_right_iff h b c).mpr hfit
    simp only [hret]
    exact { h with inside := rfl }
  | free b c =>
    obtain ⟨r, hr⟩ := (free_some_iff h b c).mpr hfit
    simp only [hr]
    exact h.free b hr

/-- **The tables keep the clients apart** over a run exactly when every call of the run meets the
    condition, given the calls before it. -/
theorem sockets_right_iff (calls : List SockCall) :
    (∀ t ∈ trace sockStep server calls, StepRight t) ↔
      ∀ t ∈ trace sockStep server calls, CallFits t.pre.history t.act :=
  trace_all_iff (I := SockInv) (C := fun s call => CallFits s.history call)
    (fun _ _ _ h hs => stepRight_iff h hs) (fun _ _ _ h hfit hs => sockInv_step h hfit hs)
    calls server sockInv_server

def client : Client := ⟨1, by decide⟩

/-- A client has registered the socket 5. It asks for the connection 2000 and gets the socket 7,
    which `malloc` has left there; it asks for the connection 4096, and the answer is read behind
    the table. -/
theorem sockets_not_right :
    (∃ t ∈ trace sockStep server [.set client 5 (fun _ => 7), .get client 2000], ¬ StepRight t) ∧
    ∃ t ∈ trace sockStep server [.set client 5 (fun _ => -1), .get client 4096], ¬ StepRight t := by
  refine ⟨⟨_, mem_cons_of_mem _ mem_cons_self, fun h => ?_⟩,
    ⟨_, mem_cons_of_mem _ mem_cons_self, fun h => ?_⟩⟩
  · exact absurd ((h.2 7 rfl).2 rfl) (by decide)
  · cases h.1

end ChCore.Lwip
