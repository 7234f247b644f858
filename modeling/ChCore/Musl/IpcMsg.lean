/-
  File: ChCore/Musl/IpcMsg.lean
  Subject: ipc_create_msg and the accessors of a message (musl, chcore-port/ipc.c).

  A message stands at the beginning of the buffer a client shares with a server: the header, the
  data, the slots of the capabilities. The header says where the parts are, and every accessor
  reads it there.

  * **`ipc_msg_layout_iff`** -- the parts of a message are apart and inside the buffer, and every
    later write stays in its part, exactly where the number of slots times 8 does not go around.
-/
import ChCore.Lib.LockedCode
import ChCore.Lib.Memory
import ChCore.Lib.Run

namespace ChCore.Musl

open Lib Lib.Code Function

/-! ## 1. The client -/

abbrev Addr := BitVec 64

/-- `enum system_server_identifier`; `other` is every value the code does not know. -/
inductive ServerId where
  | fsManager | netManager | procManager | other
deriving DecidableEq, Repr

structure IpcStruct where
  connCap : BitVec 64
  sharedBuf : Addr
  sharedBufLen : BitVec 64
  lock : Bool
  serverId : ServerId
deriving DecidableEq, Repr

/-- What `ipc_register_client` gives: the connection, the buffer, and where the new `ipc_struct`
stands on the heap. -/
structure Registration where
  connCap : BitVec 64
  sharedBuf : Addr
  addr : Addr
deriving DecidableEq, Repr

/-- What a server leaves in a message: the data and, with a capability to give back, a slot. -/
structure Answer where
  data : Nat → BitVec 8
  retCap : Option (BitVec 64)

/-- How `usys_ipc_call` comes back; without an answer the kernel has refused the call. -/
structure Reply where
  ret : Int
  answer : Option Answer

/-- `struct fs_fast_path`. -/
structure FastPath where
  fsIpcStruct : Addr
  fid : Int
deriving DecidableEq, Repr

inductive FdType where
  | file | pipe | sock | stdin | stdout | stderr | event | timer | epoll
deriving DecidableEq, Repr

/-- `struct fd_desc`. -/
structure FdDesc where
  fd : Int
  flags : BitVec 32
  type : FdType
  privateData : Option FastPath
deriving DecidableEq, Repr

structure Client where
  /-- The buffers shared with the servers. -/
  mem : Mem
  /-- The buffers of the callers. -/
  user : Mem
  icbs : Addr → IpcStruct
  /-- How the next registrations end; past the last one the call does not come back. -/
  registrations : List (Option Registration)
  replies : List Reply
  connectedProcmgr : Bool
  connectProcmgrLock : Bool
  fdDic : Nat → Option FdDesc
  /-- `fs_cap_struct_htable`: the `ipc_struct` of each file system. -/
  capStructs : List (Int × Addr)

inductive LockId where
  | ipc (icb : Addr)
  | connectProcmgr
deriving DecidableEq

def Client.setIcb (s : Client) (icb : Addr) (i : IpcStruct) : Client :=
  { s with icbs := update s.icbs icb i }

instance : HasLocks LockId Client where
  held s
    | .ipc icb => (s.icbs icb).lock
    | .connectProcmgr => s.connectProcmgrLock
  setLock s i b := match i with
    | .ipc icb => s.setIcb icb { s.icbs icb with lock := b }
    | .connectProcmgr => { s with connectProcmgrLock := b }
  held_setLock s i b := by
    funext j
    cases i with
    | ipc icb =>
      cases j with
      | ipc icb' =>
        by_cases h : icb' = icb
        · subst h
          simp [Client.setIcb]
        · have hne : LockId.ipc icb' ≠ LockId.ipc icb := fun hj => h (by cases hj; rfl)
          simp [Client.setIcb, h, hne]
      | connectProcmgr => rfl
    | connectProcmgr =>
      cases j with
      | ipc icb' => rfl
      | connectProcmgr => simp

/-- `chcore_spin_unlock`: the word is cleared, whoever has the lock. -/
def spinUnlock (i : LockId) : Code Client Unit := do
  let s ← read
  write (setLock s i false)

/-! ## 2. Connections -/

def IPC_PER_SHM_SIZE : BitVec 64 := 0x1000

def ipcRegisterClient : Code Client (Option Registration) := do
  let s ← read
  match s.registrations with
  | [] => stop
  | r :: rest =>
    write { s with registrations := rest }
    pure r

/-- `ipc_struct_copy` from a new `ipc_struct`. -/
def IpcStruct.copy (i : IpcStruct) (r : Registration) : IpcStruct :=
  { i with connCap := r.connCap, sharedBuf := r.sharedBuf,
           sharedBufLen := IPC_PER_SHM_SIZE, lock := false }

def ipcStructCopy (icb : Addr) (r : Registration) : Code Client Unit := do
  let s ← read
  write (s.setIcb icb ((s.icbs icb).copy r))

def connectSystemServer (icb : Addr) : Code Client Int := do
  let s ← read
  match (s.icbs icb).serverId with
  | .other => pure (-1)
  | .procManager => do
    acquire LockId.connectProcmgr
    let s ← read
    if s.connectedProcmgr = false then
      match ← ipcRegisterClient with
      | none =>
        spinUnlock .connectProcmgr
        pure (-1)
      | some r =>
        ipcStructCopy icb r
        let s ← read
        write { s with connectedProcmgr := true }
        spinUnlock .connectProcmgr
        pure 0
    else
      spinUnlock .connectProcmgr
      pure 0
  | .fsManager | .netManager => do
    match ← ipcRegisterClient with
    | none => pure (-1)
    | some r =>
      ipcStructCopy icb r
      pure 0

/-- The connection on demand of `ipc_create_msg` and `ipc_call`. -/
def connectOnDemand (icb : Addr) : Code Client Int := do
  let s ← read
  if (s.icbs icb).connCap = 0#64 then connectSystemServer icb else pure 0

/-- The `ipc_struct` with the next registration, if there is one. -/
def Client.registered (s : Client) (icb : Addr) : Option IpcStruct :=
  match s.registrations with
  | some r :: _ => some ((s.icbs icb).copy r)
  | _ => none

/-- **The `ipc_struct` a request goes on with**, told from the state before. -/
def Client.attached (s : Client) (icb : Addr) : Option IpcStruct :=
  if (s.icbs icb).connCap = 0#64 then
    match (s.icbs icb).serverId with
    | .other => none
    | .procManager =>
      if s.connectProcmgrLock then none
      else if s.connectedProcmgr then some (s.icbs icb) else s.registered icb
    | .fsManager | .netManager => s.registered icb
  else some (s.icbs icb)

/-! ## 3. Messages -/

/-- The fields of `ipc_msg_t`. -/
inductive MsgField where
  | dataLen | capSlotNumber | capSlotNumberRet | dataOffset | capSlotsOffset | icb
deriving DecidableEq

def MsgField.offset : MsgField → Nat
  | .dataLen => 0
  | .capSlotNumber => 8
  | .capSlotNumberRet => 16
  | .dataOffset => 24
  | .capSlotsOffset => 32
  | .icb => 40

/-- `sizeof(ipc_msg_t)`. -/
def IPC_MSG_SIZE : Nat := 48

variable (m : Mem) {s' : Client} (p : Addr) (f : MsgField)

def fieldAddr : Addr := p + BitVec.ofNat 64 f.offset

def getField : BitVec 64 := m.load64 (fieldAddr p f)

def setField (v : BitVec 64) : Mem := m.store64 (fieldAddr p f) v

/-- The check of `ipc_create_msg`; product and sum go around at `2 ^ 64`. -/
def TooLong (sharedBufLen dataLen capSlotNumber : BitVec 64) : Prop :=
  dataLen + 8#64 * capSlotNumber > sharedBufLen - BitVec.ofNat 64 IPC_MSG_SIZE ∨
    dataLen + 8#64 * capSlotNumber < dataLen
  deriving Decidable

/-- The header of a new message. -/
def initHeader (p icb dataLen capSlotNumber : BitVec 64) : Mem :=
  let m := setField m p .icb icb
  let m := setField m p .dataLen dataLen
  let m := setField m p .capSlotNumber capSlotNumber
  let m := setField m p .dataOffset (BitVec.ofNat 64 IPC_MSG_SIZE)
  setField m p .capSlotsOffset (getField m p .dataOffset + dataLen)

/-- `ipc_create_msg` once it has the lock. -/
def createLocked (icb : Addr) (dataLen capSlotNumber : BitVec 64) : Code Client (Option Addr) := do
  let s ← read
  if TooLong (s.icbs icb).sharedBufLen dataLen capSlotNumber then
    -- The lock is not given back here.
    pure none
  else
    let p := (s.icbs icb).sharedBuf
    write { s with mem := initHeader s.mem p icb dataLen capSlotNumber }
    pure (some p)

def ipcCreateMsg (icb : Addr) (dataLen capSlotNumber : BitVec 64) : Code Client (Option Addr) := do
  let r ← connectOnDemand icb
  if r ≠ 0 then pure none
  else
    acquire (LockId.ipc icb)
    createLocked icb dataLen capSlotNumber

def ipcGetMsgData : Addr := p + getField m p .dataOffset

def ipcGetMsgCapPtr (capId : BitVec 64) : Addr :=
  p + getField m p .capSlotsOffset + 8#64 * capId

/-- A length no object has (`PTRDIFF_MAX`): `memcpy` faults on the way. -/
def COPY_LIMIT : Nat := 2 ^ 63

/-- `memcpy` into the shared memory. -/
def memcpyShared (dst : Addr) (data : Nat → BitVec 8) (len : BitVec 64) : Code Client Unit := do
  bugOn (COPY_LIMIT ≤ len.toNat)
  let s ← read
  write { s with mem := s.mem.write dst data len.toNat }

def ipcSetMsgData (data : Nat → BitVec 8) (offset len : BitVec 64) : Code Client Int := do
  let s ← read
  if offset + len < offset ∨ offset + len > getField s.mem p .dataLen then pure (-1)
  else
    memcpyShared (ipcGetMsgData s.mem p + offset) data len
    pure 0

def ipcSetMsgCap (capSlotIndex : BitVec 64) (cap : BitVec 32) : Code Client Int := do
  let s ← read
  if capSlotIndex ≥ getField s.mem p .capSlotNumber then pure (-1)
  else
    write { s with mem := s.mem.store64 (ipcGetMsgCapPtr s.mem p capSlotIndex) (cap.zeroExtend 64) }
    pure 0

/-! ## 4. What the header says -/

theorem fieldAddr_disjoint {f g : MsgField} (h : f ≠ g) :
    Disjoint (span (fieldAddr p f) 8) (span (fieldAddr p g) 8) := by
  have hf : ∀ f : MsgField, f.offset + 8 ≤ 2 ^ 64 := by
    intro f
    cases f <;> decide
  refine disjoint_span_add (hf f) (hf g) ?_
  cases f <;> cases g <;> first | exact absurd rfl h | decide

theorem getField_setField (f g : MsgField) (v : BitVec 64) :
    getField (setField m p g v) p f = if f = g then v else getField m p f := by
  by_cases h : f = g
  · subst h
    rw [if_pos rfl]
    exact load64_store64 m _ v
  · rw [if_neg h]
    exact load64_write (wordBytes v) (fieldAddr_disjoint p h)

/-- A message whose header is that of the request. -/
structure Created (m : Mem) (p icb dataLen capSlotNumber : BitVec 64) : Prop where
  icb_eq : getField m p .icb = icb
  dataLen_eq : getField m p .dataLen = dataLen
  capSlotNumber_eq : getField m p .capSlotNumber = capSlotNumber
  dataOffset_eq : getField m p .dataOffset = BitVec.ofNat 64 IPC_MSG_SIZE
  capSlotsOffset_eq : getField m p .capSlotsOffset = BitVec.ofNat 64 IPC_MSG_SIZE + dataLen

/-- **The header of a new message.** -/
theorem created_initHeader (p icb dataLen caps : BitVec 64) :
    Created (initHeader m p icb dataLen caps) p icb dataLen caps := by
  constructor <;> simp [initHeader, getField_setField]

variable {dataLen caps : BitVec 64} {s : Client} {icb : Addr} {i : IpcStruct}

theorem Created.data {m : Mem} {p icb : BitVec 64} (h : Created m p icb dataLen caps) :
    ipcGetMsgData m p = p + BitVec.ofNat 64 IPC_MSG_SIZE := by
  rw [ipcGetMsgData, h.dataOffset_eq]

theorem Created.slot {m : Mem} {p icb : BitVec 64} (h : Created m p icb dataLen caps)
    (i : BitVec 64) :
    ipcGetMsgCapPtr m p i =
      p + BitVec.ofNat 64 (IPC_MSG_SIZE + dataLen.toNat + 8 * i.toNat) := by
  rw [ipcGetMsgCapPtr, h.capSlotsOffset_eq, BitVec.ofNat_add, BitVec.ofNat_add, BitVec.ofNat_mul,
    BitVec.ofNat_toNat, BitVec.ofNat_toNat, BitVec.setWidth_eq, BitVec.setWidth_eq, BitVec.add_assoc]

/-! ## 5. When there is a message -/

theorem Client.registered_some (h : s.registered icb = some i) :
    ∃ r rest, s.registrations = some r :: rest ∧ (s.icbs icb).copy r = i := by
  unfold Client.registered at h
  split at h
  · rename_i r rest hreg
    exact ⟨r, rest, hreg, Option.some.inj h⟩
  · cases h

theorem Client.registered_none (h : s.registered icb = none) :
    s.registrations = [] ∨ ∃ rest, s.registrations = none :: rest := by
  unfold Client.registered at h
  split at h
  · cases h
  rename_i hreg
  cases hs : s.registrations with
  | nil => exact .inl rfl
  | cons r rest =>
    cases r with
    | none => exact .inr ⟨rest, rfl⟩
    | some r => exact absurd hs (hreg r rest)

section

variable (h : s.attached icb = some i)

include h

/-- **A connection on demand**: the state goes on with the `ipc_struct` that `attached` tells. -/
theorem connectOnDemand_some :
    ∃ s', connectOnDemand icb s = .returned 0 s' ∧ s'.icbs = update s.icbs icb i ∧
      s'.mem = s.mem ∧ s'.fdDic = s.fdDic := by
  unfold Client.attached at h
  by_cases hconn : (s.icbs icb).connCap = 0#64
  · rw [if_pos hconn] at h
    cases hid : (s.icbs icb).serverId with
    | other =>
      rw [hid] at h
      cases h
    | procManager =>
      rw [hid] at h
      simp only at h
      split at h
      · cases h
      rename_i hlock
      have hfree : held s LockId.connectProcmgr = false := eq_false_of_ne_true hlock
      split at h
      · rename_i hc
        cases h
        simp [connectOnDemand, connectSystemServer, hid, hconn, acquire_bind hfree, hc, spinUnlock,
          setLock]
      · rename_i hc
        obtain ⟨r, rest, hreg, rfl⟩ := Client.registered_some h
        simp [connectOnDemand, connectSystemServer, hid, hconn, acquire_bind hfree, hc, spinUnlock,
          setLock, ipcRegisterClient, hreg, ipcStructCopy, Client.setIcb]
    | fsManager | netManager =>
      rw [hid] at h
      obtain ⟨r, rest, hreg, rfl⟩ := Client.registered_some h
      simp [connectOnDemand, connectSystemServer, ipcRegisterClient, hreg, ipcStructCopy, hid, hconn,
        Client.setIcb]
  · rw [if_neg hconn] at h
    cases h
    simp [connectOnDemand, hconn]

theorem attached_cases : i = s.icbs icb ∨ ∃ r, i = (s.icbs icb).copy r := by
  have hreg : s.registered icb = some i → ∃ r, i = (s.icbs icb).copy r := by
    intro hreg
    obtain ⟨r, _, _, hr⟩ := Client.registered_some hreg
    exact ⟨r, hr.symm⟩
  unfold Client.attached at h
  split at h
  · split at h
    · cases h
    · split at h
      · cases h
      split at h
      · cases h
        exact .inl rfl
      · exact .inr (hreg h)
    · exact .inr (hreg h)
    · exact .inr (hreg h)
  · cases h
    exact .inl rfl

theorem attached_len (hlen : IPC_MSG_SIZE ≤ (s.icbs icb).sharedBufLen.toNat) :
    IPC_MSG_SIZE ≤ i.sharedBufLen.toNat := by
  obtain rfl | ⟨r, rfl⟩ := attached_cases h
  · exact hlen
  · show IPC_MSG_SIZE ≤ IPC_PER_SHM_SIZE.toNat
    decide

theorem attached_lock (hlock : (s.icbs icb).lock = false) : i.lock = false := by
  obtain rfl | ⟨r, rfl⟩ := attached_cases h
  · exact hlock
  · rfl

end

/-- Without a connection nothing has changed about the `ipc_struct`s. -/
theorem connectOnDemand_none {r : Int} (h : s.attached icb = none)
    (hr : connectOnDemand icb s = .returned r s') :
    r ≠ 0 ∧ s'.icbs = s.icbs ∧ s'.mem = s.mem ∧ s'.fdDic = s.fdDic := by
  unfold Client.attached at h
  by_cases hconn : (s.icbs icb).connCap = 0#64
  · rw [if_pos hconn] at h
    cases hid : (s.icbs icb).serverId with
    | other =>
      simp [connectOnDemand, connectSystemServer, hid, hconn] at hr
      obtain ⟨rfl, rfl⟩ := hr
      exact ⟨by decide, rfl, rfl, rfl⟩
    | procManager =>
      rw [hid] at h
      simp only at h
      by_cases hlock : s.connectProcmgrLock = true
      · have hheld : held s LockId.connectProcmgr = true := hlock
        simp [connectOnDemand, connectSystemServer, hid, hconn, acquire_bind_held hheld] at hr
      have hfree : held s LockId.connectProcmgr = false := eq_false_of_ne_true hlock
      rw [if_neg hlock] at h
      split at h
      · cases h
      rename_i hc
      obtain hreg | ⟨rest, hreg⟩ := Client.registered_none h
      · simp [connectOnDemand, connectSystemServer, hid, hconn, acquire_bind hfree, hc, setLock,
          ipcRegisterClient, hreg] at hr
      simp [connectOnDemand, connectSystemServer, hid, hconn, acquire_bind hfree, hc,
        setLock, ipcRegisterClient, hreg, spinUnlock] at hr
      obtain ⟨rfl, rfl⟩ := hr
      exact ⟨by decide, rfl, rfl, rfl⟩
    | fsManager | netManager =>
    rw [hid] at h
    obtain hreg | ⟨rest, hreg⟩ := Client.registered_none h
    · simp [connectOnDemand, connectSystemServer, ipcRegisterClient, hreg, hid, hconn] at hr
    · simp [connectOnDemand, connectSystemServer, ipcRegisterClient, hreg, hid, hconn] at hr
      obtain ⟨rfl, rfl⟩ := hr
      exact ⟨by decide, rfl, rfl, rfl⟩
  · rw [if_neg hconn] at h
    cases h

/-- **`ipc_create_msg` on a connection whose lock is free.** -/
theorem ipcCreateMsg_attached (dataLen caps : BitVec 64) (h : s.attached icb = some i)
    (hlock : i.lock = false) :
    ∃ s', s'.icbs = update s.icbs icb { i with lock := true } ∧ s'.fdDic = s.fdDic ∧
      if TooLong i.sharedBufLen dataLen caps then
        ipcCreateMsg icb dataLen caps s = .returned none s'
      else
        ipcCreateMsg icb dataLen caps s = .returned (some i.sharedBuf) s' ∧
        s'.mem = initHeader s.mem i.sharedBuf icb dataLen caps := by
  obtain ⟨t, ht, hicbs, hmem, hfd⟩ := connectOnDemand_some h
  have hfree : held t (LockId.ipc icb) = false := by
    show (t.icbs icb).lock = false
    rw [hicbs, update_self, hlock]
  have hcreate : ipcCreateMsg icb dataLen caps s =
      createLocked icb dataLen caps (setLock t (LockId.ipc icb) true) := by
    rw [ipcCreateMsg, bind_of_returned ht]
    simp [acquire_bind hfree]
  have hicb : (t.icbs icb) = i := by rw [hicbs, update_self]
  rw [hcreate]
  by_cases hlong : TooLong i.sharedBufLen dataLen caps
  · refine ⟨setLock t (LockId.ipc icb) true, ?_, hfd, ?_⟩
    · simp [setLock, Client.setIcb, hicbs]
    · simp [createLocked, setLock, Client.setIcb, hicb, hlong]
  · refine ⟨{ setLock t (LockId.ipc icb) true with
        mem := initHeader s.mem i.sharedBuf icb dataLen caps }, ?_, hfd, ?_⟩
    · simp [setLock, Client.setIcb, hicbs]
    · simp [createLocked, setLock, Client.setIcb, hicb, hlong, hmem]

theorem ipcCreateMsg_returned {r : Option Addr}
    (h : ipcCreateMsg icb dataLen caps s = .returned r s') :
    (s.attached icb = none ∧ r = none ∧ s'.icbs = s.icbs) ∨
    ∃ i, s.attached icb = some i ∧ i.lock = false := by
  cases ha : s.attached icb with
  | none =>
    obtain ⟨a, t, hconn, hrest⟩ := bind_returned h
    obtain ⟨hne, hicbs, _⟩ := connectOnDemand_none ha hconn
    rw [if_pos hne] at hrest
    cases hrest
    exact .inl ⟨rfl, rfl, hicbs⟩
  | some i =>
  refine .inr ⟨i, rfl, ?_⟩
  obtain ⟨t, ht, hicbs, _⟩ := connectOnDemand_some ha
  cases hlock : i.lock with
  | false => rfl
  | true =>
  have hheld : held t (LockId.ipc icb) = true := by
    show (t.icbs icb).lock = true
    rw [hicbs, update_self, hlock]
  rw [ipcCreateMsg, bind_of_returned ht] at h
  simp [acquire_bind_held hheld] at h

/-- **The state in which there is a message.** -/
def Client.Accepts (s : Client) (icb : Addr) (dataLen caps : BitVec 64) : Prop :=
  ∃ i, s.attached icb = some i ∧ i.lock = false ∧ ¬ TooLong i.sharedBufLen dataLen caps

theorem ipcCreateMsg_some {p : Addr}
    (h : ipcCreateMsg icb dataLen caps s = .returned (some p) s') :
    ∃ i, s.attached icb = some i ∧ i.lock = false ∧ ¬ TooLong i.sharedBufLen dataLen caps ∧
      p = i.sharedBuf ∧ s'.icbs = update s.icbs icb { i with lock := true } ∧
      s'.fdDic = s.fdDic ∧ Created s'.mem p icb dataLen caps := by
  obtain ⟨_, hr, _⟩ | ⟨i, ha, hlock⟩ := ipcCreateMsg_returned h
  · cases hr
  obtain ⟨t, hicbs, hfd, hres⟩ := ipcCreateMsg_attached dataLen caps ha hlock
  by_cases hlong : TooLong i.sharedBufLen dataLen caps
  · rw [if_pos hlong, h] at hres
    cases hres
  rw [if_neg hlong, h] at hres
  obtain ⟨hret, hmem⟩ := hres
  cases hret
  refine ⟨i, ha, hlock, hlong, rfl, hicbs, hfd, ?_⟩
  rw [hmem]
  exact created_initHeader s.mem _ icb dataLen caps

/-! ## 6. The parts of a message -/

def headerArea : Set Addr := span p IPC_MSG_SIZE

def dataArea (dataLen : BitVec 64) : Set Addr :=
  span (ipcGetMsgData m p) dataLen.toNat

def slotArea (i : BitVec 64) : Set Addr := span (ipcGetMsgCapPtr m p i) 8

/-- The shared buffer. -/
def IpcStruct.buffer (i : IpcStruct) : Set Addr := span i.sharedBuf i.sharedBufLen.toNat

/-- **Header, data and slots are pairwise disjoint and inside the buffer.** -/
structure Layout (m : Mem) (buffer : Set Addr) (p : Addr) (dataLen caps : BitVec 64) : Prop where
  header_inside : headerArea p ⊆ buffer
  data_inside : dataArea m p dataLen ⊆ buffer
  slot_inside : ∀ i < caps, slotArea m p i ⊆ buffer
  header_data : Disjoint (headerArea p) (dataArea m p dataLen)
  header_slot : ∀ i < caps, Disjoint (headerArea p) (slotArea m p i)
  data_slot : ∀ i < caps, Disjoint (dataArea m p dataLen) (slotArea m p i)
  slot_slot : ∀ i < caps, ∀ j < caps, i ≠ j → Disjoint (slotArea m p i) (slotArea m p j)

/-- The writes to a message. -/
inductive SetOp where
  | data (bytes : Nat → BitVec 8) (offset len : BitVec 64)
  | cap (capSlotIndex : BitVec 64) (cap : BitVec 32)

def SetOp.code : SetOp → Code Client Int
  | .data bytes offset len => ipcSetMsgData p bytes offset len
  | .cap capSlotIndex c => ipcSetMsgCap p capSlotIndex c

/-- One write; there is no step where the code does not come back. -/
def setStep (s : Client) (op : SetOp) : Option Client :=
  match op.code p s with
  | .returned _ s' => some s'
  | _ => none

/-- The part a write belongs to. -/
def SetOp.area (dataLen : BitVec 64) : SetOp → Set Addr
  | .data _ _ _ => dataArea m p dataLen
  | .cap i _ => slotArea m p i

/-- **A message that is laid out well**, and every run of writes from here on stays in its parts. -/
structure MsgOk (s : Client) (icb p : Addr) (dataLen caps : BitVec 64) : Prop where
  layout : Layout s.mem (s.icbs icb).buffer p dataLen caps
  writes : ∀ ops, ∀ t ∈ trace (setStep p) s ops,
    ∀ x, x ∉ t.act.area s.mem p dataLen → t.post.mem x = t.pre.mem x

theorem not_tooLong {len : BitVec 64} (hlen : IPC_MSG_SIZE ≤ len.toNat)
    (hcaps : caps.toNat < 2 ^ 61) (h : ¬ TooLong len dataLen caps) :
    IPC_MSG_SIZE + dataLen.toNat + 8 * caps.toNat ≤ len.toNat := by
  simp only [TooLong, IPC_MSG_SIZE, gt_iff_lt, BitVec.lt_def, BitVec.toNat_add, BitVec.toNat_mul,
    BitVec.toNat_sub, BitVec.toNat_ofNat] at h hlen ⊢
  omega

theorem ends_memcpyShared (dst : Addr) (data : Nat → BitVec 8) (len : BitVec 64) :
    Ends (memcpyShared dst data len) s fun _ t => t = { s with mem := s.mem.write dst data len.toNat } :=
  (ends_bugOn (Q := fun _ t => t = s) fun _ => rfl).bind fun _ t ht => by
    subst ht
    intro _ s' hret
    cases hret
    rfl

section Parts

variable {m : Mem} {i : IpcStruct} {p icb dataLen caps : BitVec 64}

theorem headerArea_eq (p : Addr) : headerArea p = span (p + BitVec.ofNat 64 0) IPC_MSG_SIZE := by
  rw [headerArea, BitVec.add_zero]

theorem Created.dataArea_eq (hc : Created m p icb dataLen caps) :
    dataArea m p dataLen = span (p + BitVec.ofNat 64 IPC_MSG_SIZE) dataLen.toNat := by
  rw [dataArea, hc.data]

theorem Created.slotArea_eq (hc : Created m p icb dataLen caps) (j : BitVec 64) :
    slotArea m p j = span (p + BitVec.ofNat 64 (IPC_MSG_SIZE + dataLen.toNat + 8 * j.toNat)) 8 := by
  rw [slotArea, hc.slot]

/-- **A message that fits is laid out well.** -/
theorem layout_of_fits (hc : Created m i.sharedBuf icb dataLen caps)
    (hfit : IPC_MSG_SIZE + dataLen.toNat + 8 * caps.toNat ≤ i.sharedBufLen.toNat) :
    Layout m i.buffer i.sharedBuf dataLen caps := by
  have hlen : i.sharedBufLen.toNat ≤ 2 ^ 64 := le_of_lt i.sharedBufLen.isLt
  have hslot : ∀ j < caps,
      IPC_MSG_SIZE + dataLen.toNat + 8 * j.toNat + 8 ≤ i.sharedBufLen.toNat := by
    intro j hj
    have hj' : j.toNat < caps.toNat := hj
    omega
  constructor
  · rw [headerArea_eq]
    exact span_add_subset (by omega) hlen
  · rw [hc.dataArea_eq]
    exact span_add_subset (by omega) hlen
  · intro j hj
    rw [hc.slotArea_eq]
    exact span_add_subset (hslot j hj) hlen
  · rw [headerArea_eq, hc.dataArea_eq]
    exact disjoint_span_add (by omega) (by omega) (by omega)
  · intro j hj
    have hj' := hslot j hj
    rw [headerArea_eq, hc.slotArea_eq]
    exact disjoint_span_add (by omega) (by omega) (by omega)
  · intro j hj
    have hj' := hslot j hj
    rw [hc.dataArea_eq, hc.slotArea_eq]
    exact disjoint_span_add (by omega) (by omega) (by omega)
  intro j hj k hk hne
  have hj' := hslot j hj
  have hk' := hslot k hk
  have hjk : j.toNat ≠ k.toNat := fun h => hne (BitVec.eq_of_toNat_eq h)
  rw [hc.slotArea_eq, hc.slotArea_eq]
  exact disjoint_span_add (by omega) (by omega) (by omega)

/-- **With `2 ^ 61` slots one of them is in the header**: the slots go around the address space. -/
theorem not_layout_of_wraps {buffer : Set Addr} (hcaps : 2 ^ 61 ≤ caps.toNat) :
    ¬ Layout m buffer p dataLen caps := by
  intro hl
  set d := (p - (p + getField m p .capSlotsOffset)).toNat
  have hj : (BitVec.ofNat 64 (d / 8)).toNat = d / 8 := by
    rw [BitVec.toNat_ofNat, Nat.mod_eq_of_lt (by omega)]
  generalize hjdef : BitVec.ofNat 64 (d / 8) = j at hj
  have hlt : j < caps := by
    rw [BitVec.lt_def]
    omega
  have hheader : p ∈ headerArea p := by
    rw [headerArea, mem_span, BitVec.sub_self]
    decide
  have hslot : p ∈ slotArea m p j := by
    rw [slotArea, mem_span, ipcGetMsgCapPtr, sub_add_eq_sub_sub, BitVec.toNat_sub, BitVec.toNat_mul, hj]
    rw [BitVec.toNat_ofNat]
    omega
  exact Set.disjoint_left.mp (hl.header_slot j hlt) hheader hslot

theorem Created.congr {m' : Mem} (hc : Created m p icb dataLen caps)
    (h : ∀ x ∈ headerArea p, m' x = m x) : Created m' p icb dataLen caps := by
  have hfield : ∀ f, getField m' p f = getField m p f := by
    intro f
    refine load64_congr fun x hx => h x ?_
    have hsub : span (fieldAddr p f) 8 ⊆ headerArea p := by
      refine span_add_subset ?_ (by decide)
      cases f <;> decide
    exact hsub hx
  constructor
  · rw [hfield, hc.icb_eq]
  · rw [hfield, hc.dataLen_eq]
  · rw [hfield, hc.capSlotNumber_eq]
  · rw [hfield, hc.dataOffset_eq]
  · rw [hfield, hc.capSlotsOffset_eq]

theorem Created.setRet (hc : Created m p icb dataLen caps) (v : BitVec 64) :
    Created (setField m p .capSlotNumberRet v) p icb dataLen caps := by
  constructor <;> rw [getField_setField]
  · exact hc.icb_eq
  · exact hc.dataLen_eq
  · exact hc.capSlotNumber_eq
  · exact hc.dataOffset_eq
  · exact hc.capSlotsOffset_eq

/-- **What one write can change**, in a message that fits: nothing, or a part beside the header. -/
theorem setStep_frame {s s' : Client} {op : SetOp} {m0 : Mem}
    (hc : Created s.mem p icb dataLen caps) (h0 : Created m0 p icb dataLen caps)
    (hfit : IPC_MSG_SIZE + dataLen.toNat + 8 * caps.toNat ≤ 2 ^ 64)
    (h : setStep p s op = some s') :
    s' = s ∨ Disjoint (headerArea p) (op.area m0 p dataLen) ∧
      ∀ x, x ∉ op.area m0 p dataLen → s'.mem x = s.mem x := by
  cases op with
  | data bytes offset len =>
    by_cases hbad : offset + len < offset ∨ offset + len > getField s.mem p .dataLen
    · simp only [setStep, SetOp.code, ipcSetMsgData, read_bind, hbad, if_true, pure_apply,
        Option.some.injEq] at h
      exact .inl h.symm
    have hret : Ends (ipcSetMsgData p bytes offset len) s fun _ t =>
        t.mem = s.mem.write (ipcGetMsgData s.mem p + offset) bytes len.toNat := by
      refine ends_read (ends_ite (fun h => absurd h hbad) fun _ => ?_)
      exact (ends_memcpyShared _ _ _).bind fun _ t ht => ends_pure (by rw [ht])
    have hmem : s'.mem = s.mem.write (ipcGetMsgData s.mem p + offset) bytes len.toNat := by
      unfold setStep at h
      split at h
      · rename_i r t hcode
        cases h
        exact hret r s' hcode
      · cases h
    have hsum : offset.toNat + len.toNat ≤ dataLen.toNat := by
      rw [hc.dataLen_eq] at hbad
      simp only [gt_iff_lt, BitVec.lt_def, BitVec.toNat_add] at hbad
      omega
    have haddr : ipcGetMsgData s.mem p + offset =
        p + BitVec.ofNat 64 (IPC_MSG_SIZE + offset.toNat) := by
      rw [hc.data, BitVec.ofNat_add, BitVec.ofNat_toNat, BitVec.setWidth_eq, BitVec.add_assoc]
    have hsub : span (ipcGetMsgData s.mem p + offset) len.toNat ⊆ dataArea m0 p dataLen := by
      rw [haddr, h0.dataArea_eq]
      exact span_add_mono (by omega) (by omega) (by omega)
    rw [hmem]
    refine .inr ⟨?_, fun x hx => Mem.write_of_notMem bytes fun hx' => hx (hsub hx')⟩
    rw [SetOp.area, headerArea_eq, h0.dataArea_eq]
    exact disjoint_span_add (by omega) (by omega) (by omega)
  | cap idx c =>
  by_cases hbad : idx ≥ getField s.mem p .capSlotNumber
  · simp only [setStep, SetOp.code, ipcSetMsgCap, read_bind, hbad, if_true, pure_apply,
      Option.some.injEq] at h
    exact .inl h.symm
  simp only [setStep, SetOp.code, ipcSetMsgCap, read_bind, hbad, if_false, write_bind, pure_apply,
    Option.some.injEq] at h
  subst h
  have hidx : idx.toNat < caps.toNat := by
    rw [hc.capSlotNumber_eq] at hbad
    exact BitVec.not_le.mp hbad
  have harea : SetOp.area m0 p dataLen (.cap idx c) = slotArea s.mem p idx := by
    rw [SetOp.area, h0.slotArea_eq, hc.slotArea_eq]
  rw [harea]
  refine .inr ⟨?_, fun x hx => Mem.write_of_notMem _ hx⟩
  rw [headerArea_eq, hc.slotArea_eq]
  exact disjoint_span_add (by omega) (by omega) (by omega)

section

variable {s : Client} (hc : Created s.mem p icb dataLen caps)
  (hfit : IPC_MSG_SIZE + dataLen.toNat + 8 * caps.toNat ≤ 2 ^ 64)

include hc hfit

theorem setStep_created {s' : Client} {op : SetOp} (h : setStep p s op = some s') :
    Created s'.mem p icb dataLen caps := by
  obtain rfl | ⟨hdisj, hframe⟩ := setStep_frame hc hc hfit h
  · exact hc
  · exact hc.congr fun x hx => hframe x (Set.disjoint_left.mp hdisj hx)

/-- **Every write of a run stays in its part.** -/
theorem writes_of_fits (ops : List SetOp) :
    ∀ t ∈ trace (setStep p) s ops, ∀ x, x ∉ t.act.area s.mem p dataLen →
      t.post.mem x = t.pre.mem x := by
  intro t ht
  have hinv := trace_inv (I := fun s' => Created s'.mem p icb dataLen caps) (C := fun _ _ => True)
    (fun _ _ _ hI _ hstep => setStep_created hI hfit hstep) ops s hc (fun _ _ => trivial) t ht
  obtain hsame | ⟨_, hframe⟩ := setStep_frame hinv.1 hc hfit (trace_step ops s ht)
  · intro x _
    rw [hsame]
  · exact hframe

end

end Parts

/-- **The parts of a message**: wherever `ipc_create_msg` gives a message it is laid out well and
every later write stays in its part, exactly if there are fewer than `2 ^ 61` slots or there is no
message. -/
theorem ipc_msg_layout_iff (s : Client) (icb : Addr) (dataLen caps : BitVec 64)
    (hlen : IPC_MSG_SIZE ≤ (s.icbs icb).sharedBufLen.toNat) :
    (∀ p s', ipcCreateMsg icb dataLen caps s = .returned (some p) s' →
      MsgOk s' icb p dataLen caps) ↔
    caps.toNat < 2 ^ 61 ∨ ¬ s.Accepts icb dataLen caps := by
  constructor
  · intro h
    by_contra hnot
    rw [not_or, not_lt, not_not] at hnot
    obtain ⟨hcaps, i, ha, hlock, hlong⟩ := hnot
    obtain ⟨s', _, _, hres⟩ := ipcCreateMsg_attached dataLen caps ha hlock
    rw [if_neg hlong] at hres
    exact not_layout_of_wraps hcaps (h _ s' hres.1).layout
  intro h p s' hret
  obtain ⟨i, ha, hlock, hlong, rfl, hicbs, _, hc⟩ := ipcCreateMsg_some hret
  have hcaps : caps.toNat < 2 ^ 61 := h.resolve_right fun hno => hno ⟨i, ha, hlock, hlong⟩
  have hfit := not_tooLong (attached_len ha hlen) hcaps hlong
  refine ⟨?_, writes_of_fits hc (le_trans hfit (le_of_lt i.sharedBufLen.isLt))⟩
  rw [hicbs, update_self]
  exact layout_of_fits hc hfit

/-- A client with a connection to the file system, at any `ipc_struct`. -/
def connectedClient : Client where
  mem _ := 0
  user _ := 0
  icbs _ := ⟨5, 0x500000000000, IPC_PER_SHM_SIZE, false, .fsManager⟩
  registrations := []
  replies := []
  connectedProcmgr := false
  connectProcmgrLock := false
  fdDic _ := none
  capStructs := []

/-- A request with one slot. -/
theorem ipc_msg_layout_openat :
    ∃ p s', ipcCreateMsg 0 632 1 connectedClient = .returned (some p) s' ∧ MsgOk s' 0 p 632 1 := by
  have ha : connectedClient.attached 0 = some (connectedClient.icbs 0) := rfl
  obtain ⟨s', _, _, hres⟩ := ipcCreateMsg_attached 632 1 ha rfl
  exact ⟨_, s', hres.1, (ipc_msg_layout_iff connectedClient 0 632 1 (by decide)).mpr
    (.inl (by decide)) _ _ hres.1⟩

/-- **`2 ^ 61` slots are accepted by a buffer of one page**, and slot `2 ^ 61 - 6` is the field
`data_len` of the header. -/
theorem ipc_msg_slots_wrap :
    ∃ p s', ipcCreateMsg 0 0 0x2000000000000000#64 connectedClient = .returned (some p) s' ∧
      ¬ MsgOk s' 0 p 0 0x2000000000000000#64 ∧
      0x1ffffffffffffffa#64 < getField s'.mem p .capSlotNumber ∧
      ipcGetMsgCapPtr s'.mem p 0x1ffffffffffffffa = fieldAddr p .dataLen := by
  have ha : connectedClient.attached 0 = some (connectedClient.icbs 0) := rfl
  obtain ⟨s', _, _, hres⟩ := ipcCreateMsg_attached 0 0x2000000000000000#64 ha rfl
  have hc : Created s'.mem (connectedClient.icbs 0).sharedBuf 0 0 0x2000000000000000#64 := by
    rw [hres.2]
    exact created_initHeader _ _ _ _ _
  refine ⟨_, s', hres.1, fun h => not_layout_of_wraps (by decide) h.layout, ?_, ?_⟩
  · rw [hc.capSlotNumber_eq]
    decide
  · rw [hc.slot]
    decide

end ChCore.Musl
