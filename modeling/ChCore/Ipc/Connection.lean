/-
  File: ChCore/Ipc/Connection.lean
  Subject: IPC calls: a client thread migrates to the handler thread of a connection and back
    (`kernel/ipc/connection.c`).

  A connection names its handler thread; the handler thread has a configuration block with the
  lock `ipc_lock` and the connection being served. `sys_ipc_call` takes the lock, sends
  capabilities and switches to the handler; `sys_ipc_return` of the handler releases the lock and
  switches back. The steps of a run are the accesses of these system calls to the shared memory:
  other threads may run between any two of them, on other CPUs.

  * `ipc_error_lock_iff` -- for which inputs an error leaves every lock as it was.

  Handler threads are shadow threads: they run only when a client migrates to them. What the
  handler's context is set to (entry, stack, arguments) and the scheduling context are left out.
-/
import ChCore.Object.CapabilityCalls

namespace ChCore.Ipc

open Lib Capability Function Option

/-! ## 1. The state -/

abbrev ThreadPtr := Nat

abbrev ConfigPtr := Nat

/-- `struct ipc_server_handler_config`. -/
structure HandlerConfig where
  ipcLock : Bool
  activeConn : Option ObjPtr
  deriving DecidableEq, Repr

/-- `struct ipc_connection`, from its registration on. -/
structure Connection where
  currentClientThread : Option ThreadPtr
  serverHandlerThread : ThreadPtr
  deriving DecidableEq, Repr

/-- The system call a client is in. -/
inductive Sys where
  | call
  | sendCap
  deriving DecidableEq, Repr

/-- How far a client is in `sys_ipc_call` or `sys_ipc_send_cap`. -/
inductive Stage where
  /-- handler and configuration read, before `try_lock` -/
  | looked
  /-- lock taken, waiting for the kernel stack of the handler -/
  | locked
  /-- the stack is free -/
  | clear
  /-- the capabilities are sent, before `thread_migrate_to_server` -/
  | sent
  deriving DecidableEq, Repr

def Stage.holds : Stage → Bool
  | .looked => false
  | _ => true

/-- Where a thread is. -/
inductive Phase where
  | user
  /-- a shadow thread that nobody has migrated to -/
  | parked
  | calling (sys : Sys) (stage : Stage) (conn : ObjPtr) (target : ThreadPtr) (cfg : ConfigPtr)
  /-- migrated: the client waits for the handler -/
  | waiting (conn : ObjPtr) (target : ThreadPtr)
  /-- in `sys_ipc_return`, with `active_conn` and the client read -/
  | returning (cfg : ConfigPtr) (client : ThreadPtr) (value : Int)
  /-- in `sys_ipc_return`, after `unlock` -/
  | leaving (client : ThreadPtr) (value : Int)
  deriving DecidableEq, Repr

/-- The thread is in the kernel, on its kernel stack. -/
def Phase.inKernel : Phase → Bool
  | .calling .. => true
  | .returning .. => true
  | .leaving .. => true
  | _ => false

/-- The shared state. `group` is the cap_group of a thread, `config` its `general_ipc_config`,
    `result` the value its last system call returned. `client` and `returned` are not in the
    memory of the kernel: the thread a handler was last migrated to by, and the value it last
    passed to `sys_ipc_return`. -/
structure State where
  caps : Caps
  group : ThreadPtr → GroupPtr
  shadow : ThreadPtr → Bool
  config : ThreadPtr → Option ConfigPtr
  configs : ConfigPtr → Option HandlerConfig
  conns : ObjPtr → Option Connection
  phase : ThreadPtr → Phase
  result : ThreadPtr → Option Int
  nextConfig : ConfigPtr
  client : ThreadPtr → Option ThreadPtr
  returned : ThreadPtr → Option Int

def State.init (group : ThreadPtr → GroupPtr) (shadow : ThreadPtr → Bool) : State where
  caps := Caps.init
  group := group
  shadow := shadow
  config _ := none
  configs _ := none
  conns _ := none
  phase t := if shadow t then .parked else .user
  result _ := none
  nextConfig := 0
  client _ := none
  returned _ := none

variable (s : State) (t : ThreadPtr)

def State.setPhase (p : Phase) : State :=
  { s with phase := update s.phase t p }

def State.setConfig (cfg : ConfigPtr) (hc : HandlerConfig) : State :=
  { s with configs := update s.configs cfg (some hc) }

def State.setResult (r : Int) : State :=
  { s with result := update s.result t (some r) }

/-! ## 2. Sending capabilities -/

/-- `ipc_msg_t` of a client: whether it lies below `KBASE`, and the ids in its capability slots. -/
structure IpcMsg where
  inUser : Bool
  capSlots : Nat → Int

/-- The loop of `ipc_send_cap`. Its `dest_cap` is a `u64`, so the test `dest_cap < 0` never holds
    and an error code of `cap_copy` is sent like an id. -/
def sendLoop (env : Env) (src dst : GroupPtr) : List Int → Caps → Option Caps
  | [], caps => some caps
  | slot :: slots, caps =>
    match capCopy env caps src dst slot none with
    | none => none
    | some (_, caps') => sendLoop env src dst slots caps'

variable (env : Env) (buf : Bool)

/-- `ipc_send_cap`. `buf` says whether the `kmalloc` of its buffer succeeds; `copy_from_user` and
    `copy_to_user` return 0 or stop the kernel. -/
def ipcSendCap (caps : Caps) (src dst : GroupPtr) (msg : IpcMsg)
    (capNum : Nat) : Option (Except Int Caps) :=
  if capNum = 0 then some (.ok caps)
  else if capNum ≥ 8 then some (.error (-EINVAL))
  else if !msg.inUser then none
  else if !buf then some (.error (-ENOMEM))
  else (sendLoop env src dst ((List.range capNum).map msg.capSlots) caps).map .ok

/-- `ipc_send_cap_to_client`: one capability or none is sent back. -/
def ipcSendCapToClient (caps : Caps) (src dst : GroupPtr) (capNum : Nat)
    (retCap : Int) : Option Caps :=
  if capNum = 1 then
    match capCopy env caps src dst retCap none with
    | none => none
    -- `BUG_ON(ret_cap < 0)`
    | some (r, caps') => if r < 0 then none else some caps'
  else some caps

/-! ## 3. The steps -/

/-- `obj_get` of the connection, and the first reads of `grab_ipc_lock`. -/
def lookUp (sys : Sys) (env : Env) (connCap : Int) : Option State :=
  match s.phase t, (getOpaque env s.caps (s.group t) connCap (some .connection)).1 with
  | .user, some (some conn, caps) =>
    match s.conns conn with
    | none => none
    | some c =>
      match s.config c.serverHandlerThread with
      | none => none
      | some cfg =>
        some ({ s with caps := caps }.setPhase t
          (.calling sys .looked conn c.serverHandlerThread cfg))
  | _, _ => none

/-- `try_lock` of `grab_ipc_lock`. A refused `sys_ipc_call` puts its connection back, a refused
    `sys_ipc_send_cap` does not. -/
def tryLock : Option State :=
  match s.phase t with
  | .calling sys .looked conn target cfg =>
    match s.configs cfg with
    | none => none
    | some hc =>
      if hc.ipcLock then
        match sys with
        | .call => (capStep s.caps (.put conn)).map fun caps =>
          ({ s with caps := caps }.setPhase t .user).setResult t (-EAGAIN)
        | .sendCap => some ((s.setPhase t .user).setResult t (-EAGAIN))
      else
        some ((s.setConfig cfg { hc with ipcLock := true }).setPhase t
          (.calling sys .locked conn target cfg))
  | _ => none

/-- The end of the wait for `KS_FREE`. -/
def stackFree : Option State :=
  match s.phase t with
  | .calling sys .locked conn target cfg =>
    if (s.phase target).inKernel then none
    else some (s.setPhase t (.calling sys .clear conn target cfg))
  | _ => none

/-- The capability transfer of `sys_ipc_call` (`msg = none` is the fast path). On an error the call
    puts its connection back and returns. -/
def sendCaps (msg : Option IpcMsg) (capNum : Nat) : Option State :=
  match s.phase t with
  | .calling .call .clear conn target cfg =>
    match msg with
    | none => some (s.setPhase t (.calling .call .sent conn target cfg))
    | some m =>
      match ipcSendCap env buf s.caps (s.group t) (s.group target) m capNum with
      | none => none
      | some (.error r) =>
        (capStep s.caps (.put conn)).map fun caps =>
          ({ s with caps := caps }.setPhase t .user).setResult t r
      | some (.ok caps) =>
        some ({ s with caps := caps }.setPhase t (.calling .call .sent conn target cfg))
  | _ => none

/-- The capability transfer of `sys_ipc_send_cap` (`transfer_cap`). On an error the call returns. -/
def transferCap (sendCap : Int) : Option State :=
  match s.phase t with
  | .calling .sendCap .clear conn target cfg =>
    match capCopy env s.caps (s.group t) (s.group target) sendCap none with
    | none => none
    | some (r, caps) =>
      if r < 0 then some (({ s with caps := caps }.setPhase t .user).setResult t r)
      else some ({ s with caps := caps }.setPhase t (.calling .sendCap .sent conn target cfg))
  | _ => none

/-- `thread_migrate_to_server`: it reads the handler and its configuration again. -/
def threadMigrateToServer (conn : ObjPtr) : Option State :=
  match s.conns conn with
  | none => none
  | some c =>
    let target := c.serverHandlerThread
    match s.config target with
    | none => none
    | some cfg =>
      match s.configs cfg with
      | none => none
      | some hc =>
        (capStep s.caps (.put conn)).map fun caps =>
          { ((s.setConfig cfg { hc with activeConn := some conn }).setPhase t
              (.waiting conn target)).setPhase target .user with
            caps := caps
            conns := update s.conns conn (some { c with currentClientThread := some t })
            client := update s.client target (some t) }

def migrate : Option State :=
  match s.phase t with
  | .calling _ .sent conn _ _ => threadMigrateToServer s t conn
  | _ => none

/-- `sys_ipc_return` up to the release of the lock. -/
def readActive (h : ThreadPtr) (value : Int) (env : Env) (capNum : Nat) (retCap : Int) :
    Option State :=
  match s.phase h, s.config h with
  | .user, some cfg =>
    match s.configs cfg with
    | none => none
    | some hc =>
      -- `BUG_ON(conn == NULL)`
      match hc.activeConn with
      | none => none
      | some conn =>
        match s.conns conn with
        | none => none
        | some c =>
          match c.currentClientThread with
          | none => none
          | some client =>
            (ipcSendCapToClient env s.caps (s.group h) (s.group client) capNum retCap).map
              fun caps =>
                { (s.setConfig cfg { hc with activeConn := none }).setPhase h
                    (.returning cfg client value) with
                  caps := caps
                  returned := update s.returned h (some value) }
  | _, _ => none

/-- `unlock(&handler_config->ipc_lock)`. -/
def unlock (h : ThreadPtr) : Option State :=
  match s.phase h with
  | .returning cfg client value =>
    match s.configs cfg with
    | none => none
    | some hc =>
      some ((s.setConfig cfg { hc with ipcLock := false }).setPhase h (.leaving client value))
  | _ => none

/-- `thread_migrate_to_client`. -/
def resume (h : ThreadPtr) : Option State :=
  match s.phase h with
  | .leaving client value =>
    some (((s.setResult client value).setPhase client .user).setPhase h .parked)
  | _ => none

/-- `sys_ipc_register_cb_return` for a connection that is being built: the handler thread gets a
    new configuration block, whose `active_conn` is what `kmalloc` left there (`active`). -/
def register (h : ThreadPtr) (conn : ObjPtr) (active : Option ObjPtr) : Option State :=
  match s.conns conn with
  | some _ => none
  | none =>
    if s.shadow h then
      some { s with
        config := update s.config h (some s.nextConfig)
        configs := update s.configs s.nextConfig (some ⟨false, active⟩)
        conns := update s.conns conn (some ⟨none, h⟩)
        nextConfig := s.nextConfig + 1 }
    else none

inductive Act where
  | cap (a : CapAct)
  | register (h : ThreadPtr) (conn : ObjPtr) (active : Option ObjPtr)
  | lookUp (t : ThreadPtr) (sys : Sys) (env : Env) (connCap : Int)
  | tryLock (t : ThreadPtr)
  | stackFree (t : ThreadPtr)
  | sendCaps (t : ThreadPtr) (env : Env) (buf : Bool) (msg : Option IpcMsg) (capNum : Nat)
  | transferCap (t : ThreadPtr) (env : Env) (sendCap : Int)
  | migrate (t : ThreadPtr)
  | readActive (h : ThreadPtr) (value : Int) (env : Env) (capNum : Nat) (retCap : Int)
  | unlock (h : ThreadPtr)
  | resume (h : ThreadPtr)

/-- **One step** of a thread, or any other capability call in the kernel. -/
def step : Act → Option State
  | .cap a => (capStep s.caps a).map fun caps => { s with caps := caps }
  | .register h conn active => register s h conn active
  | .lookUp t sys env connCap => lookUp s t sys env connCap
  | .tryLock t => tryLock s t
  | .stackFree t => stackFree s t
  | .sendCaps t env buf msg capNum => sendCaps s t env buf msg capNum
  | .transferCap t env sendCap => transferCap s t env sendCap
  | .migrate t => migrate s t
  | .readActive h value env capNum retCap => readActive s h value env capNum retCap
  | .unlock h => unlock s h
  | .resume h => resume s h

/-! ## 4. The system calls -/

/-- `grab_ipc_lock`. The wait for the kernel stack changes nothing. -/
def grabIpcLock (conn : ObjPtr) : Option (Int × State) :=
  match s.conns conn with
  | none => none
  | some c =>
    match s.config c.serverHandlerThread with
    | none => none
    | some cfg =>
      match s.configs cfg with
      | none => none
      | some hc =>
        if hc.ipcLock then some (-EAGAIN, s)
        else some (0, s.setConfig cfg { hc with ipcLock := true })

variable (connCap : Int)

/-- `sys_ipc_call`: the error code it returns (`none` = it has switched to the handler). -/
def sysIpcCall (msg : Option IpcMsg) (capNum : Nat) : Option (Option Int × State) :=
  match (getOpaque env s.caps (s.group t) connCap (some .connection)).1 with
  | some (some conn, caps) =>
    match grabIpcLock { s with caps := caps } conn with
    | none => none
    | some (r, s) =>
      if r ≠ 0 then
        (capStep s.caps (.put conn)).map fun caps => (some r, { s with caps := caps })
      else
        match msg, s.conns conn with
        | none, _ => (threadMigrateToServer s t conn).map fun s => (none, s)
        | some m, some c =>
          match ipcSendCap env buf s.caps (s.group t) (s.group c.serverHandlerThread) m capNum with
          | none => none
          | some (.error r) =>
            (capStep s.caps (.put conn)).map fun caps => (some r, { s with caps := caps })
          | some (.ok caps) =>
            (threadMigrateToServer { s with caps := caps } t conn).map fun s => (none, s)
        | some _, none => none
  -- `BUG_ON(!conn)`
  | _ => none

/-- `sys_ipc_send_cap`: the error code it returns (`none` = it has switched to the handler). -/
def sysIpcSendCap (connCap sendCap : Int) : Option (Option Int × State) :=
  match (getOpaque env s.caps (s.group t) connCap (some .connection)).1 with
  | none => none
  | some (none, caps) => some (some (-ECAPBILITY), { s with caps := caps })
  | some (some conn, caps) =>
    match grabIpcLock { s with caps := caps } conn with
    | none => none
    | some (r, s) =>
      if r ≠ 0 then some (some r, s)
      else
        match s.conns conn with
        | none => none
        | some c =>
          match capCopy env s.caps (s.group t) (s.group c.serverHandlerThread) sendCap none with
          | none => none
          | some (cap, caps) =>
            if cap < 0 then some (some cap, { s with caps := caps })
            else (threadMigrateToServer { s with caps := caps } t conn).map fun s => (none, s)

/-- The lock of a handler thread, if it has one. -/
def handlerLock (h : ThreadPtr) : Option Bool :=
  (s.config h).bind fun cfg => (s.configs cfg).map (·.ipcLock)

/-! ## 5. The capabilities stay in order -/

theorem sendLoop_inv {env : Env} {src dst : GroupPtr} :
    ∀ {slots : List Int} {caps caps' : Caps}, CapInv caps →
      sendLoop env src dst slots caps = some caps' → CapInv caps'
  | [], _, _, h, hs => by
    cases hs
    exact h
  | slot :: slots, caps, caps', h, hs => by
    unfold sendLoop at hs
    split at hs
    · cases hs
    · rename_i r caps1 hc
      exact sendLoop_inv (inv_capCopy h hc) hs

theorem ipcSendCap_inv {env : Env} {buf : Bool} {caps caps' : Caps} {src dst : GroupPtr}
    {msg : IpcMsg} {capNum : Nat} (h : CapInv caps)
    (hs : ipcSendCap env buf caps src dst msg capNum = some (.ok caps')) : CapInv caps' := by
  unfold ipcSendCap at hs
  split at hs
  · cases hs
    exact h
  split at hs
  · cases hs
  split at hs
  · cases hs
  split at hs
  · cases hs
  · obtain ⟨caps1, hl, he⟩ := map_eq_some_iff.mp hs
    cases he
    exact sendLoop_inv h hl

theorem ipcSendCapToClient_inv {env : Env} {caps caps' : Caps} {src dst : GroupPtr} {capNum : Nat}
    {retCap : Int} (h : CapInv caps)
    (hs : ipcSendCapToClient env caps src dst capNum retCap = some caps') : CapInv caps' := by
  unfold ipcSendCapToClient at hs
  split at hs
  · split at hs
    · cases hs
    rename_i r caps1 hc
    split at hs
    · cases hs
    · cases hs
      exact inv_capCopy h hc
  · cases hs
    exact h

theorem migrate_caps {s s' : State} {t : ThreadPtr} {conn : ObjPtr}
    (hs : threadMigrateToServer s t conn = some s') : capStep s.caps (.put conn) = some s'.caps := by
  unfold threadMigrateToServer at hs
  split at hs
  · cases hs
  simp only at hs
  split at hs
  · cases hs
  split at hs
  · cases hs
  · obtain ⟨caps, hc, rfl⟩ := map_eq_some_iff.mp hs
    exact hc

section Steps

variable {s s' : State} {t : ThreadPtr} {conn : ObjPtr} {env : Env}

theorem register_caps {active : Option ObjPtr} (hs : register s t conn active = some s') :
    s'.caps = s.caps := by
  unfold register at hs
  split at hs
  · cases hs
  split at hs
  · cases hs
    rfl
  · cases hs

theorem stackFree_caps (hs : stackFree s t = some s') : s'.caps = s.caps := by
  unfold stackFree at hs
  split at hs
  · split at hs
    · cases hs
    · cases hs
      rfl
  · cases hs

theorem unlock_caps (hs : unlock s t = some s') : s'.caps = s.caps := by
  unfold unlock at hs
  split at hs
  · split at hs
    · cases hs
    · cases hs
      rfl
  · cases hs

theorem resume_caps (hs : resume s t = some s') : s'.caps = s.caps := by
  unfold resume at hs
  split at hs
  · cases hs
    rfl
  · cases hs

variable (h : CapInv s.caps)

include h

theorem lookUp_capInv {sys : Sys} {connCap : Int} (hs : lookUp s t sys env connCap = some s') :
    CapInv s'.caps := by
  unfold lookUp at hs
  split at hs
  · rename_i hget
    split at hs
    · cases hs
    split at hs
    · cases hs
    · cases hs
      exact inv_getOpaque h hget
  · cases hs

theorem tryLock_capInv (hs : tryLock s t = some s') : CapInv s'.caps := by
  unfold tryLock at hs
  split at hs
  · split at hs
    · cases hs
    split at hs
    · split at hs
      · obtain ⟨caps, hc, rfl⟩ := map_eq_some_iff.mp hs
        exact capStep_inv h hc
      · cases hs
        exact h
    · cases hs
      exact h
  · cases hs

theorem sendCaps_capInv {buf : Bool} {msg : Option IpcMsg} {capNum : Nat}
    (hs : sendCaps s t env buf msg capNum = some s') : CapInv s'.caps := by
  unfold sendCaps at hs
  split at hs
  · split at hs
    · cases hs
      exact h
    split at hs
    · cases hs
    · obtain ⟨caps, hc, rfl⟩ := map_eq_some_iff.mp hs
      exact capStep_inv h hc
    · rename_i hsend
      cases hs
      exact ipcSendCap_inv h hsend
  · cases hs

theorem transferCap_capInv {sendCap : Int} (hs : transferCap s t env sendCap = some s') :
    CapInv s'.caps := by
  unfold transferCap at hs
  split at hs
  · split at hs
    · cases hs
    rename_i hc
    split at hs
    · cases hs
      exact inv_capCopy h hc
    · cases hs
      exact inv_capCopy h hc
  · cases hs

theorem readActive_capInv {value retCap : Int} {capNum : Nat}
    (hs : readActive s t value env capNum retCap = some s') : CapInv s'.caps := by
  unfold readActive at hs
  split at hs
  · split at hs
    · cases hs
    split at hs
    · cases hs
    split at hs
    · cases hs
    split at hs
    · cases hs
    · obtain ⟨caps, hc, rfl⟩ := map_eq_some_iff.mp hs
      exact ipcSendCapToClient_inv h hc
  · cases hs

/-- **Every step keeps the capability invariant.** -/
theorem step_capInv {a : Act} (hs : step s a = some s') : CapInv s'.caps := by
  cases a with
  | cap a =>
    obtain ⟨caps, hc, rfl⟩ := map_eq_some_iff.mp hs
    exact capStep_inv h hc
  | register t conn active => exact register_caps hs ▸ h
  | lookUp t sys env connCap => exact lookUp_capInv h hs
  | tryLock t => exact tryLock_capInv h hs
  | stackFree t => exact stackFree_caps hs ▸ h
  | sendCaps t env buf msg capNum => exact sendCaps_capInv h hs
  | transferCap t env sendCap => exact transferCap_capInv h hs
  | migrate t =>
    simp only [step, migrate] at hs
    split at hs
    · exact capStep_inv h (migrate_caps hs)
    · cases hs
  | readActive t value env capNum retCap => exact readActive_capInv h hs
  | unlock t => exact unlock_caps hs ▸ h
  | resume t => exact resume_caps hs ▸ h

end Steps

theorem reachable_capInv {group : ThreadPtr → GroupPtr} {shadow : ThreadPtr → Bool} {as : List Act}
    {s : State} (hrun : exec step (State.init group shadow) as = some s) : CapInv s.caps :=
  exec_inv (I := fun s => CapInv s.caps) (fun _ _ _ h hs => step_capInv h hs) as _ s capInv_init hrun

/-! ## 6. Errors and the lock -/

/-- The id `connCap` of the thread's cap_group names the connection `conn`. -/
def NamesConn (conn : ObjPtr) : Prop :=
  ∃ table p sl ob, s.caps.groups (s.group t) = some table ∧ getSlot table connCap = some p ∧
    s.caps.slots p = some sl ∧ sl.object = conn ∧ s.caps.objects conn = some ob ∧
    ob.type = .connection

/-- The id names a connection, with its handler thread and that thread's configuration block. -/
structure Reaches (s : State) (t : ThreadPtr) (connCap : Int) (conn : ObjPtr) (c : Connection)
    (cfg : ConfigPtr) (hc : HandlerConfig) : Prop where
  names : NamesConn s t connCap conn
  conn : s.conns conn = some c
  config : s.config c.serverHandlerThread = some cfg
  block : s.configs cfg = some hc

/-- What `sys_ipc_call` meets when it forgets the lock: the lock was free, and the capability
    transfer fails: eight capabilities or more, or no memory for its buffer. -/
def CallLeaks (buf : Bool) (msg : Option IpcMsg) (capNum : Nat) : Prop :=
  ∃ conn c cfg hc m, Reaches s t connCap conn c cfg hc ∧ hc.ipcLock = false ∧ msg = some m ∧
    capNum ≠ 0 ∧ (8 ≤ capNum ∨ m.inUser = true ∧ buf = false)

/-- What `sys_ipc_send_cap` meets when it forgets the lock: the lock was free, and `cap_copy` of the
    capability returns an error. -/
def SendLeaks (connCap sendCap : Int) : Prop :=
  ∃ conn c cfg hc tsrc tdst, Reaches s t connCap conn c cfg hc ∧ hc.ipcLock = false ∧
    s.caps.groups (s.group t) = some tsrc ∧
    s.caps.groups (s.group c.serverHandlerThread) = some tdst ∧ CopyRefused env tsrc tdst sendCap

/-- What `obj_get` of a connection leaves: the object with a reference, the tables as they were. -/
structure GotConn (s : State) (t : ThreadPtr) (connCap : Int) (conn : ObjPtr) (caps : Caps) :
    Prop where
  names : NamesConn s t connCap conn
  inv : CapInv caps
  held : conn ∈ caps.refs
  groups : caps.groups = s.caps.groups

section Errors

variable {s s' : State} {t : ThreadPtr} {env : Env} {connCap : Int}

variable {conn : ObjPtr} {capNum : Nat}

variable {caps : Caps}

theorem getConn_spec (h : CapInv s.caps) (hget : (getOpaque env s.caps (s.group t) connCap (some .connection)).1 = some (some conn, caps)) :
    GotConn s t connCap conn caps := by
  have hinv := inv_getOpaque h hget
  rcases getOpaque_cases h hget with
    ⟨hres, _⟩ | ⟨n, table, p, sl, ob, x, rfl, hg, hcell, hsl, hob, hty, hres, _, rfl⟩
  · cases hres
  cases hres
  have htype : ob.type = .connection := by
    rcases hty with hty | hty
    · cases hty
    · exact (some.inj hty).symm
  exact ⟨⟨table, p, sl, ob, hg, (getSlot_eq_some (h.wf hg)).mpr ⟨n, rfl, hcell⟩, hsl, rfl, hob,
    htype⟩, hinv, List.mem_cons_self, rfl⟩

theorem getConn_of_names (h : CapInv s.caps) (hn : NamesConn s t connCap conn) :
    ∃ caps, (getOpaque env s.caps (s.group t) connCap (some .connection)).1 =
      some (some conn, caps) := by
  obtain ⟨table, p, sl, ob, hg, hp, hsl, rfl, hob, hty⟩ := hn
  obtain ⟨n, rfl, hcell⟩ := (getSlot_eq_some (h.wf hg)).mp hp
  rw [getOpaque_used h hg hcell hsl hob, if_pos (.inr (by rw [hty]))]
  exact ⟨_, rfl⟩

theorem GotConn.put (hg : GotConn s t connCap conn caps) :
    ∃ caps', capStep caps (.put conn) = some caps' := by
  obtain ⟨caps', hput⟩ := objPut_total hg.inv hg.held
  exact ⟨caps', (if_pos hg.held).trans hput⟩

variable {c : Connection} {cfg : ConfigPtr} {hc : HandlerConfig}

theorem Reaches.grab (hr : Reaches s t connCap conn c cfg hc) (hl : hc.ipcLock = false) :
    grabIpcLock { s with caps := caps } conn =
      some (0, { s.setConfig cfg { hc with ipcLock := true } with caps := caps }) := by
  simp [grabIpcLock, State.setConfig, hr.conn, hr.config, hr.block, hl]

/-- A lock that was free and is taken is not as it was. -/
theorem Reaches.taken (hr : Reaches s t connCap conn c cfg hc) (hl : hc.ipcLock = false)
    (caps : Caps) : handlerLock { s.setConfig cfg { hc with ipcLock := true } with caps := caps }
      c.serverHandlerThread ≠ handlerLock s c.serverHandlerThread := by
  simp [handlerLock, State.setConfig, hr.config, hr.block, hl]

variable {buf : Bool}

theorem ipcSendCap_error_iff {src dst : GroupPtr} {m : IpcMsg} :
    (∃ r, ipcSendCap env buf caps src dst m capNum = some (.error r)) ↔
      capNum ≠ 0 ∧ (8 ≤ capNum ∨ m.inUser = true ∧ buf = false) := by
  unfold ipcSendCap
  by_cases h0 : capNum = 0
  · rw [if_pos h0]
    exact ⟨fun ⟨_, h⟩ => (by cases h), fun h => absurd h0 h.1⟩
  rw [if_neg h0]
  by_cases h8 : capNum ≥ 8
  · rw [if_pos h8]
    exact ⟨fun _ => ⟨h0, .inl h8⟩, fun _ => ⟨_, rfl⟩⟩
  rw [if_neg h8]
  cases hu : m.inUser with
  | false =>
    refine ⟨fun ⟨_, h⟩ => (by cases h), fun ⟨_, h⟩ => ?_⟩
    rcases h with h | ⟨h, _⟩
    · exact absurd h h8
    · cases h
  | true =>
  cases hb : buf with
  | false => exact ⟨fun _ => ⟨h0, .inr ⟨rfl, rfl⟩⟩, fun _ => ⟨_, rfl⟩⟩
  | true =>
  refine ⟨fun ⟨r, h⟩ => ?_, fun ⟨_, h⟩ => ?_⟩
  · obtain ⟨_, _, he⟩ := map_eq_some_iff.mp h
    cases he
  · rcases h with h | ⟨_, h⟩
    · exact absurd h h8
    · cases h

theorem grabIpcLock_cases {r : Int} (hg : grabIpcLock s conn = some (r, s')) :
    ∃ c cfg hc, s.conns conn = some c ∧ s.config c.serverHandlerThread = some cfg ∧
      s.configs cfg = some hc ∧ (hc.ipcLock = true ∧ r = -EAGAIN ∧ s' = s ∨
        hc.ipcLock = false ∧ r = 0 ∧ s' = s.setConfig cfg { hc with ipcLock := true }) := by
  unfold grabIpcLock at hg
  split at hg
  · cases hg
  rename_i c hc
  split at hg
  · cases hg
  rename_i cfg hcfg
  split at hg
  · cases hg
  rename_i hcb hb
  refine ⟨c, cfg, hcb, hc, hcfg, hb, ?_⟩
  split at hg
  · rename_i hl
    cases hg
    exact .inl ⟨hl, rfl, rfl⟩
  · rename_i hl
    cases hg
    exact .inr ⟨Bool.eq_false_iff.mpr hl, rfl, rfl⟩

/-- An error of `sys_ipc_call` leaves the locks as they were, or the call leaks its lock. -/
theorem sysIpcCall_error (h : CapInv s.caps) {msg : Option IpcMsg} {r : Int}
    (hs : sysIpcCall s t env buf connCap msg capNum = some (some r, s')) :
    (∀ h, handlerLock s' h = handlerLock s h) ∨ CallLeaks s t connCap buf msg capNum := by
  unfold sysIpcCall at hs
  split at hs
  · rename_i conn caps hget
    have hgot := getConn_spec h hget
    split at hs
    · cases hs
    rename_i r1 s1 hgrab
    obtain ⟨c, cfg, hc, hconn, hcfg, hb, hgrab⟩ := grabIpcLock_cases hgrab
    rcases hgrab with ⟨_, rfl, rfl⟩ | ⟨hl, rfl, rfl⟩
    · obtain ⟨caps', _, he⟩ := map_eq_some_iff.mp hs
      cases he
      exact .inl fun _ => rfl
    rw [if_neg (fun hne => hne rfl)] at hs
    split at hs
    · obtain ⟨_, _, he⟩ := map_eq_some_iff.mp hs
      cases he
    · rename_i m c' hc'
      split at hs
      · cases hs
      · rename_i r' herr
        have hfail := ipcSendCap_error_iff.mp ⟨r', herr⟩
        exact .inr ⟨conn, c, cfg, hc, m, ⟨hgot.names, hconn, hcfg, hb⟩, hl, rfl, hfail⟩
      · obtain ⟨_, _, he⟩ := map_eq_some_iff.mp hs
        cases he
    · cases hs
  · cases hs

/-- A call that leaks does return an error, with the lock taken. -/
theorem CallLeaks.error (h : CapInv s.caps) {msg : Option IpcMsg}
    (hleak : CallLeaks s t connCap buf msg capNum) :
    ∃ r s' h, sysIpcCall s t env buf connCap msg capNum = some (some r, s') ∧
      handlerLock s' h ≠ handlerLock s h := by
  obtain ⟨conn, c, cfg, hc, m, hr, hl, rfl, hfail⟩ := hleak
  obtain ⟨caps, hget⟩ := @getConn_of_names s t env connCap conn h hr.names
  obtain ⟨r, herr⟩ : ∃ r, ipcSendCap env buf caps (s.group t) (s.group c.serverHandlerThread) m
      capNum = some (.error r) := ipcSendCap_error_iff.mpr hfail
  obtain ⟨caps', hput⟩ := (getConn_spec h hget).put
  refine ⟨r, _, _, ?_, hr.taken hl caps'⟩
  simp [sysIpcCall, hget, hr.grab hl, State.setConfig, hr.conn, herr, hput]

/-- An error of `sys_ipc_send_cap` leaves the locks as they were, or the call leaks its lock. -/
theorem sysIpcSendCap_error (h : CapInv s.caps) {sendCap r : Int}
    (hs : sysIpcSendCap s t env connCap sendCap = some (some r, s')) :
    (∀ h, handlerLock s' h = handlerLock s h) ∨ SendLeaks s t env connCap sendCap := by
  unfold sysIpcSendCap at hs
  split at hs
  · cases hs
  · cases hs
    exact .inl fun _ => rfl
  rename_i conn caps hget
  have hgot := getConn_spec h hget
  split at hs
  · cases hs
  rename_i r1 s1 hgrab
  obtain ⟨c, cfg, hc, hconn, hcfg, hb, hgrab⟩ := grabIpcLock_cases hgrab
  rcases hgrab with ⟨_, rfl, rfl⟩ | ⟨hl, rfl, rfl⟩
  · cases hs
    exact .inl fun _ => rfl
  rw [if_neg (fun hne => hne rfl)] at hs
  simp only [State.setConfig] at hs
  rw [hconn] at hs
  simp only at hs
  split at hs
  · cases hs
  rename_i cap caps' hcopy
  split at hs
  · rename_i hneg
    obtain ⟨tsrc, tdst, hsrc, hdst⟩ := capCopy_groups hcopy
    have hrefused := (capCopy_error_iff hgot.inv hsrc hdst).mp ⟨cap, caps', hcopy, hneg⟩
    rw [hgot.groups] at hsrc hdst
    exact .inr ⟨conn, c, cfg, hc, tsrc, tdst, ⟨hgot.names, hconn, hcfg, hb⟩, hl, hsrc,
      hdst, hrefused⟩
  · obtain ⟨_, _, he⟩ := map_eq_some_iff.mp hs
    cases he

/-- A capability transfer that leaks does return an error, with the lock taken. -/
theorem SendLeaks.error (h : CapInv s.caps) {sendCap : Int}
    (hleak : SendLeaks s t env connCap sendCap) :
    ∃ r s' h, sysIpcSendCap s t env connCap sendCap = some (some r, s') ∧
      handlerLock s' h ≠ handlerLock s h := by
  obtain ⟨conn, c, cfg, hc, tsrc, tdst, hr, hl, hsrc, hdst, hrefused⟩ := hleak
  obtain ⟨caps, hget⟩ := @getConn_of_names s t env connCap conn h hr.names
  have hgot := getConn_spec h hget
  rw [← hgot.groups] at hsrc hdst
  obtain ⟨r, caps', hcopy, hneg⟩ : ∃ r caps', capCopy env caps (s.group t)
      (s.group c.serverHandlerThread) sendCap none = some (r, caps') ∧ r < 0 :=
    (capCopy_error_iff hgot.inv hsrc hdst).mpr hrefused
  refine ⟨r, _, _, ?_, hr.taken hl caps'⟩
  simp [sysIpcSendCap, hget, hr.grab hl, State.setConfig, hr.conn, hcopy, hneg]

end Errors

/-- **An error leaves the locks alone exactly when the call does not leak.** From every reachable
    state, for every client, connection id, message, number of capabilities and capability. -/
theorem ipc_error_lock_iff {group : ThreadPtr → GroupPtr} {shadow : ThreadPtr → Bool}
    {as : List Act} {s : State} (hrun : exec step (State.init group shadow) as = some s)
    (t : ThreadPtr) (env : Env) (connCap : Int) :
    (∀ buf msg capNum, (∀ r s', sysIpcCall s t env buf connCap msg capNum = some (some r, s') →
        ∀ h, handlerLock s' h = handlerLock s h) ↔ ¬ CallLeaks s t connCap buf msg capNum) ∧
      ∀ sendCap, (∀ r s', sysIpcSendCap s t env connCap sendCap = some (some r, s') →
        ∀ h, handlerLock s' h = handlerLock s h) ↔ ¬ SendLeaks s t env connCap sendCap := by
  have h : CapInv s.caps := reachable_capInv hrun
  refine ⟨fun buf msg capNum => ⟨fun hall hleak => ?_, fun hno r s' hs => ?_⟩,
    fun sendCap => ⟨fun hall hleak => ?_, fun hno r s' hs => ?_⟩⟩
  · obtain ⟨r, s', k, hs, hne⟩ := hleak.error h
    exact hne (hall r s' hs k)
  · exact (sysIpcCall_error h hs).resolve_right hno
  · obtain ⟨r, s', k, hs, hne⟩ := hleak.error h
    exact hne (hall r s' hs k)
  · exact (sysIpcSendCap_error h hs).resolve_right hno

/-- A connection, published in the only cap_group. -/
def oneConn : List Act :=
  [.cap (.group .ample 64), .cap (.alloc .connection 8), .cap (.publish .ample 0 0 7)]

/-- It gets the handler thread 1. -/
def oneHandler : List Act := oneConn ++ [.register 1 0 none]

/-- While another client has the handler's lock, the call returns `-EAGAIN`. -/
theorem ipc_error_lock_retry : ∃ s s', exec step (State.init (fun _ => 0) (· = 1))
      (oneHandler ++ [.lookUp 2 .call .ample 0, .tryLock 2]) = some s ∧
    sysIpcCall s 0 .ample true 0 (some ⟨true, fun _ => 0⟩) 0 = some (some (-EAGAIN), s') ∧
    ∀ h, handlerLock s' h = handlerLock s h := by
  have hcall : (exec step (State.init (fun _ => 0) (· = 1))
      (oneHandler ++ [.lookUp 2 .call .ample 0, .tryLock 2])).any (fun s =>
        (sysIpcCall s 0 .ample true 0 (some ⟨true, fun _ => 0⟩) 0).any (·.1 = some (-EAGAIN))) =
      true := by decide +kernel
  obtain ⟨s, hs, hcall⟩ := (any_eq_true _ _).mp hcall
  obtain ⟨⟨_, s'⟩, hr, hret⟩ := (any_eq_true _ _).mp hcall
  obtain rfl := of_decide_eq_true hret
  exact ⟨s, s', hs, hr, ((ipc_error_lock_iff hs 0 .ample 0).1 _ _ _).mpr
    (fun ⟨_, _, _, _, _, _, _, _, hne, _⟩ => hne rfl) _ _ hr⟩

/-- **Eight capabilities lock the handler for good**: `sys_ipc_call` returns `-EINVAL`, and the lock
    that was free before is held. -/
theorem ipc_error_lock_leaked :
    ¬ ∀ s, exec step (State.init (fun _ => 0) (· = 1)) oneHandler = some s →
    ∀ r s', sysIpcCall s 0 .ample true 0 (some ⟨true, fun _ => 0⟩) 8 = some (some r, s') →
      ∀ h, handlerLock s' h = handlerLock s h := by
  intro h
  have hbad : (exec step (State.init (fun _ => 0) (· = 1)) oneHandler).any (fun s =>
      (sysIpcCall s 0 .ample true 0 (some ⟨true, fun _ => 0⟩) 8).any (fun r =>
        r.1 = some (-EINVAL) ∧ handlerLock r.2 1 ≠ handlerLock s 1)) = true := by decide +kernel
  obtain ⟨s, hs, hbad⟩ := (any_eq_true _ _).mp hbad
  obtain ⟨⟨r, s'⟩, hr, hbad⟩ := (any_eq_true _ _).mp hbad
  obtain ⟨rfl, hne⟩ := of_decide_eq_true hbad
  exact hne (h s hs _ s' hr 1)

end ChCore.Ipc
