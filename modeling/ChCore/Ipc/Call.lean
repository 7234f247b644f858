/-
  File: ChCore/Ipc/Call.lean
  Subject: `ipc_call` and `ipc_return` of the C library over the IPC calls of the kernel
    (`user/musl-1.1.24/src/chcore-port/ipc.c`).

  `ipc_call` makes the system call again as long as its result is `-EAGAIN`, the answer of the
  kernel when the handler is busy. A handler ends with `ipc_return`, whose argument is an `int`.

  * `ipc_call_iff` -- a run is right exactly when every value passed to `ipc_return` fits in an
    `int` and is not `-EAGAIN`, and no call fails to connect.

  The message lies in memory shared with the server, so what the kernel reads of it is not fixed
  by the call. How a connection is made (`connect_system_server`) is left out, except for its
  result.
-/
import ChCore.Ipc.ConnectionRuns

namespace ChCore.Ipc

open Lib Capability Function Option List Bool

/-! ## 1. The library -/

/-- What handlers have done for one `ipc_call`: how often one was switched to, and the values they
    passed to `ipc_return`, in this order. -/
structure Served where
  starts : Nat
  values : List Int64
  deriving DecidableEq, Repr

def Served.start (r : Served) : Served := { r with starts := r.starts + 1 }

variable (s : CallState) (group : ThreadPtr → GroupPtr) (t : ThreadPtr) (value : Int64)

def Served.pass (r : Served) : Served := { r with values := r.values ++ [value] }

/-- An `ipc_call` in progress. `tried` says whether `usys_ipc_call` has been made. -/
structure ClientCall where
  connCap : Int
  tried : Bool
  served : Served
  deriving DecidableEq, Repr

/-- An `ipc_call` that has returned. -/
structure Ended where
  ret : Int
  served : Served
  deriving DecidableEq, Repr

/-- The kernel, the call each thread is in, and the last one it has finished. -/
structure CallState where
  kernel : State
  call : ThreadPtr → Option ClientCall
  ended : ThreadPtr → Option Ended

variable (shadow : ThreadPtr → Bool)

def CallState.init : CallState where
  kernel := State.init group shadow
  call _ := none
  ended _ := none

def CallState.setCall (c : ClientCall) : CallState :=
  { s with call := update s.call t (some c) }

/-- The `ipc_call` of `t` returns. -/
def CallState.finish (e : Ended) : CallState :=
  { s with call := update s.call t none, ended := update s.ended t (some e) }

/-- A handler does something for the call of the thread `p`. -/
def CallState.serve (p : Option ThreadPtr) (f : Served → Served) : CallState :=
  { s with call := fun t =>
      if p = some t then (s.call t).map fun c => { c with served := f c.served } else s.call t }

/-- `ipc_call` up to its loop. `connect` is what `connect_system_server` comes to: its error code,
    or the `conn_cap` it leaves in the `ipc_struct_t`. -/
def ipcCall (connCap : Int) (connect : Except Int Int) : Option CallState :=
  match s.kernel.phase t, s.call t with
  | .user, none =>
    if connCap ≠ 0 then some (s.setCall t ⟨connCap, false, ⟨0, []⟩⟩)
    else
      match connect with
      | .error r => some (s.finish t ⟨r, ⟨0, []⟩⟩)
      | .ok cap => some (s.setCall t ⟨cap, false, ⟨0, []⟩⟩)
  | _, _ => none

/-- The body of the loop: it is entered once, and again after `-EAGAIN`. -/
def usysIpcCall (env : Env) : Option CallState :=
  match s.call t with
  | none => none
  | some c =>
    if c.tried = false ∨ s.kernel.result t = some (-EAGAIN) then
      (lookUp s.kernel t .call env c.connCap).map fun k =>
        { s with kernel := k }.setCall t { c with tried := true }
    else none

/-- The end of the loop, and of `ipc_call`. -/
def ipcCallDone : Option CallState :=
  match s.kernel.phase t, s.call t, s.kernel.result t with
  | .user, some c, some ret =>
    if c.tried = true ∧ ret ≠ -EAGAIN then some (s.finish t ⟨ret, c.served⟩) else none
  | _, _, _ => none

/-- `usys_ipc_return((u64)ret, cap_num)` where `ret` is the parameter of `ipc_return`, an `int`. -/
def usysIpcReturn (h : ThreadPtr) (value : Int64) (env : Env) (capNum : Nat)
    (retCap : Int) : Option CallState :=
  match s.call h with
  | some _ => none
  | none =>
    (readActive s.kernel h value.toInt32.toInt64.toInt env capNum retCap).map fun k =>
      { s with kernel := k }.serve (s.kernel.client h) (.pass value)

/-- The thread that a step switches to a handler. -/
def Act.starter : Act → Option ThreadPtr
  | .migrate t => some t
  | _ => none

theorem Act.starter_ne {a : Act} {t : ThreadPtr} (h : a.starter = none) : a.starter ≠ some t := by
  rw [h]
  exact (some_ne_none t).symm

/-- A thread in `ipc_call` makes no other system call, and handlers return through the library. -/
def CallState.allows : Act → Bool
  | .lookUp t _ _ _ => (s.call t).isNone
  | .readActive .. => false
  | _ => true

inductive CallAct where
  | ipcCall (t : ThreadPtr) (connCap : Int) (connect : Except Int Int)
  | usysIpcCall (t : ThreadPtr) (env : Env)
  | done (t : ThreadPtr)
  | ipcReturn (h : ThreadPtr) (value : Int64) (env : Env)
  | ipcReturnWithCap (h : ThreadPtr) (value : Int64) (env : Env) (capNum : Nat) (retCap : Int)
  | kernel (a : Act)

/-- **One step** of the library, or of the kernel below it. -/
def callStep : CallAct → Option CallState
  | .ipcCall t connCap connect => ipcCall s t connCap connect
  | .usysIpcCall t env => usysIpcCall s t env
  | .done t => ipcCallDone s t
  | .ipcReturn h value env => usysIpcReturn s h value env 0 0
  | .ipcReturnWithCap h value env capNum retCap => usysIpcReturn s h value env capNum retCap
  | .kernel a =>
    if s.allows a then
      (step s.kernel a).map fun k => { s with kernel := k }.serve a.starter .start
    else none

/-! ## 2. What a call is for -/

/-- One turn of the loop of `ipc_call`, up to the switch to the handler, for a message without
    capabilities. -/
def trySteps (env : Env) (buf : Bool) (msg : IpcMsg) : List CallAct :=
  [.usysIpcCall t env, .kernel (.tryLock t), .kernel (.stackFree t),
   .kernel (.sendCaps t env buf (some msg) 0), .kernel (.migrate t)]

/-- The steps that are left of the call of `t` when its handler has called `ipc_return`. -/
def CallState.leaveSteps : List CallAct :=
  match s.kernel.phase t with
  | .waiting _ h =>
    match s.kernel.phase h with
    | .returning .. => [.kernel (.unlock h), .kernel (.resume h), .done t]
    | _ => [.kernel (.resume h), .done t]
  | _ => [.done t]

/-- **Exactly once**: no call is served twice; a call that has returned was served once, and has
    returned the value its handler passed to `ipc_return`. Nothing but a busy handler holds a call
    up: when the handler is free, the next turn of the loop switches to it, and once the handler has
    passed a value, the steps that are left return it. -/
structure CallRight (s : CallState) : Prop where
  once : ∀ {t c}, s.call t = some c → c.served.starts ≤ 1
  ended : ∀ {t e}, s.ended t = some e → ∃ v, e.served = ⟨1, [v]⟩ ∧ e.ret = v.toInt
  enters : ∀ {t c conn x cfg hc}, s.call t = some c → s.kernel.phase t = .user →
    c.tried = false ∨ s.kernel.result t = some (-EAGAIN) →
    Reaches s.kernel t c.connCap conn x cfg hc → hc.ipcLock = false →
    s.kernel.phase x.serverHandlerThread = .parked → ∀ env buf msg,
      (exec callStep s (trySteps t env buf msg)).bind (·.call t) =
        some ⟨c.connCap, true, ⟨1, []⟩⟩
  returns : ∀ {t c v}, s.call t = some c → v ∈ c.served.values →
    (exec callStep s (s.leaveSteps t)).bind (·.ended t) = some ⟨v.toInt, ⟨1, [v]⟩⟩

/-- The value fits in an `int`, and is not the answer of a busy handler. -/
def Plain : Prop :=
  -2 ^ 31 ≤ value.toInt ∧ value.toInt < 2 ^ 31 ∧ value.toInt ≠ -EAGAIN
  deriving Decidable

/-- The value is plain, if the thread that waits for it is in `ipc_call`. -/
def ReturnOk (h : ThreadPtr) (value : Int64) : Prop :=
  ∀ t c, s.kernel.client h = some t → s.call t = some c → Plain value

/-- The condition on a step of the library. -/
def LibraryOk : CallAct → Prop
  | .ipcCall _ connCap connect => connCap ≠ 0 ∨ ∃ cap, connect = .ok cap
  | .ipcReturn h value _ => ReturnOk s h value
  | .ipcReturnWithCap h value _ _ _ => ReturnOk s h value
  | _ => True

/-- The condition on a step of the kernel. -/
def KernelOk : CallAct → Prop
  | .kernel a => CallOk s.kernel a
  | _ => True

/-- **What arrives of a value is the value, and ends the loop, exactly when it is plain.** -/
theorem plain_iff : Plain value ↔
    value.toInt32.toInt64.toInt = value.toInt ∧ value.toInt32.toInt64.toInt ≠ -EAGAIN := by
  rw [Int32.toInt_toInt64, Int64.toInt_toInt32]
  unfold Plain
  generalize value.toInt = v
  have hbmod : v.bmod (2 ^ 32) = v ↔ -2 ^ 31 ≤ v ∧ v < 2 ^ 31 := by
    dsimp only [Int.bmod]
    split <;> omega
  constructor
  · rintro ⟨hlo, hhi, hne⟩
    have heq := hbmod.mpr ⟨hlo, hhi⟩
    exact ⟨heq, by rwa [heq]⟩
  · rintro ⟨heq, hne⟩
    obtain ⟨hlo, hhi⟩ := hbmod.mp heq
    exact ⟨hlo, hhi, by rwa [heq] at hne⟩

/-! ## 3. A thread in a step of the kernel -/

section Turns

variable {s s' : State} {t : ThreadPtr}

/-- **What a step of the kernel other than `sys_ipc_return` does with the thread `t`.** -/
inductive Turn (s s' : State) (t : ThreadPtr) : Act → Prop
  | same {a} (hne : a.starter ≠ some t) (hp : s'.phase t = s.phase t)
      (hr : s'.result t = s.result t) : Turn s s' t a
  /-- a handler thread that serves nobody, or is in `sys_ipc_return` -/
  | aside {a} (hp : (s.phase t).serving = false) : Turn s s' t a
  | enter {sys env connCap} : Turn s s' t (.lookUp t sys env connCap)
  | onward {a sys sys' st st' conn conn' k k' cfg cfg'} (hne : a.starter ≠ some t)
      (hp : s.phase t = .calling sys st conn k cfg)
      (hp' : s'.phase t = .calling sys' st' conn' k' cfg') : Turn s s' t a
  /-- the handler is busy -/
  | refused {a sys st conn k cfg} (hne : a.starter ≠ some t)
      (hp : s.phase t = .calling sys st conn k cfg)
      (hp' : s'.phase t = .user) (hr : s'.result t = some (-EAGAIN)) : Turn s s' t a
  | switch {sys st conn conn' k k' cfg} (hp : s.phase t = .calling sys st conn k cfg)
      (hp' : s'.phase t = .waiting conn' k') (hk : (s'.phase k').serving = true) :
      Turn s s' t (.migrate t)
  | back {k conn v} (hp : s.phase t = .waiting conn k) (hk : (s.phase k).serving = false)
      (hv : s.returned k = some v) (hp' : s'.phase t = .user) (hr : s'.result t = some v) :
      Turn s s' t (.resume k)

variable {a : Act} {x : ThreadPtr}

theorem turn_setPhase {p : Phase}
    (hphase : s'.phase = (s.setPhase x p).phase) (hres : ∀ y, y ≠ x → s'.result y = s.result y)
    (hne : t ≠ x → a.starter ≠ some t) (hx : s'.phase x = p → Turn s s' x a) : Turn s s' t a := by
  by_cases ht : t = x
  · subst ht
    exact hx (by rw [hphase, setPhase_self])
  · exact .same (hne ht) (by rw [hphase, setPhase_ne s p ht]) (hres t ht)

theorem turn_onward {sys sys' st st' conn conn' k k' cfg cfg'}
    (ha : a.starter = none) (hp : s.phase x = .calling sys st conn k cfg)
    (hphase : s'.phase = (s.setPhase x (.calling sys' st' conn' k' cfg')).phase)
    (hres : s'.result = s.result) : Turn s s' t a :=
  turn_setPhase hphase (fun y _ => congrFun hres y) (fun _ => Act.starter_ne ha) fun h =>
    .onward (Act.starter_ne ha) hp h

theorem lookUp_eq {sys : Sys} {env : Env} {connCap : Int}
    (hs : lookUp s t sys env connCap = some s') : s.phase t = .user ∧ ∃ conn k cfg,
      s'.phase = (s.setPhase t (.calling sys .looked conn k cfg)).phase ∧ s'.result = s.result := by
  unfold lookUp at hs
  split at hs
  · rename_i hp _
    split at hs
    · cases hs
    split at hs
    · cases hs
    · cases hs
      exact ⟨hp, _, _, _, rfl, rfl⟩
  · cases hs

theorem turn_tryLock (hs : tryLock s x = some s') : Turn s s' t (.tryLock x) := by
  unfold tryLock at hs
  split at hs
  · rename_i sys conn k cfg hp
    split at hs
    · cases hs
    have hrefused : ∀ caps : Caps,
        s' = ({ s with caps := caps }.setPhase x .user).setResult x (-EAGAIN) →
        Turn s s' t (.tryLock x) := by
      rintro caps rfl
      exact turn_setPhase rfl (fun y hy => update_of_ne hy ..) (fun _ => Act.starter_ne rfl)
        fun h => .refused (Act.starter_ne rfl) hp h (update_self ..)
    split at hs
    · split at hs
      · obtain ⟨caps, _, rfl⟩ := map_eq_some_iff.mp hs
        exact hrefused caps rfl
      · cases hs
        exact hrefused s.caps rfl
    · cases hs
      exact turn_onward rfl hp rfl rfl
  · cases hs

theorem turn_migrate (h : CallInv s) (hs : migrate s x = some s') : Turn s s' t (.migrate x) := by
  unfold migrate at hs
  split at hs
  · rename_i sys conn k cfg hp
    have hparked := h.parked hp
    obtain ⟨hcfg, c, hconn, rfl⟩ := (h.phases x).calling hp
    obtain ⟨_, hc, hb⟩ := h.configs.block hcfg
    simp only [threadMigrateToServer, hconn, hcfg, hb] at hs
    obtain ⟨caps, _, rfl⟩ := map_eq_some_iff.mp hs
    by_cases htk : t = c.serverHandlerThread
    · exact .aside (by rw [htk, hparked]; rfl)
    by_cases htx : t = x
    · subst htx
      refine .switch hp ((setPhase_ne _ _ htk).trans (setPhase_self ..)) ?_
      rw [setPhase_self]
      rfl
    · refine .same (fun e => htx (some.inj e).symm) ?_ rfl
      exact (setPhase_ne _ _ htk).trans (setPhase_ne _ _ htx)
  · cases hs

theorem turn_resume (h : CallInv s) {k : ThreadPtr} (hs : resume s k = some s') :
    Turn s s' t (.resume k) := by
  obtain ⟨c, conn, v, hclient, hwait, hret, hp', hr', hrest⟩ := (resumeOk_of_inv h hs).caller
  have hleaving : (s.phase k).serving = false := by
    unfold resume at hs
    split at hs
    · rename_i hp
      rw [hp]
      rfl
    · cases hs
  by_cases htk : t = k
  · exact .aside (htk ▸ hleaving)
  by_cases htc : t = c
  · subst htc
    exact .back hwait hleaving hret hp' hr'
  · obtain ⟨hp, hr⟩ := hrest t htc htk
    exact .same (Act.starter_ne rfl) hp hr

/-- **Every step of the kernel is a turn of every thread.** -/
theorem step_turn (hcap : CapInv s.caps) (h : CallInv s) (hok : CallOk s a)
    (ha : ∀ k value env capNum retCap, a ≠ .readActive k value env capNum retCap)
    (hs : step s a = some s') : Turn s s' t a := by
  cases a with
  | cap a =>
    obtain ⟨caps, _, rfl⟩ := map_eq_some_iff.mp hs
    exact .same (Act.starter_ne rfl) rfl rfl
  | register k conn active =>
    simp only [step, register] at hs
    split at hs
    · cases hs
    split at hs
    · cases hs
      exact .same (Act.starter_ne rfl) rfl rfl
    · cases hs
  | lookUp x sys env connCap =>
    obtain ⟨_, conn, k, cfg, hp, hr⟩ := lookUp_eq hs
    exact turn_setPhase hp (fun y _ => congrFun hr y) (fun _ => Act.starter_ne rfl) fun _ => .enter
  | tryLock x => exact turn_tryLock hs
  | stackFree x =>
    simp only [step, stackFree] at hs
    split at hs
    · rename_i hp
      split at hs
      · cases hs
      · cases hs
        exact turn_onward rfl hp rfl rfl
    · cases hs
  | sendCaps x env buf msg capNum =>
    simp only [step, sendCaps] at hs
    split at hs
    · rename_i conn k cfg hp
      split at hs
      · cases hs
        exact turn_onward rfl hp rfl rfl
      split at hs
      · cases hs
      · rename_i r herr
        exact absurd ⟨r, herr⟩ (sendCaps_ok hok)
      · cases hs
        exact turn_onward rfl hp rfl rfl
    · cases hs
  | transferCap x env sendCap =>
    simp only [step, transferCap] at hs
    split at hs
    · rename_i conn k cfg hp
      split at hs
      · cases hs
      rename_i r caps hcopy
      split at hs
      · rename_i hneg
        exact absurd hneg (transferCap_ok hcap hok hp hcopy)
      · cases hs
        exact turn_onward rfl hp rfl rfl
    · cases hs
  | migrate x => exact turn_migrate h hs
  | readActive k value env capNum retCap => exact absurd rfl (ha k value env capNum retCap)
  | unlock k =>
    simp only [step, unlock] at hs
    split at hs
    · rename_i hp
      split at hs
      · cases hs
      · cases hs
        exact turn_setPhase rfl (fun _ _ => rfl) (fun _ => Act.starter_ne rfl) fun _ =>
          .aside (by rw [hp]; rfl)
    · cases hs
  | resume k => exact turn_resume h hs

theorem Turn.serving (h : Turn s s' t a) (hs : step s a = some s')
    (hp : (s.phase t).serving = true) : (s'.phase t).serving = true := by
  cases h with
  | same _ hp' _ =>
    rw [hp']
    exact hp
  | aside hp' =>
    rw [hp'] at hp
    cases hp
  | enter =>
    obtain ⟨_, conn, k, cfg, hp', _⟩ := lookUp_eq hs
    rw [hp', setPhase_self]
    rfl
  | onward _ _ hp' | refused _ _ hp' | switch _ hp' | back _ _ _ hp' =>
    rw [hp']
    rfl

/-- While the client waits, its handler serves it, or returns one value. -/
theorem wait_kept (h : CallInv s) (hm : Moves s s') {conn : ObjPtr} {k : ThreadPtr}
    (hp : s.phase t = .waiting conn k) (hp' : s'.phase t = .waiting conn k)
    (hk : (s.phase k).serving = false) :
    (s'.phase k).serving = false ∧ s'.returned k = s.returned k := by
  obtain ⟨svc, hv⟩ := h.service ((h.phases t).waiting hp)
  obtain ⟨svc', hv', hnext⟩ := hm k svc ((h.phases t).waiting hp) hv
  have hcl := (hv.client t conn).mp hp
  have hcl' := (hv'.client t conn).mp hp'
  -- the situations after which the client still waits, and the value they return
  have hvalue : ∃ v, svc.value = some v ∧ svc'.value = some v := by
    cases svc with
    | idle | entering => cases hcl
    | serving c conn' =>
      rw [show (s.phase k).serving = true from hv.fits] at hk
      cases hk
    | returning c conn' v =>
      rcases hnext with rfl | hnext
      · exact ⟨v, rfl, rfl⟩
      · cases hnext
        exact ⟨v, rfl, rfl⟩
    | leaving c conn' v next =>
      rcases hnext with rfl | hnext
      · exact ⟨v, rfl, rfl⟩
      · cases hnext with
        | wait => exact ⟨v, rfl, rfl⟩
        | resume | handOver => cases hcl'
  obtain ⟨v, hval, hval'⟩ := hvalue
  refine ⟨?_, (hv'.value hval').1.trans (hv.value hval).1.symm⟩
  have hfits := hv'.fits
  cases svc' with
  | idle | entering | serving => cases hval'
  | returning =>
    obtain ⟨cfg, e, _⟩ := hfits
    rw [e]
    rfl
  | leaving =>
    rw [show s'.phase k = _ from hfits]
    rfl

end Turns

/-! ## 4. The invariant -/

/-- How far the call of `t` is. -/
def ClientCall.Fits (k : State) (t : ThreadPtr) (c : ClientCall) : Prop :=
  match k.phase t with
  | .user =>
    (c.served = ⟨0, []⟩ ∧ (c.tried = true → k.result t = some (-EAGAIN))) ∨
      ∃ v, c.served = ⟨1, [v]⟩ ∧ c.tried = true ∧ k.result t = some v.toInt ∧ Plain v
  | .calling .. => c.served = ⟨0, []⟩ ∧ c.tried = true
  | .waiting _ h => c.tried = true ∧
      ((c.served = ⟨1, []⟩ ∧ (k.phase h).serving = true) ∨
        ∃ v, c.served = ⟨1, [v]⟩ ∧ (k.phase h).serving = false ∧
          k.returned h = some v.toInt ∧ Plain v)
  | _ => False

/-- **The invariant of a run of the library.** -/
structure LibraryInv (s : CallState) : Prop where
  caps : CapInv s.kernel.caps
  kernel : CallInv s.kernel
  calls : ∀ {t c}, s.call t = some c → c.Fits s.kernel t
  ended : ∀ {t e}, s.ended t = some e → ∃ v, e.served = ⟨1, [v]⟩ ∧ e.ret = v.toInt

theorem libraryInv_init : LibraryInv (CallState.init group shadow) :=
  ⟨capInv_init, callInv_init group shadow, nofun, nofun⟩

section Fits

variable {k k' : State} {t : ThreadPtr} {c : ClientCall}

theorem fits_user (hp : k.phase t = .user) : c.Fits k t ↔
    (c.served = ⟨0, []⟩ ∧ (c.tried = true → k.result t = some (-EAGAIN))) ∨
      ∃ v, c.served = ⟨1, [v]⟩ ∧ c.tried = true ∧ k.result t = some v.toInt ∧ Plain v := by
  unfold ClientCall.Fits
  rw [hp]

theorem fits_calling {sys : Sys} {st : Stage} {conn : ObjPtr} {x : ThreadPtr} {cfg : ConfigPtr}
    (hp : k.phase t = .calling sys st conn x cfg) :
    c.Fits k t ↔ c.served = ⟨0, []⟩ ∧ c.tried = true := by
  unfold ClientCall.Fits
  rw [hp]

theorem fits_waiting {conn : ObjPtr} {x : ThreadPtr} (hp : k.phase t = .waiting conn x) :
    c.Fits k t ↔ c.tried = true ∧
      ((c.served = ⟨1, []⟩ ∧ (k.phase x).serving = true) ∨
        ∃ v, c.served = ⟨1, [v]⟩ ∧ (k.phase x).serving = false ∧
          k.returned x = some v.toInt ∧ Plain v) := by
  unfold ClientCall.Fits
  rw [hp]

/-- The answer that makes the loop go on, if there was one, was that of a busy handler. -/
theorem ClientCall.Fits.again (h : c.Fits k t) (hp : k.phase t = .user)
    (hagain : c.tried = false ∨ k.result t = some (-EAGAIN)) : c.served = ⟨0, []⟩ := by
  rcases (fits_user hp).mp h with ⟨hserved, _⟩ | ⟨v, _, htried, hres, hplain⟩
  · exact hserved
  rcases hagain with hfirst | hbusy
  · rw [htried] at hfirst
    cases hfirst
  · rw [hres] at hbusy
    exact absurd (some.inj hbusy) hplain.2.2

theorem ClientCall.Fits.serving (h : c.Fits k t) : (k.phase t).serving = true := by
  unfold ClientCall.Fits at h
  split at h
  · rename_i hp
    rw [hp]
    rfl
  · rename_i hp
    rw [hp]
    rfl
  · rename_i hp
    rw [hp]
    rfl
  · exact h.elim

/-- The thread itself does nothing, and its handler does not return. -/
theorem ClientCall.Fits.frame (h : c.Fits k t) (hp : k'.phase t = k.phase t)
    (hr : k'.result t = k.result t)
    (hserves : ∀ {conn x}, k.phase t = .waiting conn x → (k.phase x).serving = true →
      (k'.phase x).serving = true)
    (hreturns : ∀ {conn x}, k.phase t = .waiting conn x → (k.phase x).serving = false →
      (k'.phase x).serving = false ∧ k'.returned x = k.returned x) : c.Fits k' t := by
  unfold ClientCall.Fits at h ⊢
  rw [hp, hr]
  cases hq : k.phase t with
  | user | parked | calling | returning | leaving =>
    rw [hq] at h
    exact h
  | waiting conn x =>
  rw [hq] at h
  refine ⟨h.1, h.2.imp (fun ⟨h0, h1⟩ => ⟨h0, hserves hq h1⟩) ?_⟩
  rintro ⟨v, h0, h1, h2, h3⟩
  obtain ⟨hk, hret⟩ := hreturns hq h1
  exact ⟨v, h0, hk, hret.trans h2, h3⟩

end Fits

/-! ## 5. The steps -/

section Steps

variable {s s' : CallState} {t : ThreadPtr} {c : ClientCall}

theorem serve_self {p : Option ThreadPtr} {f : Served → Served} (hp : p = some t) :
    (s.serve p f).call t = (s.call t).map fun c => { c with served := f c.served } :=
  if_pos hp

theorem serve_ne {p : Option ThreadPtr} {f : Served → Served} (hp : p ≠ some t) :
    (s.serve p f).call t = s.call t :=
  if_neg hp

variable {k' : State} {h : ThreadPtr} {env : Env} {capNum : Nat} {retCap : Int}

/-- A step of the kernel, seen from a thread in a call: another thread's step. -/
theorem fits_same {a : Act} (hI : LibraryInv s) (hok : CallOk s.kernel a)
    (ha : ∀ k value env capNum retCap, a ≠ .readActive k value env capNum retCap)
    (hs : step s.kernel a = some k') (hc : s.call t = some c) (hp : k'.phase t = s.kernel.phase t)
    (hr : k'.result t = s.kernel.result t) : c.Fits k' t := by
  refine (hI.calls hc).frame hp hr (fun {conn x} _ hx => ?_) fun {conn x} hw hx => ?_
  · exact (step_turn hI.caps hI.kernel hok ha hs).serving hs hx
  · have hmoves := (step_service hI.caps hI.kernel hok hs).2
    exact wait_kept hI.kernel hmoves hw (hp.trans hw) hx

/-- **A step of the kernel keeps every call where it is, or moves it on.** -/
theorem fits_kernel {a : Act} (hI : LibraryInv s) (hok : CallOk s.kernel a)
    (hallow : s.allows a = true) (hs : step s.kernel a = some k')
    (hc : ({ s with kernel := k' }.serve a.starter .start).call t = some c) : c.Fits k' t := by
  have ha : ∀ k value env capNum retCap, a ≠ .readActive k value env capNum retCap := by
    rintro k value env capNum retCap rfl
    cases hallow
  cases step_turn hI.caps hI.kernel hok ha hs (t := t) with
  | same hne hp hr => exact fits_same hI hok ha hs (serve_ne hne ▸ hc) hp hr
  | aside hp =>
    -- such a thread is in no call
    obtain ⟨c0, hc0⟩ : ∃ c0, s.call t = some c0 := by
      by_cases hne : a.starter = some t
      · rw [serve_self hne] at hc
        exact (map_eq_some_iff.mp hc).imp fun _ h => h.1
      · exact ⟨c, serve_ne hne ▸ hc⟩
    rw [(hI.calls hc0).serving] at hp
    cases hp
  | enter =>
    have hc' : s.call t = some c := hc
    simp only [CallState.allows, hc', isNone_some] at hallow
    cases hallow
  | onward hne hp hp' =>
    exact (fits_calling hp').mpr ((fits_calling hp).mp (hI.calls (serve_ne hne ▸ hc)))
  | refused hne hp hp' hr =>
    obtain ⟨hserved, _⟩ := (fits_calling hp).mp (hI.calls (serve_ne hne ▸ hc))
    exact (fits_user hp').mpr (.inl ⟨hserved, fun _ => hr⟩)
  | switch hp hp' hk =>
    obtain ⟨c0, hc0, rfl⟩ := map_eq_some_iff.mp ((serve_self rfl).symm.trans hc)
    obtain ⟨hserved, htried⟩ := (fits_calling hp).mp (hI.calls hc0)
    exact (fits_waiting hp').mpr ⟨htried, .inl ⟨by rw [hserved]; rfl, hk⟩⟩
  | back hp hk hv hp' hr =>
  have hc' : s.call t = some c := hc
  obtain ⟨htried, ⟨_, hserving⟩ | ⟨v, hserved, _, hret, hplain⟩⟩ :=
    (fits_waiting hp).mp (hI.calls hc')
  · rw [hserving] at hk
    cases hk
  · exact (fits_user hp').mpr
      (.inr ⟨v, hserved, htried, hr.trans (hv.symm.trans hret), hplain⟩)

/-- `sys_ipc_return` up to the release of the lock changes one thread, the handler. -/
theorem readActive_eq {k : State} {value : Int}
    (hs : readActive k h value env capNum retCap = some k') :
    (∃ cfg, k.config h = some cfg) ∧ k.phase h = .user ∧ (k'.phase h).serving = false ∧
      (∀ x, x ≠ h → k'.phase x = k.phase x) ∧ k'.result = k.result ∧
      k'.returned = update k.returned h (some value) := by
  unfold readActive at hs
  split at hs
  · rename_i cfg hp hcfg
    split at hs
    · cases hs
    split at hs
    · cases hs
    split at hs
    · cases hs
    split at hs
    · cases hs
    obtain ⟨caps, _, rfl⟩ := map_eq_some_iff.mp hs
    refine ⟨⟨cfg, hcfg⟩, hp, ?_, fun x hx => setPhase_ne _ _ hx, rfl, rfl⟩
    rw [setPhase_self]
    rfl
  · cases hs

/-- The handler that returns has a client that waits for it, and no other. -/
theorem readActive_client {k : State} {value : Int} (hk : CallInv k)
    (hs : readActive k h value env capNum retCap = some k') :
    ∃ t conn, k.client h = some t ∧ k.phase t = .waiting conn h ∧ k'.phase t = .waiting conn h ∧
      ∀ x conn', k.phase x = .waiting conn' h → x = t := by
  obtain ⟨⟨cfg, hcfg⟩, hp, _, hkeep, _⟩ := readActive_eq hs
  obtain ⟨svc, hv⟩ := hk.service (hk.configs.block hcfg).1
  obtain ⟨t, conn, rfl⟩ := hv.fits.serving (by rw [hp]; rfl)
  have hwait := (hv.client t conn).mpr rfl
  have hth : t ≠ h := by
    rintro rfl
    rw [hp] at hwait
    cases hwait
  exact ⟨t, conn, hv.caller rfl, hwait, (hkeep t hth).trans hwait,
    fun x conn' hx => hv.serviceOk.one hx hwait⟩

/-- **A handler returns a value for a call.** -/
theorem fits_return {value : Int64} (hI : LibraryInv s) (hok : ReturnOk s h value)
    (hh : s.call h = none)
    (hs : readActive s.kernel h value.toInt32.toInt64.toInt env capNum retCap = some k')
    (hc : ({ s with kernel := k' }.serve (s.kernel.client h) (.pass value)).call t = some c) :
    c.Fits k' t := by
  obtain ⟨_, hp, hserving, hkeep, hres, hret⟩ := readActive_eq hs
  obtain ⟨t', conn, hclient, hwait, hwait', hone⟩ := readActive_client hI.kernel hs
  by_cases ht : t = t'
  · -- the client
    subst ht
    rw [serve_self hclient] at hc
    obtain ⟨c0, hc0, rfl⟩ := map_eq_some_iff.mp hc
    have hplain := hok t c0 hclient hc0
    obtain ⟨htried, ⟨hserved, _⟩ | ⟨_, _, hns, _⟩⟩ := (fits_waiting hwait).mp (hI.calls hc0)
    · refine (fits_waiting hwait').mpr
        ⟨htried, .inr ⟨value, by rw [hserved]; rfl, hserving, ?_, hplain⟩⟩
      rw [hret, update_self, ((plain_iff value).mp hplain).1]
    · rw [hp] at hns
      cases hns
  -- anybody else
  have hc0 : s.call t = some c := by
    rwa [serve_ne (by rw [hclient]; exact fun e => ht (some.inj e).symm)] at hc
  have hth : t ≠ h := by
    rintro rfl
    rw [hh] at hc0
    cases hc0
  have hother : ∀ {conn' x}, s.kernel.phase t = .waiting conn' x → x ≠ h := by
    rintro conn' x hx rfl
    exact ht (hone t conn' hx)
  refine (hI.calls hc0).frame (hkeep t hth) (by rw [hres]) (fun hw hx => ?_) fun hw hx => ?_
  · rw [hkeep _ (hother hw)]
    exact hx
  · rw [hkeep _ (hother hw), hret, update_of_ne (hother hw)]
    exact ⟨hx, rfl⟩

theorem setCall_all {Q : ThreadPtr → ClientCall → Prop}
    (h : ∀ {x d}, x ≠ t → s.call x = some d → Q x d) (ht : Q t c) {x : ThreadPtr} {d : ClientCall}
    (hd : (s.setCall t c).call x = some d) : Q x d := by
  by_cases hx : x = t
  · subst hx
    have hd : update s.call x (some c) x = some d := hd
    rw [update_self] at hd
    cases hd
    exact ht
  · have hd : update s.call t (some c) x = some d := hd
    rw [update_of_ne hx] at hd
    exact h hx hd

section

variable (hI : LibraryInv s)

include hI

theorem LibraryInv.finish {e : Ended} (he : ∃ v, e.served = ⟨1, [v]⟩ ∧ e.ret = v.toInt) :
    LibraryInv (s.finish t e) where
  caps := hI.caps
  kernel := hI.kernel
  calls {x d} hd := by
    have hd : update s.call t none x = some d := hd
    by_cases hx : x = t
    · rw [hx, update_self] at hd
      cases hd
    · rw [update_of_ne hx] at hd
      exact hI.calls hd
  ended {x d} hd := by
    have hd : update s.ended t (some e) x = some d := hd
    by_cases hx : x = t
    · rw [hx, update_self] at hd
      cases hd
      exact he
    · rw [update_of_ne hx] at hd
      exact hI.ended hd

theorem LibraryInv.ipcCall {connCap : Int} {connect : Except Int Int}
    (hok : connCap ≠ 0 ∨ ∃ cap, connect = .ok cap) (hs : Ipc.ipcCall s t connCap connect = some s') :
    LibraryInv s' := by
  have hnew : ∀ cap, s.kernel.phase t = .user → LibraryInv (s.setCall t ⟨cap, false, ⟨0, []⟩⟩) := by
    intro cap hp
    refine ⟨hI.caps, hI.kernel, setCall_all (fun _ hd => hI.calls hd) ?_, hI.ended⟩
    exact (fits_user hp).mpr (.inl ⟨rfl, nofun⟩)
  unfold Ipc.ipcCall at hs
  split at hs
  · rename_i hp _
    split at hs
    · cases hs
      exact hnew connCap hp
    rename_i hz
    split at hs
    · rcases hok with hne | ⟨cap, e⟩
      · exact absurd hne hz
      · cases e
    · cases hs
      exact hnew _ hp
  · cases hs

theorem LibraryInv.usysIpcCall (hs : Ipc.usysIpcCall s t env = some s') : LibraryInv s' := by
  unfold Ipc.usysIpcCall at hs
  split at hs
  · cases hs
  rename_i c hc
  split at hs
  · rename_i hagain
    obtain ⟨k, hk, rfl⟩ := map_eq_some_iff.mp hs
    have hstep : step s.kernel (.lookUp t .call env c.connCap) = some k := hk
    have hok : CallOk s.kernel (.lookUp t .call env c.connCap) := trivial
    obtain ⟨hp, conn, x, cfg, hp', hr'⟩ := lookUp_eq hk
    refine ⟨step_capInv hI.caps hstep, (step_service hI.caps hI.kernel hok hstep).1,
      setCall_all (s := { s with kernel := k }) (fun {x d} hne hd => ?_) ?_, hI.ended⟩
    · exact fits_same hI hok nofun hstep hd
        ((congrFun hp' x).trans (setPhase_ne _ _ hne)) (congrFun hr' x)
    · have hserved := (hI.calls hc).again hp hagain
      exact (fits_calling ((congrFun hp' t).trans (setPhase_self ..))).mpr ⟨hserved, rfl⟩
  · cases hs

theorem LibraryInv.done (hs : ipcCallDone s t = some s') : LibraryInv s' := by
  unfold ipcCallDone at hs
  split at hs
  · rename_i c ret hp hc hret
    split at hs
    · rename_i hend
      cases hs
      refine hI.finish ?_
      rcases (fits_user hp).mp (hI.calls hc) with ⟨_, hbusy⟩ | ⟨v, hserved, _, hres, _⟩
      · rw [hbusy hend.1] at hret
        exact absurd (some.inj hret).symm hend.2
      · rw [hres] at hret
        exact ⟨v, hserved, (some.inj hret).symm⟩
    · cases hs
  · cases hs

theorem LibraryInv.usysIpcReturn {value : Int64} (hok : ReturnOk s h value)
    (hs : Ipc.usysIpcReturn s h value env capNum retCap = some s') : LibraryInv s' := by
  unfold Ipc.usysIpcReturn at hs
  split at hs
  · cases hs
  rename_i hh
  obtain ⟨k, hk, rfl⟩ := map_eq_some_iff.mp hs
  have hstep : step s.kernel (.readActive h _ env capNum retCap) = some k := hk
  exact ⟨step_capInv hI.caps hstep, (inv_readActive hI.kernel hk).1,
    fun hd => fits_return hI hok hh hk hd, hI.ended⟩

/-- **Every step that meets the conditions keeps the invariant.** -/
theorem LibraryInv.step {a : CallAct} (hkernel : KernelOk s a) (hok : LibraryOk s a)
    (hs : callStep s a = some s') : LibraryInv s' := by
  cases a with
  | ipcCall t connCap connect => exact hI.ipcCall hok hs
  | usysIpcCall t env => exact hI.usysIpcCall hs
  | done t => exact hI.done hs
  | ipcReturn h value env | ipcReturnWithCap h value env capNum retCap =>
    exact hI.usysIpcReturn hok hs
  | kernel a =>
  simp only [callStep] at hs
  split at hs
  · rename_i hallow
    obtain ⟨k, hk, rfl⟩ := map_eq_some_iff.mp hs
    exact ⟨step_capInv hI.caps hk, (step_service hI.caps hI.kernel hkernel hk).1,
      fun hd => fits_kernel hI hkernel hallow hk hd, hI.ended⟩
  · cases hs

end

end Steps

/-! ## 6. The way in, and the way back -/

section Leave

variable {s : CallState} {t h : ThreadPtr} {c : ClientCall} {r : Int}

theorem callStep_kernel {a : Act} {k : State} (ha : s.allows a = true)
    (hs : step s.kernel a = some k) :
    callStep s (.kernel a) = some ({ s with kernel := k }.serve a.starter .start) := by
  simp only [callStep, ha, if_true, hs, map_some]

theorem serve_none {f : Served → Served} : s.serve none f = s := by
  simp [CallState.serve]

variable {conn : ObjPtr} {cfg : ConfigPtr}

/-- The steps of `sys_ipc_call` after the first reads, when the lock and the stack are free. -/
theorem exec_switch {x : Connection} {hc0 : HandlerConfig} {caps : Caps} (env : Env) (buf : Bool)
    (msg : IpcMsg) (hp : s.kernel.phase t = .calling .call .looked conn x.serverHandlerThread cfg)
    (hconn : s.kernel.conns conn = some x) (hcfg : s.kernel.config x.serverHandlerThread = some cfg)
    (hb : s.kernel.configs cfg = some hc0) (hfree : hc0.ipcLock = false)
    (hparked : s.kernel.phase x.serverHandlerThread = .parked)
    (hput : capStep s.kernel.caps (.put conn) = some caps) :
    (exec callStep s (trySteps t env buf msg).tail).bind (·.call t) =
      (s.call t).map fun c => { c with served := c.served.start } := by
  have hne : x.serverHandlerThread ≠ t := by
    intro e
    rw [e, hp] at hparked
    cases hparked
  let p : Stage → Phase := fun st => .calling .call st conn x.serverHandlerThread cfg
  let k1 : State := (s.kernel.setConfig cfg { hc0 with ipcLock := true }).setPhase t (p .locked)
  let k2 : State := k1.setPhase t (p .clear)
  let k3 : State := k2.setPhase t (p .sent)
  have hp1 : k1.phase t = p .locked := setPhase_self ..
  have hp2 : k2.phase t = p .clear := setPhase_self ..
  have hp3 : k3.phase t = p .sent := setPhase_self ..
  have h1 : step s.kernel (.tryLock t) = some k1 := by
    simp only [step, tryLock, hp, hb, hfree, false_eq_true, if_false]
    rfl
  have h2 : step k1 (.stackFree t) = some k2 := by
    have hpark1 : k1.phase x.serverHandlerThread = .parked := (setPhase_ne _ _ hne).trans hparked
    simp only [step, stackFree, hp1, p, hpark1, Phase.inKernel, false_eq_true, if_false]
    rfl
  have h3 : step k2 (.sendCaps t env buf (some msg) 0) = some k3 := by
    simp only [step, sendCaps, hp2, p, ipcSendCap, if_true]
    rfl
  have h4 : ∃ k4, step k3 (.migrate t) = some k4 := by
    have hb3 : k3.configs cfg = some { hc0 with ipcLock := true } := update_self ..
    have hconn3 : k3.conns conn = some x := hconn
    have hcfg3 : k3.config x.serverHandlerThread = some cfg := hcfg
    have hput3 : capStep k3.caps (.put conn) = some caps := hput
    simp only [step, migrate, hp3, p, threadMigrateToServer, hconn3, hcfg3, hb3, hput3, map_some]
    exact ⟨_, rfl⟩
  obtain ⟨k4, h4⟩ := h4
  have hs1 := (callStep_kernel rfl h1).trans (congrArg some serve_none)
  have hs2 := (callStep_kernel (s := { s with kernel := k1 }) rfl h2).trans
    (congrArg some serve_none)
  have hs3 := (callStep_kernel (s := { s with kernel := k2 }) rfl h3).trans
    (congrArg some serve_none)
  have hs4 := callStep_kernel (s := { s with kernel := k3 }) rfl h4
  simp only [trySteps, tail_cons, exec, hs1, hs2, hs3, hs4, bind_some]
  exact serve_self rfl

/-- **One turn of the loop**, when the handler is free. -/
theorem exec_enter (hcap : CapInv s.kernel.caps) (hc : s.call t = some c)
    (hp : s.kernel.phase t = .user) (hagain : c.tried = false ∨ s.kernel.result t = some (-EAGAIN))
    {x : Connection} {hc0 : HandlerConfig} (hreach : Reaches s.kernel t c.connCap conn x cfg hc0)
    (hfree : hc0.ipcLock = false) (hparked : s.kernel.phase x.serverHandlerThread = .parked)
    (env : Env) (buf : Bool) (msg : IpcMsg) :
    (exec callStep s (trySteps t env buf msg)).bind (·.call t) =
      some ⟨c.connCap, true, c.served.start⟩ := by
  obtain ⟨caps, hget⟩ : ∃ caps, (getOpaque env s.kernel.caps (s.kernel.group t) c.connCap
      (some .connection)).1 = some (some conn, caps) := getConn_of_names hcap hreach.names
  obtain ⟨caps', hput⟩ := (getConn_spec hcap hget).put
  have hne : x.serverHandlerThread ≠ t := by
    intro e
    rw [e, hp] at hparked
    cases hparked
  let k : State := { s.kernel with caps := caps }.setPhase t
    (.calling .call .looked conn x.serverHandlerThread cfg)
  let s1 : CallState := { s with kernel := k }.setCall t { c with tried := true }
  have hstep : callStep s (.usysIpcCall t env) = some s1 := by
    simp only [callStep, usysIpcCall, hc, if_pos hagain, lookUp, hp, hget, hreach.conn,
      hreach.config, map_some, s1, k]
  have hswitch := exec_switch (s := s1) env buf msg (setPhase_self ..) hreach.conn hreach.config
    hreach.block hfree ((setPhase_ne _ _ hne).trans hparked) hput
  rw [show s1.call t = _ from update_self ..] at hswitch
  rw [trySteps, exec, hstep]
  exact hswitch

/-- What the client gets for the result `r` of the system call: nothing yet after `-EAGAIN`. -/
def answer (c : ClientCall) (r : Int) : Option Ended :=
  if r = -EAGAIN then none else some ⟨r, c.served⟩

section

variable (hc : s.call t = some c) (htried : c.tried = true)

include hc htried

theorem exec_done (hp : s.kernel.phase t = .user) (hr : s.kernel.result t = some r) :
    (exec callStep s [.done t]).bind (·.ended t) = answer c r := by
  unfold answer
  by_cases hbusy : r = -EAGAIN
  · simp [exec, callStep, ipcCallDone, hp, hc, hr, hbusy]
  · simp [exec, callStep, ipcCallDone, hp, hc, hr, hbusy, htried, CallState.finish]

theorem exec_resume (hne : t ≠ h) (hp : s.kernel.phase h = .leaving t r) :
    (exec callStep s [.kernel (.resume h), .done t]).bind (·.ended t) = answer c r := by
  let s1 : CallState :=
    { s with kernel := ((s.kernel.setResult t r).setPhase t .user).setPhase h .parked }
  have hstep : callStep s (.kernel (.resume h)) = some (s1.serve none .start) := by
    simp [callStep, CallState.allows, step, resume, hp, Act.starter, s1]
  rw [exec, hstep]
  refine exec_done (c := c) ?_ htried ?_ ?_
  · exact (serve_ne (some_ne_none t).symm).trans hc
  · exact (setPhase_ne _ _ hne).trans (setPhase_self ..)
  · exact update_self ..

theorem exec_unlock (hne : t ≠ h) {hcfg : HandlerConfig}
    (hp : s.kernel.phase h = .returning cfg t r) (hb : s.kernel.configs cfg = some hcfg) :
    (exec callStep s [.kernel (.unlock h), .kernel (.resume h), .done t]).bind (·.ended t) =
      answer c r := by
  let s1 : CallState := { s with
    kernel := (s.kernel.setConfig cfg { hcfg with ipcLock := false }).setPhase h (.leaving t r) }
  have hstep : callStep s (.kernel (.unlock h)) = some (s1.serve none .start) := by
    simp [callStep, CallState.allows, step, unlock, hp, hb, Act.starter, s1]
  rw [exec, hstep]
  exact exec_resume (c := c) ((serve_ne (some_ne_none t).symm).trans hc) htried hne (setPhase_self ..)

end

/-- **The steps that are left**, when the handler is on its way back with `r`. -/
theorem exec_leave (hk : CallInv s.kernel) (hc : s.call t = some c) (htried : c.tried = true)
    (hw : s.kernel.phase t = .waiting conn h) (hns : (s.kernel.phase h).serving = false)
    (hret : s.kernel.returned h = some r) :
    (exec callStep s (s.leaveSteps t)).bind (·.ended t) = answer c r := by
  obtain ⟨svc, hv⟩ := hk.service ((hk.phases t).waiting hw)
  have hcl := (hv.client t conn).mp hw
  have hne : t ≠ h := by
    rintro rfl
    rw [hw] at hns
    cases hns
  have hfits := hv.fits
  cases svc with
  | idle | entering => cases hcl
  | serving =>
    rw [show (s.kernel.phase h).serving = true from hfits] at hns
    cases hns
  | returning _ _ v =>
    cases hcl
    obtain ⟨cfg, hp, hcfg⟩ := hfits
    cases (hv.value rfl).1.symm.trans hret
    obtain ⟨_, hb⟩ := (hk.configs.block hcfg).2
    simp only [CallState.leaveSteps, hw, hp]
    exact exec_unlock hc htried hne hp hb
  | leaving _ _ v next =>
    cases hcl
    have hp : s.kernel.phase h = .leaving t v := hfits
    cases (hv.value rfl).1.symm.trans hret
    simp only [CallState.leaveSteps, hw, hp]
    exact exec_resume hc htried hne hp

theorem LibraryInv.right (hI : LibraryInv s) : CallRight s where
  once {t c} hc := by
    have hfits := hI.calls hc
    unfold ClientCall.Fits at hfits
    split at hfits
    · rcases hfits with ⟨e, _⟩ | ⟨v, e, _⟩ <;> simp [e]
    · simp [hfits.1]
    · rcases hfits with ⟨_, ⟨e, _⟩ | ⟨v, e, _⟩⟩ <;> simp [e]
    · exact hfits.elim
  ended := hI.ended
  enters hc hp hagain hreach hfree hparked env buf msg := by
    rw [exec_enter hI.caps hc hp hagain hreach hfree hparked env buf msg,
      (hI.calls hc).again hp hagain]
    rfl
  returns {t c v} hc hv := by
    have hanswer : ∀ {w : Int64}, c.served = ⟨1, [w]⟩ → Plain w →
        answer c w.toInt = some ⟨v.toInt, ⟨1, [v]⟩⟩ := by
      intro w hserved hplain
      rw [hserved, mem_singleton] at hv
      subst hv
      rw [answer, if_neg hplain.2.2, hserved]
    have hfits := hI.calls hc
    cases hp : s.kernel.phase t with
    | user =>
      rcases (fits_user hp).mp hfits with ⟨e, _⟩ | ⟨w, hserved, htried, hres, hplain⟩
      · rw [e] at hv
        cases hv
      · simp only [CallState.leaveSteps, hp]
        rw [exec_done hc htried hp hres]
        exact hanswer hserved hplain
    | calling =>
      rw [((fits_calling hp).mp hfits).1] at hv
      cases hv
    | waiting conn h =>
      obtain ⟨htried, ⟨e, _⟩ | ⟨w, hserved, hns, hret, hplain⟩⟩ := (fits_waiting hp).mp hfits
      · rw [e] at hv
        cases hv
      · rw [exec_leave hI.kernel hc htried hp hns hret]
        exact hanswer hserved hplain
    | parked | returning | leaving =>
      have hserving := hfits.serving
      rw [hp] at hserving
      cases hserving

/-- **A value that arrives as it was passed is plain.** -/
theorem returnOk_of_right {s' : CallState} {value : Int64} {env : Env} {capNum : Nat} {retCap : Int}
    (hI : LibraryInv s) (hs : usysIpcReturn s h value env capNum retCap = some s')
    (hright : CallRight s') : ReturnOk s h value := by
  intro t c hclient hc
  unfold usysIpcReturn at hs
  split at hs
  · cases hs
  obtain ⟨k, hk, rfl⟩ := map_eq_some_iff.mp hs
  obtain ⟨_, hp, hns, _, _, hret⟩ := readActive_eq hk
  obtain ⟨t', conn, hclient', hwait, hwait', _⟩ := readActive_client hI.kernel hk
  cases hclient.symm.trans hclient'
  obtain ⟨htried, ⟨hserved, _⟩ | ⟨_, _, hns', _⟩⟩ := (fits_waiting hwait).mp (hI.calls hc)
  · have hc' : ({ s with kernel := k }.serve (s.kernel.client h) (.pass value)).call t =
        some { c with served := ⟨1, [value]⟩ } := by
      rw [serve_self hclient, show ({ s with kernel := k } : CallState).call t = _ from hc,
        map_some, hserved]
      rfl
    have hgets := hright.returns hc' mem_cons_self
    have hret' : k.returned h = some value.toInt32.toInt64.toInt := by
      rw [hret, update_self]
    rw [exec_leave (inv_readActive hI.kernel hk).1 hc' htried hwait' hns hret', answer] at hgets
    split at hgets
    · cases hgets
    · rename_i hbusy
      exact (plain_iff value).mpr ⟨congrArg Ended.ret (some.inj hgets), hbusy⟩
  · rw [hp] at hns'
    cases hns'

end Leave

/-! ## 7. Runs -/

/-- A step that meets the condition of the kernel is right exactly when it meets the one of the
    library. -/
theorem step_right_iff {s s' : CallState} {a : CallAct} (hI : LibraryInv s) (hkernel : KernelOk s a)
    (hs : callStep s a = some s') : CallRight s' ↔ LibraryOk s a := by
  refine ⟨fun hright => ?_, fun hok => (hI.step hkernel hok hs).right⟩
  cases a with
  | ipcCall t connCap connect =>
    simp only [callStep, ipcCall] at hs
    split at hs
    · split at hs
      · rename_i hne
        exact .inl hne
      split at hs
      · cases hs
        -- a call that could not connect has returned, and nobody has served it
        obtain ⟨v, e, _⟩ := hright.ended (t := t) (update_self ..)
        cases e
      · exact .inr ⟨_, rfl⟩
    · cases hs
  | ipcReturn h value env | ipcReturnWithCap h value env capNum retCap =>
    exact returnOk_of_right hI hs hright
  | usysIpcCall | done | kernel => trivial

/-- **`ipc_call` over a run.** -/
theorem ipc_call_iff (as : List CallAct)
    (hkernel : ∀ tr ∈ trace callStep (CallState.init group shadow) as, KernelOk tr.pre tr.act) :
    (∀ tr ∈ trace callStep (CallState.init group shadow) as, CallRight tr.post) ↔
      ∀ tr ∈ trace callStep (CallState.init group shadow) as, LibraryOk tr.pre tr.act := by
  have hiff := trace_all_iff (I := LibraryInv)
    (C := fun s a => KernelOk s a ∧ LibraryOk s a)
    (G := fun tr => KernelOk tr.pre tr.act ∧ CallRight tr.post)
    (fun s a s' hI hs => and_congr_right fun hk => step_right_iff hI hk hs)
    (fun s a s' hI hC hs => hI.step hC.1 hC.2 hs) as _ (libraryInv_init group shadow)
  constructor
  · intro hright tr htr
    exact (hiff.mp (fun tr htr => ⟨hkernel tr htr, hright tr htr⟩) tr htr).2
  · intro hok tr htr
    exact (hiff.mpr (fun tr htr => ⟨hkernel tr htr, hok tr htr⟩) tr htr).2

/-! ## 8. Three runs -/

/-- Two connections, with the ids 0 and 1. -/
def twoConns : List CapAct :=
  [.group .ample 64, .alloc .connection 8, .publish .ample 0 0 7, .alloc .connection 8,
   .publish .ample 0 1 7]

def enterSteps : List CallAct := trySteps t .ample true ⟨true, fun _ => 0⟩

def returnSteps (h : ThreadPtr) (value : Int64) : List CallAct :=
  [.ipcReturn h value .ample, .kernel (.unlock h), .kernel (.resume h)]

/-- The thread 1 handles the connection 1. -/
def setUp : List CallAct :=
  twoConns.map (fun a => .kernel (.cap a)) ++ [.kernel (.register 1 1 none)]

/-- A message without capabilities. -/
def Act.sendsNone : Act → Bool
  | .sendCaps _ _ _ _ capNum => capNum = 0
  | _ => false

/-- Neither a registration nor a transfer of capabilities, and only plain values. -/
def CallAct.plain : CallAct → Bool
  | .ipcCall _ connCap _ => connCap ≠ 0
  | .ipcReturn _ value _ | .ipcReturnWithCap _ value _ _ _ => Plain value
  | .kernel a => a.plain || a.sendsNone
  | _ => true

theorem CallAct.plain_ok {s : CallState} {a : CallAct} (ha : a.plain = true) :
    KernelOk s a ∧ LibraryOk s a := by
  cases a with
  | ipcCall t connCap connect => exact ⟨trivial, .inl (of_decide_eq_true ha)⟩
  | ipcReturn | ipcReturnWithCap => exact ⟨trivial, fun _ _ _ _ => of_decide_eq_true ha⟩
  | usysIpcCall | done => exact ⟨trivial, trivial⟩
  | kernel a =>
  refine ⟨?_, trivial⟩
  rcases (or_eq_true _ _).mp ha with ha | ha
  · exact callOk_plain ha
  · cases a with
    | sendCaps t env buf msg capNum => exact fun m _ hne => absurd (of_decide_eq_true ha) hne
    | _ => cases ha

theorem exec_cap_phase (as : List CapAct) {s s' : CallState}
    (hs : exec callStep s (as.map fun a => .kernel (.cap a)) = some s') :
    s'.kernel.phase = s.kernel.phase := by
  induction as generalizing s with
  | nil =>
    cases hs
    rfl
  | cons a as ih =>
    obtain ⟨s1, hstep, hrest⟩ := bind_eq_some_iff.mp hs
    obtain ⟨k, hk, rfl⟩ := map_eq_some_iff.mp hstep
    obtain ⟨caps, _, rfl⟩ := map_eq_some_iff.mp hk
    have hphase := ih hrest
    exact hphase

/-- After `setUp`, a run of plain steps meets both conditions. -/
theorem setUp_ok {as : List CallAct} (has : ∀ a ∈ as, a.plain = true) :
    ∀ tr ∈ trace callStep (CallState.init (fun _ => 0) (· = 1)) (setUp ++ as),
      KernelOk tr.pre tr.act ∧ LibraryOk tr.pre tr.act := by
  intro tr htr
  unfold setUp at htr
  rw [append_assoc, singleton_append] at htr
  rcases trace_append _ _ _ htr with htr | ⟨s, hs, htr⟩
  · obtain ⟨a, _, e⟩ := mem_map.mp (trace_act_mem _ _ htr)
    rw [← e]
    exact ⟨trivial, trivial⟩
  obtain ⟨s', -, rfl | htr⟩ := mem_trace_cons.mp htr
  · -- nobody is in a call when the handler is registered
    refine ⟨fun t e => ?_, trivial⟩
    rw [exec_cap_phase _ hs] at e
    simp only [CallState.init, State.init] at e
    split at e <;> cases e
  · exact CallAct.plain_ok (has _ (trace_act_mem _ _ htr))

/-- The client 2 finds the handler busy with the client 0, and calls again. -/
def busySteps : List CallAct :=
  .ipcCall 0 1 (.error (-1)) :: enterSteps 0 ++
  [.ipcCall 2 1 (.error (-1)), .usysIpcCall 2 .ample, .kernel (.tryLock 2)] ++
  returnSteps 1 5 ++ .done 0 :: enterSteps 2 ++ returnSteps 1 (-7) ++ [.done 2]

theorem ipc_call_busy :
    ((exec callStep (CallState.init (fun _ => 0) (· = 1)) (setUp ++ busySteps)).bind (·.ended 2)) =
      some ⟨-7, ⟨1, [-7]⟩⟩ ∧
    ∀ tr ∈ trace callStep (CallState.init (fun _ => 0) (· = 1)) (setUp ++ busySteps),
      CallRight tr.post := by
  have hplain : ∀ a ∈ busySteps, a.plain = true := by decide
  have hok := setUp_ok hplain
  exact ⟨by decide +kernel, (ipc_call_iff _ _ _ fun tr htr => (hok tr htr).1).mpr
    fun tr htr => (hok tr htr).2⟩

/-- The handler returns `-EAGAIN`. -/
def againRun : List CallAct :=
  setUp ++ .ipcCall 0 1 (.error (-1)) :: enterSteps 0 ++ returnSteps 1 (-11) ++ enterSteps 0

/-- The handler returns 2³². -/
def wideRun : List CallAct :=
  setUp ++ .ipcCall 0 1 (.error (-1)) :: enterSteps 0 ++ returnSteps 1 (2 ^ 32) ++ [.done 0]

/-- **A handler that returns `-EAGAIN` runs again for the same call, and a value that is no `int`
    arrives as another one.** -/
theorem ipc_call_broken :
    (¬ ∀ tr ∈ trace callStep (CallState.init (fun _ => 0) (· = 1)) againRun, CallRight tr.post) ∧
    ¬ ∀ tr ∈ trace callStep (CallState.init (fun _ => 0) (· = 1)) wideRun, CallRight tr.post := by
  constructor
  · intro h
    have hend : (exec callStep (CallState.init (fun _ => 0) (· = 1)) againRun).any
        (fun s => ∃ c ∈ s.call 0, c.served.starts = 2) = true := by decide +kernel
    obtain ⟨tr, htr, c, hc, hbad⟩ := trace_of_exec hend
    have honce := (h tr htr).once hc
    omega
  intro h
  have hend : (exec callStep (CallState.init (fun _ => 0) (· = 1)) wideRun).any
      (fun s => s.ended 0 = some ⟨0, ⟨1, [2 ^ 32]⟩⟩) = true := by decide +kernel
  obtain ⟨tr, htr, hbad⟩ := trace_of_exec hend
  obtain ⟨v, hserved, hret⟩ := (h tr htr).ended hbad
  cases hserved
  exact absurd hret (by decide)

end ChCore.Ipc
