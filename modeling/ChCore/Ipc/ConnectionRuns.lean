/-
  File: ChCore/Ipc/ConnectionRuns.lean
  Subject: Runs of IPC calls: whom a handler thread works for, and who holds its lock.

  What a handler thread does is a cycle of six situations (`Service`): idle; entered by a client who
  has the lock and is not there yet; serving a client; returning to it; leaving, with the lock free;
  leaving, with the lock already taken by the next client. `View` reads the situation off the
  memory of the kernel.

  * `ipc_service_run` -- in every run that registers no handler thread in use and returns no error
    with the lock taken, a handler works for at most one client, its lock is held exactly from
    `try_lock` to `unlock` around one service, and every return resumes the client that called,
    with the value of that return.
-/
import ChCore.Ipc.Connection

namespace ChCore.Ipc

open Lib Capability Function Option

/-! ## 1. The cycle of a handler thread -/

/-- The situation of a handler thread. -/
inductive Service where
  | idle
  /-- `t` has the lock, before the switch -/
  | entering (t : ThreadPtr)
  | serving (c : ThreadPtr) (conn : ObjPtr)
  /-- in `sys_ipc_return`, with the lock -/
  | returning (c : ThreadPtr) (conn : ObjPtr) (v : Int)
  /-- after `unlock`, when the next client may have taken the lock -/
  | leaving (c : ThreadPtr) (conn : ObjPtr) (v : Int) (next : Option ThreadPtr)

/-- **The cycle.** -/
inductive Service.Next : Service → Service → Prop
  | enter (t) : Next .idle (.entering t)
  | serve (t conn) : Next (.entering t) (.serving t conn)
  | finish (c conn v) : Next (.serving c conn) (.returning c conn v)
  | release (c conn v) : Next (.returning c conn v) (.leaving c conn v none)
  | wait (c conn v t) : Next (.leaving c conn v none) (.leaving c conn v (some t))
  | resume (c conn v) : Next (.leaving c conn v none) .idle
  | handOver (c conn v t) : Next (.leaving c conn v (some t)) (.entering t)

/-- The thread in `sys_ipc_call` or `sys_ipc_send_cap` with the lock. -/
def Service.holder : Service → Option ThreadPtr
  | .entering t => some t
  | .leaving _ _ _ next => next
  | _ => none

/-- The client the handler works for, and its connection. -/
def Service.client : Service → Option (ThreadPtr × ObjPtr)
  | .serving c conn => some (c, conn)
  | .returning c conn _ => some (c, conn)
  | .leaving c conn _ _ => some (c, conn)
  | _ => none

def Service.locked : Service → Bool
  | .idle => false
  | .leaving _ _ _ next => next.isSome
  | _ => true

/-- The value being returned. -/
def Service.value : Service → Option Int
  | .returning _ _ v => some v
  | .leaving _ _ v _ => some v
  | _ => none

/-! ## 2. The cycle in the memory of the kernel -/

/-- A handler thread before its `sys_ipc_return`: in user space, in a call of its own, or waiting
    for another handler. -/
def Phase.serving : Phase → Bool
  | .user => true
  | .calling .. => true
  | .waiting .. => true
  | _ => false

/-- The handler thread a call is on its way to, or waits for. -/
def Phase.target : Phase → Option ThreadPtr
  | .calling _ _ _ h _ => some h
  | .waiting _ h => some h
  | _ => none

/-- In a system call with the lock of `h`, before the switch to `h`. -/
def Phase.Holds (p : Phase) (h : ThreadPtr) : Prop :=
  ∃ sys st conn cfg, p = .calling sys st conn h cfg ∧ st.holds = true

/-- `ipc_lock` of the handler thread. -/
def lockHeld (s : State) (h : ThreadPtr) : Bool :=
  ((s.config h).bind s.configs).any (·.ipcLock)

/-- `active_conn` of the handler thread. -/
def activeConn (s : State) (h : ThreadPtr) : Option ObjPtr :=
  ((s.config h).bind s.configs).bind (·.activeConn)

/-- The phase of the handler thread itself. -/
def Service.Fits (s : State) (h : ThreadPtr) : Service → Prop
  | .idle => s.phase h = .parked
  | .entering _ => s.phase h = .parked
  | .serving .. => (s.phase h).serving = true
  | .returning c _ v => ∃ cfg, s.phase h = .returning cfg c v ∧ s.config h = some cfg
  | .leaving c _ v _ => s.phase h = .leaving c v

/-- **The handler thread `h` is in the situation `svc`.** -/
structure View (s : State) (h : ThreadPtr) (svc : Service) : Prop where
  locked : lockHeld s h = svc.locked
  holder : ∀ t, (s.phase t).Holds h ↔ svc.holder = some t
  client : ∀ c conn, s.phase c = .waiting conn h ↔ svc.client = some (c, conn)
  fits : svc.Fits s h
  -- the call that `sys_ipc_return` will find
  active : ∀ {c conn}, svc = .serving c conn → activeConn s h = some conn ∧
    s.conns conn = some ⟨some c, h⟩
  caller : ∀ {c conn}, svc.client = some (c, conn) → s.client h = some c
  value : ∀ {v}, svc.value = some v → s.returned h = some v ∧ activeConn s h = none
  -- the next client cannot get past its wait for the kernel stack
  next : ∀ {c conn v t}, svc = .leaving c conn v (some t) →
    ∃ sys conn cfg, s.phase t = .calling sys .locked conn h cfg

/-- Every registered handler thread has a configuration block of its own. -/
structure ConfigInv (s : State) : Prop where
  lt : ∀ {h cfg}, s.config h = some cfg → cfg < s.nextConfig
  unique : ∀ {h k cfg}, s.config h = some cfg → s.config k = some cfg → h = k
  block : ∀ {h cfg}, s.config h = some cfg → s.shadow h = true ∧ ∃ hc, s.configs cfg = some hc
  conn : ∀ {conn c}, s.conns conn = some c → ∃ cfg, s.config c.serverHandlerThread = some cfg

/-- What a phase of the thread `t` says about registrations. -/
structure PhaseOk (s : State) (t : ThreadPtr) (p : Phase) : Prop where
  calling : ∀ {sys st conn h cfg}, p = .calling sys st conn h cfg →
    s.config h = some cfg ∧ ∃ c, s.conns conn = some c ∧ c.serverHandlerThread = h
  waiting : ∀ {conn h}, p = .waiting conn h → s.shadow h = true
  normal : s.shadow t = false → p.serving = true

/-- **The invariant of a run of calls.** -/
structure CallInv (s : State) : Prop where
  configs : ConfigInv s
  phases : ∀ t, PhaseOk s t (s.phase t)
  service : ∀ {h}, s.shadow h = true → ∃ svc, View s h svc

theorem callInv_init (group : ThreadPtr → GroupPtr) (shadow : ThreadPtr → Bool) :
    CallInv (State.init group shadow) := by
  have hphase : ∀ {t p}, (State.init group shadow).phase t = p → p = .parked ∨ p = .user := by
    intro t p hp
    simp only [State.init] at hp
    split at hp
    · exact .inl hp.symm
    · exact .inr hp.symm
  refine ⟨⟨nofun, nofun, nofun,
    nofun⟩, fun t => ⟨fun e => ?_, fun e => ?_, fun hs => ?_⟩, fun {h} hs => ?_⟩
  · rcases hphase e with h | h <;> cases h
  · rcases hphase e with h | h <;> cases h
  · simp [State.init, show shadow t = false from hs, Phase.serving]
  refine ⟨.idle, rfl, fun t => ⟨?_, nofun⟩, fun c conn => ⟨fun e => ?_, nofun⟩, if_pos hs, nofun,
    nofun, nofun, nofun⟩
  · rintro ⟨_, _, _, _, e, _⟩
    rcases hphase e with h | h <;> cases h
  · rcases hphase e with h | h <;> cases h

/-! ## 3. The steps -/

section Steps

variable {s s' : State} {t : ThreadPtr}

theorem setPhase_self (s : State) (t : ThreadPtr) (p : Phase) : (s.setPhase t p).phase t = p :=
  update_self ..

variable {k : ThreadPtr} {p : Phase} {svc : Service} {conn : ObjPtr} {sys : Sys} {cfg : ConfigPtr}
  {hc : HandlerConfig}

theorem setPhase_ne (s : State) {t : ThreadPtr} (p : Phase) (h : k ≠ t) :
    (s.setPhase t p).phase k = s.phase k :=
  update_of_ne h ..

theorem setPhase_all {Q : ThreadPtr → Phase → Prop} (h : ∀ a, Q a (s.phase a)) (ht : Q t p)
    (a : ThreadPtr) : Q a ((s.setPhase t p).phase a) := by
  by_cases ha : a = t
  · rw [ha, setPhase_self]
    exact ht
  · rw [setPhase_ne s p ha]
    exact h a

theorem setPhase_iff {Q : Phase → Prop} (h : Q p ↔ Q (s.phase t)) (a : ThreadPtr) :
    Q ((s.setPhase t p).phase a) ↔ Q (s.phase a) := by
  by_cases ha : a = t
  · rw [ha, setPhase_self, h]
  · rw [setPhase_ne s p ha]

@[simp] theorem holds_calling {sys : Sys} {st : Stage} {conn : ObjPtr} {h k : ThreadPtr}
    {cfg : ConfigPtr} : (Phase.calling sys st conn h cfg).Holds k ↔ h = k ∧ st.holds = true := by
  constructor
  · rintro ⟨_, _, _, _, e, hst⟩
    cases e
    exact ⟨rfl, hst⟩
  · rintro ⟨rfl, hst⟩
    exact ⟨_, _, _, _, rfl, hst⟩

theorem Phase.Holds.target (h : p.Holds k) : p.target = some k := by
  obtain ⟨_, _, _, _, rfl, _⟩ := h
  rfl

theorem not_holds (hp : ∀ sys st conn h cfg, p ≠ .calling sys st conn h cfg) : ¬ p.Holds k :=
  fun ⟨_, _, _, _, e, _⟩ => hp _ _ _ _ _ e

theorem Service.Fits.serving {h : ThreadPtr} (hf : svc.Fits s h) (hp : (s.phase h).serving = true) :
    ∃ c conn, svc = .serving c conn := by
  cases svc with
  | serving c conn => exact ⟨c, conn, rfl⟩
  | idle | entering | leaving =>
    rw [show s.phase h = _ from hf] at hp
    cases hp
  | returning =>
    obtain ⟨cfg, hf, _⟩ := hf
    rw [hf] at hp
    cases hp

theorem Service.Fits.congr (hf : svc.Fits s k) (hphase : s'.phase k = s.phase k)
    (hcfg : s'.config k = s.config k) : svc.Fits s' k := by
  unfold Service.Fits at hf ⊢
  rw [hphase, hcfg]
  exact hf

/-- What a step does elsewhere does not change the situation of `k`. -/
theorem View.frame (hv : View s k svc) (hphase : s'.phase = s.phase)
    (hcfg : s'.config k = s.config k)
    (hblock : (s'.config k).bind s'.configs = (s.config k).bind s.configs)
    (hconns : ∀ c conn, s.conns conn = some ⟨some c, k⟩ → s'.conns conn = some ⟨some c, k⟩)
    (hclient : s'.client k = s.client k) (hret : s'.returned k = s.returned k) : View s' k svc where
  locked := by
    unfold lockHeld
    rw [hblock]
    exact hv.locked
  holder := by
    rw [hphase]
    exact hv.holder
  client := by
    rw [hphase]
    exact hv.client
  fits := hv.fits.congr (congrFun hphase k) hcfg
  active e := by
    unfold activeConn
    rw [hblock]
    exact ⟨(hv.active e).1, hconns _ _ (hv.active e).2⟩
  caller e := hclient.trans (hv.caller e)
  value e := by
    unfold activeConn
    rw [hblock, hret]
    exact hv.value e
  next e := by
    rw [hphase]
    exact hv.next e

/-- A thread goes on to `p`, and neither takes part in a call to `k` nor leaves one. -/
theorem View.setPhase (hv : View s k svc) (hfits : k = t → svc.Fits (s.setPhase t p) k)
    (hholds : p.Holds k ↔ (s.phase t).Holds k)
    (hwaits : ∀ conn, p = .waiting conn k ↔ s.phase t = .waiting conn k)
    (hnext : ∀ c conn v, svc ≠ .leaving c conn v (some t)) : View (s.setPhase t p) k svc where
  locked := hv.locked
  holder a := (setPhase_iff (Q := (·.Holds k)) hholds a).trans (hv.holder a)
  client c conn := (setPhase_iff (Q := (· = _)) (hwaits conn) c).trans (hv.client c conn)
  fits := by
    by_cases hk : k = t
    · exact hfits hk
    · exact hv.fits.congr (setPhase_ne s p hk) rfl
  active := hv.active
  caller := hv.caller
  value := hv.value
  next {c conn v a} e := by
    have ha : a ≠ t := fun ha => hnext c conn v (ha ▸ e)
    rw [setPhase_ne s p ha]
    exact hv.next e

theorem View.ne_leaving {c : ThreadPtr} {v : Int} (hv : View s k svc)
    (hp : ∀ sys conn h cfg, s.phase t ≠ .calling sys .locked conn h cfg) :
    svc ≠ .leaving c conn v (some t) := by
  intro e
  obtain ⟨_, _, _, hl⟩ := hv.next e
  exact hp _ _ _ _ hl

theorem View.setPhase_serving (hv : View s k svc) (hq : (s.phase t).serving = true)
    (hp : p.serving = true) (hholds : p.Holds k ↔ (s.phase t).Holds k)
    (hwaits : ∀ conn, p = .waiting conn k ↔ s.phase t = .waiting conn k)
    (hnext : ∀ c conn v, svc ≠ .leaving c conn v (some t)) : View (s.setPhase t p) k svc := by
  refine hv.setPhase (fun hk => ?_) hholds hwaits hnext
  subst hk
  obtain ⟨c, conn, rfl⟩ := hv.fits.serving hq
  show ((s.setPhase k p).phase k).serving = true
  rw [setPhase_self]
  exact hp

/-- The same for another thread that has no part in a call before and after. -/
theorem View.setPhase_other (hv : View s k svc) (hne : k ≠ t) (hq : (s.phase t).target = none)
    (hp : p.target = none) : View (s.setPhase t p) k svc := by
  have hno : ∀ {q : Phase}, q.target = none → ¬ q.Holds k ∧ ∀ conn, q ≠ .waiting conn k := by
    refine fun hq => ⟨fun e => ?_, fun conn e => ?_⟩
    · rw [e.target] at hq
      cases hq
    · rw [e] at hq
      cases hq
  refine hv.setPhase (fun hk => absurd hk hne) (iff_of_false (hno hp).1 (hno hq).1)
    (fun conn => iff_of_false ((hno hp).2 conn) ((hno hq).2 conn))
    fun _ _ _ => hv.ne_leaving fun _ _ _ _ e => ?_
  rw [e] at hq
  cases hq

/-- **Every handler thread stays where it is in its cycle, or goes one step on.** -/
def Moves (s s' : State) : Prop :=
  ∀ k svc, s.shadow k = true → View s k svc → ∃ svc', View s' k svc' ∧ (svc' = svc ∨ svc.Next svc')

theorem View.caps {k : ThreadPtr} {svc : Service} (hv : View s k svc) (caps : Caps)
    (result : ThreadPtr → Option Int) : View { s with caps := caps, result := result } k svc :=
  hv.frame rfl rfl rfl (fun _ _ e => e) rfl rfl

theorem PhaseOk.congr {a : ThreadPtr} (h : PhaseOk s a p) (hcfg : s'.config = s.config)
    (hconns : ∀ {conn c}, s.conns conn = some c → ∃ c', s'.conns conn = some c' ∧ c'.serverHandlerThread = c.serverHandlerThread)
    (hshadow : s'.shadow = s.shadow) : PhaseOk s' a p where
  calling e := by
    obtain ⟨hc, c, hconn, hh⟩ := h.calling e
    obtain ⟨c', hconn', hh'⟩ := hconns hconn
    exact ⟨hcfg ▸ hc, c', hconn', hh'.trans hh⟩
  waiting e := hshadow ▸ h.waiting e
  normal hs := h.normal (hshadow ▸ hs)

theorem CallInv.caps (h : CallInv s) (caps : Caps) (result : ThreadPtr → Option Int) :
    CallInv { s with caps := caps, result := result } where
  configs := { h.configs with }
  phases a := (h.phases a).congr rfl (fun e => ⟨_, e, rfl⟩) rfl
  service hs := (h.service hs).imp fun _ hv => hv.caps caps result

theorem Moves.caps (h : Moves s s') (caps : Caps) (result : ThreadPtr → Option Int) :
    Moves s { s' with caps := caps, result := result } := by
  intro k svc hk hv
  obtain ⟨svc', hv', hn⟩ := h k svc hk hv
  exact ⟨svc', hv'.caps caps result, hn⟩

/-- **The step of a thread inside its own call**: no lock is taken or lost. -/
theorem inv_setPhase (h : CallInv s) (hq : (s.phase t).serving = true) (hp : p.serving = true)
    (hcall : ∀ {sys st conn k cfg}, p = .calling sys st conn k cfg → s.config k = some cfg ∧ ∃ c, s.conns conn = some c ∧ c.serverHandlerThread = k)
    (hholds : ∀ k, p.Holds k ↔ (s.phase t).Holds k)
    (hwaits : ∀ conn k, p = .waiting conn k ↔ s.phase t = .waiting conn k)
    (hnext : ∀ {k svc c conn v}, View s k svc → svc ≠ .leaving c conn v (some t)) :
    CallInv (s.setPhase t p) ∧ Moves s (s.setPhase t p) := by
  have hmoves : ∀ {k svc}, View s k svc → View (s.setPhase t p) k svc := fun hv =>
    hv.setPhase_serving hq hp (hholds _) (fun conn => hwaits conn _) fun _ _ _ => hnext hv
  have hphases : ∀ a, PhaseOk s a ((s.setPhase t p).phase a) :=
    setPhase_all h.phases ⟨hcall, fun e => (h.phases t).waiting ((hwaits _ _).mp e), fun _ => hp⟩
  refine ⟨⟨{ h.configs with }, fun a => (hphases a).congr rfl (fun e => ⟨_, e, rfl⟩) rfl,
    fun hs => (h.service hs).imp fun _ => hmoves⟩, fun k svc _ hv => ⟨svc, hmoves hv, .inl rfl⟩⟩

theorem inv_lookUp (h : CallInv s) {env : Env} {connCap : Int}
    (hs : lookUp s t sys env connCap = some s') : CallInv s' ∧ Moves s s' := by
  unfold lookUp at hs
  split at hs
  · rename_i conn caps hp _
    split at hs
    · cases hs
    rename_i c hc
    split at hs
    · cases hs
    rename_i cfg hcfg
    cases hs
    have hinv := inv_setPhase (t := t) (p := .calling sys .looked conn c.serverHandlerThread cfg) h
      (by rw [hp]; rfl) rfl (fun e => by cases e; exact ⟨hcfg, c, hc, rfl⟩)
      (fun k => by simp [hp, Stage.holds, not_holds]) (fun conn k => by simp [hp])
      (fun hv => hv.ne_leaving (by simp [hp]))
    exact ⟨hinv.1.caps caps s.result, hinv.2.caps caps s.result⟩
  · cases hs

theorem inv_refused (h : CallInv s) (hp : s.phase t = .calling sys .looked conn k cfg) :
    CallInv (s.setPhase t .user) ∧ Moves s (s.setPhase t .user) :=
  inv_setPhase h (by rw [hp]; rfl) rfl nofun
    (fun k => by simp [hp, Stage.holds, not_holds]) (fun conn k => by simp [hp])
    (fun hv => hv.ne_leaving (by simp [hp]))

theorem inv_onward (h : CallInv s) {st st' : Stage} (hp : s.phase t = .calling sys st conn k cfg)
    (hst : st.holds = true) (hst' : st'.holds = true)
    (hnext : ∀ {k svc c conn v}, View s k svc → svc ≠ .leaving c conn v (some t)) :
    CallInv (s.setPhase t (.calling sys st' conn k cfg)) ∧
      Moves s (s.setPhase t (.calling sys st' conn k cfg)) :=
  inv_setPhase h (by rw [hp]; rfl) rfl (fun e => by cases e; exact (h.phases t).calling hp)
    (fun k => by simp [hp, hst, hst']) (fun conn k => by simp [hp]) hnext

theorem block_setConfig_ne (hc : HandlerConfig) (hne : s.config k ≠ some cfg) :
    (s.config k).bind (s.setConfig cfg hc).configs = (s.config k).bind s.configs := by
  cases hk : s.config k with
  | none => rfl
  | some cfg' =>
    refine update_of_ne (fun e => hne ?_) ..
    rw [hk, e]

theorem lockHeld_eq (hk : s.config k = some cfg) (hb : s.configs cfg = some hc) :
    lockHeld s k = hc.ipcLock := by
  unfold lockHeld
  rw [hk, bind_some, hb]
  rfl

theorem activeConn_eq (hk : s.config k = some cfg) (hb : s.configs cfg = some hc) :
    activeConn s k = hc.activeConn := by
  unfold activeConn
  rw [hk, bind_some, hb]
  rfl

theorem ConfigInv.setConfig (h : ConfigInv s) (cfg : ConfigPtr) (hc : HandlerConfig) :
    ConfigInv (s.setConfig cfg hc) where
  lt := h.lt
  unique := h.unique
  block {a cfg'} ha := by
    refine ⟨(h.block ha).1, ?_⟩
    by_cases e : cfg' = cfg
    · exact ⟨hc, by rw [e]; exact update_self ..⟩
    · obtain ⟨hc', hb⟩ := (h.block ha).2
      exact ⟨hc', (update_of_ne e ..).trans hb⟩
  conn := h.conn

/-- The situations in which the lock is free, and what they become when `t` takes it. -/
theorem Service.locked_by (hl : svc.locked = false) (t : ThreadPtr) :
    ∃ svc', svc.Next svc' ∧ svc'.locked = true ∧ svc.holder = none ∧ svc'.holder = some t ∧
      svc'.client = svc.client ∧ svc'.value = svc.value ∧ (∀ s h, svc.Fits s h → svc'.Fits s h) ∧
      ∀ c conn, svc' ≠ .serving c conn := by
  cases svc with
  | idle =>
    exact ⟨.entering t, .enter t, rfl, rfl, rfl, rfl, rfl, fun _ _ e => e, nofun⟩
  | leaving c conn v next =>
    cases next with
    | none =>
      exact ⟨.leaving c conn v (some t), .wait c conn v t, rfl, rfl, rfl, rfl, rfl, fun _ _ e => e,
        nofun⟩
    | some _ => cases hl
  | entering | serving | returning => cases hl

/-- **A step that concerns one handler.** -/
theorem CallInv.move (h : CallInv s) (k : ThreadPtr) (hshadow : s'.shadow = s.shadow)
    (hcfg : ConfigInv s') (hphases : ∀ a, PhaseOk s' a (s'.phase a))
    (hk : ∀ {svc}, View s k svc → ∃ svc', View s' k svc' ∧ (svc' = svc ∨ svc.Next svc'))
    (hother : ∀ {a svc}, a ≠ k → View s a svc → View s' a svc) : CallInv s' ∧ Moves s s' := by
  have hmoves : Moves s s' := by
    intro a svc _ hv
    by_cases e : a = k
    · subst e
      exact hk hv
    · exact ⟨svc, hother e hv, .inl rfl⟩
  refine ⟨⟨hcfg, hphases, fun {a} ha => ?_⟩, hmoves⟩
  rw [hshadow] at ha
  obtain ⟨svc, hv⟩ := h.service ha
  obtain ⟨svc', hv', _⟩ := hmoves a svc ha hv
  exact ⟨svc', hv'⟩

/-- **`try_lock` succeeds.** The handler is idle, or still leaving its last client. -/
theorem inv_locked (h : CallInv s) (hp : s.phase t = .calling sys .looked conn k cfg)
    (hb : s.configs cfg = some hc) (hfree : hc.ipcLock = false)
    (hs : s' = (s.setConfig cfg { hc with ipcLock := true }).setPhase t (.calling sys .locked conn k cfg)) :
    CallInv s' ∧ Moves s s' := by
  subst hs
  obtain ⟨hcfg, hconn⟩ := (h.phases t).calling hp
  have hq : (s.phase t).serving = true := by
    rw [hp]
    rfl
  have hphases : ∀ a, PhaseOk s a (((s.setConfig cfg { hc with ipcLock := true }).setPhase t
      (.calling sys .locked conn k cfg)).phase a) :=
    setPhase_all h.phases
      ⟨fun e => by cases e; exact ⟨hcfg, hconn⟩, nofun, fun _ => rfl⟩
  refine h.move k rfl ?_ (fun a => (hphases a).congr rfl (fun e => ⟨_, e, rfl⟩) rfl) ?_ ?_
  · exact { h.configs.setConfig cfg { hc with ipcLock := true } with }
  · intro svc hv
    have hl : svc.locked = false := hv.locked.symm.trans ((lockHeld_eq hcfg hb).trans hfree)
    obtain ⟨svc', hnext, hlock, hnone, hholder, hclient, hvalue, hfits, hserve⟩ :=
      Service.locked_by hl t
    have hkt : k ≠ t := by
      rintro rfl
      obtain ⟨c, conn, rfl⟩ := hv.fits.serving hq
      cases hl
    refine ⟨svc', ⟨?_, fun a => ?_, fun c conn' => ?_,
      hfits _ _ (hv.fits.congr (setPhase_ne _ _ hkt) rfl),
      fun e => absurd e (hserve _ _), fun e => hv.caller (hclient ▸ e),
      fun e => ⟨(hv.value (hvalue ▸ e)).1, ?_⟩, fun {c conn' v a} e => ?_⟩, .inr hnext⟩
    · exact Eq.trans (lockHeld_eq hcfg (update_self ..)) hlock.symm
    · rw [hholder]
      by_cases ha : a = t
      · rw [ha, setPhase_self]
        simp [Stage.holds]
      · rw [setPhase_ne _ _ ha]
        exact (hv.holder a).trans (by simp [hnone, Ne.symm ha])
    · rw [hclient, ← hv.client]
      exact setPhase_iff (Q := (· = _)) (by simp [State.setConfig, hp]) c
    · refine Eq.trans ?_ (hv.value (hvalue ▸ e)).2
      exact Eq.trans (activeConn_eq hcfg (update_self ..)) (activeConn_eq hcfg hb).symm
    · rw [e] at hholder
      cases hholder
      exact ⟨sys, conn, cfg, setPhase_self ..⟩
  intro a svc hne hv
  have hv' : View (s.setConfig cfg { hc with ipcLock := true }) a svc :=
    hv.frame rfl rfl (block_setConfig_ne _ fun e => hne (h.configs.unique e hcfg))
      (fun _ _ e => e) rfl rfl
  refine hv'.setPhase_serving hq rfl ?_ (fun conn => ?_) (fun _ _ _ => hv.ne_leaving ?_)
  · show _ ↔ (s.phase t).Holds a
    simp [hp, hne.symm]
  · show _ ↔ s.phase t = _
    simp [hp]
  · simp [hp]

/-- A thread with the lock and past the wait for the kernel stack: the handler is entered. -/
theorem View.entering (hv : View s k svc) (ht : (s.phase t).Holds k)
    (hp : ∀ sys conn h cfg, s.phase t ≠ .calling sys .locked conn h cfg) : svc = .entering t := by
  have hholder := (hv.holder t).mp ht
  cases svc with
  | entering a =>
    cases hholder
    rfl
  | leaving c conn v next =>
    cases hholder
    exact absurd rfl (hv.ne_leaving hp)
  | idle | serving | returning => cases hholder

section

variable (h : CallInv s)

include h

theorem CallInv.parked (hp : s.phase t = .calling sys .sent conn k cfg) : s.phase k = .parked := by
  obtain ⟨hcfg, _⟩ := (h.phases t).calling hp
  obtain ⟨svc, hv⟩ := h.service (h.configs.block hcfg).1
  cases hv.entering (by rw [hp]; exact holds_calling.mpr ⟨rfl, rfl⟩) (by simp [hp])
  exact hv.fits

/-- **The switch to the handler.** -/
theorem inv_migrate (hp : s.phase t = .calling sys .sent conn k cfg)
    (hs : threadMigrateToServer s t conn = some s') : CallInv s' ∧ Moves s s' := by
  have hparked := h.parked hp
  obtain ⟨hcfg, c, hconn, rfl⟩ := (h.phases t).calling hp
  obtain ⟨hshadow, hc, hb⟩ := h.configs.block hcfg
  simp only [threadMigrateToServer, hconn, hcfg, hb] at hs
  obtain ⟨caps, _, rfl⟩ := map_eq_some_iff.mp hs
  generalize hk : c.serverHandlerThread = k at *
  have hholds : (s.phase t).Holds k := by
    rw [hp]
    exact holds_calling.mpr ⟨rfl, rfl⟩
  have hentering : ∀ {svc}, View s k svc → svc = .entering t := fun hv =>
    hv.entering hholds (by simp [hp])
  have hkt : k ≠ t := by
    rintro rfl
    rw [hp] at hparked
    cases hparked
  -- the memory first, then the two threads
  let s1 : State := { s.setConfig cfg { hc with activeConn := some conn } with
    caps := caps
    conns := update s.conns conn (some ⟨some t, k⟩)
    client := update s.client k (some t) }
  have hphases : ∀ a, PhaseOk s a (((s1.setPhase t (.waiting conn k)).setPhase k .user).phase a) := by
    refine setPhase_all (setPhase_all h.phases ⟨nofun, fun e => ?_, fun _ => rfl⟩)
      ⟨nofun, nofun, fun _ => rfl⟩
    cases e
    exact hshadow
  have hconns : ∀ {conn' c'}, s.conns conn' = some c' →
      ∃ c1, s1.conns conn' = some c1 ∧ c1.serverHandlerThread = c'.serverHandlerThread := by
    intro conn' c' e
    by_cases hne : conn' = conn
    · subst hne
      cases hconn.symm.trans e
      exact ⟨_, update_self .., hk.symm⟩
    · exact ⟨c', (update_of_ne hne ..).trans e, rfl⟩
  refine h.move k rfl ?_ (fun a => (hphases a).congr rfl hconns rfl) ?_ ?_
  · have hcfgs := h.configs.setConfig cfg { hc with activeConn := some conn }
    refine ⟨hcfgs.lt, hcfgs.unique, hcfgs.block, fun {conn' c'} e => ?_⟩
    by_cases hne : conn' = conn
    · subst hne
      cases (update_self ..).symm.trans e
      exact ⟨cfg, hcfg⟩
    · exact h.configs.conn ((update_of_ne hne ..).symm.trans e)
  · intro svc hv
    cases hentering hv
    refine ⟨.serving t conn, ⟨?_, fun a => ?_, fun a conn' => ?_, ?_, fun e => ?_, fun e => ?_,
      nofun, nofun⟩, .inr (.serve t conn)⟩
    · exact Eq.trans (lockHeld_eq hcfg (update_self ..)) ((lockHeld_eq hcfg hb).symm.trans hv.locked)
    · refine ⟨fun ha => ?_, nofun⟩
      by_cases hak : a = k
      · rw [hak, setPhase_self] at ha
        exact absurd ha (not_holds (by simp))
      rw [setPhase_ne _ _ hak] at ha
      by_cases hat : a = t
      · rw [hat, setPhase_self] at ha
        exact absurd ha (not_holds (by simp))
      · rw [setPhase_ne _ _ hat] at ha
        cases (hv.holder a).mp ha
        exact absurd rfl hat
    · by_cases hak : a = k
      · rw [hak, setPhase_self]
        exact ⟨nofun, fun e => by cases e; exact absurd rfl hkt⟩
      rw [setPhase_ne _ _ hak]
      by_cases hat : a = t
      · rw [hat, setPhase_self]
        simp [Service.client]
      rw [setPhase_ne _ _ hat]
      refine (hv.client a conn').trans ⟨nofun, fun e => ?_⟩
      cases e
      exact absurd rfl hat
    · show (Phase.serving (State.phase _ k)) = true
      rw [setPhase_self]
      rfl
    · cases e
      exact ⟨Eq.trans (activeConn_eq hcfg (update_self ..)) rfl, update_self ..⟩
    · cases e
      exact update_self ..
  intro a svc hne hv
  have hv1 : View s1 a svc := by
    refine hv.frame rfl rfl (block_setConfig_ne _ fun e => hne (h.configs.unique e hcfg))
      (fun c' conn' e => ?_) (update_of_ne hne ..) rfl
    have hne' : conn' ≠ conn := by
      rintro rfl
      cases hconn.symm.trans e
      exact hne hk
    exact (update_of_ne hne' ..).trans e
  have hv2 : View (s1.setPhase t (.waiting conn k)) a svc := by
    refine hv1.setPhase_serving (congrArg Phase.serving hp) rfl ?_ (fun conn => ?_)
      (fun _ _ _ => hv.ne_leaving ?_)
    · show _ ↔ (s.phase t).Holds a
      simp [hp, hne.symm, not_holds]
    · show _ ↔ s.phase t = _
      simp [hp, hne.symm]
    · simp [hp]
  have hk2 : (s1.setPhase t (.waiting conn k)).phase k = .parked := (setPhase_ne _ _ hkt).trans hparked
  exact hv2.setPhase_other hne (congrArg Phase.target hk2) rfl

/-- **A step of the handler thread itself**: it is in no call of its own before and after, and its
    configuration block becomes `hc`. -/
theorem inv_own (caps : Caps) (returned : ThreadPtr → Option Int) (hcfg : s.config t = some cfg)
    (hq : (s.phase t).target = none) (hp : p.target = none)
    (hret : ∀ a, a ≠ t → returned a = s.returned a)
    (hs : s' = { (s.setConfig cfg hc).setPhase t p with caps := caps, returned := returned })
    (hown : ∀ {svc}, View s t svc → ∃ svc', svc.Next svc' ∧ hc.ipcLock = svc'.locked ∧ svc'.holder = svc.holder ∧ svc'.client = svc.client ∧ svc'.Fits s' t ∧ (∀ v, svc'.value = some v → returned t = some v ∧ hc.activeConn = none) ∧ (∀ c conn, svc' ≠ .serving c conn) ∧ ∀ c conn v a, svc' ≠ .leaving c conn v (some a)) :
    CallInv s' ∧ Moves s s' := by
  let s1 : State := { s.setConfig cfg hc with caps := caps, returned := returned }
  have hs' : s' = s1.setPhase t p := hs
  have hphases : ∀ a, PhaseOk s a ((s1.setPhase t p).phase a) := by
    refine setPhase_all h.phases ⟨fun e => ?_, fun e => ?_, fun hn => ?_⟩
    · rw [e] at hp
      cases hp
    · rw [e] at hp
      cases hp
    · rw [(h.configs.block hcfg).1] at hn
      cases hn
  -- the threads that call or wait are others
  have hiff : ∀ {Q : Phase → Prop} {k}, (∀ q, Q q → q.target = some k) → ∀ a,
      Q ((s1.setPhase t p).phase a) ↔ Q (s.phase a) := by
    refine fun hQ a => setPhase_iff (iff_of_false (fun e => ?_) fun e => ?_) a
    · rw [hQ _ e] at hp
      cases hp
    · rw [show (s.phase t).target = _ from hQ _ e] at hq
      cases hq
  subst hs'
  refine h.move t rfl ?_ (fun a => (hphases a).congr rfl (fun e => ⟨_, e, rfl⟩) rfl) ?_ ?_
  · exact { h.configs.setConfig cfg hc with }
  · intro svc hv
    obtain ⟨svc', hnext, hlock, hholder, hclient, hfits, hvalue, hserve, hleave⟩ := hown hv
    refine ⟨svc', ⟨?_, fun a => ?_, fun c conn => ?_, hfits, fun e => absurd e (hserve _ _),
      fun e => hv.caller (hclient ▸ e), fun e => ⟨(hvalue _ e).1, ?_⟩,
      fun e => absurd e (hleave _ _ _ _)⟩, .inr hnext⟩
    · exact Eq.trans (lockHeld_eq hcfg (update_self ..)) hlock
    · rw [hholder]
      exact (hiff (fun _ => Phase.Holds.target) a).trans (hv.holder a)
    · rw [hclient]
      exact (hiff (Q := (· = _)) (fun _ => congrArg Phase.target) c).trans (hv.client c conn)
    · exact Eq.trans (activeConn_eq hcfg (update_self ..)) (hvalue _ e).2
  · intro a svc hne hv
    have hv1 : View s1 a svc :=
      hv.frame rfl rfl (block_setConfig_ne _ fun e => hne (h.configs.unique e hcfg))
        (fun _ _ e => e) rfl (hret a hne)
    exact hv1.setPhase_other hne hq hp

/-- **`sys_ipc_return` finds the call it is to answer.** -/
theorem inv_readActive {value : Int} {env : Env} {capNum : Nat} {retCap : Int}
    (hs : readActive s t value env capNum retCap = some s') : CallInv s' ∧ Moves s s' := by
  unfold readActive at hs
  split at hs
  · rename_i cfg hp hcfg
    split at hs
    · cases hs
    rename_i hc hb
    split at hs
    · cases hs
    rename_i conn ha
    split at hs
    · cases hs
    rename_i c hconn
    split at hs
    · cases hs
    rename_i client hcl
    obtain ⟨caps, _, he⟩ := map_eq_some_iff.mp hs
    refine inv_own h caps _ hcfg (by rw [hp]; rfl) rfl
      (fun a ha => update_of_ne ha ..) he.symm fun {svc} hv => ?_
    obtain ⟨c', conn', rfl⟩ := hv.fits.serving (by rw [hp]; rfl)
    obtain ⟨hact, hcur⟩ := hv.active rfl
    -- the connection and the client it reads are those of the call
    have hconn' : conn' = conn := by
      unfold activeConn at hact
      rw [hcfg, bind_some, hb, bind_some, ha] at hact
      exact (some.inj hact).symm
    subst hconn'
    cases hconn.symm.trans hcur
    cases hcl
    have hlock := (lockHeld_eq hcfg hb).symm.trans hv.locked
    refine ⟨.returning client conn' value, .finish client conn' value, hlock, rfl, rfl,
      ⟨cfg, ?_, ?_⟩, fun v e => ?_, nofun, nofun⟩
    · rw [← he]
      exact setPhase_self ..
    · rw [← he]
      exact hcfg
    · cases e
      exact ⟨update_self .., rfl⟩
  · cases hs

theorem CallInv.shadow_of (hp : (s.phase t).serving = false) : s.shadow t = true := by
  cases hn : s.shadow t with
  | true => rfl
  | false =>
    rw [(h.phases t).normal hn] at hp
    cases hp

theorem inv_unlock (hs : unlock s t = some s') : CallInv s' ∧ Moves s s' := by
  unfold unlock at hs
  split at hs
  · rename_i cfg client value hp
    split at hs
    · cases hs
    rename_i hc hb
    cases hs
    have hsvc : ∀ {svc}, View s t svc →
        ∃ conn, svc = .returning client conn value ∧ s.config t = some cfg := by
      intro svc hv
      have hfits := hv.fits
      unfold Service.Fits at hfits
      rw [hp] at hfits
      cases svc with
      | returning c conn v =>
        obtain ⟨cfg', e, hcfg⟩ := hfits
        cases e
        exact ⟨conn, rfl, hcfg⟩
      | idle | entering | serving | leaving => cases hfits
    obtain ⟨svc, hv⟩ := h.service (h.shadow_of (by rw [hp]; rfl))
    obtain ⟨_, _, hcfg⟩ := hsvc hv
    refine inv_own h s.caps s.returned hcfg (by rw [hp]; rfl) rfl
      (fun _ _ => rfl) rfl fun hv => ?_
    obtain ⟨conn, rfl, _⟩ := hsvc hv
    exact ⟨.leaving client conn value none, .release client conn value, rfl, rfl, rfl,
      setPhase_self .., fun v e => ⟨(hv.value e).1, (activeConn_eq hcfg hb).symm.trans (hv.value e).2⟩,
      nofun,
      nofun⟩
  · cases hs

end

/-- What the situation becomes when the handler has left: the lock stays with the next client. -/
theorem Service.resumed (c : ThreadPtr) (conn : ObjPtr) (v : Int) (next : Option ThreadPtr) :
    ∃ svc', (Service.leaving c conn v next).Next svc' ∧ svc'.locked = next.isSome ∧
      svc'.holder = next ∧ svc'.client = none ∧ svc'.value = none ∧
      (∀ s h, s.phase h = .parked → svc'.Fits s h) ∧ (∀ c conn, svc' ≠ .serving c conn) ∧
      ∀ c conn v a, svc' ≠ .leaving c conn v a := by
  cases next with
  | none =>
    exact ⟨.idle, .resume c conn v, rfl, rfl, rfl, rfl, fun _ _ e => e, nofun, nofun⟩
  | some a =>
    exact ⟨.entering a, .handOver c conn v a, rfl, rfl, rfl, rfl, fun _ _ e => e, nofun, nofun⟩

theorem View.leaving {client : ThreadPtr} {value : Int} (hv : View s t svc)
    (hp : s.phase t = .leaving client value) :
    ∃ conn next, svc = .leaving client conn value next ∧ s.phase client = .waiting conn t := by
  have hfits := hv.fits
  unfold Service.Fits at hfits
  rw [hp] at hfits
  cases svc with
  | leaving c conn v next =>
    cases hfits
    exact ⟨conn, next, rfl, (hv.client _ _).mpr rfl⟩
  | returning =>
    obtain ⟨_, e, _⟩ := hfits
    cases e
  | idle | entering | serving => cases hfits

/-- **The switch back.** -/
theorem inv_resume (h : CallInv s) (hs : resume s t = some s') : CallInv s' ∧ Moves s s' := by
  unfold resume at hs
  split at hs
  · rename_i client value hp
    obtain ⟨svc0, hv0⟩ := h.service (h.shadow_of (by rw [hp]; rfl))
    obtain ⟨conn, next, rfl, hclient⟩ := hv0.leaving hp
    have hct : client ≠ t := by
      rintro rfl
      rw [hp] at hclient
      cases hclient
    have hinv : CallInv ((s.setPhase client .user).setPhase t .parked) ∧
        Moves s ((s.setPhase client .user).setPhase t .parked) := by
      have hphases : ∀ a, PhaseOk s a (((s.setPhase client .user).setPhase t .parked).phase a) := by
        refine setPhase_all (setPhase_all h.phases
          ⟨nofun, nofun, fun _ => rfl⟩)
          ⟨nofun, nofun, fun hn => ?_⟩
        rw [h.shadow_of (by rw [hp]; rfl)] at hn
        cases hn
      have ht1 : (s.setPhase client .user).phase t = .leaving client value :=
        (setPhase_ne _ _ hct.symm).trans hp
      refine h.move t rfl { h.configs with }
        (fun a => (hphases a).congr rfl (fun e => ⟨_, e, rfl⟩) rfl) ?_ ?_
      · intro svc hv
        obtain ⟨conn, next, rfl, hclient⟩ := hv.leaving hp
        obtain ⟨svc', hnext, hlock, hholder, hnone, hvalue, hfits, hserve, hleave⟩ :=
          Service.resumed client conn value next
        refine ⟨svc', ⟨?_, fun a => ?_, fun c conn' => ?_, hfits _ _ (setPhase_self ..),
          fun e => absurd e (hserve _ _), fun e => ?_, fun e => ?_,
          fun e => absurd e (hleave _ _ _ _)⟩, .inr hnext⟩
        · rw [hlock]
          exact hv.locked
        · rw [hholder]
          refine (setPhase_iff (Q := (·.Holds t)) ?_ a).trans
            ((setPhase_iff (Q := (·.Holds t)) ?_ a).trans (hv.holder a))
          · simp [ht1, not_holds]
          · simp [hclient, not_holds]
        · rw [hnone]
          refine iff_of_false (fun e => ?_) nofun
          by_cases hat : c = t
          · rw [hat, setPhase_self] at e
            cases e
          rw [setPhase_ne _ _ hat] at e
          by_cases hac : c = client
          · rw [hac, setPhase_self] at e
            cases e
          · rw [setPhase_ne _ _ hac] at e
            cases (hv.client c conn').mp e
            exact hac rfl
        · rw [hnone] at e
          cases e
        · rw [hvalue] at e
          cases e
      intro a svc hne hv
      have hv1 : View (s.setPhase client .user) a svc := by
        refine hv.setPhase_serving (congrArg Phase.serving hclient) rfl ?_ (fun conn' => ?_)
          (fun _ _ _ => hv.ne_leaving ?_)
        · simp [hclient, not_holds]
        · simp [hclient, hne.symm]
        · simp [hclient]
      exact hv1.setPhase_other hne (congrArg Phase.target ht1) rfl
    cases hs
    exact ⟨hinv.1.caps s.caps _, hinv.2.caps s.caps _⟩
  · cases hs

/-- The state after a registration of `t`. -/
def registered (s : State) (t : ThreadPtr) (conn : ObjPtr) (active : Option ObjPtr) : State :=
  { s with
    config := update s.config t (some s.nextConfig)
    configs := update s.configs s.nextConfig (some ⟨false, active⟩)
    conns := update s.conns conn (some ⟨none, t⟩)
    nextConfig := s.nextConfig + 1 }

section Registered

variable {conn : ObjPtr} {active : Option ObjPtr}

theorem registered_self : (registered s t conn active).config t = some s.nextConfig :=
  update_self ..

theorem registered_block :
    (registered s t conn active).configs s.nextConfig = some ⟨false, active⟩ :=
  update_self ..

theorem registered_config {a : ThreadPtr} {cfg : ConfigPtr}
    (ha : (registered s t conn active).config a = some cfg) :
    a = t ∧ cfg = s.nextConfig ∨ a ≠ t ∧ s.config a = some cfg := by
  by_cases hat : a = t
  · rw [hat, registered_self] at ha
    exact .inl ⟨hat, (some.inj ha).symm⟩
  · exact .inr ⟨hat, (update_of_ne hat ..).symm.trans ha⟩

theorem registered_conns (hconn : s.conns conn = none) {conn' : ObjPtr} {x : Connection}
    (e : s.conns conn' = some x) : (registered s t conn active).conns conn' = some x := by
  refine (update_of_ne (fun e' => ?_) ..).trans e
  rw [e', hconn] at e
  cases e

theorem ConfigInv.registered (h : ConfigInv s) (hshadow : s.shadow t = true) :
    ConfigInv (registered s t conn active) where
  lt ha := by
    show _ < s.nextConfig + 1
    rcases registered_config ha with ⟨_, rfl⟩ | ⟨_, ha⟩
    · exact Nat.lt_succ_self _
    · exact Nat.lt_succ_of_lt (h.lt ha)
  unique ha hk := by
    rcases registered_config ha with ⟨hat, rfl⟩ | ⟨_, ha⟩
    · rcases registered_config hk with ⟨hkt, _⟩ | ⟨_, hk⟩
      · exact hat.trans hkt.symm
      · exact absurd (h.lt hk) (lt_irrefl _)
    · rcases registered_config hk with ⟨_, rfl⟩ | ⟨_, hk⟩
      · exact absurd (h.lt ha) (lt_irrefl _)
      · exact h.unique ha hk
  block ha := by
    rcases registered_config ha with ⟨rfl, rfl⟩ | ⟨_, ha⟩
    · exact ⟨hshadow, _, registered_block⟩
    · obtain ⟨hs, hc, hb⟩ := h.block ha
      exact ⟨hs, hc, (update_of_ne (ne_of_lt (h.lt ha)) ..).trans hb⟩
  conn {conn' c} e := by
    by_cases hat : c.serverHandlerThread = t
    · exact ⟨_, by rw [hat]; exact registered_self⟩
    have hne : conn' ≠ conn := by
      rintro rfl
      cases (update_self ..).symm.trans e
      exact hat rfl
    obtain ⟨cfg, hcfg⟩ := h.conn ((update_of_ne hne ..).symm.trans e)
    exact ⟨cfg, (update_of_ne hat ..).trans hcfg⟩

/-- **A new configuration block**, for a handler thread that no call is using. -/
theorem inv_registered (h : CallInv s) (hno : ∀ a, (s.phase a).target ≠ some t)
    (hconn : s.conns conn = none) (hshadow : s.shadow t = true) :
    CallInv (registered s t conn active) ∧ Moves s (registered s t conn active) := by
  have hother : ∀ {a}, a ≠ t → (registered s t conn active).config a = s.config a :=
    fun ha => update_of_ne ha ..
  refine h.move t rfl (h.configs.registered hshadow)
    (fun a => ⟨fun {sys st conn' k cfg} e => ?_, (h.phases a).waiting, (h.phases a).normal⟩) ?_ ?_
  · obtain ⟨hcfg, c, hc, hk⟩ := (h.phases a).calling e
    have hkt : k ≠ t := by
      rintro rfl
      exact hno a (congrArg Phase.target e)
    exact ⟨(hother hkt).trans hcfg, c, registered_conns hconn hc, hk⟩
  · intro svc hv
    have hholder : svc.holder = none := by
      refine eq_none_iff_forall_not_mem.mpr fun a ha => ?_
      exact hno a ((hv.holder a).mpr ha).target
    have hclient : svc.client = none := by
      refine eq_none_iff_forall_not_mem.mpr fun ⟨c, conn'⟩ hc => ?_
      exact hno c (congrArg Phase.target ((hv.client c conn').mpr hc))
    -- nobody calls and nobody waits: the handler is idle
    cases svc with
    | idle =>
      refine ⟨.idle, ⟨?_, hv.holder, hv.client, hv.fits, nofun, nofun, nofun, nofun⟩, .inl rfl⟩
      exact lockHeld_eq registered_self registered_block
    | entering => cases hholder
    | serving | returning | leaving => cases hclient
  intro a svc hne hv
  refine hv.frame rfl (hother hne) ?_ (fun c conn' e => registered_conns hconn e) rfl rfl
  rw [hother hne]
  cases ha : s.config a with
  | none => rfl
  | some cfg => exact update_of_ne (ne_of_lt (h.configs.lt ha)) ..

end Registered

theorem inv_register (h : CallInv s) {active : Option ObjPtr}
    (hno : ∀ a, (s.phase a).target ≠ some t) (hs : register s t conn active = some s') :
    CallInv s' ∧ Moves s s' := by
  unfold register at hs
  split at hs
  · cases hs
  rename_i hconn
  split at hs
  · rename_i hshadow
    cases hs
    exact inv_registered h hno hconn hshadow
  · cases hs

end Steps

/-! ## 4. Runs -/

/-- The step does not register a handler thread that a call is using, and is not a capability
    transfer that fails. -/
def CallOk (s : State) : Act → Prop
  | .register h _ _ => ∀ t, (s.phase t).target ≠ some h
  | .sendCaps _ _ buf msg capNum =>
    ∀ m, msg = some m → capNum ≠ 0 → capNum < 8 ∧ (m.inUser = true → buf = true)
  | .transferCap t env sendCap => ∀ h tsrc tdst, (s.phase t).target = some h →
      s.caps.groups (s.group t) = some tsrc → s.caps.groups (s.group h) = some tdst →
      ¬ CopyRefused env tsrc tdst sendCap
  | _ => True

variable {s : State}

theorem sendCaps_ok {t : ThreadPtr} {env : Env} {buf : Bool} {m : IpcMsg} {capNum : Nat}
    {src dst : GroupPtr} (hok : CallOk s (.sendCaps t env buf (some m) capNum)) :
    ¬ ∃ r, ipcSendCap env buf s.caps src dst m capNum = some (.error r) := by
  intro herr
  obtain ⟨hne, hfail⟩ := ipcSendCap_error_iff.mp herr
  obtain ⟨hlt, hbuf⟩ := hok m rfl hne
  rcases hfail with hge | ⟨hu, hb⟩
  · omega
  · rw [hbuf hu] at hb
    cases hb

theorem transferCap_ok {t k : ThreadPtr} {env : Env} {sendCap r : Int} {caps : Caps} {st : Stage}
    {conn : ObjPtr} {cfg : ConfigPtr} (hcap : CapInv s.caps)
    (hok : CallOk s (.transferCap t env sendCap)) (hp : s.phase t = .calling .sendCap st conn k cfg)
    (hcopy : capCopy env s.caps (s.group t) (s.group k) sendCap none = some (r, caps)) :
    ¬ r < 0 := by
  intro hneg
  obtain ⟨tsrc, tdst, hsrc, hdst⟩ := capCopy_groups hcopy
  refine absurd ((capCopy_error_iff hcap hsrc hdst).mp ⟨r, caps, hcopy, hneg⟩) ?_
  exact hok k tsrc tdst (by rw [hp]; rfl) hsrc hdst

/-- **Every step moves the handlers along their cycle.** -/
theorem step_service {s' : State} {a : Act} (hcap : CapInv s.caps) (h : CallInv s)
    (hok : CallOk s a) (hs : step s a = some s') : CallInv s' ∧ Moves s s' := by
  cases a with
  | cap a =>
    obtain ⟨caps, _, rfl⟩ := map_eq_some_iff.mp hs
    exact ⟨h.caps caps s.result, fun k svc _ hv => ⟨svc, hv.caps caps s.result, .inl rfl⟩⟩
  | register k conn active => exact inv_register h hok hs
  | lookUp t sys env connCap => exact inv_lookUp h hs
  | tryLock t =>
    simp only [step, tryLock] at hs
    split at hs
    · rename_i sys conn k cfg hp
      split at hs
      · cases hs
      rename_i hc hb
      split at hs
      · have hinv := inv_refused h hp
        split at hs
        · obtain ⟨caps, _, rfl⟩ := map_eq_some_iff.mp hs
          exact ⟨hinv.1.caps caps _, hinv.2.caps caps _⟩
        · cases hs
          exact ⟨hinv.1.caps s.caps _, hinv.2.caps s.caps _⟩
      · rename_i hl
        exact inv_locked h hp hb (Bool.eq_false_iff.mpr hl) (some.inj hs).symm
    · cases hs
  | stackFree t =>
    simp only [step, stackFree] at hs
    split at hs
    · rename_i sys conn k cfg hp
      split at hs
      · cases hs
      rename_i hfree
      cases hs
      refine inv_onward h hp rfl rfl fun {a svc c conn' v} hv e => hfree ?_
      have hholds := (hv.holder t).mpr (by rw [e]; rfl)
      rw [hp, holds_calling] at hholds
      have hfits := hv.fits
      rw [e, ← hholds.1] at hfits
      rw [show s.phase k = _ from hfits]
      rfl
    · cases hs
  | sendCaps t env buf msg capNum =>
    simp only [step, sendCaps] at hs
    split at hs
    · rename_i conn k cfg hp
      have hinv : CallInv (s.setPhase t (.calling .call .sent conn k cfg)) ∧ Moves s _ :=
        inv_onward h hp rfl rfl fun hv => hv.ne_leaving (by simp [hp])
      split at hs
      · cases hs
        exact hinv
      split at hs
      · cases hs
      · rename_i r herr
        exact absurd ⟨r, herr⟩ (sendCaps_ok hok)
      · rename_i caps _
        cases hs
        exact ⟨hinv.1.caps caps s.result, hinv.2.caps caps s.result⟩
    · cases hs
  | transferCap t env sendCap =>
    simp only [step, transferCap] at hs
    split at hs
    · rename_i conn k cfg hp
      have hinv : CallInv (s.setPhase t (.calling .sendCap .sent conn k cfg)) ∧ Moves s _ :=
        inv_onward h hp rfl rfl fun hv => hv.ne_leaving (by simp [hp])
      split at hs
      · cases hs
      rename_i r caps hcopy
      split at hs
      · rename_i hneg
        exact absurd hneg (transferCap_ok hcap hok hp hcopy)
      · cases hs
        exact ⟨hinv.1.caps caps s.result, hinv.2.caps caps s.result⟩
    · cases hs
  | migrate t =>
    simp only [step, migrate] at hs
    split at hs
    · rename_i hp
      exact inv_migrate h hp hs
    · cases hs
  | readActive t value env capNum retCap => exact inv_readActive h hs
  | unlock t => exact inv_unlock h hs
  | resume t => exact inv_resume h hs

/-- **The service of a handler thread is in order**: it works for at most one client; its lock is
    held exactly while `active_conn` is a connection being served, or a client is on its way in
    with it, or the handler on its way out. -/
structure ServiceOk (s : State) (h : ThreadPtr) : Prop where
  one : ∀ {c c' conn conn'}, s.phase c = .waiting conn h → s.phase c' = .waiting conn' h → c = c'
  lock : lockHeld s h = true ↔
    (∃ conn c, activeConn s h = some conn ∧ s.phase c = .waiting conn h) ∨
      (∃ t, (s.phase t).Holds h) ∨ ∃ cfg c v, s.phase h = .returning cfg c v

/-- **The end of a `sys_ipc_return`**: it resumes the thread whose call it answers, with the value of
    the return, and nobody else. -/
structure ResumeOk (s s' : State) (h : ThreadPtr) : Prop where
  caller : ∃ c conn v, s.client h = some c ∧ s.phase c = .waiting conn h ∧ s.returned h = some v ∧
    s'.phase c = .user ∧ s'.result c = some v ∧
    ∀ t, t ≠ c → t ≠ h → s'.phase t = s.phase t ∧ s'.result t = s.result t

theorem View.serviceOk {k : ThreadPtr} {svc : Service} (hv : View s k svc) : ServiceOk s k := by
  refine ⟨fun {c c' conn conn'} hc hc' => ?_, ?_⟩
  · have e := ((hv.client c conn).mp hc).symm.trans ((hv.client c' conn').mp hc')
    cases e
    rfl
  -- who is there, in each of the situations
  have hfits := hv.fits
  have hwaits : (∃ conn c, activeConn s k = some conn ∧ s.phase c = .waiting conn k) ↔
      ∃ conn c, activeConn s k = some conn ∧ svc.client = some (c, conn) := by
    simp only [hv.client]
  simp only [hv.locked, hwaits, hv.holder]
  cases svc with
  | idle => simp [Service.locked, Service.client, Service.holder, show s.phase k = _ from hfits]
  | entering t => simp [Service.locked, Service.holder]
  | serving c conn => simp [Service.locked, Service.client, (hv.active rfl).1]
  | returning c conn v =>
    obtain ⟨cfg, hp, _⟩ := hfits
    simp [Service.locked, hp]
  | leaving c conn v next =>
    simp [Service.locked, Service.holder, (hv.value rfl).2, show s.phase k = _ from hfits,
      isSome_iff_exists]

theorem serviceOk_of_inv (h : CallInv s) (k : ThreadPtr) : ServiceOk s k := by
  cases hk : s.shadow k with
  | true =>
    obtain ⟨svc, hv⟩ := h.service hk
    exact hv.serviceOk
  | false =>
  -- no connection leads to a thread that is not a shadow thread
  have hcfg : s.config k = none := by
    refine eq_none_iff_forall_not_mem.mpr fun cfg hcfg => ?_
    rw [(h.configs.block hcfg).1] at hk
    cases hk
  have hwaits : ∀ {c conn}, s.phase c ≠ .waiting conn k := by
    intro c conn hc
    rw [(h.phases c).waiting hc] at hk
    cases hk
  refine ⟨fun hc _ => absurd hc hwaits, ?_⟩
  simp only [lockHeld, activeConn, hcfg, bind_none, any_none, Bool.false_eq_true,
    reduceCtorEq, false_and, exists_const, false_or, false_iff, not_or]
  refine ⟨fun ⟨t, sys, st, conn, cfg, ht, _⟩ => ?_, fun ⟨cfg, c, v, hp⟩ => ?_⟩
  · rw [((h.phases t).calling ht).1] at hcfg
    cases hcfg
  · have := (h.phases k).normal hk
    rw [hp] at this
    cases this

theorem resumeOk_of_inv {s' : State} (h : CallInv s) {k : ThreadPtr}
    (hs : step s (.resume k) = some s') : ResumeOk s s' k := by
  simp only [step, resume] at hs
  split at hs
  · rename_i client value hp
    cases hs
    obtain ⟨svc, hv⟩ := h.service (h.shadow_of (by rw [hp]; rfl))
    obtain ⟨conn, next, rfl, hclient⟩ := hv.leaving hp
    have hck : client ≠ k := by
      rintro rfl
      rw [hp] at hclient
      cases hclient
    refine ⟨client, conn, value, hv.caller rfl, hclient, (hv.value rfl).1, ?_,
      update_self .., fun t htc htk => ⟨?_, update_of_ne htc ..⟩⟩
    · rw [setPhase_ne _ _ hck]
      exact setPhase_self ..
    · rw [setPhase_ne _ _ htk, setPhase_ne _ _ htc]
      rfl
  · cases hs

/-- **IPC calls over a run.** -/
theorem ipc_service_run (group : ThreadPtr → GroupPtr) (shadow : ThreadPtr → Bool) (as : List Act)
    (hok : ∀ tr ∈ trace step (State.init group shadow) as, CallOk tr.pre tr.act) :
    ∀ tr ∈ trace step (State.init group shadow) as,
      (∀ h, ServiceOk tr.post h) ∧ ∀ h, tr.act = .resume h → ResumeOk tr.pre tr.post h := by
  intro tr htr
  have hinv := trace_inv (I := fun s => CapInv s.caps ∧ CallInv s) (C := CallOk)
    (fun s a s' hI hC hs => ⟨step_capInv hI.1 hs, (step_service hI.1 hI.2 hC hs).1⟩)
    as _ ⟨capInv_init, callInv_init group shadow⟩ hok tr htr
  refine ⟨serviceOk_of_inv hinv.2.2, fun h he => resumeOk_of_inv hinv.1.2 ?_⟩
  rw [← he]
  exact trace_step as _ htr

/-- The steps of a call without a message, up to the switch. -/
def callSteps (t : ThreadPtr) (connCap : Int) : List Act :=
  [.lookUp t .call .ample connCap, .tryLock t, .stackFree t, .sendCaps t .ample true none 0, .migrate t]

/-- Neither a registration nor a transfer of capabilities. -/
def Act.plain : Act → Bool
  | .register .. => false
  | .sendCaps _ _ _ msg _ => msg.isNone
  | .transferCap .. => false
  | _ => true

theorem callOk_plain {a : Act} (ha : a.plain = true) : CallOk s a := by
  cases a with
  | register | transferCap => cases ha
  | sendCaps t env buf msg capNum =>
    rintro m rfl
    cases ha
  | _ => trivial

/-- A call, and its return with the value 5. -/
def servedRun : List Act :=
  oneConn ++ .register 1 0 none ::
    (callSteps 0 0 ++ [.readActive 1 5 .ample 0 0, .unlock 1, .resume 1])

theorem ipc_service_returned :
    ((exec step (State.init (fun _ => 0) (· = 1)) servedRun).bind (·.result 0)) = some 5 ∧
    ∀ tr ∈ trace step (State.init (fun _ => 0) (· = 1)) servedRun,
      (∀ h, ServiceOk tr.post h) ∧ ∀ h, tr.act = .resume h → ResumeOk tr.pre tr.post h := by
  refine ⟨by decide +kernel, ipc_service_run _ _ _ fun tr htr => ?_⟩
  rcases trace_append _ _ _ htr with htr | ⟨s, hs, htr⟩
  · have hplain : ∀ a ∈ oneConn, a.plain = true := by decide
    exact callOk_plain (hplain _ (trace_act_mem _ _ htr))
  -- nobody is in a call when the handler is registered
  have hphase : s.phase = (State.init (fun _ => 0) (· = 1)).phase := by
    simp only [oneConn, exec, step, bind_eq_some_iff, map_eq_some_iff] at hs
    obtain ⟨_, ⟨_, _, rfl⟩, _, ⟨_, _, rfl⟩, _, ⟨_, _, rfl⟩, hs⟩ := hs
    cases hs
    rfl
  obtain ⟨s', -, rfl | htr⟩ := mem_trace_cons.mp htr
  · intro t e
    rw [hphase] at e
    simp only [State.init] at e
    split at e <;> cases e
  · have hplain : ∀ a ∈ callSteps 0 0 ++ [.readActive 1 5 .ample 0 0, .unlock 1, .resume 1],
        a.plain = true := by decide
    exact callOk_plain (hplain _ (trace_act_mem _ _ htr))

/-- The client 0 calls the handler 2, which calls the handler 3. Then 2 is registered once more, and
    the client 1 calls it through the new connection. -/
def reRegisteredRun : List Act :=
  [.cap (.group .ample 64), .cap (.alloc .connection 8), .cap (.publish .ample 0 0 7),
   .cap (.alloc .connection 8), .cap (.publish .ample 0 1 7), .cap (.alloc .connection 8),
   .cap (.publish .ample 0 2 7), .register 2 0 none, .register 3 1 none] ++
  callSteps 0 0 ++ callSteps 2 1 ++ .register 2 2 none :: callSteps 1 2

/-- **Two clients in one handler**: the second registration gives the handler a new lock. -/
theorem ipc_service_shared :
    ¬ ∀ tr ∈ trace step (State.init (fun _ => 0) (fun t => t = 2 ∨ t = 3)) reRegisteredRun,
      (∀ h, ServiceOk tr.post h) ∧ ∀ h, tr.act = .resume h → ResumeOk tr.pre tr.post h := by
  intro h
  have hend : (exec step (State.init (fun _ => 0) (fun t => t = 2 ∨ t = 3)) reRegisteredRun).any
      (fun s => s.phase 0 = .waiting 0 2 ∧ s.phase 1 = .waiting 2 2) = true := by decide +kernel
  obtain ⟨tr, htr, h₀, h₁⟩ := trace_of_exec hend
  exact absurd (((h tr htr).1 2).one h₀ h₁) (by decide)

end ChCore.Ipc
