/-
  File: ChCore/Lib/Run.lean
  Subject: Runs of a partial, deterministic step function.

  A component is a step function `step : S → A → Option S`: an action either leads to one state
  or is undefined there (a stop of the machine, an access the component may not make). A run is
  a list of actions; it ends at the first action that is undefined.

  * `exec` is the state a run ends in, `trace` the list of its transitions;
  * `trace_all_iff` -- where one step is good exactly when `C` holds before it, every step of a
    run is good exactly when every step meets `C`.
-/
import Mathlib

namespace ChCore.Lib

open Option List

universe u v

variable {S : Type u} {A : Type v}

/-- One transition of a run: the state before, the action, the state after. -/
structure Transition (S : Type u) (A : Type v) where
  pre : S
  act : A
  post : S

/-- The state the actions lead to (`none` = some action is undefined on the way). -/
def exec (step : S → A → Option S) : S → List A → Option S
  | s, [] => some s
  | s, a :: as => (step s a).bind (fun s' => exec step s' as)

/-- **The transitions of a run**, up to the first action that is undefined. -/
def trace (step : S → A → Option S) : S → List A → List (Transition S A)
  | _, [] => []
  | s, a :: as =>
    match step s a with
    | none => []
    | some s' => ⟨s, a, s'⟩ :: trace step s' as

variable {step : S → A → Option S}

theorem trace_cons_some {s s' : S} {a : A} (as : List A) (h : step s a = some s') :
    trace step s (a :: as) = ⟨s, a, s'⟩ :: trace step s' as := by
  simp only [trace, h]

/-- A transition of a run is its first or one of the rest; then the first action is defined. -/
theorem mem_trace_cons {t : Transition S A} {a : A} {as : List A} {s : S} :
    t ∈ trace step s (a :: as) ↔
      ∃ s', step s a = some s' ∧ (t = ⟨s, a, s'⟩ ∨ t ∈ trace step s' as) := by
  cases hs : step s a <;> simp [trace, hs]

theorem trace_step {t : Transition S A} :
    ∀ (as : List A) (s : S), t ∈ trace step s as → step t.pre t.act = some t.post
  | [], _, h => absurd h not_mem_nil
  | a :: as, s, h => by
    obtain ⟨s', hs, rfl | h'⟩ := mem_trace_cons.mp h
    · exact hs
    · exact trace_step as s' h'

theorem trace_act_mem {t : Transition S A} :
    ∀ (as : List A) (s : S), t ∈ trace step s as → t.act ∈ as
  | [], _, h => absurd h not_mem_nil
  | a :: as, s, h => by
    obtain ⟨s', hs, rfl | h'⟩ := mem_trace_cons.mp h
    · exact mem_cons_self
    · exact mem_cons_of_mem _ (trace_act_mem as s' h')

/-- A run in two parts: the second starts where the first has ended. -/
theorem trace_append {t : Transition S A} (bs : List A) :
    ∀ (as : List A) (s : S), t ∈ trace step s (as ++ bs) →
      t ∈ trace step s as ∨ ∃ s', exec step s as = some s' ∧ t ∈ trace step s' bs
  | [], s, h => .inr ⟨s, rfl, h⟩
  | a :: as, s, h => by
    obtain ⟨s', hs, rfl | h'⟩ := mem_trace_cons.mp h
    · exact .inl (mem_trace_cons.mpr ⟨s', hs, .inl rfl⟩)
    · rw [trace_cons_some as hs, exec, hs]
      exact (trace_append bs as s' h').imp_left (mem_cons_of_mem _)

/-- **The invariant rule**: `I` holds at the start and every step that meets `C` keeps it, so it
    holds around every step of a run whose steps all meet `C`. -/
theorem trace_inv {I : S → Prop} {C : S → A → Prop}
    (hstep : ∀ s a s', I s → C s a → step s a = some s' → I s') :
    ∀ (as : List A) (s : S), I s → (∀ t ∈ trace step s as, C t.pre t.act) →
      ∀ t ∈ trace step s as, I t.pre ∧ I t.post
  | [], _, _, _, _, h => absurd h not_mem_nil
  | a :: as, s, hI, hC, t, h => by
    obtain ⟨s', hs, h⟩ := mem_trace_cons.mp h
    rw [trace_cons_some as hs] at hC
    have hI' : I s' := hstep s a s' hI (hC _ mem_cons_self) hs
    rcases h with rfl | h'
    · exact ⟨hI, hI'⟩
    · exact trace_inv hstep as s' hI' (fun t ht => hC t (mem_cons_of_mem _ ht)) t h'

theorem exec_append (bs : List A) : ∀ {as : List A} {s s' : S}, exec step s as = some s' →
    exec step s (as ++ bs) = exec step s' bs
  | [], _, _, h => by
    cases h
    rfl
  | a :: as, s, s', h => by
    obtain ⟨s1, hs, h'⟩ := bind_eq_some_iff.mp h
    rw [cons_append, exec, hs, bind_some]
    exact exec_append bs h'

theorem trace_append_mem {t : Transition S A} {bs : List A} : ∀ {as : List A} {s s' : S},
    exec step s as = some s' → t ∈ trace step s' bs → t ∈ trace step s (as ++ bs)
  | [], _, _, h, ht => by
    cases h
    exact ht
  | a :: as, s, s', h, ht => by
    obtain ⟨s1, hs, h'⟩ := bind_eq_some_iff.mp h
    rw [cons_append, trace_cons_some _ hs]
    exact mem_cons_of_mem _ (trace_append_mem h' ht)

/-- **The invariant rule for `exec`**: what every step keeps holds in the state a run ends in. -/
theorem exec_inv {I : S → Prop} (hstep : ∀ s a s', I s → step s a = some s' → I s') :
    ∀ (as : List A) (s s' : S), I s → exec step s as = some s' → I s'
  | [], s, s', hI, h => by
    cases h
    exact hI
  | a :: as, s, s', hI, h => by
    obtain ⟨s1, hs, h'⟩ := bind_eq_some_iff.mp h
    exact exec_inv hstep as s1 s' (hstep s a s1 hI hs) h'

theorem exec_last : ∀ {a : A} {as : List A} {s s' : S}, exec step s (a :: as) = some s' →
    ∃ t ∈ trace step s (a :: as), t.post = s'
  | a, as, s, s', h => by
    obtain ⟨s1, hs, h'⟩ := bind_eq_some_iff.mp h
    rw [trace_cons_some as hs]
    cases as with
    | nil =>
      cases h'
      exact ⟨_, mem_cons_self, rfl⟩
    | cons b bs =>
      obtain ⟨t, ht, hpost⟩ := exec_last h'
      exact ⟨t, mem_cons_of_mem _ ht, hpost⟩

/-- A run that can be evaluated ends in a state with `P`, so `P` holds after one of its steps. -/
theorem trace_of_exec {a : A} {as : List A} {s : S} {P : S → Prop} [DecidablePred P]
    (h : (exec step s (a :: as)).any (fun s => P s) = true) :
    ∃ t ∈ trace step s (a :: as), P t.post := by
  obtain ⟨s', he, hP⟩ := (Option.any_eq_true ..).mp h
  obtain ⟨t, ht, rfl⟩ := exec_last he
  exact ⟨t, ht, of_decide_eq_true hP⟩

/-- **The rule read both ways**: on states with `I`, a step is good exactly when `C` holds before
    it, and a step that meets `C` keeps `I`. Then every step of a run is good exactly when every
    step of it meets `C`: the first step that does not is already a bad one. -/
theorem trace_all_iff {I : S → Prop} {C : S → A → Prop} {G : Transition S A → Prop}
    (hgood : ∀ s a s', I s → step s a = some s' → (G ⟨s, a, s'⟩ ↔ C s a))
    (hstep : ∀ s a s', I s → C s a → step s a = some s' → I s') :
    ∀ (as : List A) (s : S), I s →
      ((∀ t ∈ trace step s as, G t) ↔ ∀ t ∈ trace step s as, C t.pre t.act)
  | [], _, _ => by simp [trace]
  | a :: as, s, hI => by
    cases hs : step s a with
    | none => simp [trace, hs]
    | some s' =>
    rw [trace_cons_some as hs]
    simp only [forall_mem_cons]
    constructor
    · rintro ⟨hG, hrest⟩
      have hC := (hgood s a s' hI hs).mp hG
      exact ⟨hC, (trace_all_iff hgood hstep as s' (hstep s a s' hI hC hs)).mp hrest⟩
    · rintro ⟨hC, hrest⟩
      refine ⟨(hgood s a s' hI hs).mpr hC, ?_⟩
      exact (trace_all_iff hgood hstep as s' (hstep s a s' hI hC hs)).mpr hrest

/-- **Two properties of pairs of steps agree over a run**, if they agree for any two steps of which
    the second starts in a state that the first has led to; `L` says what is known of these. -/
theorem trace_pairwise_iff {I : S → Prop} {C : S → A → Prop} {L : S → S → Prop}
    {R R' : Transition S A → Transition S A → Prop}
    (hstep : ∀ s a s', I s → C s a → step s a = some s' → I s') (hrefl : ∀ s, L s s)
    (hlater : ∀ s0 s a s', L s0 s → I s → C s a → step s a = some s' → L s0 s')
    (hR : ∀ t1 t2 : Transition S A, I t1.pre → C t1.pre t1.act →
      step t1.pre t1.act = some t1.post → L t1.post t2.pre → I t2.pre → C t2.pre t2.act →
      step t2.pre t2.act = some t2.post → (R t1 t2 ↔ R' t1 t2)) :
    ∀ (as : List A) (s : S), I s → (∀ t ∈ trace step s as, C t.pre t.act) →
      ((trace step s as).Pairwise R ↔ (trace step s as).Pairwise R')
  | [], _, _, _ => by simp [trace]
  | a :: as, s, hI, hC => by
    cases hs : step s a with
    | none => simp [trace, hs]
    | some s' =>
    rw [trace_cons_some as hs] at hC ⊢
    rw [forall_mem_cons] at hC
    have hI' : I s' := hstep s a s' hI hC.1 hs
    have hrest := trace_pairwise_iff hstep hrefl hlater hR as s' hI' hC.2
    have hlinked := trace_inv (I := fun s1 => I s1 ∧ L s' s1)
      (fun s1 b s2 h hb hs1 => ⟨hstep s1 b s2 h.1 hb hs1, hlater s' s1 b s2 h.2 h.1 hb hs1⟩)
      as s' ⟨hI', hrefl s'⟩ hC.2
    rw [pairwise_cons, pairwise_cons, hrest]
    refine and_congr_left fun _ => forall₂_congr fun t ht => ?_
    obtain ⟨⟨hIt, hLt⟩, -⟩ := hlinked t ht
    exact hR _ t hI hC.1 hs hLt hIt (hC.2 t ht) (trace_step as s' ht)

end ChCore.Lib
