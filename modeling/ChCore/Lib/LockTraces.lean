/-
  File: ChCore/Lib/LockTraces.lean
  Subject: Concurrent code as the language of its lock operations.

  What data decide is a choice between traces, so a function of the code is a `Language` of lock
  operations. Every CPU runs traces of its code to the end, one after the other.

  * `Ordered` -- a trace takes a lock only when the locks already held allow it;
  * `ordered_reachable` -- in every reachable state each CPU has an ordered rest before it.
-/
import Mathlib

namespace ChCore.Lib.LockTraces

open Function List

open scoped Computability

inductive Op (L : Type*) where
  | lock (l : L)
  | unlock (l : L)

variable {C L : Type*}

/-- The lock around a piece of code. -/
def critical (l : L) (body : Language (Op L)) : Language (Op L) :=
  {[.lock l]} * body * {[.unlock l]}

theorem mem_critical {l : L} {body : Language (Op L)} {ops : List (Op L)} (h : ops ∈ body) :
    .lock l :: (ops ++ [.unlock l]) ∈ critical l body :=
  ⟨_, ⟨_, rfl, ops, h, rfl⟩, _, rfl, rfl⟩

/-- **The trace takes each lock as `may` allows it with the locks held**, and gives them back in
    the opposite order. -/
def Ordered (may : List L → L → Prop) : List L → List (Op L) → Prop
  | held, [] => held = []
  | held, .lock l :: ops => may held l ∧ Ordered may (l :: held) ops
  | held, .unlock l :: ops => ∃ rest, held = l :: rest ∧ Ordered may rest ops

/-- The code is ordered, and leaves the locks as they were. -/
def Keeps (may : List L → L → Prop) (held : List L) (code : Language (Op L)) : Prop :=
  ∀ ops ∈ code, ∀ rest, Ordered may held rest → Ordered may held (ops ++ rest)

section Rules

variable {may : List L → L → Prop} {held : List L} {a b : Language (Op L)}

theorem keeps_one : Keeps may held (1 : Language (Op L)) := by
  rintro ops rfl rest h
  exact h

theorem Keeps.add (ha : Keeps may held a) (hb : Keeps may held b) : Keeps may held (a + b) :=
  fun ops h => h.elim (ha ops) (hb ops)

theorem Keeps.mul (ha : Keeps may held a) (hb : Keeps may held b) : Keeps may held (a * b) := by
  rintro _ ⟨x, hx, y, hy, rfl⟩ rest h
  rw [append_assoc]
  exact ha x hx _ (hb y hy _ h)

theorem Keeps.iSup {ι : Sort*} {f : ι → Language (Op L)} (h : ∀ i, Keeps may held (f i)) :
    Keeps may held (⨆ i, f i) := by
  intro ops hops
  obtain ⟨i, hi⟩ := Language.mem_iSup.mp hops
  exact h i ops hi

theorem Keeps.kstar (ha : Keeps may held a) : Keeps may held a∗ := by
  intro ops hops rest h
  obtain ⟨parts, rfl, hparts⟩ := Language.mem_kstar.mp hops
  clear hops
  induction parts with
  | nil => exact h
  | cons x parts ih =>
    rw [forall_mem_cons] at hparts
    rw [flatten_cons, append_assoc]
    exact ha x hparts.1 _ (ih hparts.2)

theorem Keeps.critical {l : L} (hl : may held l) (ha : Keeps may (l :: held) a) :
    Keeps may held (critical l a) := by
  rintro _ ⟨_, ⟨_, rfl, x, hx, rfl⟩, _, rfl, rfl⟩ rest h
  simp only [append_assoc, singleton_append]
  exact ⟨hl, ha x hx _ ⟨held, rfl, h⟩⟩

end Rules

/-- The locks each CPU holds, and the operations it still has before it. -/
structure State (C L : Type*) where
  held : C → List L
  todo : C → List (Op L)

variable [DecidableEq C] [DecidableEq L]

inductive Step (code : C → Language (Op L)) (s : State C L) : State C L → Prop where
  | start {c ops} (hidle : s.todo c = []) (hops : ops ∈ code c) :
      Step code s { s with todo := update s.todo c ops }
  | lock {c l ops} (htodo : s.todo c = .lock l :: ops) (hfree : ∀ d, l ∉ s.held d) :
      Step code s ⟨update s.held c (l :: s.held c), update s.todo c ops⟩
  | unlock {c l ops} (htodo : s.todo c = .unlock l :: ops) :
      Step code s ⟨update s.held c ((s.held c).erase l), update s.todo c ops⟩

def Reachable (code : C → Language (Op L)) : State C L → Prop :=
  Relation.ReflTransGen (Step code) ⟨fun _ => [], fun _ => []⟩

/-- **The CPUs of `S` wait for one another**: each for a lock that one of them holds. -/
def Deadlock (s : State C L) (S : Set C) : Prop :=
  S.Nonempty ∧ ∀ c ∈ S, ∃ l ops, s.todo c = .lock l :: ops ∧ ∃ d ∈ S, l ∈ s.held d

theorem ordered_reachable {code : C → Language (Op L)} {may : C → List L → L → Prop}
    (hcode : ∀ c, Keeps (may c) [] (code c)) {s : State C L} (hs : Reachable code s) (c : C) :
    Ordered (may c) (s.held c) (s.todo c) := by
  induction hs generalizing c with
  | refl => rfl
  | @tail s _ _ hstep ih =>
    -- only the CPU that takes the step has another rest before it
    cases hstep with
    | @start d ops hidle hops =>
      by_cases hc : c = d
      · subst hc
        have hnone : s.held c = [] := by simpa only [hidle, Ordered] using ih c
        have hops := hcode c ops hops [] rfl
        simpa [hnone] using hops
      · simpa [hc] using ih c
    | @lock d l ops htodo hfree =>
      by_cases hc : c = d
      · subst hc
        have hrest := ih c
        rw [htodo] at hrest
        simpa using hrest.2
      · simpa [hc] using ih c
    | @unlock d l ops htodo =>
    by_cases hc : c = d
    · subst hc
      have hrest := ih c
      rw [htodo] at hrest
      obtain ⟨rest, hheld, hrest⟩ := hrest
      simpa [hheld] using hrest
    · simpa [hc] using ih c

end ChCore.Lib.LockTraces
