/-
  File: ChCore/Lib/LockedCode.lean
  Subject: Sequential code that takes and gives back locks.

  The locks are part of the state. Code that waits for a lock it cannot get, or gives back one that
  is free, is wedged; this is told apart from code that stops on an assertion of its own.

  * `Code` -- the monad; `acquire`, `release`, `bugOn`, `orStop`;
  * `Code.Ends f s Q` -- where `f` returns from `s`, result and state are in `Q`, with its rules.
-/
import Mathlib

namespace ChCore.Lib

open Function

/-! ## 1. The code -/

/-- How code ends. -/
inductive Outcome (σ α : Type) where
  | returned (a : α) (s : σ)
  /-- An assertion has failed. -/
  | stopped
  /-- A lock that is held is waited for, or one that is free is given back. -/
  | wedged

def Code (σ α : Type) : Type := σ → Outcome σ α

instance {σ : Type} : Monad (Code σ) where
  pure a := fun s => .returned a s
  bind f g := fun s => match f s with
    | .returned a s => g a s
    | .stopped => .stopped
    | .wedged => .wedged

/-- The locks `ι` of a state. -/
class HasLocks (ι : outParam Type) [DecidableEq ι] (σ : Type) where
  held : σ → ι → Bool
  setLock : σ → ι → Bool → σ
  held_setLock : ∀ s i b, held (setLock s i b) = update (held s) i b

export HasLocks (held setLock held_setLock)

namespace Code

variable {σ α β : Type}

def read : Code σ σ := fun s => .returned s s

def write (s : σ) : Code σ Unit := fun _ => .returned () s

def stop : Code σ α := fun _ => .stopped

def bugOn (b : Prop) [Decidable b] : Code σ Unit := if b then stop else pure ()

/-- A part that stops the code where it has no result. -/
def orStop : Option α → Code σ α
  | some a => pure a
  | none => stop

theorem bind_apply (f : Code σ α) (g : α → Code σ β) (s : σ) :
    (f >>= g) s = match f s with
      | .returned a s => g a s
      | .stopped => .stopped
      | .wedged => .wedged := rfl

@[simp]
theorem pure_apply (a : α) (s : σ) : (pure a : Code σ α) s = .returned a s := rfl

@[simp]
theorem stop_apply (s : σ) : (stop : Code σ α) s = .stopped := rfl

@[simp]
theorem stop_bind (g : α → Code σ β) (s : σ) : (stop >>= g) s = .stopped := rfl

@[simp]
theorem read_bind (g : σ → Code σ β) (s : σ) : (read >>= g) s = g s s := rfl

@[simp]
theorem write_bind (t : σ) (g : Unit → Code σ β) (s : σ) : (write t >>= g) s = g () t := rfl

@[simp]
theorem pure_bind_apply (a : α) (g : α → Code σ β) (s : σ) : ((pure a : Code σ α) >>= g) s = g a s :=
  rfl

@[simp]
theorem bind_bind_apply {γ : Type} (f : Code σ α) (g : α → Code σ β) (k : β → Code σ γ) (s : σ) :
    (f >>= g >>= k) s = (f >>= fun a => g a >>= k) s := by
  rw [bind_apply, bind_apply, bind_apply]
  cases f s <;> rfl

theorem bind_of_returned {f : Code σ α} {g : α → Code σ β} {s t : σ} {a : α}
    (h : f s = .returned a t) : (f >>= g) s = g a t := by
  rw [bind_apply, h]

theorem bind_returned {f : Code σ α} {g : α → Code σ β} {s s' : σ} {b : β}
    (h : (f >>= g) s = .returned b s') :
    ∃ a t, f s = .returned a t ∧ g a t = .returned b s' := by
  rw [bind_apply] at h
  cases hf : f s with
  | returned a t =>
    rw [hf] at h
    exact ⟨a, t, rfl, h⟩
  | stopped | wedged =>
    rw [hf] at h
    cases h

theorem bugOn_returned {b : Prop} [Decidable b] {s s' : σ} {u : Unit}
    (h : bugOn b s = .returned u s') : ¬ b ∧ s = s' := by
  by_cases hb : b
  · rw [bugOn, if_pos hb] at h
    cases h
  · rw [bugOn, if_neg hb] at h
    cases h
    exact ⟨hb, rfl⟩

theorem orStop_returned {x : Option α} {s s' : σ} {a : α} (h : orStop x s = .returned a s') :
    x = some a ∧ s = s' := by
  cases x with
  | none => cases h
  | some b =>
    cases h
    exact ⟨rfl, rfl⟩

variable {ι : Type} [DecidableEq ι] [HasLocks ι σ]

def acquire (i : ι) : Code σ Unit := fun s =>
  if held s i then .wedged else .returned () (setLock s i true)

def release (i : ι) : Code σ Unit := fun s =>
  if held s i then .returned () (setLock s i false) else .wedged

theorem acquire_returned {i : ι} {s s' : σ} {u : Unit} (h : acquire i s = .returned u s') :
    s' = setLock s i true := by
  unfold acquire at h
  split at h
  · cases h
  · cases h
    rfl

theorem release_returned {i : ι} {s s' : σ} {u : Unit} (h : release i s = .returned u s') :
    s' = setLock s i false := by
  unfold release at h
  split at h
  · cases h
    rfl
  · cases h

/-! ## 2. What it does to the locks -/

/-- **With the locks `L` held the code is not wedged, and where it returns `M` are held.** -/
def Takes (L : ι → Bool) (f : Code σ α) (M : ι → Bool) : Prop :=
  ∀ s, held s = L → match f s with
    | .returned _ s' => held s' = M
    | .stopped => True
    | .wedged => False

variable {L M N : ι → Bool}

theorem takes_pure (a : α) : Takes L (pure a : Code σ α) L := fun _ hs => hs

theorem takes_stop : Takes L (stop : Code σ α) M := fun _ _ => trivial

theorem takes_bind {f : Code σ α} {g : α → Code σ β} (hf : Takes L f M)
    (hg : ∀ a, Takes M (g a) N) : Takes L (f >>= g) N := by
  intro s hs
  have h := hf s hs
  rw [bind_apply]
  cases hr : f s with
  | returned a s' =>
    rw [hr] at h
    exact hg a s' h
  | stopped => trivial
  | wedged =>
    rw [hr] at h
    exact h

theorem takes_read {g : σ → Code σ β} (hg : ∀ s, held s = L → Takes L (g s) N) :
    Takes L (read >>= g) N := fun s hs => hg s hs s hs

theorem takes_write {s : σ} (hs : held s = M) : Takes L (write s) M := fun _ _ => hs

theorem takes_bugOn (b : Prop) [Decidable b] : Takes L (bugOn b : Code σ Unit) L := by
  unfold bugOn
  split
  · exact takes_stop
  · exact takes_pure ()

theorem takes_orStop (x : Option α) : Takes L (orStop x : Code σ α) L := by
  cases x with
  | none => exact takes_stop
  | some a => exact takes_pure a

theorem takes_acquire {i : ι} (h : L i = false) :
    Takes L (acquire i : Code σ Unit) (update L i true) := by
  intro s hs
  have hfree : held s i = false := by rw [hs, h]
  simp only [acquire, hfree, Bool.false_eq_true, if_false, held_setLock, hs]

theorem takes_release {i : ι} (h : L i = true) :
    Takes L (release i : Code σ Unit) (update L i false) := by
  intro s hs
  have hheld : held s i = true := by rw [hs, h]
  simp only [release, hheld, if_true, held_setLock, hs]

theorem acquire_bind {i : ι} {s : σ} (h : held s i = false) (g : Unit → Code σ β) :
    (acquire i >>= g) s = g () (setLock s i true) := by
  have hacq : acquire i s = .returned () (setLock s i true) := by
    rw [acquire, h]
    rfl
  rw [bind_apply, hacq]

theorem acquire_bind_held {i : ι} {s : σ} (h : held s i = true) (g : Unit → Code σ β) :
    (acquire i >>= g) s = .wedged := by
  have hacq : (acquire i : Code σ Unit) s = .wedged := by
    rw [acquire, h]
    rfl
  rw [bind_apply, hacq]

/-- **A part between `acquire` and `release`** leaves the locks as they were. -/
theorem takes_locked {i : ι} {f : Code σ α} (h : L i = false)
    (hf : Takes (update L i true) f (update L i true)) :
    Takes L (do acquire i; let a ← f; release i; pure a : Code σ α) L := by
  refine takes_bind (takes_acquire h) fun _ => takes_bind hf fun a => ?_
  refine takes_bind (takes_release (update_self i true L)) fun _ => ?_
  rw [update_idem, ← h, update_eq_self]
  exact takes_pure a

/-! ## 3. What holds where it returns -/

/-- **Where the code returns from `s`, the result and the state are in `Q`.** -/
def Ends (f : Code σ α) (s : σ) (Q : α → σ → Prop) : Prop :=
  ∀ a s', f s = .returned a s' → Q a s'

variable {Q R : α → σ → Prop} {s : σ}

theorem ends_pure {a : α} (h : Q a s) : Ends (pure a) s Q := by
  intro b s' hret
  cases hret
  exact h

theorem ends_stop : Ends (stop : Code σ α) s Q := fun _ _ hret => nomatch hret

theorem Ends.mono {f : Code σ α} (hf : Ends f s R) (h : ∀ a t, R a t → Q a t) : Ends f s Q :=
  fun a t hret => h a t (hf a t hret)

theorem Ends.bind {f : Code σ β} {g : β → Code σ α} {M : β → σ → Prop} (hf : Ends f s M)
    (hg : ∀ b t, M b t → Ends (g b) t Q) : Ends (f >>= g) s Q := by
  intro a s' hret
  obtain ⟨b, t, hfst, hsnd⟩ := bind_returned hret
  exact hg b t (hf b t hfst) a s' hsnd

theorem ends_read {g : σ → Code σ α} (h : Ends (g s) s Q) : Ends (read >>= g) s Q := h

theorem ends_orStop_bind {x : Option β} {g : β → Code σ α} (h : ∀ b, x = some b → Ends (g b) s Q) :
    Ends (orStop x >>= g) s Q := by
  cases x with
  | none => exact fun _ _ hret => nomatch hret
  | some b => exact h b rfl

theorem ends_bugOn {b : Prop} [Decidable b] {Q : Unit → σ → Prop} (h : ¬ b → Q () s) :
    Ends (bugOn b) s Q := by
  intro u s' hret
  obtain ⟨hb, rfl⟩ := bugOn_returned hret
  exact h hb

theorem ends_ite {b : Prop} [Decidable b] {f g : Code σ α} (hf : b → Ends f s Q)
    (hg : ¬ b → Ends g s Q) : Ends (if b then f else g) s Q := by
  split
  · exact hf ‹b›
  · exact hg ‹¬ b›

end Code

end ChCore.Lib
