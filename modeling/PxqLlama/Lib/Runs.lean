/-!
# `Lib.Runs`: runs of a system and their invariants

A system takes steps, each with an action. `Runs` are the states that it reaches when every step
meets a condition on the state before it and on the action. What holds at the start and is kept by
each such step holds of every state reached (`Runs.invariant`); a weaker condition allows more
runs (`Runs.mono`). `Allowed` checks a list of actions, for runs on given input.
-/

section

variable {σ α : Type}

/-- The states that a system reaches by steps that are all allowed. -/
inductive Runs (init : σ) (step : σ → α → Option σ) (ok : σ → α → Prop) : σ → Prop
  | init : Runs init step ok init
  | step {s s' : σ} {a : α} (h : Runs init step ok s) (hok : ok s a) (hstep : step s a = some s') :
      Runs init step ok s'

namespace Runs

variable {init : σ} {step : σ → α → Option σ} {ok ok' : σ → α → Prop} {s : σ}

theorem invariant {inv : σ → Prop} (h : Runs init step ok s) (hinit : inv init)
    (hstep : ∀ s a s', inv s → ok s a → step s a = some s' → inv s') : inv s := by
  induction h with
  | init => exact hinit
  | step _ hok heq ih => exact hstep _ _ _ ih hok heq

theorem mono (h : Runs init step ok s) (himp : ∀ s a, ok s a → ok' s a) : Runs init step ok' s := by
  induction h with
  | init => exact .init
  | step _ hok heq ih => exact .step ih (himp _ _ hok) heq

/-- An invariant of more steps can be used to show one of fewer. -/
theorem invariant_of {inv aux : σ → Prop} (h : Runs init step ok s)
    (haux : ∀ s, Runs init step ok s → aux s) (hinit : inv init)
    (hstep : ∀ s a s', aux s → inv s → ok s a → step s a = some s' → inv s') : inv s := by
  induction h with
  | init => exact hinit
  | step hrun hok heq ih => exact hstep _ _ _ (haux _ hrun) ih hok heq

/-- The state after the actions, one after another. -/
def last (step : σ → α → Option σ) (s : σ) (as : List α) : σ :=
  as.foldl (fun s a => (step s a).getD s) s

/-- Each of the actions can be taken, and is allowed, after the ones before it. -/
def Allowed (step : σ → α → Option σ) (ok : σ → α → Prop) : σ → List α → Prop
  | _, [] => True
  | s, a :: as => ok s a ∧ (step s a).isSome ∧ Allowed step ok ((step s a).getD s) as

instance decidableAllowed [∀ s a, Decidable (ok s a)] :
    (s : σ) → (as : List α) → Decidable (Allowed step ok s as)
  | _, [] => isTrue trivial
  | s, a :: as =>
    have : Decidable (Allowed step ok ((step s a).getD s) as) := decidableAllowed _ as
    inferInstanceAs (Decidable (_ ∧ _ ∧ _))

theorem of_allowed {as : List α} (h : Runs init step ok s) (hall : Allowed step ok s as) :
    Runs init step ok (last step s as) := by
  induction as generalizing s with
  | nil => exact h
  | cons a as ih =>
    obtain ⟨hok, hsome, hrest⟩ := hall
    have hstep : step s a = some ((step s a).getD s) := by
      cases heq : step s a with
      | none => rw [heq] at hsome; cases hsome
      | some s' => rfl
    exact ih (.step h hok hstep) hrest

end Runs

end

/-!
## What a deterministic machine meets on its way

A machine has at most one next state. `Reached` are the states on its way from a state, and a state
is `Safe` if none of them is bad. Whether a state is safe is decided by itself and the next one
(`safe_iff_next`, `safe_iff_stopped`), so a program that takes the same way can be followed step by
step.
-/

namespace Machine

variable {σ : Type} {next : σ → Option σ} {bad : σ → Prop} {s t : σ}

inductive Reached (next : σ → Option σ) (s : σ) : σ → Prop
  | start : Reached next s s
  | step {t u : σ} (h : Reached next s t) (hnext : next t = some u) : Reached next s u

/-- No state on the way is bad. -/
def Safe (next : σ → Option σ) (bad : σ → Prop) (s : σ) : Prop := ∀ t, Reached next s t → ¬ bad t

theorem Reached.head {u : σ} (hnext : next s = some t) (h : Reached next t u) :
    Reached next s u := by
  induction h with
  | start => exact .step .start hnext
  | step _ hstep ih => exact ih.step hstep

/-- A way is of length 0, or goes over the next state. -/
theorem Reached.cases_head {u : σ} (h : Reached next s u) :
    u = s ∨ ∃ t, next s = some t ∧ Reached next t u := by
  induction h with
  | start => exact .inl rfl
  | step _ hstep ih =>
    right
    rcases ih with rfl | ⟨t, hnext, hreach⟩
    · exact ⟨_, hstep, .start⟩
    · exact ⟨t, hnext, hreach.step hstep⟩

theorem safe_iff_next (hnext : next s = some t) :
    Safe next bad s ↔ ¬ bad s ∧ Safe next bad t := by
  constructor
  · intro h
    exact ⟨h s .start, fun u hu => h u (hu.head hnext)⟩
  · intro h u hu
    rcases hu.cases_head with rfl | ⟨t', ht', hreach⟩
    · exact h.1
    · obtain rfl := Option.some.inj (hnext.symm.trans ht')
      exact h.2 u hreach

theorem safe_iff_stopped (hnext : next s = none) : Safe next bad s ↔ ¬ bad s := by
  constructor
  · intro h
    exact h s .start
  · intro h u hu
    rcases hu.cases_head with rfl | ⟨t, ht, -⟩
    · exact h
    · rw [hnext] at ht
      cases ht

theorem not_safe (h : bad s) : ¬ Safe next bad s := fun hsafe => hsafe s .start h

end Machine

/-!
## Phases of a run

A run of a system has a state at each time. A phase is a stretch of times at which a property
holds. `Begins` are the times at which one starts, `Lasts` says that it goes on for a number of
steps. A counter that each step of a phase lowers by one is known at all times of the phase
(`Lasts.countdown`).
-/

section

variable {p : Nat → Prop} {a n : Nat}

/-- A phase of `p` starts at time `a`. -/
def Begins (p : Nat → Prop) (a : Nat) : Prop := p a ∧ ∀ k, k + 1 = a → ¬ p k

/-- `p` holds at `n` times from `a` on. -/
def Lasts (p : Nat → Prop) (a n : Nat) : Prop := ∀ k < n, p (a + k)

/-- A counter that falls by one inside the phase. -/
theorem Lasts.countdown {f : Nat → Int} (hlasts : Lasts p a n)
    (hstep : ∀ k, p k → p (k + 1) → f (k + 1) = f k - 1) : ∀ k < n, f (a + k) = f a - k := by
  intro k hk
  induction k with
  | zero => simp
  | succ k ih =>
    have hprev : f (a + k) = f a - k := ih (by omega)
    have hhere : p (a + k) := hlasts k (by omega)
    have hnext : p (a + k + 1) := hlasts (k + 1) hk
    show f (a + k + 1) = _
    rw [hstep (a + k) hhere hnext, hprev]
    push_cast
    omega

end
