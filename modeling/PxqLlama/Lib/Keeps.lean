/-!
# `Lib.Keeps`: invariants of computations that may throw

A computation changes a state and returns a value or throws. `Keeps inv m post fails` says that
from a state with `inv` it ends in one, whether it throws or not; that the value has `post`; and
that what it throws has `fails`. There is a rule for each way to put computations together. For a
loop (`iterate`) with more fuel than a measure of what it goes through, that measure has to get
smaller in each round, and then the loop never runs out (`Keeps.iterate`).
-/

/-- A computation on a state that may throw. The state is left as it is where it throws. -/
abbrev Throwing (ε σ α : Type) := ExceptT ε (StateM σ) α

section

variable {ε σ α β γ : Type}

/-- From a state with `inv` to one, with a value that has `post` or an error that has `fails`. -/
def Keeps (inv : σ → Prop) (m : Throwing ε σ α) (post : α → Prop) (fails : ε → Prop) : Prop :=
  ∀ s, inv s → inv (m.run.run s).2 ∧
    (∀ a, (m.run.run s).1 = .ok a → post a) ∧ ∀ e, (m.run.run s).1 = .error e → fails e

variable {inv : σ → Prop} {m : Throwing ε σ α} {post post' : α → Prop} {fails : ε → Prop}

theorem Keeps.pure {a : α} (h : post a) : Keeps inv (pure a : Throwing ε σ α) post fails := by
  intro s hs
  refine ⟨hs, fun b hb => ?_, fun e he => ?_⟩
  · cases hb
    exact h
  · cases he

theorem Keeps.throw {e : ε} (h : fails e) :
    Keeps inv (throw e : Throwing ε σ α) post fails := by
  intro s hs
  refine ⟨hs, fun b hb => ?_, fun e' he => ?_⟩
  · cases hb
  · cases he
    exact h

theorem Keeps.imp {fails' : ε → Prop} (hm : Keeps inv m post fails) (h : ∀ a, post a → post' a)
    (h' : ∀ e, fails e → fails' e) : Keeps inv m post' fails' := by
  intro s hs
  obtain ⟨hinv, hpost, hfails⟩ := hm s hs
  exact ⟨hinv, fun a ha => h a (hpost a ha), fun e he => h' e (hfails e he)⟩

/-- A computation that does not throw. -/
theorem Keeps.of_ok (h : ∀ s, ∃ a s', m.run.run s = (.ok a, s')) :
    Keeps (fun _ => True) m (fun _ => True) fails := by
  intro s _
  obtain ⟨a, s', hrun⟩ := h s
  refine ⟨trivial, fun _ _ => trivial, fun e he => ?_⟩
  rw [hrun] at he
  cases he

theorem Throwing.run_bind (m : Throwing ε σ α) (f : α → Throwing ε σ β) (s : σ) :
    (m >>= f).run.run s = (match m.run.run s with
      | (.ok a, s') => (f a).run.run s'
      | (.error e, s') => (.error e, s')) := by
  show ExceptT.bindCont f (m.run.run s).1 (m.run.run s).2 = _
  rcases m.run.run s with ⟨r, s'⟩
  cases r with
  | ok a => rfl
  | error e => rfl

/-- One computation, then another one that has what the first returns. -/
theorem Keeps.bind {f : α → Throwing ε σ β} {post'' : β → Prop} (hm : Keeps inv m post fails)
    (hf : ∀ a, post a → Keeps inv (f a) post'' fails) : Keeps inv (m >>= f) post'' fails := by
  intro s hs
  obtain ⟨hinv, hpost, hfails⟩ := hm s hs
  rw [Throwing.run_bind]
  rcases hms : m.run.run s with ⟨r, s'⟩
  rw [hms] at hinv hpost hfails
  cases r with
  | ok a => exact hf a (hpost a rfl) s' hinv
  | error e =>
    refine ⟨hinv, fun b hb => ?_, fun e' he => ?_⟩
    · cases hb
    · cases he
      exact hfails e rfl

theorem Keeps.ite {c : Prop} [Decidable c] {m' : Throwing ε σ α} (h : c → Keeps inv m post fails)
    (h' : ¬ c → Keeps inv m' post fails) : Keeps inv (if c then m else m') post fails := by
  by_cases hc : c
  · rw [if_pos hc]
    exact h hc
  · rw [if_neg hc]
    exact h' hc

theorem Keeps.get : Keeps inv (get : Throwing ε σ σ) inv fails := by
  intro s hs
  refine ⟨hs, fun a ha => ?_, fun e he => ?_⟩
  · cases ha
    exact hs
  · cases he

theorem Keeps.set {s' : σ} (h : inv s') :
    Keeps inv (set s' : Throwing ε σ PUnit) (fun _ => True) fails := by
  intro s hs
  exact ⟨h, fun _ _ => trivial, fun e he => by cases he⟩

/-- Rounds of a loop: a round goes on with another value, or it ends the loop with a result. -/
def iterate (noFuel : ε) (round : β → Throwing ε σ (β ⊕ γ)) : Nat → β → Throwing ε σ γ
  | 0, _ => throw noFuel
  | fuel + 1, b => do
    match ← round b with
    | .inl b' => iterate noFuel round fuel b'
    | .inr c => pure c

/-- The rule of a loop with a measure that each round decreases. -/
theorem Keeps.iterate {noFuel : ε} {round : β → Throwing ε σ (β ⊕ γ)} {good : β → Prop}
    {measure : β → Nat} {done : γ → Prop}
    (hround : ∀ b, good b → Keeps inv (round b)
      (Sum.elim (fun b' => good b' ∧ measure b' < measure b) done) fails) :
    ∀ {fuel : Nat} {b : β}, good b → measure b < fuel →
      Keeps inv (iterate noFuel round fuel b) done fails := by
  intro fuel
  induction fuel with
  | zero =>
    intro b _ hlt
    exact absurd hlt (Nat.not_lt_zero _)
  | succ fuel ih =>
    intro b hb hlt
    refine (hround b hb).bind fun r hr => ?_
    cases r with
    | inl b' => exact ih hr.1 (Nat.lt_of_lt_of_le hr.2 (Nat.le_of_lt_succ hlt))
    | inr c => exact Keeps.pure hr

end
