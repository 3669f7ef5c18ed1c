/-!
# `Lib.Attempt`: steps that may fail half way

A step on a state that throws leaves what it did before the throw. Such a step returns an
`Except σ σ`: an error carries the state that is left. `left` is the state in both cases;
`left_bind` shows an invariant of a sequence of steps from those of the steps, failures included.

`Yields` says that an attempt does not fail and what it returns. Its rule for a sequence
(`Yields.bind`) goes from one step to the next as the program does.

`mapM_some` and `mem_of_mapM_eq_some` are about one attempt for each element of a list.
-/

namespace Attempt

variable {σ α : Type}

/-- The state after an attempt, whether it failed or not. -/
def left : Except σ σ → σ
  | .ok s => s
  | .error s => s

@[simp] theorem left_ok (s : σ) : left (.ok s) = s := rfl

@[simp] theorem left_error (s : σ) : left (.error s) = s := rfl

theorem bind_eq_ok {ε β : Type} {x : Except ε α} {f : α → Except ε β} {b : β} :
    (x >>= f) = .ok b ↔ ∃ a, x = .ok a ∧ f a = .ok b := by
  constructor
  · intro h
    cases x with
    | error e => cases h
    | ok a => exact ⟨a, rfl, h⟩
  · rintro ⟨a, rfl, h⟩
    exact h

theorem map_eq_ok {ε β : Type} {x : Except ε α} {f : α → β} {b : β} :
    x.map f = .ok b ↔ ∃ a, x = .ok a ∧ f a = b := by
  cases x <;> simp [Except.map]

/-- A check in front of something. -/
theorem check_bind {ε β : Type} {x : Except ε Unit} {f : Unit → Except ε β} {b : β} :
    (x >>= f) = .ok b ↔ x = .ok () ∧ f () = .ok b := by
  rw [bind_eq_ok]
  constructor
  · rintro ⟨⟨⟩, hx, hf⟩
    exact ⟨hx, hf⟩
  · rintro ⟨hx, hf⟩
    exact ⟨(), hx, hf⟩

/-- What the first step keeps in any case and the second keeps, both keep. -/
theorem left_bind {inv : σ → Prop} {x : Except σ σ} {f : σ → Except σ σ} (hx : inv (left x))
    (hf : ∀ s, inv s → inv (left (f s))) : inv (left (x >>= f)) := by
  cases x with
  | error s => exact hx
  | ok s => exact hf s hx

variable {step : σ → α → Except σ σ} {as : List α}

/-- What each step leaves alone, a loop leaves alone. -/
theorem left_foldlM {β : Type} {part : σ → β} (hstep : ∀ s a, part (left (step s a)) = part s)
    (as : List α) (s : σ) : part (left (as.foldlM step s)) = part s := by
  induction as generalizing s with
  | nil => rfl
  | cons a as ih =>
    rw [List.foldlM_cons]
    have hfirst := hstep s a
    cases hone : step s a with
    | error t =>
      rw [hone] at hfirst
      exact hfirst
    | ok t =>
      rw [hone] at hfirst
      exact (ih t).trans hfirst

/-- A loop that does not fail is the loop of what its step does when it does not fail. -/
theorem foldlM_eq_ok {next : σ → α → σ} (hstep : ∀ s a s', step s a = .ok s' → s' = next s a)
    {s s' : σ} (h : as.foldlM step s = .ok s') : s' = as.foldl next s := by
  induction as generalizing s with
  | nil =>
    cases h
    rfl
  | cons a as ih =>
    rw [List.foldlM_cons] at h
    obtain ⟨mid, hmid, hrest⟩ := bind_eq_ok.mp h
    rw [List.foldl_cons, ← hstep s a mid hmid]
    exact ih hrest

/-- What every step keeps, a loop that succeeds keeps. -/
theorem foldlM_keeps {ε : Type} {inv : σ → Prop} {step : σ → α → Except ε σ}
    (hstep : ∀ s a s', inv s → step s a = .ok s' → inv s') {s s' : σ} (hs : inv s)
    (h : as.foldlM step s = .ok s') : inv s' := by
  induction as generalizing s with
  | nil =>
    cases h
    exact hs
  | cons a as ih =>
    rw [List.foldlM_cons] at h
    obtain ⟨mid, hmid, hrest⟩ := bind_eq_ok.mp h
    exact ih (hstep s a mid hs hmid) hrest

/-- A loop of checks succeeds when every check does. -/
theorem forM_eq_ok {ε : Type} {check : α → Except ε Unit} :
    as.forM check = .ok () ↔ ∀ a ∈ as, check a = .ok () := by
  induction as with
  | nil => simp [pure, Except.pure]
  | cons a as ih =>
    rw [List.forM_eq_forM, List.forM_cons, check_bind, List.forall_mem_cons, ← ih]
    rfl

/-! ### One attempt for each element -/

section

variable {β : Type} {f : α → Option β} {as : List α}

theorem mapM_some {g : α → β} (h : ∀ a ∈ as, f a = some (g a)) : as.mapM f = some (as.map g) := by
  induction as with
  | nil => rfl
  | cons a as ih =>
    rw [List.mapM_cons, h a List.mem_cons_self, ih fun a ha => h a (List.mem_cons_of_mem _ ha)]
    rfl

theorem mapM_map {γ : Type} (g : β → γ) :
    as.mapM (fun a => (f a).map g) = (as.mapM f).map (List.map g) := by
  induction as with
  | nil => rfl
  | cons a as ih =>
    rw [List.mapM_cons, List.mapM_cons, ih]
    cases f a with
    | none => rfl
    | some b =>
      cases as.mapM f with
      | none => rfl
      | some bs => rfl

/-- All succeed, and nothing else is returned. -/
theorem mem_of_mapM_eq_some {bs : List β} (h : as.mapM f = some bs) :
    (∀ a ∈ as, ∃ b ∈ bs, f a = some b) ∧ ∀ b ∈ bs, ∃ a ∈ as, f a = some b := by
  induction as generalizing bs with
  | nil =>
    cases h
    simp
  | cons a as ih =>
    rw [List.mapM_cons] at h
    cases hone : f a with
    | none =>
      rw [hone] at h
      cases h
    | some b =>
      cases hrest : as.mapM f with
      | none =>
        rw [hone, hrest] at h
        cases h
      | some bs' =>
        rw [hone, hrest] at h
        cases h
        obtain ⟨hall, honly⟩ := ih hrest
        constructor
        · intro a' ha'
          rcases List.mem_cons.mp ha' with rfl | ha'
          · exact ⟨b, List.mem_cons_self, hone⟩
          · obtain ⟨b', hb', heq⟩ := hall a' ha'
            exact ⟨b', List.mem_cons_of_mem _ hb', heq⟩
        · intro b' hb'
          rcases List.mem_cons.mp hb' with rfl | hb'
          · exact ⟨a, List.mem_cons_self, hone⟩
          · obtain ⟨a', ha', heq⟩ := honly b' hb'
            exact ⟨a', List.mem_cons_of_mem _ ha', heq⟩

end

/-! ### Attempts that do not fail -/

section

variable {ε β : Type} {x : Except ε α} {P Q : α → Prop}

/-- The attempt returns a value with the property. -/
def Yields (x : Except ε α) (P : α → Prop) : Prop := ∃ a, x = .ok a ∧ P a

namespace Yields

theorem ok {a : α} (h : P a) : Yields (.ok a : Except ε α) P := ⟨a, rfl, h⟩

theorem imp (h : Yields x P) (himp : ∀ a, P a → Q a) : Yields x Q := by
  obtain ⟨a, hx, ha⟩ := h
  exact ⟨a, hx, himp a ha⟩

theorem bind {R : β → Prop} {f : α → Except ε β} (h : Yields x P)
    (hf : ∀ a, P a → Yields (f a) R) : Yields (x >>= f) R := by
  obtain ⟨a, rfl, ha⟩ := h
  exact hf a ha

/-- Both branches return values with the property. -/
theorem ite {c : Prop} [Decidable c] {y : Except ε α} (hx : c → Yields x P)
    (hy : ¬ c → Yields y P) : Yields (if c then x else y) P := by
  by_cases hc : c
  · rw [if_pos hc]
    exact hx hc
  · rw [if_neg hc]
    exact hy hc

end Yields

end

end Attempt
