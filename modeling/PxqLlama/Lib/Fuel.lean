import Mathlib.Data.List.Basic

/-!
# `Lib.Fuel`: results that do not depend on fuel

A computation that is given fuel settles on a result when it has that result from some amount of
fuel on. What is put together from computations that settle settles too (`Settles.bind`,
`exists_settles_foldlM`), and on one result only (`Settles.unique`).
-/

section

variable {α β : Type}

/-- With enough fuel the result is `a`. -/
def Settles (F : Nat → Option α) (a : α) : Prop := ∃ n, ∀ m, n ≤ m → F m = some a

variable {F : Nat → Option α} {a : α} {G : α → Nat → Option β}

theorem Settles.of_mono {n : Nat} (h : F n = some a)
    (hmono : ∀ n, F n = some a → F (n + 1) = some a) : Settles F a := by
  refine ⟨n, fun m hm => ?_⟩
  induction hm with
  | refl => exact h
  | step _ ih => exact hmono _ ih

theorem settles_pure (a : α) : Settles (fun _ => some a) a := ⟨0, fun _ _ => rfl⟩

theorem Settles.unique {b : α} (ha : Settles F a) (hb : Settles F b) : a = b := by
  obtain ⟨n, hn⟩ := ha
  obtain ⟨m, hm⟩ := hb
  have heq := hn (max n m) (Nat.le_max_left n m)
  rw [hm (max n m) (Nat.le_max_right n m)] at heq
  exact (Option.some.inj heq).symm

variable {b : β} {f : Nat → β → α → Option β} {l : List α}

theorem Settles.bind (hF : Settles F a) (hG : Settles (G a) b) :
    Settles (fun n => (F n).bind fun x => G x n) b := by
  obtain ⟨n, hn⟩ := hF
  obtain ⟨m, hm⟩ := hG
  refine ⟨max n m, fun k hk => ?_⟩
  show (F k).bind (fun x => G x k) = some b
  rw [hn k (Nat.le_trans (Nat.le_max_left n m) hk), Option.bind_some,
    hm k (Nat.le_trans (Nat.le_max_right n m) hk)]

theorem Settles.map (hF : Settles F a) (f : α → β) : Settles (fun n => (F n).map f) (f a) := by
  obtain ⟨n, hn⟩ := hF
  refine ⟨n, fun m hm => ?_⟩
  show (F m).map f = some (f a)
  rw [hn m hm]
  rfl

/-- A fold settles when each of its rounds does on what the rounds before leave; `P` says what that
is, from the part of the list that is done. -/
theorem exists_settles_foldlM (P : List α → β → Prop)
    (hf : ∀ done a rest, l = done ++ a :: rest → ∀ b, P done b →
      ∃ b', P (done ++ [a]) b' ∧ Settles (fun n => f n b a) b') (hb : P [] b) :
    ∃ b', P l b' ∧ Settles (fun n => l.foldlM (f n) b) b' := by
  have hrest : ∀ rest done b, l = done ++ rest → P done b →
      ∃ b', P l b' ∧ Settles (fun n => rest.foldlM (f n) b) b' := by
    intro rest
    induction rest with
    | nil =>
      intro done b hl hdone
      rw [List.append_nil] at hl
      exact ⟨b, hl ▸ hdone, settles_pure b⟩
    | cons a rest ih =>
      intro done b hl hdone
      obtain ⟨b₁, hb₁, hround⟩ := hf done a rest hl b hdone
      obtain ⟨b₂, hb₂, hmore⟩ := ih (done ++ [a]) b₁ (by rw [hl, List.append_assoc]; rfl) hb₁
      exact ⟨b₂, hb₂, hround.bind hmore⟩
  exact hrest l [] b rfl hb

/-- What each round of a fold keeps holds of its result. -/
theorem foldlM_invariant {f : β → α → Option β} {P : β → Prop} {l : List α} {b b' : β}
    (h : l.foldlM f b = some b') (hb : P b)
    (hf : ∀ b a b', a ∈ l → P b → f b a = some b' → P b') : P b' := by
  induction l generalizing b with
  | nil => cases h; exact hb
  | cons a l ih =>
    obtain ⟨b₁, hround, hrest⟩ := Option.bind_eq_some_iff.mp h
    exact ih hrest (hf b a b₁ List.mem_cons_self hb hround)
      fun b a' b' ha' => hf b a' b' (List.mem_cons_of_mem a ha')

/-! ### Computations that keep a result -/

/-- With more fuel a result stays. -/
def Mono (F : Nat → Option α) : Prop := ∀ n a, F n = some a → F (n + 1) = some a

/-- The computation has a result from some amount of fuel on. -/
def Returns (F : Nat → Option α) : Prop := ∃ a, Settles F a

theorem Mono.le (hF : Mono F) {n m : Nat} (h : F n = some a) (hle : n ≤ m) : F m = some a := by
  induction hle with
  | refl => exact h
  | step _ ih => exact hF _ _ ih

theorem Mono.settles (hF : Mono F) {n : Nat} (h : F n = some a) :
    Settles F a := ⟨n, fun _ hle => hF.le h hle⟩

theorem Settles.exists_eq (h : Settles F a) : ∃ n, F n = some a := by
  obtain ⟨n, hn⟩ := h
  exact ⟨n, hn n (Nat.le_refl n)⟩

theorem mono_const (x : Option α) : Mono fun _ => x := fun _ _ h => h

theorem Mono.bind (hF : Mono F) (hG : ∀ a, Mono (G a)) :
    Mono fun n => (F n).bind fun a => G a n := by
  intro n b h
  obtain ⟨a, ha, hb⟩ := Option.bind_eq_some_iff.1 h
  exact Option.bind_eq_some_iff.2 ⟨a, hF n a ha, hG a n b hb⟩

theorem Mono.map (hF : Mono F) (f : α → β) : Mono fun n => (F n).map f := by
  intro n b h
  obtain ⟨a, ha, hb⟩ := Option.map_eq_some_iff.1 h
  exact Option.map_eq_some_iff.2 ⟨a, hF n a ha, hb⟩

theorem Mono.foldlM (hf : ∀ b a, Mono fun n => f n b a) (l : List α) (b : β) :
    Mono fun n => l.foldlM (f n) b := by
  induction l generalizing b with
  | nil => exact mono_const (some b)
  | cons a l ih => exact (hf b a).bind fun b' => ih b'

theorem Mono.settles_bind_iff (hF : Mono F) (hG : ∀ a, Mono (G a)) :
    Settles (fun n => (F n).bind fun a => G a n) b ↔ ∃ a, Settles F a ∧ Settles (G a) b := by
  constructor
  · intro h
    obtain ⟨n, hn⟩ := h.exists_eq
    obtain ⟨a, ha, hb⟩ := Option.bind_eq_some_iff.1 hn
    exact ⟨a, hF.settles ha, (hG a).settles hb⟩
  · rintro ⟨a, ha, hb⟩
    exact ha.bind hb

theorem Mono.settles_map_iff (hF : Mono F) {f : α → β} :
    Settles (fun n => (F n).map f) b ↔ ∃ a, Settles F a ∧ f a = b := by
  constructor
  · intro h
    obtain ⟨n, hn⟩ := h.exists_eq
    obtain ⟨a, ha, hb⟩ := Option.map_eq_some_iff.1 hn
    exact ⟨a, hF.settles ha, hb⟩
  · rintro ⟨a, ha, rfl⟩
    exact ha.map f

/-- A fold returns when each of its rounds does, where that does not depend on the rounds before. -/
theorem returns_foldlM_iff (hf : ∀ b a, Mono fun n => f n b a) {P : α → Prop}
    (hP : ∀ b a, Returns (fun n => f n b a) ↔ P a) :
    Returns (fun n => l.foldlM (f n) b) ↔ ∀ a ∈ l, P a := by
  induction l generalizing b with
  | nil => exact ⟨fun _ a ha => absurd ha List.not_mem_nil, fun _ => ⟨b, settles_pure b⟩⟩
  | cons a l ih =>
    rw [List.forall_mem_cons, ← hP b a]
    constructor
    · rintro ⟨c, hc⟩
      obtain ⟨b', hb', hrest⟩ := ((hf b a).settles_bind_iff (fun b' => Mono.foldlM hf l b')).1 hc
      exact ⟨⟨b', hb'⟩, (ih (b := b')).1 ⟨c, hrest⟩⟩
    · rintro ⟨⟨b', hb'⟩, hrest⟩
      obtain ⟨c, hc⟩ := (ih (b := b')).2 hrest
      exact ⟨c, ((hf b a).settles_bind_iff (fun b' => Mono.foldlM hf l b')).2 ⟨b', hb', hc⟩⟩

/-- What the result of a fold contains, when each round adds what `Q` says. -/
theorem settles_foldlM_mem {γ : Type} {f : Nat → List γ → α → Option (List γ)}
    (hf : ∀ b a, Mono fun n => f n b a) {Q : α → γ → Prop}
    (hQ : ∀ b a out, Settles (fun n => f n b a) out → ∀ t, t ∈ out ↔ t ∈ b ∨ Q a t)
    {b out : List γ} (h : Settles (fun n => l.foldlM (f n) b) out) (t : γ) :
    t ∈ out ↔ t ∈ b ∨ ∃ a ∈ l, Q a t := by
  induction l generalizing b with
  | nil =>
    rw [Settles.unique h (settles_pure b)]
    simp
  | cons a l ih =>
    obtain ⟨b', hb', hrest⟩ := ((hf b a).settles_bind_iff (fun b' => Mono.foldlM hf l b')).1 h
    rw [ih hrest, hQ b a b' hb', or_assoc]
    simp

end
