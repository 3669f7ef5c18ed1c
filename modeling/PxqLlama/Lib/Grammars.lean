import Mathlib.Computability.ContextFreeGrammar
import Mathlib.Data.Set.Finite.Lattice

/-!
# `Lib.Grammars`: words of a grammar, and the left end of their derivations

The words of a grammar whose terminals are classes of characters, and what a string of symbols can
begin with.
-/

/-!
## The words of a grammar over classes of characters

A terminal of the grammar is a class: it stands for each of the characters that it holds for. `Words`
gives a string of symbols its words, symbol by symbol. `LeftWords` are the same words from the left:
the symbol at the front is expanded, and its rule and what is behind it go on as one string
(`leftWords_iff`). This is how a parser with a stack finds them.
-/

section

variable {T N C : Type} {rules : N → List (List (Symbol T N))} {holds : T → C → Prop}

/-- The words that a string of symbols stands for. -/
inductive Words (rules : N → List (List (Symbol T N))) (holds : T → C → Prop) :
    List (Symbol T N) → List C → Prop
  | nil : Words rules holds [] []
  | terminal {t : T} {c : C} {s : List (Symbol T N)} {w : List C} (hc : holds t c)
      (hs : Words rules holds s w) : Words rules holds (.terminal t :: s) (c :: w)
  | nonterminal {A : N} {α s : List (Symbol T N)} {u w : List C} (hα : α ∈ rules A)
      (hu : Words rules holds α u) (hs : Words rules holds s w) :
      Words rules holds (.nonterminal A :: s) (u ++ w)

/-- The words of a string, with the symbol at the front expanded in place. -/
inductive LeftWords (rules : N → List (List (Symbol T N))) (holds : T → C → Prop) :
    List (Symbol T N) → List C → Prop
  | nil : LeftWords rules holds [] []
  | terminal {t : T} {c : C} {s : List (Symbol T N)} {w : List C} (hc : holds t c)
      (hs : LeftWords rules holds s w) : LeftWords rules holds (.terminal t :: s) (c :: w)
  | expand {A : N} {α s : List (Symbol T N)} {w : List C} (hα : α ∈ rules A)
      (hs : LeftWords rules holds (α ++ s) w) : LeftWords rules holds (.nonterminal A :: s) w

theorem Words.append {s t : List (Symbol T N)} {u v : List C} (hs : Words rules holds s u)
    (ht : Words rules holds t v) : Words rules holds (s ++ t) (u ++ v) := by
  induction hs with
  | nil => exact ht
  | terminal hc _ ih => exact .terminal hc ih
  | nonterminal hα hu _ _ ih =>
    rw [List.append_assoc]
    exact .nonterminal hα hu ih

variable {s : List (Symbol T N)} {w : List C}

/-- A word of two strings is read in two parts. -/
theorem words_append_iff {t : List (Symbol T N)} :
    Words rules holds (s ++ t) w ↔
      ∃ u v, w = u ++ v ∧ Words rules holds s u ∧ Words rules holds t v := by
  constructor
  · intro h
    induction s generalizing w with
    | nil => exact ⟨[], w, rfl, .nil, h⟩
    | cons x s ih =>
      cases h with
      | terminal hc hs =>
        obtain ⟨u, v, rfl, hu, hv⟩ := ih hs
        exact ⟨_ :: u, v, rfl, .terminal hc hu, hv⟩
      | nonterminal hα hx hs =>
        obtain ⟨u, v, rfl, hu, hv⟩ := ih hs
        exact ⟨_ ++ u, v, (List.append_assoc _ _ _).symm, .nonterminal hα hx hu, hv⟩
  · rintro ⟨u, v, rfl, hs, ht⟩
    exact hs.append ht

theorem LeftWords.append {s t : List (Symbol T N)} {u v : List C} (hs : LeftWords rules holds s u)
    (ht : LeftWords rules holds t v) : LeftWords rules holds (s ++ t) (u ++ v) := by
  induction hs with
  | nil => exact ht
  | terminal hc _ ih => exact .terminal hc ih
  | expand hα _ ih =>
    rw [List.append_assoc] at ih
    exact .expand hα ih

/-- Leftmost derivations yield all words. -/
theorem leftWords_iff : LeftWords rules holds s w ↔ Words rules holds s w := by
  constructor
  · intro h
    induction h with
    | nil => exact .nil
    | terminal hc _ ih => exact .terminal hc ih
    | expand hα _ ih =>
      obtain ⟨u, v, rfl, hu, hv⟩ := words_append_iff.1 ih
      exact .nonterminal hα hu hv
  · intro h
    induction h with
    | nil => exact .nil
    | terminal hc _ ih => exact .terminal hc ih
    | nonterminal hα _ _ ihu ihs => exact .expand hα (ihu.append ihs)

theorem words_nil_iff : Words rules holds [] w ↔ w = [] := by
  constructor
  · intro h
    cases h
    rfl
  · rintro rfl
    exact .nil

theorem words_terminal_iff {t : T} {c : C} :
    Words rules holds (.terminal t :: s) (c :: w) ↔ holds t c ∧ Words rules holds s w := by
  constructor
  · intro h
    cases h with
    | terminal hc hs => exact ⟨hc, hs⟩
  · rintro ⟨hc, hs⟩
    exact .terminal hc hs

theorem not_words_terminal_nil {t : T} : ¬ Words rules holds (.terminal t :: s) [] := by
  intro h
  cases h

theorem words_nonterminal_iff {A : N} :
    Words rules holds (.nonterminal A :: s) w ↔ ∃ α ∈ rules A, Words rules holds (α ++ s) w := by
  constructor
  · intro h
    cases h with
    | nonterminal hα hu hs => exact ⟨_, hα, hu.append hs⟩
  · rintro ⟨α, hα, h⟩
    obtain ⟨u, v, rfl, hu, hv⟩ := words_append_iff.1 h
    exact .nonterminal hα hu hv

/-- Where each nonterminal has a word over the characters of `P`, and each class of the string holds
for one of them, the string has a word over them. -/
theorem exists_words {P : C → Prop}
    (hrules : ∀ A, .nonterminal A ∈ s → ∃ α ∈ rules A, ∃ w, (∀ c ∈ w, P c) ∧ Words rules holds α w)
    (hholds : ∀ t, .terminal t ∈ s → ∃ c, P c ∧ holds t c) :
    ∃ w, (∀ c ∈ w, P c) ∧ Words rules holds s w := by
  induction s with
  | nil => exact ⟨[], fun c hc => absurd hc List.not_mem_nil, .nil⟩
  | cons x s ih =>
    obtain ⟨w, hw, hs⟩ := ih (fun A hA => hrules A (List.mem_cons_of_mem x hA))
      (fun t ht => hholds t (List.mem_cons_of_mem x ht))
    cases x with
    | terminal t =>
      obtain ⟨c, hc, ht⟩ := hholds t List.mem_cons_self
      refine ⟨c :: w, fun d hd => ?_, .terminal ht hs⟩
      rcases List.mem_cons.1 hd with rfl | hd
      · exact hc
      · exact hw d hd
    | nonterminal A =>
      obtain ⟨α, hα, u, hu, hαu⟩ := hrules A List.mem_cons_self
      refine ⟨u ++ w, fun d hd => ?_, .nonterminal hα hαu hs⟩
      rcases List.mem_append.1 hd with hd | hd
      · exact hu d hd
      · exact hw d hd

end

/-!
## The left end of a string of symbols

A parser that keeps a stack of symbols expands the nonterminal on top of it. `LeftStep` is this on
strings: the first symbol, when it is a nonterminal, is replaced by one of its rules. The strings
reached so from a string of finitely many nonterminals are bounded in length exactly when no
nonterminal comes back to the front with something new behind it (`bounded_of_not_grows`,
`unbounded_of_grows`). A string is `Live` when one of them begins with a terminal or is empty.

A nonterminal that comes back to the front at all is `LeftRecursive`. This is a cycle of `LeftEdge`
(`leftRecursive_iff`), and where there is none every string is live (`live_of_not_leftRecursive`).
-/

variable {M : Nat}

section

variable {T N : Type} {rules : N → List (List (Symbol T N))}

/-- The first symbol is a nonterminal, and is replaced by one of its rules. -/
inductive LeftStep (rules : N → List (List (Symbol T N))) :
    List (Symbol T N) → List (Symbol T N) → Prop
  | expand {A : N} {α β : List (Symbol T N)} (h : α ∈ rules A) :
      LeftStep rules (.nonterminal A :: β) (α ++ β)

/-- Any number of steps. -/
abbrev LeftReach (rules : N → List (List (Symbol T N))) :
    List (Symbol T N) → List (Symbol T N) → Prop :=
  Relation.ReflTransGen (LeftStep rules)

/-- One step or more. -/
abbrev LeftReach₁ (rules : N → List (List (Symbol T N))) :
    List (Symbol T N) → List (Symbol T N) → Prop :=
  Relation.TransGen (LeftStep rules)

/-- The nonterminal comes back to the front. -/
def LeftRecursive (rules : N → List (List (Symbol T N))) (A : N) : Prop :=
  ∃ β, LeftReach₁ rules [.nonterminal A] (.nonterminal A :: β)

/-- The nonterminal comes back to the front with something behind it. -/
def Grows (rules : N → List (List (Symbol T N))) (A : N) : Prop :=
  ∃ β, β ≠ [] ∧ LeftReach₁ rules [.nonterminal A] (.nonterminal A :: β)

/-- No nonterminal is at the front. -/
def LeftLeaf (s : List (Symbol T N)) : Prop :=
  ∀ A β, s ≠ .nonterminal A :: β

/-- Some expansion ends at a terminal or with nothing. -/
def Live (rules : N → List (List (Symbol T N))) (s : List (Symbol T N)) : Prop :=
  ∃ s', LeftReach rules s s' ∧ LeftLeaf s'

/-! ### Expansion and what lies behind -/

theorem LeftStep.append {s s' : List (Symbol T N)} (h : LeftStep rules s s')
    (t : List (Symbol T N)) : LeftStep rules (s ++ t) (s' ++ t) := by
  cases h with
  | expand h =>
    rw [List.append_assoc]
    exact .expand h

variable {s : List (Symbol T N)} {A : N}

variable {s' : List (Symbol T N)}

theorem leftReach_append (h : LeftReach rules s s') (t : List (Symbol T N)) :
    LeftReach rules (s ++ t) (s' ++ t) :=
  h.lift (· ++ t) fun _ _ hstep => LeftStep.append hstep t

theorem leftReach₁_append (h : LeftReach₁ rules s s') (t : List (Symbol T N)) :
    LeftReach₁ rules (s ++ t) (s' ++ t) :=
  h.lift (· ++ t) fun _ _ hstep => LeftStep.append hstep t

theorem not_leftStep_terminal {t : T} : ¬ LeftStep rules (.terminal t :: s) s' := by
  intro h
  cases h

theorem not_leftStep_nil : ¬ LeftStep rules [] s := by
  intro h
  cases h

/-- A step at the front of a string that is not empty leaves what lies behind. -/
theorem LeftStep.of_append {t u : List (Symbol T N)} (h : LeftStep rules (s ++ t) u)
    (hne : s ≠ []) : ∃ s', LeftStep rules s s' ∧ u = s' ++ t := by
  cases s with
  | nil => exact absurd rfl hne
  | cons x s =>
    cases h with
    | expand h => exact ⟨_, .expand h, (List.append_assoc _ _ _).symm⟩

/-- What lies behind is reached only when all before it has vanished. -/
theorem leftReach_of_append {s t u : List (Symbol T N)} (h : LeftReach rules (s ++ t) u) :
    (∃ s', LeftReach rules s s' ∧ u = s' ++ t) ∨ LeftReach rules s [] ∧ LeftReach rules t u := by
  induction h with
  | refl => exact .inl ⟨s, .refl, rfl⟩
  | tail _ hstep ih =>
    rcases ih with ⟨s', hs', rfl⟩ | ⟨hnil, ht⟩
    · cases hs'nil : s' with
      | nil =>
        rw [hs'nil] at hs' hstep
        exact .inr ⟨hs', .single hstep⟩
      | cons x s'' =>
        obtain ⟨v, hv, rfl⟩ := hstep.of_append (by rw [hs'nil]; exact List.cons_ne_nil _ _)
        exact .inl ⟨v, hs'.tail hv, rfl⟩
    · exact .inr ⟨hnil, ht.tail hstep⟩

/-- A string vanishes when each symbol of it does. -/
theorem leftReach_nil_append {t u : List (Symbol T N)} (hs : LeftReach rules s [])
    (ht : LeftReach rules t u) : LeftReach rules (s ++ t) u :=
  (leftReach_append hs t).trans ht

theorem leftReach_nil_of_append {t : List (Symbol T N)} (h : LeftReach rules (s ++ t) []) :
    LeftReach rules s [] ∧ LeftReach rules t [] := by
  rcases leftReach_of_append h with ⟨s', hs', hnil⟩ | hboth
  · obtain ⟨rfl, rfl⟩ := List.append_eq_nil_iff.mp hnil.symm
    exact ⟨hs', .refl⟩
  · exact hboth

/-! ### Lengths -/

/-- `C` comes to the front of an expansion of `A` with something behind it. -/
def Below (rules : N → List (List (Symbol T N))) (C A : N) : Prop :=
  ∃ β, β ≠ [] ∧ LeftReach₁ rules [.nonterminal A] (.nonterminal C :: β)

theorem Below.trans {B C : N} (hCB : Below rules C B) (hBA : Below rules B A) :
    Below rules C A := by
  obtain ⟨γ, hγ, hCB⟩ := hCB
  obtain ⟨β, -, hBA⟩ := hBA
  exact ⟨γ ++ β, List.append_ne_nil_of_left_ne_nil hγ β, hBA.trans (leftReach₁_append hCB β)⟩

theorem below_wellFounded [Finite N] (h : ∀ A, ¬ Grows rules A) :
    WellFounded (Below rules) := by
  have htrans : IsTrans N (Below rules) := ⟨fun _ _ _ hab hbc => hab.trans hbc⟩
  have hirrefl : Std.Irrefl (Below rules) := ⟨h⟩
  exact Finite.wellFounded_of_trans_of_irrefl _

/-- What an expansion of `A` looks like: short, or stopped at a terminal, or an expansion of a
nonterminal below `A` with a short rest behind it. -/
inductive Shape (rules : N → List (List (Symbol T N))) (M : Nat) (A : N) :
    List (Symbol T N) → Prop
  | short {s : List (Symbol T N)} (h : s.length ≤ 1) : Shape rules M A s
  | stopped {t : T} {δ : List (Symbol T N)} (h : δ.length ≤ M) : Shape rules M A (.terminal t :: δ)
  | behind {C : N} {v δ : List (Symbol T N)} (hbelow : Below rules C A)
      (hv : LeftReach rules [.nonterminal C] v) (hne : v ≠ []) (h : δ.length ≤ M) :
      Shape rules M A (v ++ δ)

theorem shape_of_length (h : LeftReach₁ rules [.nonterminal A] s) (hlen : s.length ≤ M + 1) :
    Shape rules M A s := by
  cases s with
  | nil => exact .short (Nat.zero_le 1)
  | cons x δ =>
    have hδ : δ.length ≤ M := Nat.le_of_succ_le_succ hlen
    cases x with
    | terminal t => exact .stopped hδ
    | nonterminal C =>
      cases δ with
      | nil => exact .short (Nat.le_refl 1)
      | cons y δ =>
        have hbelow : Below rules C A := ⟨y :: δ, List.cons_ne_nil _ _, h⟩
        exact .behind hbelow .refl (List.cons_ne_nil _ []) hδ

/-- What a leftmost derivation can make of a nonterminal, level by level. -/
theorem shape (hM : ∀ A, ∀ α ∈ rules A, α.length ≤ M) (h : LeftReach rules [.nonterminal A] s) :
    Shape rules M A s := by
  induction h with
  | refl => exact .short (Nat.le_refl 1)
  | @tail s s' hs hstep ih =>
    have hs' : LeftReach₁ rules [.nonterminal A] s' := Relation.TransGen.tail' hs hstep
    cases ih with
    | short hlen =>
      cases hstep with
      | expand hα =>
        have hβ := Nat.le_of_succ_le_succ hlen
        have hlenα := hM _ _ hα
        refine shape_of_length hs' ?_
        rw [List.length_append]
        omega
    | stopped _ => exact absurd hstep not_leftStep_terminal
    | @behind C v δ hbelow hv hne hδ =>
      obtain ⟨v', hv', rfl⟩ := hstep.of_append hne
      by_cases hnil : v' = []
      · rw [hnil] at hs' ⊢
        exact shape_of_length hs' (Nat.le_succ_of_le hδ)
      · exact .behind hbelow (hv.tail hv') hnil hδ

/-- Without growth the stacks of a nonterminal are bounded. -/
theorem bounded_nonterminal [Finite N] (hM : ∀ A, ∀ α ∈ rules A, α.length ≤ M)
    (h : ∀ A, ¬ Grows rules A) (A : N) :
    ∃ b, ∀ s, LeftReach rules [.nonterminal A] s → s.length ≤ b := by
  induction A using (below_wellFounded h).induction with
  | _ A ih =>
    -- one bound for all nonterminals below
    have hbelow : ∀ C, ∃ b, Below rules C A →
        ∀ s, LeftReach rules [.nonterminal C] s → s.length ≤ b := by
      intro C
      by_cases hC : Below rules C A
      · obtain ⟨b, hb⟩ := ih C hC
        exact ⟨b, fun _ => hb⟩
      · exact ⟨0, fun hC' => absurd hC' hC⟩
    choose bound hbound using hbelow
    obtain ⟨b, hb⟩ := (Set.finite_range bound).bddAbove
    refine ⟨b + M + 1, fun s hs => ?_⟩
    cases shape hM hs with
    | short hlen => omega
    | stopped hδ =>
      rw [List.length_cons]
      omega
    | @behind C v δ hC hv _ hδ =>
      have hvlen := hbound C hC v hv
      have hle := hb (Set.mem_range_self C)
      rw [List.length_append]
      omega

/-- Where no nonterminal grows, the expansions of a string are bounded. -/
theorem bounded_of_not_grows [Finite N] (hM : ∀ A, ∀ α ∈ rules A, α.length ≤ M)
    (h : ∀ A, ¬ Grows rules A) (s : List (Symbol T N)) :
    ∃ b, ∀ u, LeftReach rules s u → u.length ≤ b := by
  induction s with
  | nil =>
    refine ⟨0, fun u hu => ?_⟩
    cases hu.cases_head with
    | inl hnil => rw [← hnil]; exact Nat.le_refl 0
    | inr hstep =>
      obtain ⟨_, hstep, -⟩ := hstep
      exact absurd hstep not_leftStep_nil
  | cons x s ih =>
    obtain ⟨b, hb⟩ := ih
    have hx : ∃ b, ∀ u, LeftReach rules [x] u → u.length ≤ b := by
      cases x with
      | nonterminal A => exact bounded_nonterminal hM h A
      | terminal t =>
        refine ⟨1, fun u hu => ?_⟩
        cases hu.cases_head with
        | inl hself => rw [← hself]; exact Nat.le_refl 1
        | inr hstep =>
          obtain ⟨_, hstep, -⟩ := hstep
          exact absurd hstep not_leftStep_terminal
    obtain ⟨bx, hbx⟩ := hx
    refine ⟨bx + s.length + b, fun u hu => ?_⟩
    rcases @leftReach_of_append _ _ _ [x] _ _ hu with ⟨v, hv, rfl⟩ | ⟨-, hs⟩
    · have hvlen := hbx v hv
      rw [List.length_append]
      omega
    · have hslen := hb u hs
      omega

/-- A nonterminal that grows and can come to the front makes the expansions longer and longer. -/
theorem unbounded_of_grows {γ : List (Symbol T N)} (h : Grows rules A)
    (hs : LeftReach rules s (.nonterminal A :: γ)) (b : Nat) :
    ∃ δ, b ≤ δ.length ∧ LeftReach rules s (.nonterminal A :: δ) := by
  induction b with
  | zero => exact ⟨γ, Nat.zero_le _, hs⟩
  | succ b ih =>
    obtain ⟨δ, hlen, hδ⟩ := ih
    obtain ⟨β, hβ, hgrow⟩ := h
    have hpos : 0 < β.length := List.length_pos_iff.mpr hβ
    refine ⟨β ++ δ, ?_, hδ.trans (leftReach_append hgrow.to_reflTransGen δ)⟩
    rw [List.length_append]
    omega

/-! ### Live strings -/

theorem live_of_leaf (h : LeftLeaf s) : Live rules s := ⟨s, .refl, h⟩

theorem leftLeaf_nil : LeftLeaf ([] : List (Symbol T N)) := by
  intro A β h
  cases h

theorem leftLeaf_terminal (t : T) (s : List (Symbol T N)) : LeftLeaf (.terminal t :: s) := by
  intro A β h
  cases h

/-- A string whose front ends at a terminal, or vanishes and leaves a live rest. -/
theorem Live.append {s t : List (Symbol T N)} (hs : Live rules s)
    (ht : LeftReach rules s [] → Live rules t) : Live rules (s ++ t) := by
  obtain ⟨s', hs', hleaf⟩ := hs
  cases s' with
  | nil =>
    obtain ⟨t', ht', hleaf'⟩ := ht hs'
    exact ⟨t', leftReach_nil_append hs' ht', hleaf'⟩
  | cons x s' =>
    refine ⟨x :: s' ++ t, leftReach_append hs' t, ?_⟩
    intro A β h
    cases h
    exact hleaf A s' rfl

/-- Where all rules are live, and every nonterminal has one, every string is. -/
theorem live_of_rules (h : ∀ A, ∀ α ∈ rules A, Live rules α) (hne : ∀ A, rules A ≠ [])
    (s : List (Symbol T N)) : Live rules s := by
  induction s with
  | nil => exact live_of_leaf leftLeaf_nil
  | cons x s ih =>
    cases x with
    | terminal t => exact live_of_leaf (leftLeaf_terminal t s)
    | nonterminal A =>
      obtain ⟨α, hα⟩ := List.exists_mem_of_ne_nil _ (hne A)
      obtain ⟨s', hs', hleaf⟩ := (h A α hα).append fun _ => ih
      exact ⟨s', hs'.head (.expand hα), hleaf⟩

/-! ### Left recursion -/

/-- `B` comes to the front of a rule of `A` when what is before it vanishes. -/
def LeftEdge (rules : N → List (List (Symbol T N))) (A B : N) : Prop :=
  ∃ γ δ, γ ++ .nonterminal B :: δ ∈ rules A ∧ LeftReach rules γ []

theorem LeftEdge.reach {B : N} (h : LeftEdge rules A B) :
    ∃ β, LeftReach₁ rules [.nonterminal A] (.nonterminal B :: β) := by
  obtain ⟨γ, δ, hα, hγ⟩ := h
  have hstep : LeftStep rules [.nonterminal A] (γ ++ .nonterminal B :: δ ++ []) := .expand hα
  rw [List.append_nil] at hstep
  exact ⟨δ, Relation.TransGen.head' hstep (leftReach_append hγ _)⟩

/-- What comes to the front of an expansion is linked to a symbol of the string. -/
theorem exists_leftEdge_of_reach {β : List (Symbol T N)} {B : N}
    (h : LeftReach rules s (.nonterminal B :: β)) :
    ∃ γ C δ, s = γ ++ .nonterminal C :: δ ∧ LeftReach rules γ [] ∧
      Relation.ReflTransGen (LeftEdge rules) C B := by
  induction h using Relation.ReflTransGen.head_induction_on with
  | refl => exact ⟨[], B, β, rfl, .refl, .refl⟩
  | head hstep _ ih =>
    obtain ⟨γ, C, δ, heq, hγ, hCB⟩ := ih
    cases hstep with
    | @expand A α ρ hα =>
      rcases List.append_eq_append_iff.mp heq with ⟨γ', rfl, hρ⟩ | ⟨ζ, hαeq, hζ⟩
      · -- the whole rule vanishes
        obtain ⟨hαnil, hγ'⟩ := leftReach_nil_of_append hγ
        have hA : LeftReach rules [.nonterminal A] [] := by
          have hstep : LeftStep rules [.nonterminal A] (α ++ []) := .expand hα
          rw [List.append_nil] at hstep
          exact hαnil.head hstep
        exact ⟨.nonterminal A :: γ', C, δ, by rw [hρ]; rfl, leftReach_nil_append hA hγ', hCB⟩
      · cases ζ with
        | nil =>
          rw [List.append_nil] at hαeq
          have hA : LeftReach rules [.nonterminal A] [] := by
            have hstep : LeftStep rules [.nonterminal A] (α ++ []) := .expand hα
            rw [List.append_nil, hαeq] at hstep
            exact hγ.head hstep
          exact ⟨[.nonterminal A], C, δ, by rw [← List.nil_append ρ, ← hζ]; rfl, hA, hCB⟩
        | cons x ζ =>
          -- the symbol belongs to the rule
          obtain ⟨rfl, -⟩ := List.cons.inj hζ
          exact ⟨[], A, ρ, rfl, .refl, hCB.head ⟨γ, ζ, by rw [← hαeq]; exact hα, hγ⟩⟩

theorem reach_of_leftEdges {B : N} (h : Relation.TransGen (LeftEdge rules) A B) :
    ∃ β, LeftReach₁ rules [.nonterminal A] (.nonterminal B :: β) := by
  induction h with
  | single h => exact h.reach
  | tail _ hedge ih =>
    obtain ⟨β, hβ⟩ := ih
    obtain ⟨γ, hγ⟩ := hedge.reach
    exact ⟨γ ++ β, hβ.trans (leftReach₁_append hγ β)⟩

/-- A nonterminal is left recursive when it lies on a cycle. -/
theorem leftRecursive_iff : LeftRecursive rules A ↔ Relation.TransGen (LeftEdge rules) A A := by
  constructor
  · rintro ⟨β, hβ⟩
    obtain ⟨s, hstep, hs⟩ := Relation.TransGen.head'_iff.mp hβ
    obtain ⟨γ, C, δ, rfl, hγ, hCA⟩ := exists_leftEdge_of_reach hs
    generalize hfrom : [Symbol.nonterminal A] = start at hstep
    generalize hto : γ ++ Symbol.nonterminal C :: δ = s at hstep
    cases hstep with
    | expand hα =>
      cases hfrom
      rw [List.append_nil] at hto
      rw [← hto] at hα
      exact Relation.TransGen.head' ⟨γ, δ, hα, hγ⟩ hCA
  · exact reach_of_leftEdges

theorem Grows.leftRecursive (h : Grows rules A) : LeftRecursive rules A := by
  obtain ⟨β, -, hβ⟩ := h
  exact ⟨β, hβ⟩

/-- Where all rules begin with a terminal there is no left recursion. -/
theorem not_leftRecursive_of_terminals (h : ∀ A, ∀ α ∈ rules A, ∃ t δ, α = .terminal t :: δ)
    (A : N) : ¬ LeftRecursive rules A := by
  intro hrec
  obtain ⟨B, ⟨γ, δ, hmem, hγ⟩, -⟩ := Relation.TransGen.head'_iff.mp (leftRecursive_iff.mp hrec)
  obtain ⟨t, ρ, heq⟩ := h A _ hmem
  cases γ with
  | nil => cases heq
  | cons x γ =>
    cases heq
    rcases hγ.cases_head with hnil | ⟨_, hstep, -⟩
    · cases hnil
    · exact not_leftStep_terminal hstep

/-- Without left recursion every string is live. -/
theorem live_of_not_leftRecursive [Finite N] (h : ∀ A, ¬ LeftRecursive rules A)
    (hne : ∀ A, rules A ≠ []) (s : List (Symbol T N)) : Live rules s := by
  refine live_of_rules (fun A => ?_) hne s
  have htrans : IsTrans N (fun B A => Relation.TransGen (LeftEdge rules) A B) :=
    ⟨fun _ _ _ hBA hCB => hCB.trans hBA⟩
  have hirrefl : Std.Irrefl (fun B A => Relation.TransGen (LeftEdge rules) A B) :=
    ⟨fun A hA => h A (leftRecursive_iff.mpr hA)⟩
  have hwf := Finite.wellFounded_of_trans_of_irrefl
    (fun B A => Relation.TransGen (LeftEdge rules) A B)
  induction A using hwf.induction with
  | _ A ih =>
    intro α hα
    -- the symbols of the rule from left to right, as long as the ones before vanish
    have hsuffix : ∀ γ δ, γ ++ δ = α → LeftReach rules γ [] → Live rules δ := by
      intro γ δ
      induction δ generalizing γ with
      | nil => exact fun _ _ => live_of_leaf leftLeaf_nil
      | cons x δ ihδ =>
        intro heq hγ
        cases x with
        | terminal t => exact live_of_leaf (leftLeaf_terminal t δ)
        | nonterminal B =>
          have hedge : LeftEdge rules A B := ⟨γ, δ, by rw [heq]; exact hα, hγ⟩
          obtain ⟨ρ, hρ⟩ := List.exists_mem_of_ne_nil _ (hne B)
          obtain ⟨s', hs', hleaf⟩ := (ih B (.single hedge) ρ hρ).append (t := []) fun _ =>
            live_of_leaf leftLeaf_nil
          have hB : Live rules [.nonterminal B] := ⟨s', hs'.head (.expand hρ), hleaf⟩
          refine hB.append fun hnil => ihδ (γ ++ [.nonterminal B]) ?_ ?_
          · rw [List.append_assoc]
            exact heq
          · exact leftReach_nil_append hγ hnil
    exact hsuffix [] α rfl .refl

end
