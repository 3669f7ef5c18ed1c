import PxqLlama.Sampling.ReasoningBudget
import PxqLlama.Lib.Runs

/-!
# `Proofs.Sampling.ReasoningBudget`: the budget holds over a whole run

The tokens are an endless stream, so a finite one is a prefix. `BudgetInv` is what every accept
keeps: while counting, between one and `budget` tokens remain; the start matcher is at its start
outside of the states that look for a start tag, and the end matcher is at its start while idle. So
every window begins with both matchers at their starts, whatever came before it.

An end tag wins over an exhausted budget. It also does so while the rest of a character is awaited
(`ends_while_waiting`).
-/

namespace PxqLlama.Sampling

/-! ### The matchers -/

namespace TokenMatcher

theorem eq_ofTokens {m : TokenMatcher} {tokens : List LlamaToken} (htokens : m.tokens = tokens)
    (hpos : m.pos = 0) : m = ofTokens tokens := by
  obtain ⟨tokens', pos, hrange⟩ := m
  cases htokens
  cases hpos
  rfl

theorem advance_tokens (m : TokenMatcher) (token : LlamaToken) :
    (m.advance token).2.tokens = m.tokens := by
  rw [advance]
  split
  · rfl
  · split
    · split <;> rfl
    · split <;> rfl

/-- A matcher that has completed its tokens is at their start. -/
theorem advance_pos {m : TokenMatcher} {token : LlamaToken} (h : (m.advance token).1 = true) :
    (m.advance token).2.pos = 0 := by
  rw [advance] at h ⊢
  split at h
  · cases h
  · rename_i hsome
    rw [dif_neg hsome]
    split at h
    · rename_i hmatch
      rw [dif_pos hmatch]
      split at h
      · cases h
      · rename_i hlast
        rw [dif_neg hlast]
    · split at h <;> cases h

end TokenMatcher

/-! ### One accept -/

section
variable {ctx : ReasoningBudgetCtx} {token : LlamaToken}

/-- The accepted token completes the end tag. -/
def EndsOn (ctx : ReasoningBudgetCtx) (token : LlamaToken) : Prop :=
  (ctx.endMatcher.advance token).1 = true

/-- The accepted token completes a start tag. -/
def StartsOn (ctx : ReasoningBudgetCtx) (token : LlamaToken) : Prop :=
  (ctx.startMatcher.advance token).1 = true

instance : Decidable (EndsOn ctx token) := inferInstanceAs (Decidable (_ = true))

instance : Decidable (StartsOn ctx token) := inferInstanceAs (Decidable (_ = true))

theorem activate_state (ctx : ReasoningBudgetCtx) :
    ctx.activate.state = if ctx.budget ≤ 0 then .forcing else .counting := by
  rw [ReasoningBudgetCtx.activate]
  simp only
  split <;> rfl

/-- A window that opens keeps the end matcher, and has the whole budget. -/
theorem activate_counting (h : ctx.activate.state = .counting) (hpos : ctx.endMatcher.pos = 0) :
    ctx.activate.endMatcher.pos = 0 ∧ ctx.activate.remaining = ctx.activate.budget := by
  rw [ReasoningBudgetCtx.activate] at h ⊢
  simp only at h ⊢
  split at h
  · cases h
  · rename_i hsome
    rw [if_neg hsome]
    exact ⟨hpos, rfl⟩

theorem activate_forcing (h : ctx.activate.state = .forcing) : ctx.activate.forcePos = 0 := by
  rw [ReasoningBudgetCtx.activate] at h ⊢
  simp only at h ⊢
  split at h
  · rename_i hnone
    rw [if_pos hnone]
  · cases h

theorem accept_idle (h : ctx.state = .idle) :
    commonReasoningBudgetAccept ctx token =
      if StartsOn ctx token then
        { ctx with startMatcher := (ctx.startMatcher.advance token).2 }.activate
      else { ctx with startMatcher := (ctx.startMatcher.advance token).2 } := by
  rw [commonReasoningBudgetAccept, h]
  rfl

theorem accept_done (h : ctx.state = .done) :
    commonReasoningBudgetAccept ctx token =
      if StartsOn ctx token then
        { ctx with
          startMatcher := (ctx.startMatcher.advance token).2
          endMatcher := ctx.endMatcher.reset }.activate
      else { ctx with startMatcher := (ctx.startMatcher.advance token).2 } := by
  rw [commonReasoningBudgetAccept, h]
  rfl

/-- One token while the budget is counted: end sequence, exhausted budget, or one less. -/
theorem accept_counting (h : ctx.state = .counting) :
    commonReasoningBudgetAccept ctx token =
      if EndsOn ctx token then
        { ctx with endMatcher := (ctx.endMatcher.advance token).2, state := .done }
      else if ctx.remaining - 1 ≤ 0 then
        if utf8Complete ctx.vocab token then
          { ctx with
            endMatcher := (ctx.endMatcher.advance token).2.reset
            remaining := ctx.remaining - 1
            state := .forcing
            forcePos := 0 }
        else
          { ctx with
            endMatcher := (ctx.endMatcher.advance token).2.reset
            remaining := ctx.remaining - 1
            state := .waitingUtf8 }
      else
        { ctx with
          endMatcher := (ctx.endMatcher.advance token).2
          remaining := ctx.remaining - 1 } := by
  rw [commonReasoningBudgetAccept, h]
  rfl

theorem accept_waiting (h : ctx.state = .waitingUtf8) :
    commonReasoningBudgetAccept ctx token =
      if EndsOn ctx token then
        { ctx with endMatcher := (ctx.endMatcher.advance token).2, state := .done }
      else if utf8Complete ctx.vocab token then
        { ctx with
          endMatcher := (ctx.endMatcher.advance token).2.reset
          state := .forcing
          forcePos := 0 }
      else { ctx with endMatcher := (ctx.endMatcher.advance token).2 } := by
  rw [commonReasoningBudgetAccept, h]
  rfl

theorem accept_forcing (h : ctx.state = .forcing) :
    commonReasoningBudgetAccept ctx token =
      if ctx.forcedTokens.length ≤ ctx.forcePos + 1 then
        { ctx with forcePos := ctx.forcePos + 1, state := .done }
      else { ctx with forcePos := ctx.forcePos + 1 } := by
  rw [commonReasoningBudgetAccept, h]

theorem accept_opens {budget : Nat} (hlimit : ctx.budget = budget)
    (h : ctx.state = .idle ∨ ctx.state = .done) :
    (commonReasoningBudgetAccept ctx token).state =
      if StartsOn ctx token then (if budget = 0 then .forcing else .counting) else ctx.state := by
  have hnone : (ctx.budget ≤ 0) = (budget = 0) := by
    rw [hlimit]
    exact propext (by omega)
  rcases h with hstate | hstate
  · rw [accept_idle hstate]
    split
    · rw [activate_state]
      simp only [hnone]
    · rfl
  · rw [accept_done hstate]
    split
    · rw [activate_state]
      simp only [hnone]
    · rfl

theorem accept_while_waiting {vocab : Option (LlamaToken → List UInt8)} (hvocab : ctx.vocab = vocab)
    (h : ctx.state = .waitingUtf8) :
    (commonReasoningBudgetAccept ctx token).state =
      if EndsOn ctx token then .done
      else if utf8Complete vocab token then .forcing else .waitingUtf8 := by
  rw [accept_waiting h, hvocab]
  split
  · rfl
  · split
    · rfl
    · exact h

/-- All tokens but the forced one are masked. -/
theorem apply_forcing {α σ : Type} [LinearOrder α] (h : Host α σ) {forced : List LlamaToken}
    {i : Nat} (hstate : ctx.state = .forcing) (hforced : ctx.forcedTokens = forced)
    (hpos : ctx.forcePos = i) (hi : i < forced.length) (cur : TokenDataArray α) :
    reasoningBudgetApply h (some ctx.toReasoningBudget) cur =
      { cur with data := cur.data.map fun d =>
          if d.id = forced[i] then d else { d with logit := h.negInfinity } } := by
  have hget : ctx.toReasoningBudget.forcedTokens[ctx.toReasoningBudget.forcePos]?
      = some forced[i] := by
    rw [hforced, hpos]
    exact List.getElem?_eq_getElem hi
  rw [reasoningBudgetApply]
  simp only [hstate, hget, ne_eq, not_true_eq_false, if_false, ite_not]

/-- How counting is entered. -/
theorem accept_enters_counting (hidle : ctx.state = .idle → ctx.endMatcher.pos = 0)
    (hbefore : ctx.state ≠ .counting)
    (h : (commonReasoningBudgetAccept ctx token).state = .counting) :
    (commonReasoningBudgetAccept ctx token).endMatcher.pos = 0 ∧
      (commonReasoningBudgetAccept ctx token).remaining =
        (commonReasoningBudgetAccept ctx token).budget := by
  cases hold : ctx.state with
  | counting => exact absurd hold hbefore
  | idle =>
    rw [accept_idle hold] at h ⊢
    split at h
    · rename_i hon
      rw [if_pos hon]
      exact activate_counting h (hidle hold)
    · exact absurd (hold.symm.trans h) (by decide)
  | done =>
    rw [accept_done hold] at h ⊢
    split at h
    · rename_i hon
      rw [if_pos hon]
      exact activate_counting h rfl
    · exact absurd (hold.symm.trans h) (by decide)
  | waitingUtf8 =>
    rw [accept_waiting hold] at h
    split at h
    · cases h
    · split at h
      · cases h
      · exact absurd (hold.symm.trans h) (by decide)
  | forcing =>
    rw [accept_forcing hold] at h
    split at h
    · cases h
    · exact absurd (hold.symm.trans h) (by decide)

/-- While counting goes on, one token less remains. -/
theorem accept_stays_counting (hbefore : ctx.state = .counting)
    (h : (commonReasoningBudgetAccept ctx token).state = .counting) :
    (commonReasoningBudgetAccept ctx token).remaining = ctx.remaining - 1 := by
  rw [accept_counting hbefore] at h ⊢
  split at h
  · cases h
  · rename_i hon
    rw [if_neg hon]
    split at h
    · split at h <;> cases h
    · rename_i hsome
      rw [if_neg hsome]

/-- How forcing is entered. -/
theorem accept_enters_forcing (hbefore : ctx.state ≠ .forcing)
    (h : (commonReasoningBudgetAccept ctx token).state = .forcing) :
    (commonReasoningBudgetAccept ctx token).forcePos = 0 := by
  cases hold : ctx.state with
  | forcing => exact absurd hold hbefore
  | idle =>
    rw [accept_idle hold] at h ⊢
    split at h
    · rename_i hon
      rw [if_pos hon]
      exact activate_forcing h
    · exact absurd (hold.symm.trans h) (by decide)
  | done =>
    rw [accept_done hold] at h ⊢
    split at h
    · rename_i hon
      rw [if_pos hon]
      exact activate_forcing h
    · exact absurd (hold.symm.trans h) (by decide)
  | counting =>
    rw [accept_counting hold] at h ⊢
    split at h
    · cases h
    · rename_i hon
      rw [if_neg hon]
      split at h
      · rename_i hlast
        rw [if_pos hlast]
        split at h
        · rename_i hcomplete
          rw [if_pos hcomplete]
        · cases h
      · exact absurd (hold.symm.trans h) (by decide)
  | waitingUtf8 =>
    rw [accept_waiting hold] at h ⊢
    split at h
    · cases h
    · rename_i hon
      rw [if_neg hon]
      split at h
      · rename_i hcomplete
        rw [if_pos hcomplete]
      · exact absurd (hold.symm.trans h) (by decide)

end

/-! ### The invariant -/

/-- What holds of a context with these tokens and this budget after any accepts. -/
structure BudgetInv (vocab : Option (LlamaToken → List UInt8)) (start stop forced : List LlamaToken)
    (budget : Nat) (ctx : ReasoningBudgetCtx) : Prop where
  vocab : ctx.vocab = vocab
  start : ctx.startMatcher.tokens = start
  stop : ctx.endMatcher.tokens = stop
  forced : ctx.forcedTokens = forced
  limit : ctx.budget = budget
  remaining : ctx.state = .counting → 0 < ctx.remaining ∧ ctx.remaining ≤ budget
  idle : ctx.state = .idle → ctx.endMatcher.pos = 0
  armed : ctx.state ≠ .idle → ctx.state ≠ .done → ctx.startMatcher.pos = 0

section
variable {vocab : Option (LlamaToken → List UInt8)} {start stop forced : List LlamaToken}
  {budget : Nat} {ctx : ReasoningBudgetCtx}

theorem budgetInv_init (init : ReasoningBudgetState) :
    BudgetInv vocab start stop forced budget
      (commonReasoningBudgetInitState vocab start stop forced budget init) := by
  refine ⟨rfl, rfl, rfl, rfl, rfl, fun hstate => ?_, fun _ => rfl, fun _ _ => rfl⟩
  have hcase : (if init = .counting ∧ (budget : Int) ≤ 0 then ReasoningBudgetState.forcing
      else init) = .counting := hstate
  show (0 : Int) < budget ∧ (budget : Int) ≤ budget
  split at hcase
  · cases hcase
  · rename_i hnot
    have hpos : ¬ (budget : Int) ≤ 0 := fun hle => hnot ⟨hcase, hle⟩
    exact ⟨by omega, le_refl _⟩

/-- A new window, or a forced sequence, from matchers at their starts. -/
theorem BudgetInv.activate (hvocab : ctx.vocab = vocab) (hstart : ctx.startMatcher.tokens = start)
    (hstop : ctx.endMatcher.tokens = stop) (hforced : ctx.forcedTokens = forced)
    (hbudget : ctx.budget = budget) (hpos : ctx.startMatcher.pos = 0) :
    BudgetInv vocab start stop forced budget ctx.activate := by
  rw [ReasoningBudgetCtx.activate]
  simp only
  split
  · exact ⟨hvocab, hstart, hstop, hforced, hbudget, (fun h => by cases h), (fun h => by cases h),
      fun _ _ => hpos⟩
  · rename_i hsome
    refine ⟨hvocab, hstart, hstop, hforced, hbudget, fun _ => ?_, (fun h => by cases h),
      fun _ _ => hpos⟩
    show 0 < ctx.budget ∧ ctx.budget ≤ budget
    exact ⟨by omega, by omega⟩

/-- The invariant of the budget is kept by every token, state by state. -/
theorem BudgetInv.accept (h : BudgetInv vocab start stop forced budget ctx) (token : LlamaToken) :
    BudgetInv vocab start stop forced budget (commonReasoningBudgetAccept ctx token) := by
  have hstart : (ctx.startMatcher.advance token).2.tokens = start :=
    (TokenMatcher.advance_tokens _ token).trans h.start
  have hstop : (ctx.endMatcher.advance token).2.tokens = stop :=
    (TokenMatcher.advance_tokens _ token).trans h.stop
  cases hstate : ctx.state with
  | idle =>
    rw [accept_idle hstate]
    split
    · rename_i hon
      exact .activate h.vocab hstart h.stop h.forced h.limit (TokenMatcher.advance_pos hon)
    · refine ⟨h.vocab, hstart, h.stop, h.forced, h.limit, fun hc => ?_, fun _ => h.idle hstate,
        fun hne => absurd hstate hne⟩
      exact absurd (hstate.symm.trans hc) (by decide)
  | done =>
    rw [accept_done hstate]
    split
    · rename_i hon
      exact .activate h.vocab hstart h.stop h.forced h.limit (TokenMatcher.advance_pos hon)
    · refine ⟨h.vocab, hstart, h.stop, h.forced, h.limit, fun hc => ?_, fun hi => ?_,
        fun _ hne => absurd hstate hne⟩
      · exact absurd (hstate.symm.trans hc) (by decide)
      · exact absurd (hstate.symm.trans hi) (by decide)
  | counting =>
    have harmed : ctx.startMatcher.pos = 0 :=
      h.armed (by rw [hstate]; decide) (by rw [hstate]; decide)
    obtain ⟨hpos, hle⟩ := h.remaining hstate
    rw [accept_counting hstate]
    split
    · exact ⟨h.vocab, h.start, hstop, h.forced, h.limit, (fun hc => by cases hc),
        (fun hi => by cases hi), fun _ hne => absurd rfl hne⟩
    · split
      · split
        · exact ⟨h.vocab, h.start, hstop, h.forced, h.limit, (fun hc => by cases hc),
            (fun hi => by cases hi), fun _ _ => harmed⟩
        · exact ⟨h.vocab, h.start, hstop, h.forced, h.limit, (fun hc => by cases hc),
            (fun hi => by cases hi), fun _ _ => harmed⟩
      · rename_i hsome
        refine ⟨h.vocab, h.start, hstop, h.forced, h.limit, fun _ => ?_, fun hi => ?_,
          fun _ _ => harmed⟩
        · show 0 < ctx.remaining - 1 ∧ ctx.remaining - 1 ≤ budget
          exact ⟨by omega, by omega⟩
        · exact absurd (hstate.symm.trans hi) (by decide)
  | waitingUtf8 =>
    have harmed : ctx.startMatcher.pos = 0 :=
      h.armed (by rw [hstate]; decide) (by rw [hstate]; decide)
    rw [accept_waiting hstate]
    split
    · exact ⟨h.vocab, h.start, hstop, h.forced, h.limit, (fun hc => by cases hc),
        (fun hi => by cases hi), fun _ hne => absurd rfl hne⟩
    · split
      · exact ⟨h.vocab, h.start, hstop, h.forced, h.limit, (fun hc => by cases hc),
          (fun hi => by cases hi), fun _ _ => harmed⟩
      · refine ⟨h.vocab, h.start, hstop, h.forced, h.limit, fun hc => ?_, fun hi => ?_,
          fun _ _ => harmed⟩
        · exact absurd (hstate.symm.trans hc) (by decide)
        · exact absurd (hstate.symm.trans hi) (by decide)
  | forcing =>
    have harmed : ctx.startMatcher.pos = 0 :=
      h.armed (by rw [hstate]; decide) (by rw [hstate]; decide)
    rw [accept_forcing hstate]
    split
    · exact ⟨h.vocab, h.start, h.stop, h.forced, h.limit, (fun hc => by cases hc),
        (fun hi => by cases hi), fun _ hne => absurd rfl hne⟩
    · refine ⟨h.vocab, h.start, h.stop, h.forced, h.limit, fun hc => ?_, fun hi => ?_,
        fun _ _ => harmed⟩
      · exact absurd (hstate.symm.trans hc) (by decide)
      · exact absurd (hstate.symm.trans hi) (by decide)

/-- A reset starts over. -/
theorem BudgetInv.reset (h : BudgetInv vocab start stop forced budget ctx) :
    commonReasoningBudgetReset ctx =
      commonReasoningBudgetInitState vocab start stop forced budget .idle := by
  obtain ⟨⟨state, forcedTokens, forcePos⟩, vocab', startMatcher, endMatcher, budget', remaining⟩ :=
    ctx
  obtain ⟨rfl, rfl, rfl, rfl, rfl, -, -, -⟩ := h
  rfl

end

/-! ### Runs -/

/-- The state at each time of a run. -/
def StateIs (s : Nat → ReasoningBudgetCtx) (state : ReasoningBudgetState) (k : Nat) : Prop :=
  (s k).state = state

/-- The budget holds over the run `s`, in which `tokens` are accepted. -/
structure BudgetEnforced {α σ : Type} [LinearOrder α] (h : Host α σ)
    (vocab : Option (LlamaToken → List UInt8)) (start stop forced : List LlamaToken) (budget : Nat)
    (tokens : Nat → LlamaToken) (s : Nat → ReasoningBudgetCtx) : Prop where
  /-- While counting, at most `budget` tokens are accepted. -/
  window : ∀ a n, Lasts (StateIs s .counting) a n → n ≤ budget
  /-- A window begins with both matchers at their starts, and with the whole budget. -/
  fresh : ∀ a, Begins (StateIs s .counting) a → (s a).startMatcher = .ofTokens start ∧
    (s a).endMatcher = .ofTokens stop ∧ (s a).remaining = budget
  /-- Windows begin with start tags, in the first one and in later ones. -/
  opens : ∀ k, (s k).state = .idle ∨ (s k).state = .done → (s (k + 1)).state =
    if StartsOn (s k) (tokens k) then (if budget = 0 then .forcing else .counting)
    else (s k).state
  /-- Before the last token of a window only an end tag ends it. -/
  within : ∀ a n, Begins (StateIs s .counting) a → Lasts (StateIs s .counting) a (n + 1) →
    n + 1 < budget → (s (a + n + 1)).state = if EndsOn (s (a + n)) (tokens (a + n)) then .done
      else .counting
  /-- Without an end tag the last token of a window is followed by the forced tokens. -/
  exhausted : ∀ a n, Begins (StateIs s .counting) a → Lasts (StateIs s .counting) a (n + 1) →
    n + 1 = budget → (s (a + n + 1)).state = if EndsOn (s (a + n)) (tokens (a + n)) then .done
      else if utf8Complete vocab (tokens (a + n)) then .forcing else .waitingUtf8
  /-- So is the first token behind it that completes a character. -/
  waiting : ∀ k, (s k).state = .waitingUtf8 → (s (k + 1)).state =
    if EndsOn (s k) (tokens k) then .done
    else if utf8Complete vocab (tokens k) then .forcing else .waitingUtf8
  /-- The forced tokens are taken in order. -/
  forcing : ∀ a, Begins (StateIs s .forcing) a →
    (∀ i < max 1 forced.length, (s (a + i)).state = .forcing ∧ (s (a + i)).forcePos = i) ∧
      (s (a + max 1 forced.length)).state = .done
  /-- Meanwhile all other tokens are masked. -/
  masked : ∀ a, Begins (StateIs s .forcing) a → ∀ i (hi : i < forced.length) (cur : TokenDataArray α),
    reasoningBudgetApply h (some (s (a + i)).toReasoningBudget) cur =
      { cur with data := cur.data.map fun d =>
          if d.id = forced[i] then d else { d with logit := h.negInfinity } }
  /-- At other times no token is masked. -/
  unmasked : ∀ k, (s k).state ≠ .forcing → ∀ cur : TokenDataArray α,
    reasoningBudgetApply h (some (s k).toReasoningBudget) cur = cur
  /-- A reset starts over. -/
  reset : ∀ k, commonReasoningBudgetReset (s k) =
    commonReasoningBudgetInitState vocab start stop forced budget .idle

variable {a : Nat}

section
variable {vocab : Option (LlamaToken → List UInt8)} {start stop forced : List LlamaToken}
  {budget : Nat} {init : ReasoningBudgetState} {tokens : Nat → LlamaToken}

/-- The run from an initial state. -/
abbrev budgetRunFrom (vocab : Option (LlamaToken → List UInt8))
    (start stop forced : List LlamaToken) (budget : Nat) (init : ReasoningBudgetState)
    (tokens : Nat → LlamaToken) : Nat → ReasoningBudgetCtx :=
  budgetRun (commonReasoningBudgetInitState vocab start stop forced budget init) tokens

theorem budgetInv_run (k : Nat) : BudgetInv vocab start stop forced budget
    (budgetRunFrom vocab start stop forced budget init tokens k) := by
  induction k with
  | zero => exact budgetInv_init init
  | succ k ih => exact ih.accept (tokens k)

/-- A window begins after a start tag, or is there at the beginning. -/
theorem fresh_of_begins
    (h : Begins (StateIs (budgetRunFrom vocab start stop forced budget init tokens) .counting) a) :
    let s := budgetRunFrom vocab start stop forced budget init tokens
    (s a).startMatcher = .ofTokens start ∧ (s a).endMatcher = .ofTokens stop ∧
      (s a).remaining = budget := by
  intro s
  cases a with
  | zero => exact ⟨rfl, rfl, rfl⟩
  | succ k =>
    obtain ⟨hstate, hbefore⟩ := h
    have hinv : BudgetInv vocab start stop forced budget (s k) := budgetInv_run k
    have hinv' : BudgetInv vocab start stop forced budget (s (k + 1)) := budgetInv_run (k + 1)
    have hnot : (s k).state ≠ .counting := hbefore k rfl
    have hnow : (s (k + 1)).state = .counting := hstate
    have hstart : (s (k + 1)).startMatcher.pos = 0 :=
      hinv'.armed (by rw [hnow]; decide) (by rw [hnow]; decide)
    refine ⟨TokenMatcher.eq_ofTokens hinv'.start hstart, ?_⟩
    have hacc : s (k + 1) = commonReasoningBudgetAccept (s k) (tokens k) := rfl
    have hstop : (s (k + 1)).endMatcher.pos = 0 ∧ (s (k + 1)).remaining = (s (k + 1)).budget := by
      rw [hacc] at hnow ⊢
      exact accept_enters_counting hinv.idle hnot hnow
    exact ⟨TokenMatcher.eq_ofTokens hinv'.stop hstop.1, hstop.2.trans hinv'.limit⟩

/-- The forced tokens are entered at their start. -/
theorem forcePos_of_begins
    (h : Begins (StateIs (budgetRunFrom vocab start stop forced budget init tokens) .forcing) a) :
    (budgetRunFrom vocab start stop forced budget init tokens a).forcePos = 0 := by
  cases a with
  | zero => rfl
  | succ k => exact accept_enters_forcing (h.2 k rfl) h.1

/-- One forced token after another is taken, and the last one ends the phase. -/
theorem forcing_phase
    (h : Begins (StateIs (budgetRunFrom vocab start stop forced budget init tokens) .forcing) a) :
    let s := budgetRunFrom vocab start stop forced budget init tokens
    (∀ i < max 1 forced.length, (s (a + i)).state = .forcing ∧ (s (a + i)).forcePos = i) ∧
      (s (a + max 1 forced.length)).state = .done := by
  intro s
  have hforced : ∀ k, (s k).forcedTokens = forced := fun k => (budgetInv_run k).forced
  have hnext : ∀ i, (s (a + i)).state = .forcing → (s (a + i)).forcePos = i →
      s (a + (i + 1)) = if forced.length ≤ i + 1 then
        { s (a + i) with forcePos := i + 1, state := .done }
      else { s (a + i) with forcePos := i + 1 } := by
    intro i hstate hpos
    show commonReasoningBudgetAccept (s (a + i)) (tokens (a + i)) = _
    have hlen : (s (a + i)).forcedTokens.length = forced.length := by rw [hforced]
    rw [accept_forcing hstate, hpos, hlen]
  have hphase : ∀ i < max 1 forced.length,
      (s (a + i)).state = .forcing ∧ (s (a + i)).forcePos = i := by
    intro i hi
    induction i with
    | zero => exact ⟨h.1, forcePos_of_begins h⟩
    | succ i ih =>
      obtain ⟨hstate, hpos⟩ := ih (by omega)
      -- A phase of more than one step has that many forced tokens.
      rw [hnext i hstate hpos, if_neg (by omega)]
      exact ⟨hstate, rfl⟩
  refine ⟨hphase, ?_⟩
  obtain ⟨last, hlast⟩ : ∃ last, max 1 forced.length = last + 1 :=
    ⟨max 1 forced.length - 1, by omega⟩
  obtain ⟨hstate, hpos⟩ := hphase last (by omega)
  rw [hlast, hnext last hstate hpos, if_pos (by omega)]

/-- While counting goes on, the tokens that remain fall by one. -/
theorem remaining_countdown {n : Nat}
    (hlasts : Lasts (StateIs (budgetRunFrom vocab start stop forced budget init tokens) .counting)
      a (n + 1)) :
    (budgetRunFrom vocab start stop forced budget init tokens (a + n)).remaining =
      (budgetRunFrom vocab start stop forced budget init tokens a).remaining - n := by
  have hstep : ∀ k, StateIs (budgetRunFrom vocab start stop forced budget init tokens) .counting k →
      StateIs (budgetRunFrom vocab start stop forced budget init tokens) .counting (k + 1) →
      (budgetRunFrom vocab start stop forced budget init tokens (k + 1)).remaining =
        (budgetRunFrom vocab start stop forced budget init tokens k).remaining - 1 := by
    intro k hhere hnext
    exact accept_stays_counting hhere hnext
  exact hlasts.countdown
    (f := fun k => (budgetRunFrom vocab start stop forced budget init tokens k).remaining)
    hstep n (by omega)

/-- At its last token a window still has one that remains, so it has no more than the budget. -/
theorem window_le {n : Nat}
    (hlasts : Lasts (StateIs (budgetRunFrom vocab start stop forced budget init tokens) .counting)
      a n) :
    n ≤ budget := by
  cases n with
  | zero => exact Nat.zero_le _
  | succ n =>
    have hfirst := (budgetInv_run a).remaining (hlasts 0 (by omega))
    have hlast := (budgetInv_run (a + n)).remaining (hlasts n (by omega))
    rw [remaining_countdown hlasts] at hlast
    omega

/-- The state after a token of a window. -/
theorem state_in_window {n : Nat}
    (h : Begins (StateIs (budgetRunFrom vocab start stop forced budget init tokens) .counting) a)
    (hlasts : Lasts (StateIs (budgetRunFrom vocab start stop forced budget init tokens) .counting)
      a (n + 1)) :
    let s := budgetRunFrom vocab start stop forced budget init tokens
    (s (a + n + 1)).state = if EndsOn (s (a + n)) (tokens (a + n)) then .done
      else if n + 1 < budget then .counting
      else if utf8Complete vocab (tokens (a + n)) then .forcing else .waitingUtf8 := by
  intro s
  obtain ⟨-, -, hfresh⟩ := fresh_of_begins h
  have hremaining : (s (a + n)).remaining = budget - n := by
    rw [← hfresh]
    exact remaining_countdown hlasts
  have hstate : (s (a + n)).state = .counting := hlasts n (by omega)
  have hvocab : (s (a + n)).vocab = vocab := (budgetInv_run (a + n)).vocab
  show (commonReasoningBudgetAccept (s (a + n)) (tokens (a + n))).state = _
  rw [accept_counting hstate, hremaining, hvocab]
  split
  · rfl
  · by_cases hmore : n + 1 < budget
    · rw [if_neg (by omega), if_pos hmore]
      exact hstate
    · rw [if_pos (by omega), if_neg hmore]
      split <;> rfl

/-- The budget is enforced over every run from every initial state. -/
theorem budget_enforced {α σ : Type} [LinearOrder α] (h : Host α σ)
    (vocab : Option (LlamaToken → List UInt8)) (start stop forced : List LlamaToken) (budget : Nat)
    (init : ReasoningBudgetState) (tokens : Nat → LlamaToken) :
    BudgetEnforced h vocab start stop forced budget tokens
      (budgetRunFrom vocab start stop forced budget init tokens) where
  window _ _ hlasts := window_le hlasts
  fresh _ hbegins := fresh_of_begins hbegins
  opens k hstate := by
    have hinv : BudgetInv vocab start stop forced budget
        (budgetRunFrom vocab start stop forced budget init tokens k) := budgetInv_run k
    exact accept_opens hinv.limit hstate
  within a n hbegins hlasts hmore := by
    rw [state_in_window hbegins hlasts, if_pos hmore]
  exhausted a n hbegins hlasts hlast := by
    rw [state_in_window hbegins hlasts, if_neg (show ¬ n + 1 < budget by omega)]
  waiting k hstate := by
    have hinv : BudgetInv vocab start stop forced budget
        (budgetRunFrom vocab start stop forced budget init tokens k) := budgetInv_run k
    exact accept_while_waiting hinv.vocab hstate
  forcing _ hbegins := forcing_phase hbegins
  masked a hbegins i hi cur := by
    obtain ⟨hphase, -⟩ := forcing_phase hbegins
    obtain ⟨hstate, hpos⟩ := hphase i (by omega)
    exact apply_forcing h hstate ((budgetInv_run (a + i)).forced) hpos hi cur
  unmasked k hstate cur := by
    rw [reasoningBudgetApply]
    exact if_pos hstate
  reset k := (budgetInv_run k).reset

end

/-- A window of one token, which leaves a character open. The next token is complete, but it is the
end tag, so nothing is forced. -/
theorem ends_while_waiting :
    let piece : LlamaToken → List UInt8 := fun token => if token = 5 then [0xC2] else [0x41]
    let s := budgetRunFrom (some piece) [1] [2] [3] 1 .counting fun k => if k = 0 then 5 else 2
    (s 0).state = .counting ∧ (s 1).state = .waitingUtf8 ∧ utf8Complete (some piece) 2 = true ∧
      (s 2).state = .done := by
  decide

end PxqLlama.Sampling
