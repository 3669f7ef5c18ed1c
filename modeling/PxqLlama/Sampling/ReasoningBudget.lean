import PxqLlama.Sampling.Chain

/-!
# `Sampling.ReasoningBudget`: the reasoning budget

`common_reasoning_budget_ctx` limits the tokens of a reasoning block. It watches the accepted
tokens for a start tag, counts, and then forces a token sequence by masking all other logits. A
new start tag arms it again.

A vocabulary is known by `common_token_to_piece(vocab, token, false)`. What the budget does to the
candidates is `reasoningBudgetApply`.
-/

namespace PxqLlama.Sampling

/-- `common_utf8_is_complete`: the last byte that is no continuation byte has enough bytes behind
it. -/
def commonUtf8IsComplete (s : List UInt8) : Bool :=
  if s.isEmpty then true
  else
    let fromEnd := (s.reverse.take 4).zipIdx
    match fromEnd.find? fun ci => ci.1 &&& 0xC0 ≠ 0x80 with
    | some (c, i) =>
      let expected := if c ≥ 0xF0 then 4 else if c ≥ 0xE0 then 3 else if c ≥ 0xC0 then 2 else 1
      decide (expected ≤ i + 1)
    | none => false

/-- `token_matcher`: `pos` tokens are matched. -/
structure TokenMatcher where
  tokens : List LlamaToken
  pos : Nat
  inRange : tokens = [] ∨ pos < tokens.length

namespace TokenMatcher

/-- A start that matches where a later position does not leaves a second one to match. -/
theorem one_lt_length {m : TokenMatcher} {token : LlamaToken}
    (hmiss : ¬ m.tokens[m.pos]? = some token) (hfirst : m.tokens[0]? = some token) :
    1 < m.tokens.length := by
  have hpos : m.pos ≠ 0 := by
    intro hzero
    rw [hzero] at hmiss
    exact hmiss hfirst
  have hne : m.tokens ≠ [] := by
    intro hnil
    rw [hnil] at hfirst
    cases hfirst
  rcases m.inRange with hnil | hlt
  · exact absurd hnil hne
  · omega

/-- `token_matcher::advance`: whether the token completes the sequence. -/
def advance (m : TokenMatcher) (token : LlamaToken) : Bool × TokenMatcher :=
  if hempty : m.tokens = [] then (false, m)
  else
    have hsome : 0 < m.tokens.length := List.length_pos_iff.mpr hempty
    if hmiss : m.tokens[m.pos]? = some token then
      if hnext : m.pos + 1 < m.tokens.length then
        (false, { m with pos := m.pos + 1, inRange := Or.inr hnext })
      else (true, { m with pos := 0, inRange := Or.inr hsome })
    else if hfirst : m.tokens[0]? = some token then
      (false, { m with pos := 1, inRange := Or.inr (one_lt_length hmiss hfirst) })
    else (false, { m with pos := 0, inRange := Or.inr hsome })

/-- A matcher at the start of its tokens. -/
def ofTokens (tokens : List LlamaToken) : TokenMatcher where
  tokens := tokens
  pos := 0
  inRange := by
    cases tokens with
    | nil => exact Or.inl rfl
    | cons token tokens => exact Or.inr (Nat.succ_pos _)

/-- `token_matcher::reset`. -/
def reset (m : TokenMatcher) : TokenMatcher := ofTokens m.tokens

end TokenMatcher

/-- `common_reasoning_budget_ctx`, with the fields that sampling does not look at. -/
structure ReasoningBudgetCtx extends ReasoningBudget where
  vocab : Option (LlamaToken → List UInt8)
  startMatcher : TokenMatcher
  endMatcher : TokenMatcher
  budget : Int
  remaining : Int

/-- `utf8_complete` of an accepted token. -/
def utf8Complete (vocab : Option (LlamaToken → List UInt8)) (token : LlamaToken) : Bool :=
  match vocab with
  | none => true
  | some piece => commonUtf8IsComplete (piece token)

/-- A start tag was read: a new window, or forcing at once without a budget. -/
def ReasoningBudgetCtx.activate (ctx : ReasoningBudgetCtx) : ReasoningBudgetCtx :=
  let ctx := { ctx with state := .counting, remaining := ctx.budget }
  if ctx.remaining ≤ 0 then { ctx with state := .forcing, forcePos := 0 } else ctx

/-- `common_reasoning_budget_accept`. -/
def commonReasoningBudgetAccept (ctx : ReasoningBudgetCtx) (token : LlamaToken) :
    ReasoningBudgetCtx :=
  match ctx.state with
  | .idle =>
    let start := ctx.startMatcher.advance token
    let ctx := { ctx with startMatcher := start.2 }
    if start.1 then ctx.activate else ctx
  | .counting =>
    let stop := ctx.endMatcher.advance token
    let ctx := { ctx with endMatcher := stop.2 }
    if stop.1 then { ctx with state := .done }
    else
      let ctx := { ctx with remaining := ctx.remaining - 1 }
      if ctx.remaining ≤ 0 then
        if utf8Complete ctx.vocab token then
          { ctx with state := .forcing, forcePos := 0, endMatcher := ctx.endMatcher.reset }
        else { ctx with state := .waitingUtf8, endMatcher := ctx.endMatcher.reset }
      else ctx
  | .waitingUtf8 =>
    let stop := ctx.endMatcher.advance token
    let ctx := { ctx with endMatcher := stop.2 }
    if stop.1 then { ctx with state := .done }
    else if utf8Complete ctx.vocab token then
      { ctx with state := .forcing, forcePos := 0, endMatcher := ctx.endMatcher.reset }
    else ctx
  | .forcing =>
    let ctx := { ctx with forcePos := ctx.forcePos + 1 }
    if ctx.forcedTokens.length ≤ ctx.forcePos then { ctx with state := .done } else ctx
  | .done =>
    let start := ctx.startMatcher.advance token
    let ctx := { ctx with startMatcher := start.2 }
    -- Only here is the end matcher reset for the new window.
    if start.1 then { ctx with endMatcher := ctx.endMatcher.reset }.activate else ctx

/-- `common_reasoning_budget_reset`. -/
def commonReasoningBudgetReset (ctx : ReasoningBudgetCtx) : ReasoningBudgetCtx :=
  { ctx with
    state := .idle
    remaining := ctx.budget
    startMatcher := ctx.startMatcher.reset
    endMatcher := ctx.endMatcher.reset
    forcePos := 0 }

/-- `common_reasoning_budget_init_state`. -/
def commonReasoningBudgetInitState (vocab : Option (LlamaToken → List UInt8))
    (startTokens endTokens forcedTokens : List LlamaToken) (budget : Int)
    (initialState : ReasoningBudgetState) : ReasoningBudgetCtx where
  vocab := vocab
  startMatcher := .ofTokens startTokens
  endMatcher := .ofTokens endTokens
  forcedTokens := forcedTokens
  budget := budget
  remaining := budget
  state := if initialState = .counting ∧ budget ≤ 0 then .forcing else initialState
  forcePos := 0

/-- The context before the token that is accepted at each time. -/
def budgetRun (ctx : ReasoningBudgetCtx) (tokens : Nat → LlamaToken) : Nat → ReasoningBudgetCtx
  | 0 => ctx
  | k + 1 => commonReasoningBudgetAccept (budgetRun ctx tokens k) (tokens k)

end PxqLlama.Sampling
