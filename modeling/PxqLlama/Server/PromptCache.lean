import PxqLlama.Server.Tokens

/-!
# `Server.PromptCache`: the prompts that wait in RAM

Before a request runs, the server looks for a cached prompt that is closer to the new one than
what the slot holds, and restores its state (`ServerPromptCache.load`). With the thinking parts
left out of the comparison, the token lists are copied. Otherwise they are moved out of the slot's
prompt and of each cached one, and nothing moves them back.

The measures are `float`s; `FloatOps` stands for the two operations on them.
-/

namespace PxqLlama.Server

/-- The `float` operations of the comparison: the quotient of two counts, and `<`. No quotient of
counts is below zero; a comparison with what is not a number is false. -/
structure FloatOps (F : Type) where
  quot : Nat → Nat → F
  lt : F → F → Bool
  not_lt_zero : ∀ a b n, lt (quot a b) (quot 0 n) = false

/-- Quotients kept as fractions, for runs on small counts. -/
def FloatOps.fractions : FloatOps (Nat × Nat) where
  quot a b := (a, b)
  lt x y := decide (x.1 * y.2 < y.1 * x.2)
  not_lt_zero := by simp

/-- `server_prompt_checkpoint`. -/
structure PromptCheckpoint where
  posMin : Int
  posMax : Int
  posMinPrompt : Int
  posMaxPrompt : Int
  nTokens : Int
  data : Bytes
deriving DecidableEq

/-- `server_prompt`. -/
structure ServerPrompt where
  tokens : ServerTokens
  nKeptPrompt : Int
  nDiscardedPrompt : Int
  thinkTokens : ThinkingTokens
  data : Bytes
  checkpoints : List PromptCheckpoint
deriving DecidableEq

section Load

variable {F : Type} (fl : FloatOps F) (txt : TokenText)

/-- `get_slot_similarity`. -/
def getSlotSimilarity (lcp promptLength cacheLength : Nat) : F :=
  fl.quot (lcp * 2) (promptLength + cacheLength)

/-- `get_tokens_similarity`. -/
def getTokensSimilarity (self tokens : ServerTokens) (nKeep nDiscard : Int) : Option F :=
  if nKeep < 0 ∨ nDiscard < 0 then none
  else if nKeep = 0 ∧ nDiscard = 0 then do
    let lcpLen ← self.getCommonPrefix txt tokens false
    some (getSlotSimilarity fl lcpLen.second tokens.size self.size)
  else do
    -- the tokens that a context shift removes are removed, and then the lists are compared
    let tokensCtxShift ← tokens.discardNTokens nKeep.toNat nDiscard.toNat
    let lcpLen ← self.getCommonPrefix txt tokensCtxShift false
    some (getSlotSimilarity fl lcpLen.second tokensCtxShift.size self.size)

/-- What a list is compared by, and what is left in its place: a copy without the thinking parts,
or the list itself, moved out. -/
def takeTokens (think : ThinkingTokens) (tokens : ServerTokens) :
    Option (ServerTokens × ServerTokens) :=
  if think.exclude then (tokens.getTokensExcludeThink txt think).map fun copy => (copy, tokens)
  else some (tokens, tokens.movedFrom)

/-- The loop of `server_prompt_cache::load` over the cached prompts, from the one with index `i`
on: what it leaves of them, and the best one. -/
def searchStates (think : ThinkingTokens) (tokensNew : ServerTokens) (minReusableFraction : F) :
    (states : List ServerPrompt) → (i : Nat) → (simBest : F) → (itBest : Option Nat) →
      Option (List ServerPrompt × Option Nat)
  | [], _, _, itBest => some ([], itBest)
  | it :: states, i, simBest, itBest => do
    let (tokens, left) ← takeTokens txt think it.tokens
    let it := { it with tokens := left }
    let lcpCur ← tokens.getCommonPrefix txt tokensNew false
    if fl.lt (fl.quot lcpCur.first tokens.size) minReusableFraction then do
      let (rest, best) ← searchStates think tokensNew minReusableFraction states (i + 1) simBest itBest
      some (it :: rest, best)
    else do
      let simCur ← getTokensSimilarity fl txt tokens tokensNew it.nKeptPrompt it.nDiscardedPrompt
      let better := fl.lt simBest simCur
      let (rest, best) ← searchStates think tokensNew minReusableFraction states (i + 1)
        (if better then simCur else simBest) (if better then some i else itBest)
      some (it :: rest, best)

/-- The flag of the first cached prompt decides for all of them. -/
def firstThinkTokens (states : List ServerPrompt) : ThinkingTokens :=
  (states.head?.map ServerPrompt.thinkTokens).getD {}

/-- `server_prompt_cache::load`: the answer, the slot's prompt and the cached prompts afterwards.
`setData` is what `llama_state_seq_set_data` returns for the bytes of a state. -/
def ServerPromptCache.load (setData : Bytes → Nat) (minReusableFraction : F)
    (states : List ServerPrompt) (prompt : ServerPrompt) (tokensNew : ServerTokens) :
    Option (Bool × ServerPrompt × List ServerPrompt) := do
  let think := firstThinkTokens states
  let (promptTokens, left) ← takeTokens txt think prompt.tokens
  let prompt := { prompt with tokens := left }
  let tokensNewEx ←
    (if think.exclude then tokensNew.getTokensExcludeThink txt think else some tokensNew.clone)
  let _ ← promptTokens.getCommonPrefix txt tokensNewEx false
  let simBest ← getTokensSimilarity fl txt promptTokens tokensNewEx prompt.nKeptPrompt
    prompt.nDiscardedPrompt
  let (states, itBest) ← searchStates fl txt think tokensNewEx minReusableFraction states 0 simBest
    none
  match itBest with
  | none => some (true, prompt, states)
  | some k =>
    match states[k]? with
    | none => some (true, prompt, states)
    | some best =>
      if setData best.data ≠ best.data.length then some (false, prompt, states)
      else some (true, { best with data := [] }, states.eraseIdx k)

end Load

end PxqLlama.Server
