import PxqLlama.Sampling.Samplers

/-!
# `Sampling.Chain`: the sampler of a request

`prepare` makes the candidates from a row of logits: biases, then penalties. `samplerQueue` takes
them through the samplers in the request's order, and `sampleImplDefault` samples a token.

Most samplers leave the candidates alone unless their parameters ask for more. What they do then is
left open for those that no other part of this development looks at (`OtherSamplers`).
-/

namespace PxqLlama.Sampling

/-- `llama_sampler_type`. -/
inductive SamplerType
  | dry | topK | topP | minP | tfsZ | xtc | topNSigma | typicalP | temperature | adaptiveP | dist
deriving DecidableEq, Repr

/-- `common_params_sampling`. -/
structure SamplingParams (α : Type) where
  minKeep : Int
  topK : Int
  topP : α
  minP : α
  tfsZ : α
  typicalP : α
  temp : α
  dynatempRange : α
  dynatempExponent : α
  penaltyLastN : Int
  penaltyRepeat : α
  penaltyFreq : α
  penaltyPresent : α
  dryMultiplier : α
  dryBase : α
  dryPenaltyLastN : Int
  mirostat : Int
  mirostatTau : α
  mirostatEta : α
  xtcProbability : α
  xtcThreshold : α
  topNSigma : α
  adaptiveTarget : α
  nPrev : Nat
  nProbs : Int
  penalizeNl : Bool
  samplersSequence : List SamplerType
  logitBias : List (LlamaToken × α)
  penaltyPromptTokens : List LlamaToken
  usePenaltyPromptTokens : Bool
  grammarLazy : Bool

/-- The parameters in `llama_sampler_dry`. -/
structure DryParams (α : Type) where
  dryMultiplier : α
  dryBase : α
  dryPenaltyLastN : Int

inductive ReasoningBudgetState
  | idle | counting | forcing | waitingUtf8 | done
deriving DecidableEq, Repr

/-- `common_reasoning_budget_ctx`. -/
structure ReasoningBudget where
  state : ReasoningBudgetState
  forcedTokens : List LlamaToken
  forcePos : Nat

/-- `common_sampler`, with the random engine's state in `σ`. The parameters of the DRY sampler are
the request's: `common_sampler_init` makes it of them, they are constant, and an expiring bias that
changes the request's takes its change back. -/
structure CommonSampler (α σ : Type) where
  params : SamplingParams α
  /-- What `llama_grammar_apply` does to candidates. -/
  grammar : Option (TokenDataArray α → TokenDataArray α)
  prev : List LlamaToken
  smpl : DryParams α
  hasAdaptPCtx : Bool
  rbudget : Option ReasoningBudget
  rng : σ
  serverBiases : Option (List α)
  nElbStates : Nat
  elbIdx : Nat
  dry_params : smpl = ⟨params.dryMultiplier, params.dryBase, params.dryPenaltyLastN⟩

/-- The memory from `llama_get_logits_ith` on. -/
abbrev Logits (α : Type) := Int → α

/-- What samplers and other parts do past their early exits, on a state `τ` of theirs. -/
structure OtherSamplers (α τ : Type) where
  dry : τ × TokenDataArray α → τ × TokenDataArray α
  tailFree : (z : α) → (minKeep : Nat) → τ × TokenDataArray α → τ × TokenDataArray α
  typical : (p : α) → (minKeep : Nat) → τ × TokenDataArray α → τ × TokenDataArray α
  xtc : (probability threshold : α) → (minKeep : Nat) → τ × TokenDataArray α →
    τ × TokenDataArray α
  topNSigma : (topNSigma : α) → τ × TokenDataArray α → τ × TokenDataArray α
  entropy : (minTemp maxTemp exponent : α) → τ × TokenDataArray α → τ × TokenDataArray α
  adaptiveP : τ × TokenDataArray α → τ × TokenDataArray α
  prepAdaptiveP : τ × TokenDataArray α → τ × TokenDataArray α
  tokenAdaptiveP : τ × TokenDataArray α → Option LlamaToken × τ × TokenDataArray α
  tokenMirostat : (version : Int) → (tau eta : α) → τ × TokenDataArray α →
    Option LlamaToken × τ × TokenDataArray α
  guidance : Logits α → Logits α
  expiringLogitBias : τ × Logits α → τ × Logits α

variable {α σ τ : Type} [Field α] [LinearOrder α] [FloorRing α]

/-! ### The queue -/

/-- `llama_sampler_dry_apply`. -/
def sampleDry (o : OtherSamplers α τ) (smpl : DryParams α) (c : τ × TokenDataArray α) :
    τ × TokenDataArray α :=
  if smpl.dryMultiplier = 0 ∨ smpl.dryBase < 1 ∨ smpl.dryPenaltyLastN = 0 then c else o.dry c

/-- `llama_sample_tail_free_impl`. -/
def sampleTailFree (o : OtherSamplers α τ) (z : α) (minKeep : Nat) (c : τ × TokenDataArray α) :
    τ × TokenDataArray α :=
  if 1 ≤ z ∨ c.2.data.length ≤ 2 then c else o.tailFree z minKeep c

/-- `llama_sample_typical_impl`. -/
def sampleTypical (o : OtherSamplers α τ) (p : α) (minKeep : Nat) (c : τ × TokenDataArray α) :
    τ × TokenDataArray α :=
  if 1 ≤ p then c else o.typical p minKeep c

attribute [local instance] atLeastTwo_two in
/-- `llama_sample_xtc_impl`. -/
def sampleXtc (o : OtherSamplers α τ) (probability threshold : α) (minKeep : Nat)
    (c : τ × TokenDataArray α) : τ × TokenDataArray α :=
  if probability ≤ 0 ∨ 1 / 2 < threshold ∨ c.2.data.length < 2 then c
  else o.xtc probability threshold minKeep c

/-- `llama_sample_top_n_sigma_impl`. -/
def sampleTopNSigma (o : OtherSamplers α τ) (topNSigma : α) (c : τ × TokenDataArray α) :
    τ × TokenDataArray α :=
  if topNSigma ≤ 0 ∨ c.2.data.length < 4 then c else o.topNSigma topNSigma c

/-- One sampler of `sampler_queue`. -/
def queueStep (h : Host α σ) (o : OtherSamplers α τ) (cs : CommonSampler α σ) (minKeep : Nat)
    (c : τ × TokenDataArray α) (samplerType : SamplerType) : τ × TokenDataArray α :=
  let params := cs.params
  match samplerType with
  | .dry => sampleDry o cs.smpl c
  | .topK => (c.1, sampleTopK h c.2 params.topK minKeep)
  | .tfsZ => sampleTailFree o params.tfsZ minKeep c
  | .typicalP => sampleTypical o params.typicalP minKeep c
  | .topP => (c.1, sampleTopP h c.2 params.topP minKeep)
  | .minP => (c.1, sampleMinP h c.2 params.minP minKeep)
  | .xtc => sampleXtc o params.xtcProbability params.xtcThreshold minKeep c
  | .topNSigma => sampleTopNSigma o params.topNSigma c
  | .dist => (c.1, sampleDist h c.2)
  | .temperature =>
    if 0 < params.dynatempRange then
      let dynatempMin := max 0 (params.temp - params.dynatempRange)
      let dynatempMax := max 0 (params.temp + params.dynatempRange)
      o.entropy dynatempMin dynatempMax params.dynatempExponent c
    else (c.1, sampleTemp c.2 params.temp)
  | .adaptiveP => c

/-- `sampler_queue`: adaptive p comes last, wherever it stands. -/
def samplerQueue (h : Host α σ) (o : OtherSamplers α τ) (cs : CommonSampler α σ) (minKeep : Nat)
    (c : τ × TokenDataArray α) : τ × TokenDataArray α :=
  let c := cs.params.samplersSequence.foldl (queueStep h o cs minKeep) c
  if .adaptiveP ∈ cs.params.samplersSequence ∧ cs.hasAdaptPCtx then o.adaptiveP c else c

/-! ### Preparing -/

/-- `params.logit_bias` added to the row. -/
def applyLogitBias (params : SamplingParams α) (logits : Logits α) : Logits α :=
  params.logitBias.foldl (fun logits it => Function.update logits it.1 (logits it.1 + it.2)) logits

/-- `server_biases` when its size is that of the vocabulary. -/
def activeBias (cs : CommonSampler α σ) (nVocab : Nat) : Option (List α) :=
  cs.serverBiases.filter fun biases => biases.length = nVocab

/-- The logit of a token with its server bias. -/
def biasedLogit (bias : Option (List α)) (logits : Logits α) (token : Nat) : α :=
  match bias with
  | none => logits token
  | some biases => logits token + biases.getD token 0

def penaltyLastN (params : SamplingParams α) : Int :=
  if params.penaltyLastN < 0 then params.nPrev else params.penaltyLastN

def penaltyTokens (cs : CommonSampler α σ) : List LlamaToken :=
  if cs.params.usePenaltyPromptTokens then cs.params.penaltyPromptTokens else cs.prev

/-- `penalty_tokens_used_size`. -/
def penaltyTokensUsed (cs : CommonSampler α σ) : Nat :=
  (min ((penaltyTokens cs).length : Int) (penaltyLastN cs.params)).toNat

/-- The last `penalty_tokens_used_size` tokens. -/
def lastTokens (cs : CommonSampler α σ) : List LlamaToken :=
  (penaltyTokens cs).drop ((penaltyTokens cs).length - penaltyTokensUsed cs)

/-- The newline's candidate gets its logit back. -/
def restoreNl (nlToken : LlamaToken) (nlLogit : α) : List (TokenData α) → List (TokenData α)
  | [] => []
  | d :: ds =>
    if d.id = nlToken then { d with logit := nlLogit } :: ds
    else d :: restoreNl nlToken nlLogit ds

/-- `llama_sampling_prepare_impl`, without the copy of the row that only a grammar reads: the row and
the candidates. -/
def prepare (o : OtherSamplers α τ) (cs : CommonSampler α σ) (nVocab : Nat) (nlToken : LlamaToken)
    (ctxCfg grammarFirst : Bool) (other : τ) (logits : Logits α) :
    Logits α × τ × TokenDataArray α :=
  let params := cs.params
  let logits := applyLogitBias params logits
  let logits := if ctxCfg then o.guidance logits else logits
  let (other, logits) :=
    if cs.elbIdx < cs.nElbStates then o.expiringLogitBias (other, logits) else (other, logits)
  let bias := activeBias cs nVocab
  let cur := (List.range nVocab).map fun token : Nat => ⟨token, biasedLogit bias logits token, 0⟩
  let curP : TokenDataArray α := ⟨cur, 0, false⟩
  let curP :=
    if penaltyTokensUsed cs ≠ 0 then
      let nlLogit := if nlToken ≠ llamaTokenNull then logits nlToken else 0
      let curP := sampleRepetitionPenalties curP (lastTokens cs) params.penaltyRepeat
        params.penaltyFreq params.penaltyPresent
      if ¬ params.penalizeNl ∧ nlToken ≠ llamaTokenNull then
        { curP with data := restoreNl nlToken nlLogit curP.data }
      else curP
    else curP
  let curP :=
    match cs.grammar with
    | some apply => if grammarFirst then apply curP else curP
    | none => curP
  (logits, other, curP)

/-! ### Sampling -/

/-- `common_reasoning_budget_apply`. -/
def reasoningBudgetApply (h : Host α σ) (rbudget : Option ReasoningBudget)
    (curP : TokenDataArray α) : TokenDataArray α :=
  match rbudget with
  | none => curP
  | some ctx =>
    if ctx.state ≠ .forcing then curP
    else
      match ctx.forcedTokens[ctx.forcePos]? with
      | none => curP
      | some forced =>
        { curP with data := curP.data.map fun d =>
            if d.id ≠ forced then { d with logit := h.negInfinity } else d }

/-- `grammar_should_apply`. -/
def grammarShouldApply (cs : CommonSampler α σ) : Bool :=
  match cs.grammar, cs.rbudget with
  | none, _ => false
  | some _, none => true
  | some _, some ctx => !cs.params.grammarLazy || ctx.state = .idle || ctx.state = .done

/-- What a call leaves: the token, the candidates, the state of the random engine, the row, whether
sampling failed softly, and the state of the other samplers. -/
structure Sampled (α σ τ : Type) where
  token : Option LlamaToken
  curP : TokenDataArray α
  rng : σ
  logits : Logits α
  softfailed : Bool
  other : τ

/-- `std::max(1, params.min_keep)`. -/
def minKeepOf (params : SamplingParams α) : Nat := (max 1 params.minKeep).toNat

/-- `llama_sampling_sample_impl_default` up to the grammar's check of the token. -/
def sampleOnce (h : Host α σ) (o : OtherSamplers α τ) (cs : CommonSampler α σ) (nVocab : Nat)
    (nlToken : LlamaToken) (ctxCfg grammarFirst : Bool) (other : τ) (logits : Logits α) :
    Sampled α σ τ :=
  let params := cs.params
  let temp := params.temp
  let (logits, other, curP) := prepare o cs nVocab nlToken ctxCfg grammarFirst other logits
  let curP := reasoningBudgetApply h cs.rbudget curP
  let curP :=
    match cs.grammar with
    | some apply => if grammarFirst ∧ grammarShouldApply cs then apply curP else curP
    | none => curP
  if temp < 0 then
    let curP := softmax h curP true
    ⟨curP.data.head?.map TokenData.id, curP, cs.rng, logits, false, other⟩
  else if temp = 0 then ⟨sampleTokenGreedy curP, curP, cs.rng, logits, false, other⟩
  else if params.mirostat = 1 ∨ params.mirostat = 2 then
    let (token, other, curP) := o.tokenMirostat params.mirostat params.mirostatTau
      params.mirostatEta (other, sampleTemp curP temp)
    ⟨token, curP, cs.rng, logits, false, other⟩
  else if 0 ≤ params.adaptiveTarget ∧ cs.hasAdaptPCtx then
    let c := samplerQueue h o cs (minKeepOf params) (o.prepAdaptiveP (other, curP))
    let (token, other, curP) := o.tokenAdaptiveP c
    ⟨token, curP, cs.rng, logits, false, other⟩
  else
    let (other, curP) := samplerQueue h o cs (minKeepOf params) (other, curP)
    let (token, rng, softfailed) := sampleTokenWithRng h curP cs.rng
    ⟨token, curP, rng, logits, softfailed, other⟩

/-- `llama_sampling_sample_impl_default`: a token that the grammar does not accept is sampled again,
from the row as it was, with the grammar first. -/
def sampleImplDefault (h : Host α σ) (o : OtherSamplers α τ) (cs : CommonSampler α σ)
    (nVocab : Nat) (nlToken : LlamaToken) (ctxCfg grammarFirst : Bool) (other : τ)
    (logits : Logits α) : Sampled α σ τ :=
  let sampled := sampleOnce h o cs nVocab nlToken ctxCfg grammarFirst other logits
  match cs.grammar, sampled.token with
  | some apply, some token =>
    if grammarFirst ∨ ¬ grammarShouldApply cs then sampled
    else
      let single := apply ⟨[⟨token, sampled.logits token, 0⟩], 0, false⟩
      let isValid := (single.data.head?.map TokenData.logit) ≠ some h.negInfinity
      if isValid then sampled
      else
        sampleOnce h o { cs with rng := sampled.rng } nVocab nlToken ctxCfg true sampled.other
          fun i => if 0 ≤ i ∧ i < nVocab then logits i else sampled.logits i
  | _, _ => sampled

end PxqLlama.Sampling
