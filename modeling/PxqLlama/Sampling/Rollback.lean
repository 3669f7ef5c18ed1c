import Mathlib.Algebra.Group.PUnit
import PxqLlama.Sampling.ExpiringBias
import PxqLlama.Sampling.ReasoningBudget

/-!
# `Sampling.Rollback`: the sampler over a rejected draft

Before a draft is verified the sampler is cloned. `common_sampler_sample_and_accept_n` samples at
each place of the draft and accepts what it gets, until it is not the drafted token. After a
rejection the clone is put back, and the tokens of the result are accepted again.

A token is sampled by the chain of `Sampling.Chain`. The samplers that are left open there
get what they may read of the sampler and give back what they may write (`HostSamplers`); mirostat
says how surprising its token was, and `mirostat_mu` follows from that. `PXA_TOPK_RAW` is off.

The states of expiring biases are those of `Sampling.ExpiringBias`. A clone does not take them over,
and so they are in the sampler on their own, without the entries, which belong to the parameters.
What an active bias does to the parameters and the logits is left open. Accepting a token fails
where a state is entered that does not exist, since its entries are read then.

The candidates of the last sampling, and the text that the verification puts together for the
biases, are no part of the state.
-/

namespace PxqLlama.Sampling

/-- `std::mt19937`: its seed, and how many numbers it has given since. Its period is longer than
any run. -/
structure Mt19937 where
  seed : Nat
  drawn : Nat := 0
deriving DecidableEq

def Mt19937.next (g : Mt19937) : Mt19937 := { g with drawn := g.drawn + 1 }

/-- The part of `llama_sampler_adaptive_p` that is kept from one token to the next. -/
structure AdaptiveP (α : Type) where
  target : α
  decay : α
  updtWCur : Bool
  rng : Mt19937
  history : List (α × α)
deriving DecidableEq

/-- What the samplers read and write besides the candidates. -/
structure SamplerSide (α δ κ : Type) where
  mirostatMu : α
  adaptP : Option (AdaptiveP α)
  smpl : Option δ
  /-- The context, with an engine of its own. -/
  host : κ

/-- The samplers that the chain leaves open. -/
structure HostSamplers (α δ κ : Type) where
  dry : Option δ → κ × TokenDataArray α → κ × TokenDataArray α
  tailFree : (z : α) → (minKeep : Nat) → κ × TokenDataArray α → κ × TokenDataArray α
  typical : (p : α) → (minKeep : Nat) → κ × TokenDataArray α → κ × TokenDataArray α
  xtc : (probability threshold : α) → (minKeep : Nat) → κ × TokenDataArray α →
    κ × TokenDataArray α
  topNSigma : (topNSigma : α) → κ × TokenDataArray α → κ × TokenDataArray α
  entropy : (minTemp maxTemp exponent : α) → κ × TokenDataArray α → κ × TokenDataArray α
  adaptiveP : AdaptiveP α → κ × TokenDataArray α → κ × TokenDataArray α
  prepAdaptiveP : AdaptiveP α → κ × TokenDataArray α → κ × TokenDataArray α
  /-- With the number that was drawn, and what is put behind the history. -/
  tokenAdaptiveP : AdaptiveP α → (r : Nat) → κ × TokenDataArray α →
    Option LlamaToken × List (α × α) × κ × TokenDataArray α
  /-- With the observed surprise of the token. -/
  tokenMirostat : (version : Int) → (mu : α) → κ × TokenDataArray α →
    Option LlamaToken × α × κ × TokenDataArray α

section
variable {α γ δ ε κ : Type}

/-- A sampler that writes nothing of `common_sampler`. -/
def onHost (f : κ × TokenDataArray α → κ × TokenDataArray α)
    (c : SamplerSide α δ κ × TokenDataArray α) : SamplerSide α δ κ × TokenDataArray α :=
  let (host, curP) := f (c.1.host, c.2)
  ({ c.1 with host := host }, curP)

/-- `llama_sample_token_adaptive_p_impl`: one number of its own engine. -/
def sampleTokenAdaptiveP (e : HostSamplers α δ κ) (rng : Mt19937 → Nat × Mt19937)
    (c : SamplerSide α δ κ × TokenDataArray α) :
    Option LlamaToken × SamplerSide α δ κ × TokenDataArray α :=
  match c.1.adaptP with
  | none => (none, c)
  | some a =>
    let (r, engine) := rng a.rng
    let (token, pushed, host, curP) := e.tokenAdaptiveP a r (c.1.host, c.2)
    (token,
      { c.1 with
        adaptP := some { a with rng := engine, history := a.history ++ pushed }
        host := host },
      curP)

/-- `llama_sample_token_mirostat_impl` and `llama_sample_token_mirostat_v2_impl`: they draw from the
engine of the context, and update `mu` "using the learning rate and error". -/
def sampleTokenMirostat [Field α] (e : HostSamplers α δ κ) (version : Int) (tau eta : α)
    (c : SamplerSide α δ κ × TokenDataArray α) :
    Option LlamaToken × SamplerSide α δ κ × TokenDataArray α :=
  let (token, surprise, host, curP) := e.tokenMirostat version c.1.mirostatMu (c.1.host, c.2)
  (token, { c.1 with mirostatMu := c.1.mirostatMu - eta * (surprise - tau), host := host }, curP)

/-- The samplers as the chain calls them, without guidance and without an expiring bias. -/
def HostSamplers.others [Field α] (e : HostSamplers α δ κ) (rng : Mt19937 → Nat × Mt19937) :
    OtherSamplers α (SamplerSide α δ κ) where
  dry := fun c => onHost (e.dry c.1.smpl) c
  tailFree := fun z minKeep => onHost (e.tailFree z minKeep)
  typical := fun p minKeep => onHost (e.typical p minKeep)
  xtc := fun probability threshold minKeep => onHost (e.xtc probability threshold minKeep)
  topNSigma := fun topNSigma => onHost (e.topNSigma topNSigma)
  entropy := fun minTemp maxTemp exponent => onHost (e.entropy minTemp maxTemp exponent)
  adaptiveP := fun c => match c.1.adaptP with
    | none => c
    | some a => onHost (e.adaptiveP a) c
  prepAdaptiveP := fun c => match c.1.adaptP with
    | none => c
    | some a => onHost (e.prepAdaptiveP a) c
  tokenAdaptiveP := sampleTokenAdaptiveP e rng
  tokenMirostat := sampleTokenMirostat e
  guidance := id
  expiringLogitBias := id

/-! ### The sampler -/

/-- `elb_states`, `elb_idx` and `elb_search_pos`. -/
abbrev ElbStates := ElbSampler Unit

/-- `elb_states.size() > elb_idx`. -/
def ElbStates.active (elb : ElbStates) : Bool := elb.elbIdx < elb.stages.length

/-- What accepting a token changes, and what does not change. -/
structure SamplerHistory (α γ δ : Type) where
  params : SamplingParams α
  grammar : Option γ
  prev : List LlamaToken
  smpl : Option δ
  rbudget : Option ReasoningBudgetCtx
  serverBiases : Option (List α)
  elb : ElbStates

/-- What sampling a token changes. -/
@[ext] structure SamplerDraws (α : Type) where
  mirostatMu : α
  adaptP : Option (AdaptiveP α)
  nValid : Nat
  rng : Mt19937

/-- `common_sampler`. -/
structure RollbackSampler (α γ δ : Type) extends SamplerHistory α γ δ, SamplerDraws α

end

section
variable {α γ δ κ : Type} [Field α] [LinearOrder α] [FloorRing α]

/-- A sampled token, the context, the sampler and its candidates. -/
structure Drawn (α γ δ κ : Type) where
  token : Option LlamaToken
  host : κ
  sampler : RollbackSampler α γ δ
  curP : TokenDataArray α

/-- What sampling with an active expiring bias leaves. -/
structure ElbDrawn (α κ : Type) where
  token : Option LlamaToken
  host : κ
  params : SamplingParams α
  draws : SamplerDraws α
  curP : TokenDataArray α

/-- The model, the grammar, the DRY sampler and expiring biases with the text that was generated, and
`PXA_SPEC_RELAXED_PMIN` when `PXA_SPEC_RELAXED` is on. -/
structure RollbackEnv (α γ δ κ : Type) [Field α] [LinearOrder α] [FloorRing α] where
  engine : Host α Mt19937
  engine_next : ∀ g, (engine.rng g).2 = g.next
  samplers : HostSamplers α δ κ
  nVocab : Nat
  nlToken : LlamaToken
  grammarFirst : Bool := false
  relaxedPmin : Option α := none
  grammarApply : γ → TokenDataArray α → TokenDataArray α
  grammarAccept : γ → LlamaToken → γ
  dryAccept : δ → LlamaToken → δ
  /-- `to_generated_text`, which a slot sets before it verifies a draft. -/
  generatedText : Server.Bytes
  /-- `common_token_to_piece`. -/
  tokenToPiece : LlamaToken → Server.Bytes
  elbSample : RollbackSampler α γ δ → κ → Logits α → ElbDrawn α κ
  /-- What a token that is accepted does to the parameters. -/
  elbAcceptParams : ElbStates → SamplingParams α → LlamaToken → SamplingParams α

variable (env : RollbackEnv α γ δ κ)

/-- The sampler as the chain sees it. -/
def RollbackSampler.view (s : RollbackSampler α γ δ) : CommonSampler α Mt19937 where
  params := s.params
  grammar := s.grammar.map env.grammarApply
  prev := s.prev
  smpl := ⟨s.params.dryMultiplier, s.params.dryBase, s.params.dryPenaltyLastN⟩
  hasAdaptPCtx := s.adaptP.isSome
  rbudget := s.rbudget.map ReasoningBudgetCtx.toReasoningBudget
  rng := s.rng
  serverBiases := s.serverBiases
  nElbStates := 0
  elbIdx := 0
  dry_params := rfl

/-- What the samplers read and write besides the candidates. -/
def RollbackSampler.side (s : RollbackSampler α γ δ) (host : κ) : SamplerSide α δ κ :=
  { mirostatMu := s.mirostatMu, adaptP := s.adaptP, smpl := s.smpl, host := host }

/-- How many candidates are left when the grammar has checked the sampled token and accepts it, or
none when it does not check or does not accept. -/
def checkedSize (s : RollbackSampler α γ δ) (host : κ) (logits : Logits α) : Option Nat :=
  let cs := s.view env
  let sampled := sampleOnce env.engine (env.samplers.others env.engine.rng) cs env.nVocab
    env.nlToken false env.grammarFirst (s.side host) logits
  match cs.grammar, sampled.token with
  | some apply, some token =>
    if env.grammarFirst ∨ ¬ grammarShouldApply cs then none
    else
      let single := apply ⟨[⟨token, sampled.logits token, 0⟩], 0, false⟩
      if single.data.head?.map TokenData.logit ≠ some env.engine.negInfinity then
        some (if s.params.temp = 0 then 0 else sampled.curP.data.length)
      else none
  | _, _ => none

/-- `common_sampler_sample`. `n_valid` is set behind the grammar's check of a token that needs no
second sampling. -/
def commonSamplerSample (s : RollbackSampler α γ δ) (host : κ) (logits : Logits α) :
    Drawn α γ δ κ :=
  if s.elb.active then
    let sampled := env.elbSample s host logits
    { token := sampled.token
      host := sampled.host
      sampler := { s with params := sampled.params, toSamplerDraws := sampled.draws }
      curP := sampled.curP }
  else
    let sampled := sampleImplDefault env.engine (env.samplers.others env.engine.rng) (s.view env)
      env.nVocab env.nlToken false env.grammarFirst (s.side host) logits
    { token := sampled.token
      host := sampled.other.host
      sampler := { s with
        mirostatMu := sampled.other.mirostatMu
        adaptP := sampled.other.adaptP
        nValid := (checkedSize env s host logits).getD s.nValid
        rng := sampled.rng }
      curP := sampled.curP }

/-- `common_sampler_accept` of a generated token, up to the expiring biases. -/
def acceptToken (s : RollbackSampler α γ δ) (token : LlamaToken) : RollbackSampler α γ δ :=
  -- the state of the budget before it accepts the token
  let acceptGrammar := grammarShouldApply (s.view env)
  { s with
    prev := s.prev.drop 1 ++ [token]
    rbudget := s.rbudget.map fun ctx => commonReasoningBudgetAccept ctx token
    grammar := if acceptGrammar then s.grammar.map fun g => env.grammarAccept g token else s.grammar
    smpl := s.smpl.map fun smpl => env.dryAccept smpl token }

/-- `common_sampler_accept`, for a generated token. -/
def commonSamplerAccept (s : RollbackSampler α γ δ) (token : LlamaToken) :
    Option (RollbackSampler α γ δ) :=
  let s := acceptToken env s token
  if s.elb.active then
    (elbAccept s.elb (some env.generatedText) (env.tokenToPiece token)).map fun elb =>
      { s with elb := elb, params := env.elbAcceptParams s.elb s.params token }
  else some s

/-- `common_sampler_clone`: the expiring biases of `dst` stay. -/
def commonSamplerClone (src dst : RollbackSampler α γ δ) : RollbackSampler α γ δ :=
  { src with elb := dst.elb }

/-! ### A draft -/

/-- Relaxed acceptance: the drafted token is among the candidates, and likely enough. -/
def relaxedAccepts (s : RollbackSampler α γ δ) (curP : TokenDataArray α)
    (drafted : LlamaToken) : Bool :=
  match env.relaxedPmin with
  | none => false
  | some pmin =>
    s.grammar.isNone && decide (s.params.mirostat = 0) && decide (0 < s.params.temp) &&
      match curP.data.find? fun d => d.id = drafted with
      | none => false
      | some d => decide (pmin ≤ d.p)

/-- The token that is kept at a place of the draft, where `id` was sampled. -/
def keptToken (drawn : Drawn α γ δ κ) (drafted id : LlamaToken) : LlamaToken :=
  if drafted ≠ id ∧ relaxedAccepts env drawn.sampler drawn.curP drafted then drafted else id

/-- `common_sampler_sample_and_accept_n`, with the row of logits of each place. It fails where it
reads behind an empty array of candidates. -/
def sampleAndAcceptN : (draft : List LlamaToken) → (rows : List (Logits α)) → κ →
    RollbackSampler α γ δ → Option (List LlamaToken × κ × RollbackSampler α γ δ)
  | _, [], _, _ => none
  | [], row :: _, host, s => do
    let drawn := commonSamplerSample env s host row
    let id ← drawn.token
    let s ← commonSamplerAccept env drawn.sampler id
    return ([id], drawn.host, s)
  | drafted :: draft, row :: rows, host, s => do
    let drawn := commonSamplerSample env s host row
    let id ← drawn.token
    let id := keptToken env drawn drafted id
    let s ← commonSamplerAccept env drawn.sampler id
    if drafted = id then
      let (ids, host, s) ← sampleAndAcceptN draft rows drawn.host s
      return (id :: ids, host, s)
    else return ([id], drawn.host, s)

/-- The sampler that `restore_speculative_checkpoint` leaves: the checkpoint's, with the tokens
accepted again. In the replay mode that comes behind the decode of the tokens, if there are any. -/
def restoreSampler (perStep : Bool) (ckpt s : RollbackSampler α γ δ)
    (ids : List LlamaToken) : Option (RollbackSampler α γ δ) :=
  let s := commonSamplerClone ckpt s
  if perStep ∨ ids ≠ [] then ids.foldlM (commonSamplerAccept env) s else some s

/-- Sampling and accepting the tokens one at a time. -/
def sampleEach : (ids : List LlamaToken) → (rows : List (Logits α)) → κ →
    RollbackSampler α γ δ → Option (κ × RollbackSampler α γ δ)
  | id :: ids, row :: rows, host, s => do
    let drawn := commonSamplerSample env s host row
    let s ← commonSamplerAccept env drawn.sampler id
    sampleEach ids rows drawn.host s
  | _, _, host, s => some (host, s)

end

end PxqLlama.Sampling
