import PxqLlama.Sampling.Chain

/-!
# `Sampling.TopkRaw`: sampling from a window over the row of logits

For a request whose samplers only need the largest `k` logits, `pxaTopkRawSample` does not make a
candidate of each token. It applies the penalties in the row, scans the row for a window of the `W`
largest logits, takes the penalties back, and runs the samplers over the window.
`pxaTopkRawWindow` is the gate: the width `W` for the requests that can be served so, zero for others.
-/

namespace PxqLlama.Sampling

open TopSelect

variable {α σ τ : Type} [Field α] [LinearOrder α] [FloorRing α]

/-! ### The gate -/

/-- `pxa_topk_raw_penalties_active`. -/
def pxaTopkRawPenaltiesActive (cs : CommonSampler α σ) : Bool :=
  0 < penaltyTokensUsed cs ∧
    ¬ (cs.params.penaltyRepeat = 1 ∧ cs.params.penaltyFreq = 0 ∧ cs.params.penaltyPresent = 0)

attribute [local instance] atLeastTwo_two in
/-- Whether a sampler of the request is served, before or behind the first `TOP_K`; the result says
whether `TOP_K` was seen. -/
def pxaSamplerServed (cs : CommonSampler α σ) (seenTopK : Bool) : SamplerType → Option Bool
  | .dry =>
    if ¬ (cs.params.dryMultiplier = 0 ∨ cs.params.dryBase < 1 ∨ cs.params.dryPenaltyLastN = 0) then
      none
    else some seenTopK
  | .topK => if cs.params.topK ≤ 0 then none else some true
  | .tfsZ => if cs.params.tfsZ < 1 then none else some seenTopK
  | .typicalP => if cs.params.typicalP < 1 then none else some seenTopK
  | .xtc =>
    if ¬ (cs.params.xtcProbability ≤ 0 ∨ 1 / 2 < cs.params.xtcThreshold) then none
    else some seenTopK
  | .topNSigma => if 0 < cs.params.topNSigma then none else some seenTopK
  | .topP => if ¬ seenTopK ∧ cs.params.topP < 1 then none else some seenTopK
  | .minP => if ¬ seenTopK ∧ 0 < cs.params.minP then none else some seenTopK
  | .temperature => some seenTopK
  | .adaptiveP => if cs.hasAdaptPCtx then none else some seenTopK
  | .dist => some seenTopK

/-- `pxa_topk_raw_window`: the width of the window, or zero. -/
def pxaTopkRawWindow (cs : CommonSampler α σ) (ctxCfg grammarFirst : Bool) (nVocab : Nat) : Nat :=
  let p := cs.params
  if grammarFirst ∨ ctxCfg ∨ cs.grammar.isSome then 0
  else if cs.rbudget.any fun ctx => ctx.state = .forcing then 0
  else if cs.elbIdx < cs.nElbStates then 0
  else if p.mirostat ≠ 0 then 0
  else if cs.hasAdaptPCtx then 0
  else if ¬ 0 ≤ p.temp then 0
  else if 0 < p.dynatempRange then 0
  else if pxaTopkRawPenaltiesActive cs ∧ (activeBias cs nVocab).isSome then 0
  else if p.temp = 0 then if 0 < p.nProbs then 0 else 1
  else
    match p.samplersSequence.foldlM (pxaSamplerServed cs) false with
    | none => 0
    | some seenTopK =>
      if ¬ seenTopK then 0
      else
        let W := (min (max p.topK (max 1 p.minKeep)) nVocab).toNat
        if W ≤ 128 then W else 0

/-! ### The scan -/

/-- `pxa_topk_window`: the logits in `wl` with their ids in `wid`, and the threshold. -/
structure PxaTopkWindow (α : Type) where
  W : Nat
  entries : List (α × Int) := []
  thr : WithBot α := ⊥

/-- `wl[W-1]`. -/
def lastLogit (entries : List (α × Int)) : WithBot α :=
  match entries.getLast? with
  | none => ⊥
  | some e => (e.1 : WithBot α)

/-- `pxa_topk_window::push`. -/
def PxaTopkWindow.push (w : PxaTopkWindow α) (x : α) (id : Int) : PxaTopkWindow α :=
  if w.entries.length = w.W then
    if ¬ w.thr < x then w
    else
      -- The last entry is overwritten by the ones that move.
      let entries := place Prod.fst (x, id) w.entries.dropLast
      { w with entries := entries, thr := lastLogit entries }
  else
    let entries := place Prod.fst (x, id) w.entries
    { w with entries := entries, thr := if entries.length = w.W then lastLogit entries else w.thr }

/-- `pxa_topk_scan_scalar`, for the value `x i` of the token `i`. -/
def pxaTopkScanScalar (x : Nat → α) (n i0 : Nat) (w : PxaTopkWindow α) : PxaTopkWindow α :=
  (List.range' i0 (n - i0)).foldl (fun w i => w.push (x i) i) w

/-- The window is filled from the head: the next token and the window, with `left` tokens to go. -/
def pxaFillWindow (x : Nat → α) : (left i : Nat) → PxaTopkWindow α → Nat × PxaTopkWindow α
  | 0, i, w => (i, w)
  | left + 1, i, w =>
    if w.entries.length < w.W then pxaFillWindow x left (i + 1) (w.push (x i) i) else (i, w)

/-- Eight tokens: those above the threshold as it was before the first of them. -/
def pxaPushLanes (x : Nat → α) (i : Nat) (w : PxaTopkWindow α) : PxaTopkWindow α :=
  let m := (List.range 8).filter fun b => w.thr < x (i + b)
  m.foldl (fun w b => w.push (x (i + b)) (i + b : Nat)) w

def pxaScanLanes (x : Nat → α) : (blocks i : Nat) → PxaTopkWindow α → Nat × PxaTopkWindow α
  | 0, i, w => (i, w)
  | blocks + 1, i, w => pxaScanLanes x blocks (i + 8) (pxaPushLanes x i w)

/-- `pxa_topk_scan_avx2`. -/
def pxaTopkScanAvx2 (x : Nat → α) (n : Nat) (w : PxaTopkWindow α) : PxaTopkWindow α :=
  let (i, w) := pxaFillWindow x n 0 w
  let (i, w) := pxaScanLanes x ((n - i) / 8) i w
  pxaTopkScanScalar x n i w

/-- `pxa_topk_scan`. -/
def pxaTopkScan (hasAvx2 : Bool) (x : Nat → α) (n : Nat) (w : PxaTopkWindow α) : PxaTopkWindow α :=
  if hasAvx2 ∧ 8 ≤ n then pxaTopkScanAvx2 x n w else pxaTopkScanScalar x n 0 w

/-! ### Sampling -/

/-- The penalties in the row, and what the row had there. -/
def pxaPenalizeRow (cs : CommonSampler α σ) (nVocab : Nat) (nlToken : LlamaToken)
    (logits : Logits α) : Logits α × List (LlamaToken × α) :=
  if pxaTopkRawPenaltiesActive cs then
    let nlLogit := if nlToken ≠ llamaTokenNull then logits nlToken else 0
    let (penalized, restore) :=
      (tokenCount (lastTokens cs)).foldl (fun (s : Logits α × List (LlamaToken × α)) kv =>
        if kv.1 < 0 ∨ (nVocab : Int) ≤ kv.1 then s
        else
          let l := s.1 kv.1
          (Function.update s.1 kv.1 (penalize cs.params.penaltyRepeat cs.params.penaltyFreq
            cs.params.penaltyPresent kv.2 l), s.2 ++ [(kv.1, l)])) (logits, [])
    if ¬ cs.params.penalizeNl ∧ nlToken ≠ llamaTokenNull then
      (Function.update penalized nlToken nlLogit, restore)
    else (penalized, restore)
  else (logits, [])

/-- The samplers over the window; the others were seen to do nothing. -/
def pxaChainStep (h : Host α σ) (params : SamplingParams α) (minKeep : Nat)
    (curP : TokenDataArray α) : SamplerType → TokenDataArray α
  | .topP => sampleTopP h curP params.topP minKeep
  | .minP => sampleMinP h curP params.minP minKeep
  | .temperature => sampleTemp curP params.temp
  | .dist => sampleDist h curP
  | _ => curP

/-- `pxa_topk_raw_sample`. -/
def pxaTopkRawSample (h : Host α σ) (hasAvx2 : Bool) (cs : CommonSampler α σ) (nVocab : Nat)
    (nlToken : LlamaToken) (W : Nat) (other : τ) (logits : Logits α) : Sampled α σ τ :=
  let params := cs.params
  let logits := applyLogitBias params logits
  let bias := activeBias cs nVocab
  let (penalized, restore) := pxaPenalizeRow cs nVocab nlToken logits
  let w := pxaTopkScan hasAvx2 (biasedLogit bias penalized) nVocab { W := W }
  let logits := restore.foldl (fun logits r => Function.update logits r.1 r.2) penalized
  let curP : TokenDataArray α := ⟨w.entries.map fun e => ⟨e.2, e.1, 0⟩, 0, true⟩
  if params.temp = 0 then ⟨sampleTokenGreedy curP, curP, cs.rng, logits, false, other⟩
  else
    let curP := params.samplersSequence.foldl (pxaChainStep h params (minKeepOf params)) curP
    let (token, rng, softfailed) := sampleTokenWithRng h curP cs.rng
    ⟨token, curP, rng, logits, softfailed, other⟩

end PxqLlama.Sampling
