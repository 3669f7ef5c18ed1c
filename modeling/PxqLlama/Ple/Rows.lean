import Mathlib.Data.List.Basic

/-!
# `Ple.Rows`: the rows of the n-gram embeddings

A model with per-layer embeddings hashes each token with the tokens before it. The hash of the
last `n` tokens, for `n` from 2 on, selects a row for each head of this order. The rows are
computed on the host, by `llama_set_inputs`, for one ubatch at a time. The tokens before the ubatch
come from a history of each sequence, `ple_hist`.
-/

namespace PxqLlama.Ple

/-- The constants of the hash: `ple_*` of `llama_hparams`. Token ids are `llama_token`. -/
structure PleHparams where
  ngramSize : Nat
  nHeads : Nat
  headsPerNgram : Nat
  eosTokenId : Int
  imageTokenId : Int
  layerMultipliers : Nat → UInt64
  headVocabSizes : Nat → UInt64
  headOffsets : Nat → UInt64

/-- What `llama_batch` has for an ubatch. An array of it may be missing. -/
structure PleBatch where
  nTokens : Nat
  token : Option (Nat → Int)
  pos : Option (Nat → Int)
  seqId : Nat → Option Int

/-- `struct ple_history`. -/
structure PleHistory where
  nextPos : Int := 0
  toks : List Int := []
  deriving DecidableEq, Repr

/-- `ple_hist`: a sequence that is new to the map has the history as constructed. -/
abbrev PleHist := Int → PleHistory

section
variable (hp : PleHparams) (batch : PleBatch)

/-- `tok_of`. An image has no tokens; the configured one stands in for it. -/
def tokOf (k : Nat) : Int :=
  let imgTok := if hp.imageTokenId ≠ 0 then hp.imageTokenId else hp.eosTokenId
  match batch.token with
  | some token => token k
  | none => imgTok

/-- `seq_of`. -/
def seqOf (k : Nat) : Int := (batch.seqId k).getD 0

/-- `pos_of`. -/
def posOf (k : Nat) : Int :=
  match batch.pos with
  | some pos => pos k
  | none => k

/-! ### The window -/

/-- The last tokens of a history, as many as a window reaches back. -/
def trimToks (toks : List Int) : List Int := toks.drop (toks.length - (hp.ngramSize - 1))

/-- The history of a sequence at its first token of the ubatch: a jump drops it. -/
def refreshHistory (hst : PleHistory) (pos : Int) : PleHistory :=
  let hst := if hst.nextPos ≠ pos then { nextPos := pos, toks := [] } else hst
  { hst with toks := trimToks hp hst.toks }

/-- The entry of `snap`: the history behind as many end-of-sequence tokens as it is short. -/
def padToks (toks : List Int) : List Int :=
  List.replicate (hp.ngramSize - 1 - toks.length) hp.eosTokenId ++ toks

/-- The histories, and the map `snap`. -/
abbrev Snapshot := PleHist × (Int → Option (List Int))

/-- The body of the loop that takes the snapshot: only the first token of a sequence counts. -/
def snapshotStep (st : Snapshot) (i : Nat) : Snapshot :=
  let seq := seqOf batch i
  match st.2 seq with
  | some _ => st
  | none =>
    let hst := refreshHistory hp (st.1 seq) (posOf batch i)
    (Function.update st.1 seq hst, Function.update st.2 seq (some (padToks hp hst.toks)))

/-- The loop that takes the snapshot, before a token of the ubatch is appended. -/
def snapshotLoop (hist : PleHist) : Snapshot :=
  (List.range batch.nTokens).foldl (snapshotStep hp batch) (hist, fun _ => none)

/-- The lambda `prev`: the token `s` places before the token `i`. -/
def prevTok (hist : List Int) (i s : Nat) : Int :=
  if s ≤ i ∧ seqOf batch (i - s) = seqOf batch i ∧ posOf batch (i - s) = posOf batch i - s then
    tokOf hp batch (i - s)
  else
    let back := s - i
    if 0 < back ∧ back ≤ hist.length ∧ 0 ≤ posOf batch i - s then
      hist.getD (hist.length - back) hp.eosTokenId
    else hp.eosTokenId

/-- The loop that fills `ctx` from `s` on. An end-of-sequence token cuts off what is before it. -/
def ctxLoop (prev : Nat → Int) (eos : Int) (cut : Bool) (s : Nat) : Nat → List Int
  | 0 => []
  | k + 1 =>
    let c := if cut then eos else prev s
    c :: ctxLoop prev eos (cut || c = eos) (s + 1) k

/-- `ctx`: the token, and the tokens before it. -/
def pleCtx (hist : List Int) (i : Nat) : List Int :=
  tokOf hp batch i ::
    ctxLoop (prevTok hp batch hist i) hp.eosTokenId false 1 (hp.ngramSize - 1)

/-! ### The rows -/

/-- `mixed`: the hash of the first `n` tokens of a window. -/
def mixed (ctx : List Int) (n : Nat) : UInt64 :=
  (List.range' 1 (n - 1)).foldl
    (fun acc j => acc ^^^ UInt64.ofInt (ctx.getD j 0) * hp.layerMultipliers j)
    (UInt64.ofInt (ctx.getD 0 0) * hp.layerMultipliers 0)

/-- The row of a head. -/
def headRow (hash : UInt64) (hi : Nat) : Int32 :=
  (hash % hp.headVocabSizes hi + hp.headOffsets hi).toUInt32.toInt32

/-- The rows of a token, for each head of each order. -/
def tokenRows (ctx : List Int) : List Int32 :=
  (List.range (hp.ngramSize - 1)).flatMap fun a =>
    (List.range hp.headsPerNgram).map fun g =>
      headRow hp (mixed hp ctx (a + 2)) (a * hp.headsPerNgram + g)

/-- The body of the loop that appends the ubatch. -/
def appendStep (hist : PleHist) (i : Nat) : PleHist :=
  let seq := seqOf batch i
  Function.update hist seq
    { nextPos := posOf batch i + 1, toks := trimToks hp ((hist seq).toks ++ [tokOf hp batch i]) }

/-- The loop that appends the ubatch to the histories. -/
def appendLoop (hist : PleHist) : PleHist :=
  (List.range batch.nTokens).foldl (appendStep hp batch) hist

/-- The assertions about the layout of the heads. -/
def PleHparams.layoutOk : Bool :=
  decide (2 ≤ hp.ngramSize ∧ 0 < hp.nHeads ∧ 0 < hp.headsPerNgram) &&
    decide ((hp.ngramSize - 1) * hp.headsPerNgram = hp.nHeads)

/-- The assertions about the vocabularies, which are made for each token. -/
def PleHparams.vocabOk : Bool :=
  (List.range hp.nHeads).all fun hi => decide (0 < hp.headVocabSizes hi)

/-- The rows of an ubatch in `llama_set_inputs`, and the histories after it; `none` when it
aborts, as it does for an ubatch of several sequences. -/
def llamaSetInputsPle (hist : PleHist) : Option (List Int32 × PleHist) :=
  if ¬ hp.layoutOk then none
  else if ¬ hp.vocabOk ∧ 0 < batch.nTokens then none
  else if ¬ (List.range batch.nTokens).all fun i => seqOf batch i = seqOf batch 0 then none
  else
    let (hist, snap) := snapshotLoop hp batch hist
    let rows := (List.range batch.nTokens).flatMap fun i =>
      tokenRows hp (pleCtx hp batch ((snap (seqOf batch i)).getD []) i)
    some (rows, appendLoop hp batch hist)

end

/-! ### A run -/

/-- The ubatch of a stretch of tokens of a sequence. -/
def seqBatch (s : Int) (pos : Nat) (part : List Int) : PleBatch where
  nTokens := part.length
  token := some fun k => part.getD k 0
  pos := some fun k => pos + k
  seqId := fun _ => some s

/-- The rows of one ubatch after the other. -/
def pleRun (hp : PleHparams) (s : Int) : PleHist → Nat → List (List Int) → Option (List Int32)
  | _, _, [] => some []
  | hist, pos, part :: parts =>
    match llamaSetInputsPle hp (seqBatch s pos part) hist with
    | none => none
    | some (rows, hist) => (pleRun hp s hist (pos + part.length) parts).map (rows ++ ·)

end PxqLlama.Ple
