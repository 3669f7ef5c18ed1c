import PxqLlama.Kv.SpecModes

/-!
# `Kv.DecodeBatch`: the ubatches of one `llama_decode`

`llama_decode_internal` splits a batch into ubatches and decodes one after the other. An error of
one of them, or a cancel, leaves those before it in the cache.
-/

namespace PxqLlama.Kv

/-- What else decides about a call: the size of an ubatch, which a hybrid model makes smaller when
the sequences are mixed (`split`); whether the outputs can be reserved; after which tokens the user
cancels; and whether the cache is fragmented. -/
structure DecodeCall where
  nUbatch : Nat
  split : List Token → Nat
  reserved : Bool
  stopInternalDecode : Nat → Bool
  fragmented : KvContext → Bool

/-- The next ubatch of the tokens that are left. -/
def DecodeCall.ubatch (call : DecodeCall) (rest : List Token) : UBatch :=
  let b := rest.take call.nUbatch
  b.take (call.split b)

/-- "decide if we need to defrag the kv cache". -/
def DecodeCall.queueDefrag (call : DecodeCall) (ctx : KvContext) : KvContext :=
  if call.fragmented ctx then kvDefrag ctx else ctx

/-- The loop over the ubatches, from token `cur` on: the result, the number of tokens that are
placed, and the context. `none` when the program aborts, or the fuel does not suffice. -/
def decodeLoop (call : DecodeCall) (batch : List Token) :
    Nat → Nat → KvContext → Option (Int × Nat × KvContext)
  | 0, _, _ => none
  | fuel + 1, cur, ctx =>
    if batch.length ≤ cur then some (0, cur, call.queueDefrag ctx)
    else
      let b := call.ubatch (batch.drop cur)
      match decodeUbatch ctx b with
      | none => none
      | some (ret, ctx) =>
        if ret ≠ 0 then some (ret, cur, ctx)
        else if call.stopInternalDecode (cur + b.length) then some (-3, cur + b.length, ctx)
        else decodeLoop call batch fuel (cur + b.length) ctx

/-- `llama_decode_internal`. -/
def llamaDecode (call : DecodeCall) (ctx : KvContext) (batch : List Token) :
    Option (Int × Nat × KvContext) :=
  if batch = [] then some (-1, 0, ctx)
  else if ¬ call.reserved then some (-2, 0, ctx)
  else decodeLoop call batch (batch.length + 1) 0 ctx

/-! ### Runs -/

/-- The decode of a batch, or another call of the API. -/
inductive StoreOp
  | decode (call : DecodeCall) (batch : List Token)
  | other (op : KvOp)

/-- How many tokens a call placed, and the context after it; `none` when the program aborts. -/
def storeStep (ctx : KvContext) : StoreOp → Option (Nat × KvContext)
  | .decode call batch => (llamaDecode call ctx batch).map Prod.snd
  | .other op => (kvStep ctx op).map fun ctx => (0, ctx)

/-- A run of calls: how many tokens each of them placed. -/
def storeRun (ctx : KvContext) : List StoreOp → Option (List Nat × KvContext)
  | [] => some ([], ctx)
  | op :: ops =>
    match storeStep ctx op with
    | none => none
    | some (n, ctx) => (storeRun ctx ops).map fun (ns, ctx) => (n :: ns, ctx)

/-!
## The ubatches of a hybrid model

The recurrent layers of a hybrid model take an ubatch of one sequence, of one token for each
sequence, or of equal runs of tokens. `llama_decode_internal` looks at the next slice of the batch,
and makes it shorter when its tokens are mixed otherwise.

A token of which no sequence id can be read (`n_seq_id` is not positive, or a pointer is null) has
none here. Without `pos` all positions are read as zero.
-/

/-- The loop that looks at the first ids of a slice. `none` stands for `can_check = false`, else it
is `any_diff` and `has_dup`. -/
def scanSeqIds : List Token → (firstSeqId : Option Int) → (seenSeqIds : List Int) →
    (anyDiff hasDup : Bool) → Option (Bool × Bool)
  | [], _, _, anyDiff, hasDup => some (anyDiff, hasDup)
  | t :: ts, first, seen, anyDiff, hasDup =>
    if t.seqId = [] then none
    else
      let seqId := tokSeq t
      match first with
      | none => scanSeqIds ts (some seqId) (seqId :: seen) anyDiff (hasDup || seqId ∈ seen)
      | some f =>
        scanSeqIds ts first (seqId :: seen) (anyDiff || seqId ≠ f) (hasDup || seqId ∈ seen)

/-- `seq_count` of a decomposition that is ok. -/
def pxaSeqCount (b : UBatch) : List Nat := ((decompLoop b [] 0).getD []).map Prod.snd

/-- `n_tokens` of the next ubatch on a hybrid model; the slice is as long as `n_ubatch` allows. -/
def hybridSplit (slice : List Token) : Nat :=
  if 1 < slice.length then
    match scanSeqIds slice none [] false false with
    | some (true, true) =>
      let d := pxaDecomposeSeqs slice
      if d.ok && d.uniformTok && 1 ≤ d.seqs.length then slice.length
      else
        match pxaSeqCount slice with
        -- one full sequence
        | count :: _ => if d.ok && 1 ≤ d.seqs.length then count else 1
        | [] => 1
    | _ => slice.length
  else slice.length

/-- The ubatches of a decode in which none fails; `none` when the fuel does not suffice. -/
def DecodeCall.ubatches (call : DecodeCall) : Nat → List Token → Option (List UBatch)
  | 0, _ => none
  | fuel + 1, rest =>
    if rest = [] then some []
    else
      let b := call.ubatch rest
      (call.ubatches fuel (rest.drop b.length)).map (b :: ·)

end PxqLlama.Kv
