import PxqLlama.Server.BatchLoop

/-!
# `Server.Sample`: the rows that the slots sample from

A tick adds the sampled token of each generating slot to one batch, with its draft if it has one,
and then tokens of pending prompts. After each chunk that was decoded, `process_batch_tokens`
samples: a plain slot from the row of its batch index in the chunk, and a slot with a draft, in
`speculative_decoding_accept`, from the batch indices that it stored.

A row of logits is named by the token that it was computed for. Which tokens are sampled does not
matter here, only how many of a draft are accepted (`SampleEnv`).
-/

namespace PxqLlama.Server

/-! ### Batches and rows -/

/-- A token of a batch: its sequence, and its position there. -/
structure BatchToken where
  seqId : Nat
  pos : Int
  deriving DecidableEq, Repr

/-- A token in a batch, with its `logits` flag. -/
abbrev BatchRow := BatchToken × Bool

/-- `llama_get_logits_ith`: the row of the last decoded batch, if its token has one. -/
def llamaGetLogitsIth (last : List BatchRow) (k : Nat) : Option BatchToken :=
  match last[k]? with
  | some (t, true) => some t
  | _ => none

/-! ### Slots -/

/-- What a slot adds to the batch of a tick. -/
inductive SlotWork
  /-- The slot is idle, or held back in this tick. -/
  | none
  /-- The sampled token. -/
  | sampled
  /-- The sampled token, and as many drafts; none when the draft is too small. -/
  | drafted (draft : Nat)
  /-- One token of the prompt and `more` further ones, up to its end or not. -/
  | prompt (more : Nat) (done : Bool)

/-- `server_slot`, as far as the batch and the sampling read it. -/
structure SampleSlot where
  id : Nat
  posNext : Int
  work : SlotWork
  processing : Bool
  embedding : Bool := false
  hasMtp : Bool := false
  iBatch : Int := -1
  iBatchDft : List Nat := []
  drafted : Nat := 0
  nProbs : Nat := 0
  postSamplingProbs : Bool := false
  ckptValid : Bool := false
  perStep : Bool := false

/-- Token `j` of a verification: the sampled token, and then the drafts. -/
def SampleSlot.draftToken (slot : SampleSlot) (j : Nat) : BatchToken :=
  ⟨slot.id, slot.posNext - slot.drafted - 1 + j⟩

/-! ### The batch of a tick -/

/-- `common_batch_add` of consecutive tokens of a slot. -/
def SampleSlot.rows (slot : SampleSlot) (n : Nat) (logits : Nat → Bool) : List BatchRow :=
  (List.range n).map fun (j : Nat) => (⟨slot.id, slot.posNext + j⟩, logits j)

/-- `add_sampled_tokens`, the second pass, for one slot. -/
def addSampled (batch : List BatchRow) (slot : SampleSlot) : List BatchRow × SampleSlot :=
  if ¬ slot.processing then (batch, slot)
  else
    match slot.work with
    | .drafted draft =>
      if 0 < draft then
        (batch ++ slot.rows (draft + 1) fun _ => true,
          { slot with
            iBatchDft := slot.iBatchDft ++ (List.range (draft + 1)).map (batch.length + ·)
            drafted := draft
            posNext := slot.posNext + (draft + 1 : Nat) })
      else
        (batch ++ slot.rows 1 fun _ => true,
          { slot with
            iBatch := batch.length
            iBatchDft := []
            drafted := 0
            posNext := slot.posNext + (1 : Nat) })
    | .sampled =>
      (batch ++ slot.rows 1 fun _ => true,
        { slot with iBatch := batch.length, posNext := slot.posNext + (1 : Nat) })
    | _ => (batch, slot)

/-- `batch_pending_prompt` for one slot. The last token of the prompt has logits. -/
def addPrompt (batch : List BatchRow) (slot : SampleSlot) : List BatchRow × SampleSlot :=
  if slot.processing then (batch, slot)
  else
    match slot.work with
    | .prompt more done =>
      (batch ++ slot.rows (more + 1) fun j =>
          slot.embedding || slot.hasMtp || (done && decide (j = more)),
        { slot with
          processing := done
          iBatch := if done then (batch.length + more : Nat) else slot.iBatch
          posNext := slot.posNext + (more + 1 : Nat) })
    | _ => (batch, slot)

/-- A pass over the slots that adds to the batch. -/
def addEach (add : List BatchRow → SampleSlot → List BatchRow × SampleSlot) :
    List BatchRow → List SampleSlot → List BatchRow × List SampleSlot
  | batch, [] => (batch, [])
  | batch, slot :: slots =>
    let (batch, slot) := add batch slot
    let (batch, slots) := addEach add batch slots
    (batch, slot :: slots)

/-- The batch of a tick, and the slots after it was built. -/
def buildBatch (slots : List SampleSlot) : List BatchRow × List SampleSlot :=
  let (batch, slots) := addEach addSampled [] slots
  addEach addPrompt batch slots

/-! ### Sampling -/

/-- What the decoder and the samplers decide: the results of `llama_decode` in their order, how
many drafts of a slot are accepted, how many of its tokens are emitted before it stops, whether it
stops, and whether its sampler throws. -/
structure SampleEnv where
  ret : Nat → Int
  nAccepted : Nat → Nat
  nEmitted : Nat → Nat
  stops : Nat → Bool
  sampleFails : Nat → Bool

/-- `ids.size()` of a verification. -/
def SampleEnv.ids (env : SampleEnv) (slot : SampleSlot) : Nat :=
  min (env.nAccepted slot.id) slot.drafted + 1

/-- How many of the accepted tokens are emitted, at least one. -/
def SampleEnv.emitted (env : SampleEnv) (slot : SampleSlot) : Nat :=
  min (env.nEmitted slot.id) (env.ids slot - 1) + 1

/-- What is computed from a row: a token that is sampled or accepted, or the probabilities that
are reported for it, with the token that it follows. `verify` is the verification of a draft when
so many tokens of the batch are decoded. -/
inductive SampleEvent
  | token (slot : Nat) (follows : BatchToken) (row : Option BatchToken)
  | probs (slot : Nat) (follows : BatchToken) (row : Option BatchToken)
  | verify (slot : Nat) (draft : List Nat) (decoded : Int)
  deriving DecidableEq

/-- The state of `process_batch_tokens`: `calls` counts the decodes, `last` is the last decoded
batch, and `chunks` are the chunks that were decoded. -/
structure SamplePass where
  calls : Nat := 0
  last : List BatchRow := []
  slots : List SampleSlot
  events : List SampleEvent := []
  chunks : List (Int × Int) := []

/-- The sampling of a plain slot after a chunk. -/
def samplePlain (env : SampleEnv) (last : List BatchRow) (i n : Int) (slot : SampleSlot) :
    SampleSlot × List SampleEvent :=
  if ¬ slot.processing ∨ slot.iBatch < i ∨ i + n ≤ slot.iBatch then (slot, [])
  else if slot.embedding then ({ slot with processing := false, iBatch := -1 }, [])
  else if slot.iBatchDft ≠ [] then (slot, [])
  else if env.sampleFails slot.id then ({ slot with processing := false, iBatch := -1 }, [])
  else
    let tokIdx := (slot.iBatch - i).toNat
    let follows := ⟨slot.id, slot.posNext - 1⟩
    let candidates := llamaGetLogitsIth last tokIdx
    let probsRow := if slot.postSamplingProbs then candidates else llamaGetLogitsIth last tokIdx
    ({ slot with processing := !env.stops slot.id, iBatch := -1 },
      .token slot.id follows candidates ::
        if 0 < slot.nProbs then [.probs slot.id follows probsRow] else [])

/-- The first loop of `speculative_decoding_accept`: the tokens of all slots are sampled. -/
def sampleDrafts (env : SampleEnv) (last : List BatchRow) (decoded : Int) (slot : SampleSlot) :
    List SampleEvent :=
  if ¬ slot.processing ∨ slot.iBatchDft = [] ∨ env.sampleFails slot.id then []
  else
    .verify slot.id slot.iBatchDft decoded ::
      (List.range (env.ids slot)).map fun j =>
        .token slot.id (slot.draftToken j) (llamaGetLogitsIth last (slot.iBatchDft.getD j 0))

/-- Drafts were rejected, and the state is restored by a second decode of the accepted tokens. -/
def SampleSlot.redecodes (slot : SampleSlot) (ids : Nat) : Bool :=
  decide (ids - 1 < slot.drafted) && slot.ckptValid && !slot.perStep

/-- `re_batch` of `restore_speculative_checkpoint`. -/
def SampleSlot.reBatch (slot : SampleSlot) (ids : Nat) : List BatchRow :=
  (List.range ids).map fun j => (slot.draftToken j, slot.hasMtp || decide (j + 1 = ids))

/-- The second loop of `speculative_decoding_accept` for one slot: the state is restored, and the
tokens are emitted. `verified` is the batch from which they were sampled. -/
def acceptSlot (env : SampleEnv) (verified last : List BatchRow) (slot : SampleSlot) :
    List BatchRow × SampleSlot × List SampleEvent :=
  if ¬ slot.processing ∨ slot.iBatchDft = [] then (last, slot, [])
  else if env.sampleFails slot.id then
    (last, { slot with processing := false, iBatch := -1, iBatchDft := [], drafted := 0 }, [])
  else
    let ids := env.ids slot
    let last := if slot.redecodes ids then slot.reBatch ids else last
    let candidates := llamaGetLogitsIth verified (slot.iBatchDft.getD (ids - 1) 0)
    let events :=
      if 0 < slot.nProbs then
        (List.range (env.emitted slot)).map fun j =>
          .probs slot.id (slot.draftToken j)
            (if slot.postSamplingProbs then candidates else llamaGetLogitsIth last j)
      else []
    (last, { slot with
        processing := !env.stops slot.id
        iBatchDft := []
        drafted := 0
        posNext := (slot.draftToken ids).pos }, events)

/-- The second loop of `speculative_decoding_accept`. -/
def acceptLoop (env : SampleEnv) (verified : List BatchRow) :
    List BatchRow → List SampleSlot → List BatchRow × List SampleSlot × List SampleEvent
  | last, [] => (last, [], [])
  | last, slot :: slots =>
    let (last, slot, events) := acceptSlot env verified last slot
    let (last, slots, rest) := acceptLoop env verified last slots
    (last, slot :: slots, events ++ rest)

/-- The work after a chunk was decoded. -/
def sampleChunk (env : SampleEnv) (st : SamplePass) (i n : Int) : SamplePass :=
  let plain := st.slots.map (samplePlain env st.last i n)
  let slots := plain.map Prod.fst
  let drafts := slots.flatMap (sampleDrafts env st.last (i + n))
  let (last, slots, probs) := acceptLoop env st.last st.last slots
  { st with
    last := last
    slots := slots
    events := st.events ++ (plain.flatMap Prod.snd ++ drafts ++ probs)
    chunks := st.chunks ++ [(i, n)] }

/-- The pass over a batch, as the loop sees it. -/
def samplePassEnv (env : SampleEnv) (batch : List BatchRow) : BatchEnv SamplePass where
  decode st i n :=
    let ret := env.ret st.calls
    let st := { st with calls := st.calls + 1 }
    (ret, if ret = 0 then { st with last := (batch.drop i.toNat).take n.toNat } else st)
  defrag st := st
  failed st _ := { st with slots := st.slots.map fun slot => { slot with processing := false } }
  decoded := sampleChunk env

/-- One tick: the batch is built and processed. -/
def sampleTick (env : SampleEnv) (nBatch : Int) (slots : List SampleSlot) : Option SamplePass :=
  let (batch, slots) := buildBatch slots
  (processBatchTokens (samplePassEnv env batch) batch.length nBatch { slots := slots }).map
    Prod.fst

end PxqLlama.Server
