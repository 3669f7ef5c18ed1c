import PxqLlama.Kv.TokenCells
import PxqLlama.Spec.SuffixTree

/-!
# `Spec.MtpCommit`: accepted tokens reach the MTP companion

After a target step the accepted tokens of each sequence are committed to the MTP state: the last
target hidden row is stored, the tokens are decoded on the companion context, and its answer for
the last one is kept as the next draft. `commit` does this for one request, as four nested
functions of the source do. `commitBatched` is the source's own copy of them for several requests
in one decode.

Decodes succeed and the embeddings of their outputs are there. A cell of the companion is what it
was computed from, and the companion answers for the cells of one sequence: in a batch of several
sequences each is decoded as if alone.
-/

namespace PxqLlama.Spec

open PxqLlama.Kv

/-- `common_speculative_type`. -/
inductive SpeculativeType where
  | none
  | draft
  | mtp
  | eagle3
  | ngramSimple
  | ngramMapK
  | ngramMapK4v
  | ngramMod
  | ngramCache
  | suffix
deriving DecidableEq, Repr

/-- A cell of the companion: its position, its token and the hidden row that it is decoded with. -/
structure MtpCell (F : Type) where
  pos : Int
  token : Token
  hidden : List F
deriving DecidableEq, Repr

/-- `mtp_last_embd`: a `last_id` of -1 is no draft. -/
structure MtpLastEmbd (F : Type) where
  embd : List F
  prob : F
  lastId : Int
deriving DecidableEq, Repr

/-- The embedding of the last cell of a sequence, the best token there and its probability. -/
structure MtpAnswer (F : Type) where
  embd : List F
  token : Nat
  prob : F

/-- `common_speculative_state_mtp`, with the cells of the companion for each of its sequences. A
companion of one slot has cells of sequence 0 only. -/
structure MtpState (F : Type) where
  nEmbd : Nat
  constantDraftPositions : Bool
  nSeqMax : Nat
  rows : Int → List (MtpCell F)
  targetHiddenBySeq : Int → Option (List F)
  draftCacheBySeq : Int → Option (MtpLastEmbd F)

/-- `common_speculative_commit_req`. -/
structure CommitReq (F : Type) where
  seqId : Int
  posBase : Int
  sampledBefore : Token
  ids : List Token
  hiddenRows : List F

namespace MtpState

variable {F : Type}

/-! ### Parts -/

/-- `common_speculative_build_commit_tokens`. -/
def buildCommitTokens (type : SpeculativeType) (sampledBefore : Token) (ids : List Token) :
    List Token :=
  if ids = [] then [] else if type = .mtp then ids else sampledBefore :: ids.dropLast

/-- The hidden row of the last of `n` tokens. -/
def lastRow (width n : Nat) (hiddenRows : List F) : List F :=
  (hiddenRows.drop ((n - 1) * width)).take width

/-- The cells of tokens at consecutive positions, each with its row. -/
def newCells (width : Nat) : (p : Int) → (tokens : List Token) → (hiddenRows : List F) →
    List (MtpCell F)
  | _, [], _ => []
  | p, t :: tokens, hiddenRows =>
    { pos := p, token := t, hidden := hiddenRows.take width } ::
      newCells width (p + 1) tokens (hiddenRows.drop width)

/-- `llama_kv_cache_seq_pos_max`. -/
def posMax (row : List (MtpCell F)) : Int := row.foldl (fun m c => max m c.pos) 0

/-- `llama_kv_cache_seq_rm` from a position to the end, if there is a cell from it on. -/
def clean (row : List (MtpCell F)) (start : Int) : List (MtpCell F) :=
  if start ≤ posMax row then
    row.filter fun c => ¬ ((if start < 0 then 0 else start) ≤ c.pos ∧ c.pos < Kv.posMax)
  else row

/-- `mtp_invalidate_cached_draft`. -/
def invalidateCachedDraft [Zero F] (st : MtpState F) (seqId : Int) : MtpState F :=
  { st with
    draftCacheBySeq := Function.update st.draftCacheBySeq seqId
      ((st.draftCacheBySeq seqId).map fun last => { last with lastId := -1, prob := 0 }) }

/-- `mtp_store_target_hidden`. -/
def storeTargetHidden (st : MtpState F) (seqId : Int) (hidden : List F) : MtpState F :=
  { st with targetHiddenBySeq := Function.update st.targetHiddenBySeq seqId (some hidden) }

/-- The answer for the last token is kept as the next draft. -/
def keepAnswer (st : MtpState F) (seqId : Int) (answer : MtpAnswer F) : MtpState F :=
  { st with
    draftCacheBySeq := Function.update st.draftCacheBySeq seqId
      (some { embd := answer.embd, prob := answer.prob, lastId := answer.token }) }

/-- The sequence of the companion: a companion of one slot has sequence 0 only. -/
def kvSeq (st : MtpState F) (seqId : Int) : Int := if st.nSeqMax ≤ 1 then 0 else seqId

/-! ### One request -/

section

variable [Zero F] (answer : List (MtpCell F) → MtpAnswer F)

/-- `mtp_accept_batch`, with `mtp_update_kv_cache`. -/
def acceptBatch (st : MtpState F) (seqId posBase : Int) (tokens : List Token)
    (hiddenRows : List F) : MtpState F :=
  let kvSeq := st.kvSeq seqId
  let row := clean (st.rows kvSeq) posBase ++ newCells st.nEmbd posBase tokens hiddenRows
  keepAnswer { st with rows := Function.update st.rows kvSeq row } seqId (answer row)

/-- `common_speculative_on_target_batch` outside of the warmup. -/
def onTargetBatch (st : MtpState F) (seqId posBase : Int) (tokens : List Token)
    (hiddenRows : List F) : MtpState F :=
  let st := st.storeTargetHidden seqId (lastRow st.nEmbd tokens.length hiddenRows)
  if st.constantDraftPositions then st.invalidateCachedDraft seqId
  else st.acceptBatch answer seqId posBase tokens hiddenRows

/-- `common_speculative_apply_hidden_rows`. -/
def applyHiddenRows (st : MtpState F) (seqId posBase : Int) (ids : List Token)
    (hiddenRows : List F) : Bool × MtpState F :=
  if ids = [] then (true, st)
  else if st.nEmbd = 0 ∨ hiddenRows.length ≠ ids.length * st.nEmbd then (false, st)
  else (true, st.onTargetBatch answer seqId posBase ids hiddenRows)

/-- `common_speculative_commit_accepted_hidden_rows`. -/
def commit (type : SpeculativeType) (st : MtpState F) (r : CommitReq F) : Bool × MtpState F :=
  if r.ids = [] then (true, st)
  else st.applyHiddenRows answer r.seqId r.posBase (buildCommitTokens type r.sampledBefore r.ids)
    r.hiddenRows

/-- The requests one after another, with the sequences of those that fail. -/
def commitSerial (type : SpeculativeType) (st : MtpState F) (reqs : List (CommitReq F)) :
    List Int × MtpState F :=
  reqs.foldl (fun acc r =>
    let (ok, st) := commit answer type acc.2 r
    (if ok then acc.1 else acc.1 ++ [r.seqId], st)) ([], st)

end

/-! ### All requests in one decode -/

section

variable (answer : List (MtpCell F) → MtpAnswer F)

/-- The request passes the checks of the batched commit. -/
def prepares (st : MtpState F) (type : SpeculativeType) (r : CommitReq F) : Bool :=
  decide (r.ids ≠ [] ∧ r.hiddenRows.length =
    (buildCommitTokens type r.sampledBefore r.ids).length * st.nEmbd)

/-- `common_speculative_commit_accepted_hidden_rows_batched`. -/
def commitBatched (type : SpeculativeType) (st : MtpState F) (reqs : List (CommitReq F)) :
    List Int × MtpState F :=
  if st.nEmbd = 0 then (reqs.map CommitReq.seqId, st)
  else
    let prepared := reqs.filter (st.prepares type)
    let failed := (reqs.filter fun r => decide (r.ids ≠ []) && !st.prepares type r).map
      CommitReq.seqId
    let tokens := fun r : CommitReq F => buildCommitTokens type r.sampledBefore r.ids
    let cleaned := prepared.foldl (fun (rows : Int → List (MtpCell F)) r =>
      Function.update rows r.seqId (clean (rows r.seqId) r.posBase)) st.rows
    let decoded := prepared.foldl (fun (rows : Int → List (MtpCell F)) r =>
      Function.update rows r.seqId
        (rows r.seqId ++ newCells st.nEmbd r.posBase (tokens r) r.hiddenRows)) cleaned
    (failed, prepared.foldl
      (fun (st : MtpState F) r => st.keepAnswer r.seqId (answer (decoded r.seqId)))
      { st with rows := decoded })

end

end MtpState

end PxqLlama.Spec
