import Mathlib.Data.Fintype.Basic
import PxqLlama.Lib.WorkQueue
import PxqLlama.Spec.MtpCommit

/-!
# `Spec.MtpPrefetch`: commits on a worker thread

With prefetching on, the commits of `MtpCommit` are jobs of one worker thread, which runs them in
the order of their submission, while the main thread goes on. The future of a job is kept for each
of its sequences. An entry point waits for the future of its sequence, for all futures or for none,
and then works on the state that it shares with the worker.

`serial` says what each call does when it is made with prefetching off. With it on, calls and jobs
are split into their accesses to the shared state, so that a job can be half done when the main
thread makes its next access.
-/

namespace PxqLlama.Spec

open PxqLlama.Kv

/-! ### Drafting -/

/-- The arguments of a draft that reaches the MTP implementation. -/
structure MtpDraftArgs (F : Type) where
  nMax : Nat
  pMin : F
  idLast : Token
  draftBasePos : Int
  promptSize : Nat

/-- The target batch is a prompt batch or one of accepted tokens. A prompt batch may be decoded
with its hidden rows shifted by one. -/
inductive MtpBatchKind where
  | accepted
  | warmup (shifted : Bool)
deriving DecidableEq, Repr

namespace MtpState

variable {F : Type} [Zero F]

/-- `mtp_invalidate_cached_drafts`. -/
def invalidateCachedDrafts (st : MtpState F) : MtpState F :=
  { st with
    draftCacheBySeq := fun s =>
      (st.draftCacheBySeq s).map fun last => { last with lastId := -1, prob := 0 } }

/-- `mtp_clear_target_hidden`. -/
def clearTargetHidden (st : MtpState F) (seqId : Int) : MtpState F :=
  { st with
    targetHiddenBySeq := Function.update st.targetHiddenBySeq seqId none
    draftCacheBySeq := Function.update st.draftCacheBySeq seqId none }

/-- `common_speculative_has_sequence_hidden`. -/
def hasSequenceHidden (st : MtpState F) (seqId : Int) : Bool :=
  match st.targetHiddenBySeq seqId with
  | none => false
  | some hidden => !hidden.isEmpty

/-- `common_speculative_ensure_sequence_hidden`, with the hidden row of the last output, if there
is one. -/
def ensureSequenceHidden (st : MtpState F) (seqId : Int) (hidden : Option (List F)) :
    MtpState F :=
  if st.hasSequenceHidden seqId then st
  else match hidden with
    | none => st
    | some hidden => (st.storeTargetHidden seqId hidden).invalidateCachedDraft seqId

/-- The part of `mtp_update_kv_cache` before its decode. -/
def cleanRow (st : MtpState F) (kvSeq start : Int) : MtpState F :=
  { st with rows := Function.update st.rows kvSeq (clean (st.rows kvSeq) start) }

/-- The decode of tokens at consecutive positions. -/
def decode (st : MtpState F) (kvSeq posBase : Int) (tokens : List Token) (hiddenRows : List F) :
    MtpState F :=
  { st with
    rows := Function.update st.rows kvSeq
      (st.rows kvSeq ++ newCells st.nEmbd posBase tokens hiddenRows) }

/-- The rows of a prompt batch, each with the one before it. The row before the first is what is
stored for the sequence, which is the last row of the batch by then. -/
def conditionedRows (st : MtpState F) (seqId : Int) (tokens : List Token) (hiddenRows : List F) :
    List F :=
  let previous := match st.targetHiddenBySeq seqId with
    | none => List.replicate st.nEmbd 0
    | some hidden => if hidden.length = st.nEmbd then hidden else List.replicate st.nEmbd 0
  previous ++ hiddenRows.take ((tokens.length - 1) * st.nEmbd)

/-- `llama_kv_cache_seq_rm` of all positions of a sequence. -/
def dropRow (st : MtpState F) (kvSeq : Int) : MtpState F :=
  { st with rows := Function.update st.rows kvSeq [] }

/-- `llama_kv_cache_seq_rm` from `p0` up to `p1`. -/
def seqRm (row : List (MtpCell F)) (p0 p1 : Int) : List (MtpCell F) :=
  row.filter fun c =>
    ¬ ((if p0 < 0 then 0 else p0) ≤ c.pos ∧ c.pos < (if p1 < 0 then Kv.posMax else p1))

section

variable [LT F] [DecidableLT F] (draftAnswer : List (MtpCell F) → MtpAnswer F)

/-- The draft in progress: the cells of the sequence, the next token to decode with its position
and hidden row, the draft so far and the number of decodes. -/
structure DraftLoop (F : Type) where
  row : List (MtpCell F)
  input : Token
  pos : Int
  embd : List F
  drafts : List Token
  nDecode : Nat

/-- The loop of `mtp_speculative_gen_draft` from its round `i`, for `n` more rounds. -/
def draftLoop (constantPos : Option Int) (pMin : F) : (n i : Nat) → DraftLoop F → DraftLoop F
  | 0, _, l => l
  | n + 1, i, l =>
    let cell : MtpCell F :=
      { pos := constantPos.getD l.pos, token := l.input, hidden := l.embd }
    let row := l.row ++ [cell]
    let a := draftAnswer row
    let l := { l with row := row, nDecode := l.nDecode + 1 }
    let unsure : Bool := decide (0 < pMin ∧ a.prob < pMin)
    if 0 < i ∧ unsure then l
    else
      let l := { l with
        drafts := l.drafts ++ [(a.token : Token)], embd := a.embd, input := a.token,
        pos := l.pos + 1 }
      if unsure then l else draftLoop constantPos pMin n (i + 1) l

/-- `mtp_speculative_gen_draft`, for the target hidden row of the sequence. -/
def genDraft (st : MtpState F) (seqId nPast : Int) (args : MtpDraftArgs F) (hidden : List F) :
    List Token × MtpState F :=
  if args.nMax = 0 then ([], st.invalidateCachedDraft seqId)
  else
    let last := (st.draftCacheBySeq seqId).getD
      { embd := List.replicate st.nEmbd 0, prob := 0, lastId := -1 }
    let kept : Bool := decide (0 ≤ last.lastId)
    let nDraft : Nat := if kept && decide (last.prob < args.pMin) then 1 else args.nMax
    let i0 : Nat := if kept then 1 else 0
    let start : DraftLoop F :=
      { row := st.rows (st.kvSeq seqId)
        input := if kept then last.lastId else args.idLast
        pos := nPast + i0
        embd := if kept then last.embd else hidden
        drafts := if kept then [last.lastId] else []
        nDecode := 0 }
    let l := draftLoop draftAnswer (if st.constantDraftPositions then some nPast else none)
      args.pMin (nDraft - i0) i0 start
    let row := if 0 < l.nDecode then seqRm l.row (nPast + 1 - i0) (nPast + l.nDecode + 2) else l.row
    -- The embedding that is kept is the one of the last decode, if there was one.
    let embd := if l.drafts.length = start.drafts.length then last.embd else l.embd
    (l.drafts, { st with
      rows := Function.update st.rows (st.kvSeq seqId) row
      draftCacheBySeq := Function.update st.draftCacheBySeq seqId
        (some { last with embd := embd, lastId := if kept then -1 else last.lastId }) })

/-- `common_speculative_state_mtp::draft`. -/
def draft (st : MtpState F) (seqId : Int) (args : MtpDraftArgs F) : List Token × MtpState F :=
  let mtpPosMax := posMax (st.rows (st.kvSeq seqId))
  let nPast := if 0 ≤ args.draftBasePos then args.draftBasePos
    else if 0 ≤ mtpPosMax then mtpPosMax + 1 else args.promptSize
  match st.targetHiddenBySeq seqId with
  | none => ([], st)
  | some hidden =>
    if hidden.length ≠ st.nEmbd then ([], st)
    else st.genDraft draftAnswer seqId nPast args hidden

end

/-- `common_speculative_on_target_batch` of a batch of one sequence. -/
def onTargetSeqBatch (answer : List (MtpCell F) → MtpAnswer F) (st : MtpState F)
    (seqId posBase : Int) (tokens : List Token) (hiddenRows : List F) :
    MtpBatchKind → MtpState F
  | .accepted => st.onTargetBatch answer seqId posBase tokens hiddenRows
  | .warmup shifted =>
    let st := st.storeTargetHidden seqId (lastRow st.nEmbd tokens.length hiddenRows)
    if st.constantDraftPositions then st.invalidateCachedDraft seqId
    else
      let rows := if shifted then st.conditionedRows seqId tokens hiddenRows else hiddenRows
      (((st.cleanRow (st.kvSeq seqId) posBase).decode (st.kvSeq seqId) posBase tokens
        rows)).invalidateCachedDraft seqId

/-- `common_speculative_context_shift`. -/
def contextShift (st : MtpState F) (seqId : Int) : MtpState F :=
  (st.dropRow (st.kvSeq seqId)).invalidateCachedDraft seqId

end MtpState

/-! ### The calls of the main thread -/

/-- The entry points, as far as they get to the MTP state: a draft may be made by another
implementation, and `accept` is of such a draft or of one of MTP. -/
inductive MtpCall (F : Type) where
  | draft (seqId : Int) (args : Option (MtpDraftArgs F))
  | beginSeq (seqId : Int)
  | accept (byMtp : Bool)
  | ensureSequenceHidden (seqId : Int) (hidden : Option (List F))
  | clearSequenceHidden (seqId : Int)
  | onTargetSeqBatch (seqId posBase : Int) (tokens : List Token) (hiddenRows : List F)
      (kind : MtpBatchKind)
  | contextShift (seqId : Int)
  | commitAsync (type : SpeculativeType) (req : CommitReq F)
  | commitBatchedAsync (type : SpeculativeType) (reqs : List (CommitReq F))

/-- The models of the companion: the answer after accepted tokens, and the one in a draft. -/
structure MtpModel (F : Type) where
  answer : List (MtpCell F) → MtpAnswer F
  draftAnswer : List (MtpCell F) → MtpAnswer F

namespace MtpCall

variable {F : Type} [Zero F] [LT F] [DecidableLT F]

/-- The call with prefetching off. A failed MTP commit clears its sequences. -/
def serial (model : MtpModel F) (st : MtpState F) : MtpCall F → MtpState F
  | draft seqId args => args.elim st fun args => (st.draft model.draftAnswer seqId args).2
  | beginSeq seqId => st.clearTargetHidden seqId
  | accept byMtp => if byMtp then st else st.invalidateCachedDrafts
  | ensureSequenceHidden seqId hidden => st.ensureSequenceHidden seqId hidden
  | clearSequenceHidden seqId => st.clearTargetHidden seqId
  | onTargetSeqBatch seqId posBase tokens hiddenRows kind =>
    st.onTargetSeqBatch model.answer seqId posBase tokens hiddenRows kind
  | contextShift seqId => st.contextShift seqId
  | commitAsync type req =>
    let (ok, st) := MtpState.commit model.answer type st req
    if ok || type ≠ .mtp then st else st.clearTargetHidden req.seqId
  | commitBatchedAsync type reqs =>
    let (failed, st) := MtpState.commitBatched model.answer type st reqs
    failed.foldl MtpState.clearTargetHidden st

end MtpCall

/-! ### Accesses -/

/-- What the main thread and the worker share. -/
inductive MtpObject where
  | companion
  | targetHidden
  | draftCache
deriving DecidableEq, Repr

instance : Fintype MtpObject where
  elems := {.companion, .targetHidden, .draftCache}
  complete o := by cases o <;> decide

/-- One access to the shared state. -/
inductive MtpAccess (F : Type) where
  | storeTargetHidden (seqId : Int) (hidden : List F)
  | ensureSequenceHidden (seqId : Int) (hidden : Option (List F))
  | clearTargetHidden (seqId : Int)
  | invalidateCachedDraft (seqId : Int)
  | invalidateCachedDrafts
  | cleanRow (kvSeq start : Int)
  | dropRow (kvSeq : Int)
  | decode (kvSeq posBase : Int) (tokens : List Token) (hiddenRows : List F)
  | decodeShifted (seqId kvSeq posBase : Int) (tokens : List Token) (hiddenRows : List F)
  | keepAnswer (seqId kvSeq : Int)
  | draft (seqId : Int) (args : MtpDraftArgs F)

namespace MtpAccess

variable {F : Type}

/-- The objects that the access reads or writes. -/
def touches : MtpAccess F → MtpObject → Bool
  | storeTargetHidden .., o => o = .targetHidden
  | ensureSequenceHidden .., o => o = .targetHidden || o = .draftCache
  | clearTargetHidden .., o => o = .targetHidden || o = .draftCache
  | invalidateCachedDraft .., o => o = .draftCache
  | invalidateCachedDrafts, o => o = .draftCache
  | cleanRow .., o => o = .companion
  | dropRow .., o => o = .companion
  | decode .., o => o = .companion
  | decodeShifted .., o => o = .companion || o = .targetHidden
  | keepAnswer .., o => o = .companion || o = .draftCache
  | draft .., _ => true

variable [Zero F] [LT F] [DecidableLT F]

def run (model : MtpModel F) : MtpAccess F → MtpState F → MtpState F
  | storeTargetHidden seqId hidden, st => st.storeTargetHidden seqId hidden
  | ensureSequenceHidden seqId hidden, st => st.ensureSequenceHidden seqId hidden
  | clearTargetHidden seqId, st => st.clearTargetHidden seqId
  | invalidateCachedDraft seqId, st => st.invalidateCachedDraft seqId
  | invalidateCachedDrafts, st => st.invalidateCachedDrafts
  | cleanRow kvSeq start, st => st.cleanRow kvSeq start
  | dropRow kvSeq, st => st.dropRow kvSeq
  | decode kvSeq posBase tokens hiddenRows, st => st.decode kvSeq posBase tokens hiddenRows
  | decodeShifted seqId kvSeq posBase tokens hiddenRows, st =>
    st.decode kvSeq posBase tokens (st.conditionedRows seqId tokens hiddenRows)
  | keepAnswer seqId kvSeq, st => st.keepAnswer seqId (model.answer (st.rows kvSeq))
  | draft seqId args, st => (st.draft model.draftAnswer seqId args).2

end MtpAccess

namespace MtpCall

variable {F : Type}

/-- The accesses of `common_speculative_on_target_batch`. -/
def targetBatchAccesses (st : MtpState F) (seqId posBase : Int) (tokens : List Token)
    (hiddenRows : List F) (kind : MtpBatchKind) : List (MtpAccess F) :=
  .storeTargetHidden seqId (MtpState.lastRow st.nEmbd tokens.length hiddenRows) ::
    if st.constantDraftPositions then [.invalidateCachedDraft seqId]
    else .cleanRow (st.kvSeq seqId) posBase ::
      match kind with
      | .accepted => [.decode (st.kvSeq seqId) posBase tokens hiddenRows,
          .keepAnswer seqId (st.kvSeq seqId)]
      | .warmup true => [.decodeShifted seqId (st.kvSeq seqId) posBase tokens hiddenRows,
          .invalidateCachedDraft seqId]
      | .warmup false => [.decode (st.kvSeq seqId) posBase tokens hiddenRows,
          .invalidateCachedDraft seqId]

/-- The accesses of `common_speculative_commit_accepted_hidden_rows`; a failed MTP commit clears
its sequence. -/
def commitAccesses (st : MtpState F) (type : SpeculativeType) (req : CommitReq F) :
    List (MtpAccess F) :=
  if req.ids = [] then []
  else
    let tokens := MtpState.buildCommitTokens type req.sampledBefore req.ids
    if st.nEmbd = 0 ∨ req.hiddenRows.length ≠ tokens.length * st.nEmbd then
      if type = .mtp then [.clearTargetHidden req.seqId] else []
    else targetBatchAccesses st req.seqId req.posBase tokens req.hiddenRows .accepted

/-- The accesses of `common_speculative_commit_accepted_hidden_rows_batched`, with the clearing of
the failed sequences. -/
def commitBatchedAccesses (st : MtpState F) (type : SpeculativeType) (reqs : List (CommitReq F)) :
    List (MtpAccess F) :=
  if st.nEmbd = 0 then reqs.map fun r => .clearTargetHidden r.seqId
  else
    let prepared := reqs.filter (st.prepares type)
    let failed := reqs.filter fun r => decide (r.ids ≠ []) && !st.prepares type r
    prepared.map (fun r => .cleanRow r.seqId r.posBase) ++
      prepared.map (fun r => .decode r.seqId r.posBase
        (MtpState.buildCommitTokens type r.sampledBefore r.ids) r.hiddenRows) ++
      prepared.map (fun r => .keepAnswer r.seqId r.seqId) ++
      failed.map fun r => .clearTargetHidden r.seqId

/-- The accesses of a call, in order. -/
def accesses (st : MtpState F) : MtpCall F → List (MtpAccess F)
  | draft seqId args => args.elim [] fun args => [.draft seqId args]
  | beginSeq seqId => [.clearTargetHidden seqId]
  | accept byMtp => if byMtp then [] else [.invalidateCachedDrafts]
  | ensureSequenceHidden seqId hidden => [.ensureSequenceHidden seqId hidden]
  | clearSequenceHidden seqId => [.clearTargetHidden seqId]
  | onTargetSeqBatch seqId posBase tokens hiddenRows kind =>
    targetBatchAccesses st seqId posBase tokens hiddenRows kind
  | contextShift seqId => [.dropRow (st.kvSeq seqId), .invalidateCachedDraft seqId]
  | commitAsync type req => commitAccesses st type req
  | commitBatchedAsync type reqs => commitBatchedAccesses st type reqs

/-- The sequences of the job that the call submits, if it submits one: commits of other
implementations are made at once. -/
def jobSeqs : MtpCall F → Option (List Int)
  | commitAsync type req => if type = .mtp then some [req.seqId] else none
  | commitBatchedAsync _ reqs => some (reqs.map CommitReq.seqId)
  | _ => none

end MtpCall

/-! ### The worker -/

/-- What an entry point waits for. -/
inductive MtpWait where
  | none
  | seq (seqId : Int)
  | all
deriving DecidableEq, Repr

/-- The call of `pxa_mtp_prefetch_wait_seq` or `pxa_mtp_prefetch_wait_all` in an entry point. -/
def MtpCall.wait {F : Type} (st : MtpState F) : MtpCall F → MtpWait
  | .draft seqId _ => .seq seqId
  | .beginSeq _ => .none
  | .accept _ => .none
  | .ensureSequenceHidden seqId _ => .seq seqId
  | .clearSequenceHidden seqId => .seq seqId
  | .onTargetSeqBatch .. => .all
  | .contextShift seqId => .seq seqId
  | .commitAsync type req => if st.nEmbd ≠ 0 ∧ st.prepares type req then .all else .none
  | .commitBatchedAsync .. => .none

/-- A job that is not finished, with the accesses that it has left. -/
structure PrefetchJob (F : Type) where
  accesses : List (MtpAccess F)
  rest : List (MtpAccess F)

/-- Both threads: what the call of the main thread has left, the queue with the running job at its
front, the number of jobs finished, and `jobs`, the future of each sequence as the number of its
job. -/
structure Prefetch (F : Type) where
  shared : MtpState F
  main : List (MtpAccess F) := []
  queue : List (PrefetchJob F) := []
  finished : Nat := 0
  jobs : List (Int × Nat) := []

/-- The main thread makes a call or goes on with one, or the worker goes on. -/
inductive PrefetchEvent (F : Type) where
  | call (c : MtpCall F)
  | main
  | worker

namespace Prefetch

variable {F : Type}

/-- `submit_for_seqs`. -/
def submitForSeqs (p : Prefetch F) (seqs : List Int) (accesses : List (MtpAccess F)) :
    Prefetch F :=
  let number := p.finished + p.queue.length
  { p with
    queue := p.queue ++ [{ accesses := accesses, rest := accesses }]
    jobs := seqs.foldl (fun jobs s => (s, number) :: jobs.filter fun e => e.1 ≠ s) p.jobs }

/-- The jobs that the call waits for. -/
def waitedFor (p : Prefetch F) : MtpWait → List Nat
  | .none => []
  | .seq seqId => (p.jobs.filter fun e => e.1 = seqId).map Prod.snd
  | .all => p.jobs.map Prod.snd

/-- The futures that are left after the wait. -/
def jobsAfter (p : Prefetch F) : MtpWait → List (Int × Nat)
  | .none => p.jobs
  | .seq seqId => p.jobs.filter fun e => e.1 ≠ seqId
  | .all => []

variable [Zero F] [LT F] [DecidableLT F]

/-- The job has an object in common with the accesses. -/
def Conflicts (accesses : List (MtpAccess F)) (job : PrefetchJob F) : Prop :=
  ∃ a ∈ accesses, ∃ b ∈ job.accesses, ∃ o : MtpObject, a.touches o = true ∧ b.touches o = true

instance (accesses : List (MtpAccess F)) (job : PrefetchJob F) :
    Decidable (Conflicts accesses job) :=
  inferInstanceAs (Decidable (∃ a ∈ accesses, ∃ b ∈ job.accesses, ∃ o : MtpObject,
    a.touches o = true ∧ b.touches o = true))

/-- An event, unless the thread has nothing to do or its wait is not over. -/
def step (model : MtpModel F) (p : Prefetch F) : PrefetchEvent F → Option (Prefetch F)
  | .call c =>
    match p.main, c.jobSeqs with
    | _ :: _, _ => none
    | [], some seqs => some (p.submitForSeqs seqs (c.accesses p.shared))
    | [], none =>
      if ∀ n ∈ p.waitedFor (c.wait p.shared), n < p.finished then
        some { p with main := c.accesses p.shared, jobs := p.jobsAfter (c.wait p.shared) }
      else none
  | .main =>
    match p.main with
    | [] => none
    | a :: as => some { p with shared := a.run model p.shared, main := as }
  | .worker =>
    match p.queue with
    | [] => none
    | { accesses := _, rest := [] } :: queue =>
      some { p with queue := queue, finished := p.finished + 1 }
    | { accesses, rest := a :: as } :: queue =>
      some { p with
        shared := a.run model p.shared, queue := { accesses, rest := as } :: queue }

end Prefetch

end PxqLlama.Spec
