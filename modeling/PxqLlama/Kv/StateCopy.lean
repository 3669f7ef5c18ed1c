import PxqLlama.Kv.Context

/-!
# `Kv.StateCopy`: the recurrent states of a hybrid model

A hybrid model keeps one row of recurrent state for each sequence. The field `src` of cell
`s` says which row the row `s` takes over when an update next runs the state copy
(`llama_set_s_copy`). `llama_kv_cache_seq_cp` sets it, the other edits reset it for the cells
that they free, and the state copy resets it everywhere.

`HybridState` keeps the copies that were asked for since the last state copy next to the
context, and `Asked` is what they amount to.
-/

namespace PxqLlama.Kv

/-- `llama_set_s_copy`: `data[i]`, the row that row `i` takes over. -/
def llamaSetSCopy (c : KvCache) (i : Nat) : Int := (c.cells i).src

/-- An update in this context runs the state copy. -/
def copyRuns (ctx : KvContext) : Bool :=
  (updateShift ctx).isSome && (ctx.kvSelf.recurrent || ctx.kvSelf.hasQnextState) &&
    ctx.kvSelf.doCopy

/-- A context with the copies of states asked for since the last state copy, the newest one
first. A copy is a pair of source and destination. -/
structure HybridState where
  ctx : KvContext
  reqs : List (Int × Int)

/-- The requests ask for row `r` in the place of row `s`, directly or through a chain. -/
def Asked : List (Int × Int) → Int → Int → Prop
  | [], r, s => r = s
  | req :: reqs, r, s => Asked reqs r s ∨ (req.2 = s ∧ Asked reqs r req.1)

instance decidableAsked : (reqs : List (Int × Int)) → (r s : Int) → Decidable (Asked reqs r s)
  | [], r, s => inferInstanceAs (Decidable (r = s))
  | req :: reqs, r, s =>
    have := decidableAsked reqs r s
    have := decidableAsked reqs r req.1
    inferInstanceAs (Decidable (Asked reqs r s ∨ (req.2 = s ∧ Asked reqs r req.1)))

/-- A copy of a sequence is also one of its state when both have a row. -/
def copiesState (c : KvCache) (src dst : Int) : Bool :=
  decide (src ≠ dst) && c.qnextSeqIdInRange dst && c.qnextSeqIdInRange src && c.seqIdFits dst &&
    c.seqIdFits src

/-- The requests that are pending after a call. -/
def requestsAfter (st : HybridState) : KvOp → List (Int × Int)
  | .seqCp src dst _ _ =>
    if copiesState st.ctx.kvSelf src dst then (src, dst) :: st.reqs else st.reqs
  | .decode _ => if copyRuns st.ctx then [] else st.reqs
  | .update => if copyRuns st.ctx then [] else st.reqs
  | _ => st.reqs

/-- One call on a hybrid cache: an allocation by itself, or a call on the context. -/
inductive HybridOp
  | findSlot (b : UBatch)
  | call (op : KvOp)

/-- The state after a call; `none` when the program aborts. -/
def hybridStep (st : HybridState) : HybridOp → Option HybridState
  | .findSlot b =>
    some { st with ctx := { st.ctx with kvSelf := (llamaKvCacheFindSlot st.ctx.kvSelf b).2 } }
  | .call op => (kvStep st.ctx op).map fun ctx => { ctx := ctx, reqs := requestsAfter st op }

/-- The state after a run of calls. -/
def hybridRun (st : HybridState) : List HybridOp → Option HybridState
  | [] => some st
  | op :: ops => (hybridStep st op).bind fun st => hybridRun st ops

/-- A fresh context of a hybrid model, with a row of state for some of the cells. It has no
sliding cache: `llama_init_from_model` gives none to a hybrid model. -/
structure HybridFresh (st : HybridState) : Prop where
  swa : st.ctx.swaKvActive = false
  cache : ∃ slots size, 0 < slots ∧ slots ≤ size ∧
    st.ctx.kvSelf = llamaKvCacheInit false true slots size
  reqs : st.reqs = []

/-- The states move on request. When an update runs the state copy, each row takes over a row
that was asked for; and with no request pending every cell is its own source. -/
structure MovesOnRequest (st : HybridState) : Prop where
  rows : copyRuns st.ctx = true → ∀ s < st.ctx.kvSelf.qnextSlots,
    0 ≤ llamaSetSCopy st.ctx.kvSelf s ∧
      llamaSetSCopy st.ctx.kvSelf s < st.ctx.kvSelf.qnextSlots ∧
      Asked st.reqs (llamaSetSCopy st.ctx.kvSelf s) s
  idle : st.reqs = [] → ∀ i < st.ctx.kvSelf.size, (st.ctx.kvSelf.cells i).src = i

/-- An update in this context moves no cell: no defragmentation is due, or there is no hole
below `used`. -/
def NothingMoves (ctx : KvContext) : Prop :=
  (updateShift ctx).isSome → ctx.kvSelf.doDefrag = true →
    ∀ i < ctx.kvSelf.used, (ctx.kvSelf.cells i).isEmpty = false

/-- A call moves no cell. -/
def HybridOp.MovesNothing (st : HybridState) : HybridOp → Prop
  | .call (.decode _) => NothingMoves st.ctx
  | .call .update => NothingMoves st.ctx
  | _ => True

/-- No call of the run moves a cell. -/
def NothingMovesIn (st : HybridState) : List HybridOp → Prop
  | [] => True
  | op :: ops => op.MovesNothing st ∧ ∀ st', hybridStep st op = some st' → NothingMovesIn st' ops

end PxqLlama.Kv
