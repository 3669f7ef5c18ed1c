import PxqLlama.Kv.Context

/-!
# `Kv.KeyRows`: the positions that the keys are rotated to

A row of the keys is rotated to the position that its token had when the row was written. The
edits move the position of a cell and leave the row behind: they add what is missing to `delta`,
and the K-shift of the next update rotates each row by the `delta` of its cell
(`build_k_shift`, `llama_set_k_shift`).

`RowsState` keeps these positions next to the context. The steps on the context are those of
`kvStep` (`rowsStep_ctx`). A defragmentation moves rows as well; `Kv.DefragGraph` is
about that, and the runs here have none.
-/

namespace PxqLlama.Kv

/-- The position that each row is rotated to, in the layers of `kv_self` and in those of the
sliding cache. -/
structure KeyRows where
  self : Nat → Int
  swa : Nat → Int

structure RowsState where
  ctx : KvContext
  rows : KeyRows

/-- An update in this context computes the graph of the K-shift. -/
def shiftRuns (ctx : KvContext) : Bool :=
  ctx.rope && (ctx.kvSelf.hasShift || (ctx.swaKvActive && ctx.kvSwa.hasShift)) && ctx.canShift

/-- The K-shift rotates each row of a cache by the `delta` of its cell. -/
def shiftRows (c : KvCache) (rows : Nat → Int) (i : Nat) : Int :=
  if i < c.size then rows i + (c.cells i).delta else rows i

/-- A decode writes the rows of its tokens at their own positions. -/
def writeRows (rows : Nat → Int) (head : Nat) (b : UBatch) (i : Nat) : Int :=
  if head ≤ i then
    match b[i - head]? with
    | some t => t.pos
    | none => rows i
  else rows i

/-- The rows after an update. -/
def updateRows (st : RowsState) : KeyRows :=
  if shiftRuns st.ctx then
    { self := shiftRows st.ctx.kvSelf st.rows.self
      swa := if st.ctx.swaKvActive then shiftRows st.ctx.kvSwa st.rows.swa else st.rows.swa }
  else st.rows

/-- `llama_kv_cache_update`. -/
def rowsUpdate (st : RowsState) : Option (Nat × RowsState) :=
  (llamaKvCacheUpdate st.ctx).map fun (ret, ctx) => (ret, { ctx := ctx, rows := updateRows st })

/-- The rows after the graph of an ubatch was computed. -/
def decodeRows (rows : KeyRows) (ctx : KvContext) (b : UBatch) : KeyRows where
  self := writeRows rows.self ctx.kvSelf.head b
  swa := if ctx.swaKvActive then writeRows rows.swa ctx.kvSwa.head b else rows.swa

/-- The placement of an ubatch and its graph. -/
def rowsPlace (st : RowsState) (b : UBatch) : RowsState :=
  let (ret, ctx) := placeUbatch st.ctx b
  if ret ≠ 0 then { st with ctx := ctx }
  else
    { ctx := { ctx with kvSelf := advanceHead ctx.kvSelf b.length }
      rows := decodeRows st.rows ctx b }

/-- One ubatch of `llama_decode_internal`. -/
def rowsDecode (st : RowsState) (b : UBatch) : Option RowsState :=
  (rowsUpdate st).map fun (ret, st) => if ret ≠ 0 then st else rowsPlace st b

/-- The state after a call; `none` when the program aborts. -/
def rowsStep (st : RowsState) : KvOp → Option RowsState
  | .decode b => rowsDecode st b
  | .update => (rowsUpdate st).map Prod.snd
  | op => (kvStep st.ctx op).map fun ctx => { st with ctx := ctx }

/-- The state after a run of calls. -/
def rowsRun (st : RowsState) : List KvOp → Option RowsState
  | [] => some st
  | op :: ops => (rowsStep st op).bind fun st => rowsRun st ops

/-- The call requests no defragmentation, and divides by one or more. -/
def KvOp.MovesNoRow : KvOp → Prop
  | .defrag => False
  | .seqDiv _ _ _ d => 1 ≤ d
  | _ => True

/-- A fresh context of a model with attention only, whose keys are rotated and can be shifted. -/
structure RowsFresh (ctx : KvContext) : Prop where
  self : ∃ size, ctx.kvSelf = llamaKvCacheInit false false 0 size
  swa : ∃ size, ctx.kvSwa = llamaKvCacheInit false false 0 size
  rope : ctx.rope = true
  canShift : ctx.canShift = true

/-- The rows change next to the context, and not its steps. -/
theorem rowsStep_ctx (st : RowsState) (op : KvOp) :
    (rowsStep st op).map RowsState.ctx = kvStep st.ctx op := by
  have hid : ∀ x : Option KvContext,
      (x.map fun ctx => { st with ctx := ctx }).map RowsState.ctx = x := by
    intro x
    cases x <;> rfl
  cases op with
  | decode b =>
    simp only [rowsStep, rowsDecode, rowsUpdate, kvStep, decodeUbatch, decodeInputs]
    cases llamaKvCacheUpdate st.ctx with
    | none => rfl
    | some r =>
      obtain ⟨ret, ctx⟩ := r
      simp only [Option.map_some]
      by_cases hret : ret = 0
      · simp only [hret, ne_eq, not_true_eq_false, if_false, rowsPlace, Option.map_some]
        by_cases hplace : (placeUbatch ctx b).1 = 0
        · rw [if_neg (not_not_intro hplace), if_pos hplace]
        · rw [if_pos hplace, if_neg hplace]
      · simp [hret]
  | update =>
    simp only [rowsStep, rowsUpdate, kvStep, Option.map_map]
    rfl
  | seqCp src dst p0 p1 => exact hid _
  | _ => rfl

end PxqLlama.Kv
