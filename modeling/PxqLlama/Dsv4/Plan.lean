import Mathlib.Data.List.Sort
import PxqLlama.Ggml.Pad

/-!
# `Dsv4.Plan`: a batch and its compression plan

How the DSV4 memory reads a `llama_batch`, and which blocks a batch completes.
-/

/-!
## How the DSV4 memory reads a `llama_batch`

Every read of a position or a sequence id goes through one of three accessors
(`src/llama-kv-cache-dsv4.cpp`), because the arrays of a batch may be null. A position is
an `Int`: the source tests `pos < 0` before it uses one as a row.

`Consecutive` is a run of batches whose tokens have the positions `p, p + 1, …`, and
`SingleSeq` a batch whose tokens all belong to one sequence. Both are what the decode loop
of a single context (`n_seq_max == 1`) hands over.
-/

namespace PxqLlama.Dsv4

/-- The fields of `llama_batch` that the DSV4 memory reads. A null pointer is `none`. Every
token has a sequence id: the source reads `seq_id[i][0]` without a test. -/
structure LlamaBatch where
  nTokens : Nat
  pos : Option (Nat → Int)
  nSeqId : Option (Nat → Nat)
  seqId : Option (Nat → Option (Nat → Int))
  allPos0 : Int
  allPos1 : Int
  allSeqId : Int
  nSeqId_pos : ∀ f, nSeqId = some f → ∀ i < nTokens, 0 < f i

/-- `dsv4_batch_seq`. -/
def dsv4BatchSeq (b : LlamaBatch) (i s : Nat) : Int :=
  match b.seqId with
  | some f => match f i with
    | some g => g s
    | none => b.allSeqId
  | none => b.allSeqId

/-- `dsv4_batch_n_seq_id`. -/
def dsv4BatchNSeqId (b : LlamaBatch) (i : Nat) : Nat :=
  match b.nSeqId with
  | some f => f i
  | none => 1

/-- `dsv4_batch_pos`. -/
def dsv4BatchPos (b : LlamaBatch) (i : Nat) : Int :=
  match b.pos with
  | some f => f i
  | none => b.allPos0 + i * b.allPos1

/-- A batch of explicit positions, every token in sequence 0. -/
def batchOfPositions (ps : List Int) : LlamaBatch where
  nTokens := ps.length
  pos := some fun i => ps.getD i 0
  nSeqId := none
  seqId := none
  allPos0 := 0
  allPos1 := 0
  allSeqId := 0
  nSeqId_pos := by
    intro f h
    cases h

/-- The tokens of the batch have the positions `p, p + 1, …`. -/
def PositionsFrom (p : Nat) (b : LlamaBatch) : Prop :=
  ∀ i < b.nTokens, dsv4BatchPos b i = (p : Int) + i

/-- Every position of the batch lies in the context. -/
def InContext (kvSize : Nat) (b : LlamaBatch) : Prop :=
  ∀ i < b.nTokens, 0 ≤ dsv4BatchPos b i ∧ dsv4BatchPos b i < kvSize

/-- The batches, in order, take the positions `p, p + 1, …`. -/
def Consecutive : Nat → List LlamaBatch → Prop
  | _, [] => True
  | p, b :: bs => PositionsFrom p b ∧ Consecutive (p + b.nTokens) bs

instance (p : Nat) (b : LlamaBatch) : Decidable (PositionsFrom p b) :=
  inferInstanceAs (Decidable (∀ i < b.nTokens, dsv4BatchPos b i = (p : Int) + i))

instance (kvSize : Nat) (b : LlamaBatch) : Decidable (InContext kvSize b) :=
  inferInstanceAs
    (Decidable (∀ i < b.nTokens, 0 ≤ dsv4BatchPos b i ∧ dsv4BatchPos b i < kvSize))

instance decidableConsecutive : (p : Nat) → (bs : List LlamaBatch) → Decidable (Consecutive p bs)
  | _, [] => .isTrue trivial
  | p, b :: bs =>
    let _ := decidableConsecutive (p + b.nTokens) bs
    inferInstanceAs (Decidable (PositionsFrom p b ∧ Consecutive (p + b.nTokens) bs))

/-- Tokens of a run. -/
def totalTokens (bs : List LlamaBatch) : Nat := (bs.map LlamaBatch.nTokens).sum

/-- Every token of the batch is in sequence `s` and in no other. -/
def SingleSeq (s : Int) (b : LlamaBatch) : Prop :=
  ∀ i < b.nTokens, dsv4BatchNSeqId b i = 1 ∧ dsv4BatchSeq b i 0 = s

theorem dsv4BatchNSeqId_pos {b : LlamaBatch} {i : Nat} (hi : i < b.nTokens) :
    0 < dsv4BatchNSeqId b i := by
  unfold dsv4BatchNSeqId
  split
  · rename_i f hf
    exact b.nSeqId_pos f hf i hi
  · exact Nat.one_pos

theorem totalTokens_cons (b : LlamaBatch) (bs : List LlamaBatch) :
    totalTokens (b :: bs) = b.nTokens + totalTokens bs := by
  simp [totalTokens]

theorem totalTokens_append (bs bs' : List LlamaBatch) :
    totalTokens (bs ++ bs') = totalTokens bs + totalTokens bs' := by
  simp [totalTokens]

theorem consecutive_append (p : Nat) (bs bs' : List LlamaBatch) :
    Consecutive p (bs ++ bs') ↔ Consecutive p bs ∧ Consecutive (p + totalTokens bs) bs' := by
  induction bs generalizing p with
  | nil => simp [Consecutive, totalTokens]
  | cons b bs ih =>
    rw [List.cons_append, Consecutive, Consecutive, ih, totalTokens_cons, Nat.add_assoc,
      and_assoc]

/-!
## The compression plan of a batch

`dsv4_build_comp_plan` walks the tokens of a batch and lists, for one compressed stream,
what the graph of that batch has to do: which rows of `[ring | batch | zero]` feed each
completed block (`stateReadIdxs`), into which compressed rows the blocks go
(`stateWriteIdxs`), and which tokens are kept in which ring rows (`statePersist*`).

`planToken` is the body of the loop over the tokens, `planSeq` that of the loop over the
sequence ids of one token. `dsv4BuildCompPlan` adds the scratch write of a ratio-4 batch
without a boundary, and orders the lists. A token at a position below zero is skipped.
From there on positions are natural numbers; the casts to `uint32_t` do nothing.
-/

open Ggml (ggmlPad)

def DSV4_CSA_RATIO : Nat := 4
def DSV4_HCA_RATIO : Nat := 128

/-- `struct llama_dsv4_comp_plan`, without the constant `n_stream = 1`. -/
structure CompPlan where
  statePos : List Nat
  statePersistSrcIdxs : List Nat
  statePersistDstIdxs : List Nat
  stateReadIdxs : List Nat
  stateWriteIdxs : List Nat
  stateWritePos : List Int
  nVisible : Nat → Nat
  nKv : Nat

/-- `struct persist_row`. -/
structure PersistRow where
  dst : Nat
  src : Nat
  pos : Nat
  deriving DecidableEq, Repr

/-- The variables of the loop over the tokens. -/
structure PlanAcc where
  statePos : List Nat := []
  nVisible : Nat → Nat := fun _ => 0
  nKv : Nat := 0
  persistRows : List PersistRow := []
  writeIdxs : List Nat := []
  writePos : List Int := []
  prevReads : List Nat := []
  /-- `overlap_cur_reads`, or `state_read_idxs` itself without overlap. -/
  curReads : List Nat := []

/-- `curr_token_idx_map`: the last token of the batch with the sequence and position. -/
def currTokenIdxMap (b : LlamaBatch) : Int × Int → Option Nat :=
  (List.range b.nTokens).foldl (fun m i =>
    (List.range (dsv4BatchNSeqId b i)).foldl (fun m s =>
      Function.update m (dsv4BatchSeq b i s, dsv4BatchPos b i) (some i)) m) fun _ => none

/-- The lambda `state_source_idx`: the row of `[ring | batch | zero]` that holds position
`pos` of a sequence. -/
def stateSourceIdx (b : LlamaBatch) (stateSize : Nat) (seqId pos : Int) : Nat :=
  if pos < 0 then stateSize + b.nTokens
  else
    match currTokenIdxMap b (seqId, pos) with
    | some i => stateSize + i
    | none => pos.toNat % stateSize

/-- `find_if` on the ring row, then `push_back` of a new row or an update of the old one
by a later position. -/
def persistTouch (dst src pos : Nat) : List PersistRow → List PersistRow
  | [] => [⟨dst, src, pos⟩]
  | r :: rs =>
    if r.dst = dst then (if r.pos < pos then ⟨dst, src, pos⟩ else r) :: rs
    else r :: persistTouch dst src pos rs

/-- The source rows of the `ratio` positions from `start` on. -/
def windowReads (b : LlamaBatch) (ratio stateSize : Nat) (seqId start : Int) : List Nat :=
  (List.range ratio).map fun j : Nat => stateSourceIdx b stateSize seqId (start + j)

/-- The body of the loop over the sequence ids of token `i`, at position `pos`. -/
def planSeq (b : LlamaBatch) (ratio : Nat) (overlap : Bool) (stateSize i pos : Nat)
    (acc : PlanAcc) (s : Nat) : PlanAcc :=
  let seqId := dsv4BatchSeq b i s
  let acc := { acc with persistRows := persistTouch (pos % stateSize) i pos acc.persistRows }
  if (pos + 1) % ratio ≠ 0 then acc
  else
    let sourceStart : Int := (pos : Int) + 1 - ratio
    { acc with
      writeIdxs := acc.writeIdxs ++ [pos / ratio]
      writePos := acc.writePos ++ [sourceStart]
      prevReads :=
        if overlap then
          acc.prevReads ++ windowReads b ratio stateSize seqId (sourceStart - ratio)
        else acc.prevReads
      curReads := acc.curReads ++ windowReads b ratio stateSize seqId sourceStart }

/-- The body of the loop over the tokens. -/
def planToken (b : LlamaBatch) (ratio : Nat) (overlap : Bool) (stateSize : Nat)
    (acc : PlanAcc) (i : Nat) : PlanAcc :=
  if dsv4BatchPos b i < 0 then acc
  else
    let pos := (dsv4BatchPos b i).toNat
    let nVisible := (pos + 1) / ratio
    let acc := { acc with
      statePos := acc.statePos ++ [pos % ratio]
      nVisible := Function.update acc.nVisible i nVisible
      nKv := max acc.nKv nVisible }
    (List.range (dsv4BatchNSeqId b i)).foldl (planSeq b ratio overlap stateSize i pos) acc

/-- The variables after the loop over the first `n` tokens. -/
def planLoop (b : LlamaBatch) (ratio : Nat) (overlap : Bool) (stateSize n : Nat) : PlanAcc :=
  (List.range n).foldl (planToken b ratio overlap stateSize) {}

/-- The batch completes no block but has a token: a ratio-4 stream then gets a write to a
scratch row. -/
def needsScratch (ratio : Nat) (acc : PlanAcc) : Bool :=
  ratio == DSV4_CSA_RATIO && acc.writeIdxs.isEmpty && !acc.statePos.isEmpty

/-- The scratch write: `ratio` times the row of the first token that is not skipped, into
row `kvSize - 1`. -/
def addScratch (b : LlamaBatch) (ratio : Nat) (overlap : Bool) (stateSize kvSize : Nat)
    (acc : PlanAcc) : PlanAcc :=
  let i := ((List.range b.nTokens).find? fun i => 0 ≤ dsv4BatchPos b i).getD b.nTokens
  let sourceIdx := stateSourceIdx b stateSize (dsv4BatchSeq b i 0) (dsv4BatchPos b i)
  { acc with
    writeIdxs := acc.writeIdxs ++ [kvSize - 1]
    writePos := acc.writePos ++ [0]
    prevReads :=
      if overlap then acc.prevReads ++ List.replicate ratio sourceIdx else acc.prevReads
    curReads := acc.curReads ++ List.replicate ratio sourceIdx }

/-- `dsv4_build_comp_plan`. -/
def dsv4BuildCompPlan (b : LlamaBatch) (ratio : Nat) (overlap : Bool)
    (stateSize kvSize : Nat) : CompPlan :=
  let acc := planLoop b ratio overlap stateSize b.nTokens
  let acc :=
    if needsScratch ratio acc then addScratch b ratio overlap stateSize kvSize acc else acc
  let rows := acc.persistRows.insertionSort fun a b => a.dst ≤ b.dst
  { statePos := acc.statePos
    statePersistSrcIdxs := rows.map PersistRow.src
    statePersistDstIdxs := rows.map PersistRow.dst
    -- all previous windows, then all current ones
    stateReadIdxs := if overlap then acc.prevReads ++ acc.curReads else acc.curReads
    stateWriteIdxs := acc.writeIdxs
    stateWritePos := acc.writePos
    nVisible := acc.nVisible
    nKv := ggmlPad acc.nKv 256 }

end PxqLlama.Dsv4
