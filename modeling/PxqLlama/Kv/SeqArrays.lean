import PxqLlama.Kv.SpecModes

/-!
# `Kv.SeqArrays`: the sequences of a batch, with all arrays

`pxa_decompose_seqs` is what the graph of the delta net and the filler of its inputs share: which
sequences a batch has, and for each token and each sequence what the two need to know. Here is the
function with every field of its result, on a `llama_batch` whose arrays may be null.

`Decomposable` says which batches are accepted, and `Describes` what the arrays then are.
-/

namespace PxqLlama.Kv.SeqArrays

/-- The fields of `llama_batch` that are read. A null pointer is `none`. -/
structure LlamaBatch where
  nTokens : Int
  pos : Option (Nat → Int)
  nSeqId : Option (Nat → Int)
  seqId : Option (Nat → Option (Nat → Int))

/-- `has_seq`. -/
def LlamaBatch.hasSeq (b : LlamaBatch) : Bool := b.nSeqId.isSome && b.seqId.isSome

/-- The lambda `tok_seq`. -/
def LlamaBatch.tokSeq (b : LlamaBatch) (i : Nat) : Int :=
  if b.hasSeq then
    match b.seqId.bind fun f => f i with
    | some ids => ids 0
    | none => 0
  else 0

/-- The lambda `tok_pos`. -/
def LlamaBatch.tokPos (b : LlamaBatch) (i : Nat) : Int :=
  match b.pos with
  | some f => f i
  | none => 0

/-- The number of sequence ids of a token. -/
def LlamaBatch.tokSeqCount (b : LlamaBatch) (i : Nat) : Int :=
  match b.nSeqId with
  | some f => f i
  | none => 1

/-- `pxa_seq_decomp`. -/
structure PxaSeqDecomp where
  ok : Bool := false
  allSame : Bool := false
  uniformTok : Bool := false
  nSeqs : Nat := 0
  nSeqTokens : Nat := 0
  seqs : List Int := []
  seqSlot : List Nat := []
  seqCount : List Nat := []
  seqFirstPos : List Int := []
  seqReset : List Bool := []

/-- One token, behind a token in `prevSlot`: its slot, and the arrays. A batch that is refused
leaves the arrays as they are by then. -/
def decompToken (b : LlamaBatch) (prevSlot : Option Nat) (d : PxaSeqDecomp) (i : Nat) :
    Except PxaSeqDecomp (Nat × PxaSeqDecomp) :=
  let s := b.tokSeq i
  match prevSlot with
  | some slot =>
    if d.seqs[slot]? = some s then
      -- The run goes on.
      if b.tokPos i ≤ b.tokPos (i - 1) then .error d
      else
        .ok (slot, { d with
          seqSlot := d.seqSlot.set i slot
          seqCount := d.seqCount.modify slot (· + 1) })
    else openRun s
  | none => openRun s
where
  /-- A new sequence, when it was not seen before. -/
  openRun (s : Int) : Except PxaSeqDecomp (Nat × PxaSeqDecomp) :=
    if s ∈ d.seqs then .error d
    else
      .ok (d.seqs.length, { d with
        seqs := d.seqs ++ [s]
        seqSlot := d.seqSlot.set i d.seqs.length
        seqCount := d.seqCount ++ [1]
        seqFirstPos := d.seqFirstPos ++ [b.tokPos i] })

/-- The loop over the tokens, from the first to the `k`-th. -/
def decompTokens (b : LlamaBatch) (d : PxaSeqDecomp) :
    Nat → Except PxaSeqDecomp (Option Nat × PxaSeqDecomp)
  | 0 => .ok (none, d)
  | k + 1 =>
    match decompTokens b d k with
    | .error d => .error d
    | .ok (prevSlot, d) => (decompToken b prevSlot d k).map fun r => (some r.1, r.2)

/-- What is read off the arrays at the end. -/
def decompFinish (d : PxaSeqDecomp) : PxaSeqDecomp :=
  let uniform := d.seqCount.all fun c => c = d.seqCount.headD 0
  { d with
    nSeqs := d.seqs.length
    allSame := d.seqs.length = 1
    uniformTok := uniform
    nSeqTokens := if uniform then d.seqCount.headD 0 else d.nSeqTokens
    seqReset := d.seqFirstPos.map fun p => p = 0
    ok := true }

/-- `pxa_decompose_seqs`. -/
def pxaDecomposeSeqs (b : LlamaBatch) : PxaSeqDecomp :=
  if b.nTokens ≤ 0 then {}
  else
    let n := b.nTokens.toNat
    let d : PxaSeqDecomp := { seqSlot := List.replicate n 0 }
    if b.hasSeq ∧ (List.range n).any (fun i => b.tokSeqCount i ≠ 1) then d
    else
      match decompTokens b d n with
      | .error d => d
      | .ok (_, d) => decompFinish d

/-! ### What the batches and the arrays are -/

/-- The tokens of each sequence follow each other. -/
def Contiguous (b : LlamaBatch) (n : Nat) : Prop :=
  ∀ i j k, i < j → j < k → k < n → b.tokSeq i = b.tokSeq k → b.tokSeq j = b.tokSeq i

/-- The positions increase within each sequence. -/
def Increasing (b : LlamaBatch) (n : Nat) : Prop :=
  ∀ i j, i < j → j < n → b.tokSeq i = b.tokSeq j → b.tokPos i < b.tokPos j

structure Decomposable (b : LlamaBatch) : Prop where
  nonempty : 0 < b.nTokens
  oneSeq : b.hasSeq = true → ∀ i < b.nTokens.toNat, b.tokSeqCount i = 1
  contiguous : Contiguous b b.nTokens.toNat
  increasing : Increasing b b.nTokens.toNat

/-- The ids of the first `n` tokens. -/
def ids (b : LlamaBatch) (n : Nat) : List Int := (List.range n).map b.tokSeq

/-- The first occurrences. -/
def firstSeen (l : List Int) : List Int :=
  l.foldl (fun seen s => if s ∈ seen then seen else seen ++ [s]) []

/-- The arrays describe the batch. -/
structure Describes (b : LlamaBatch) (d : PxaSeqDecomp) : Prop where
  /-- The distinct ids, as they are seen first. -/
  seqs : d.seqs = firstSeen (ids b b.nTokens.toNat)
  nSeqs : d.nSeqs = d.seqs.length
  allSame : d.allSame = true ↔ ∃ s, d.seqs = [s]
  slot_length : d.seqSlot.length = b.nTokens.toNat
  slot : ∀ t < b.nTokens.toNat, ∃ s, d.seqSlot[t]? = some s ∧ d.seqs[s]? = some (b.tokSeq t)
  count : d.seqCount = d.seqs.map fun s => (ids b b.nTokens.toNat).count s
  sum : (d.seqCount.sum : Int) = b.nTokens
  firstPos : ∀ s < d.seqs.length, ∃ t < b.nTokens.toNat,
    d.seqs[s]? = some (b.tokSeq t) ∧ (∀ t' < t, b.tokSeq t' ≠ b.tokSeq t) ∧
      d.seqFirstPos[s]? = some (b.tokPos t) ∧ d.seqReset[s]? = some (decide (b.tokPos t = 0))
  firstPos_length : d.seqFirstPos.length = d.seqs.length
  reset_length : d.seqReset.length = d.seqs.length
  uniform : ∀ c, (d.uniformTok = true ∧ d.nSeqTokens = c) ↔ ∀ n ∈ d.seqCount, n = c

end PxqLlama.Kv.SeqArrays
