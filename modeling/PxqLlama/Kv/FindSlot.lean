import PxqLlama.Kv.Cache

/-!
# `Kv.FindSlot`: placing an ubatch

Both caches look for `n` free cells in a row, from `head` on and once around
(`llama_kv_cache_find_slot`, `llama_kv_swa_find_slot`). `slotLoop` is the `while (true)` of
the two. They differ in one place: the sliding cache also gives up right after a wrap, when
it has tested every cell. `slotLoop_isSome` shows that the fuel given is never used up.

`llamaKvCacheCellMax` is the exact bound on the live cells, `llamaKvCacheCellMaxPad` the one
that looks at every `pad`-th cell first.
-/

namespace PxqLlama.Kv

/-- A token of an ubatch: `pos[i]`, and `seq_id[i][0 .. n_seq_id[i])`. -/
structure Token where
  pos : Int
  seqId : List Int
  deriving DecidableEq, Repr

/-- An ubatch of `llama_decode_internal`, where every array is set. -/
abbrev UBatch := List Token

/-! ### The search -/

/-- The first cell of the `n` from `head` on that is in use. -/
def firstUsed (cells : Nat → KvCell) (head n : Nat) : Option Nat :=
  (List.range n).find? fun i => 0 ≤ (cells (head + i)).pos

/-- The `while (true)` loop: whether a slot was found, and the head. `wrapGivesUp` is the
test after a wrap that only the sliding cache makes. -/
def slotLoop (wrapGivesUp : Bool) (size : Nat) (cells : Nat → KvCell) (n : Nat) :
    Nat → Nat → Nat → Option (Bool × Nat)
  | 0, _, _ => none
  | fuel + 1, head, tested =>
    if size < head + n then
      let tested := tested + (size - head)
      if wrapGivesUp ∧ size ≤ tested then some (false, 0)
      else slotLoop wrapGivesUp size cells n fuel 0 tested
    else
      match firstUsed cells head n with
      | none => some (true, head)
      | some i =>
        let head := head + (i + 1)
        let tested := tested + (i + 1)
        if size ≤ tested then some (false, head)
        else slotLoop wrapGivesUp size cells n fuel head tested

/-- The search of a cache; the fuel is enough. -/
def searchSlot (wrapGivesUp : Bool) (c : KvCache) (n : Nat) : Bool × Nat :=
  (slotLoop wrapGivesUp c.size c.cells n (2 * c.size + 2) c.head 0).getD (false, c.head)

/-- The tokens written to the cells from `head` on. A cell keeps its shift and source. -/
def placeTokens (cells : Nat → KvCell) (head : Nat) (b : UBatch) (i : Nat) : KvCell :=
  if head ≤ i then
    match b[i - head]? with
    | some t => { cells i with pos := t.pos, seqId := (cells i).seqId ∪ t.seqId.toFinset }
    | none => cells i
  else cells i

/-- `llama_kv_swa_find_slot`. -/
def llamaKvSwaFindSlot (c : KvCache) (b : UBatch) : Bool × KvCache :=
  if c.size < b.length then (false, c)
  else
    let (found, head) := searchSlot true c b.length
    if found then
      (true, { c with
        head := head
        cells := placeTokens c.cells head b
        used := addU32 c.used b.length })
    else (false, { c with head := head })

/-! ### The recurrent branch -/

/-- The variables of the loop over the tokens of a recurrent cache. -/
structure RecurrentScan where
  min : Int
  max : Int
  used : Nat
  cells : Nat → KvCell

/-- One sequence id of one token; `none` when the id is not a cell. -/
def recurrentStep (size : Nat) (acc : Except RecurrentScan RecurrentScan) (ps : Int × Int) :
    Except RecurrentScan RecurrentScan :=
  match acc with
  | .error w => .error w
  | .ok w =>
    let (pos, s) := ps
    if 0 ≤ s ∧ s < size then
      let cell := w.cells s.toNat
      .ok {
        max := if w.max < s then s else w.max
        min := if s < w.min then s else w.min
        used := if cell.pos < 0 ∧ 0 ≤ pos then addU32 w.used 1 else w.used
        cells := Function.update w.cells s.toNat { cell with pos := pos } }
    else .error w

/-- `llama_kv_cache_find_slot` of a recurrent cache. The edits made before an id that is too
big stay. -/
def findSlotRecurrent (c : KvCache) (b : UBatch) : Bool × KvCache :=
  let init : RecurrentScan := { min := c.size - 1, max := 0, used := c.used, cells := c.cells }
  match (b.flatMap fun t => t.seqId.map fun s => (t.pos, s)).foldl (recurrentStep c.size)
    (.ok init) with
  | .error w => (false, { c with cells := w.cells, used := w.used })
  | .ok w =>
    (decide (w.min ≤ w.max), { c with
      cells := w.cells
      used := w.used
      head := w.min.toNat
      n := ((w.max - w.min + 1) % 2 ^ 32).toNat })

/-- `llama_kv_cache_find_slot`. -/
def llamaKvCacheFindSlot (c : KvCache) (b : UBatch) : Bool × KvCache :=
  if c.recurrent then findSlotRecurrent c b
  else if c.size < b.length then (false, c)
  else
    let (found, head) := searchSlot false c b.length
    if found then
      (true, { c with
        head := head
        cells := placeTokens c.cells head b
        used := addU32 c.used b.length })
    else (false, { c with head := head })

/-! ### How many cells are in use -/

/-- The loop of `llama_kv_cache_cell_max`, from the first `i` cells down. -/
def cellMaxLoop (cells : Nat → KvCell) : Nat → Nat
  | 0 => 0
  | i + 1 => if (cells i).live then i + 1 else cellMaxLoop cells i

/-- `llama_kv_cache_cell_max(cache)`. -/
def llamaKvCacheCellMax (c : KvCache) : Nat := cellMaxLoop c.cells c.size

/-- The inner loop of the sampling variant: the last live cell of `(i, j]`, or `i`. -/
def lastLiveLoop (cells : Nat → KvCell) (i : Nat) : Nat → Nat
  | 0 => i
  | j + 1 =>
    if j + 1 ≤ i then i else if (cells j).live then j + 1 else lastLiveLoop cells i j

/-- The outer loop of the sampling variant. The size is a multiple of `pad`, so the counter
does not wrap. -/
def cellMaxPadLoop (cells : Nat → KvCell) (pad : Nat) : Nat → Nat → Nat → Nat
  | 0, _, _ => 0
  | fuel + 1, i, last =>
    if i = 0 then 0
    else if (cells (i - 1)).live then lastLiveLoop cells i last
    else cellMaxPadLoop cells pad fuel (i - pad) i

/-- `llama_kv_cache_cell_max(cache, pad)`. -/
def llamaKvCacheCellMaxPad (c : KvCache) (pad : Nat) : Nat :=
  cellMaxPadLoop c.cells pad (c.size + 1) c.size c.size

/-! ### Facts about the search -/

variable {cells : Nat → KvCell} {n : Nat}

theorem firstUsed_eq_none {head : Nat} :
    firstUsed cells head n = none ↔ ∀ i < n, (cells (head + i)).pos < 0 := by
  rw [firstUsed, List.find?_eq_none]
  simp

/-- Each round tests at least one more cell, but for a wrap, which the next round makes up
for. -/
theorem slotLoop_isSome (wrapGivesUp : Bool) {size : Nat} (cells : Nat → KvCell) (hn : n ≤ size)
    (fuel head tested : Nat)
    (hfuel : 2 * (size - tested) + (if size < head + n then 1 else 0) < fuel) :
    (slotLoop wrapGivesUp size cells n fuel head tested).isSome := by
  induction fuel generalizing head tested with
  | zero => omega
  | succ fuel ih =>
    rw [slotLoop]
    by_cases hwrap : size < head + n
    · -- a wrap: the next round starts at zero, where `n` cells fit
      simp only [hwrap, if_true] at hfuel ⊢
      split
      · rfl
      · apply ih
        rw [if_neg (by omega)]
        omega
    · -- a used cell: the search goes on behind it
      simp only [hwrap, if_false] at hfuel ⊢
      split
      · rfl
      · split
        · rfl
        · apply ih
          split <;> omega

theorem searchSlot_eq (wrapGivesUp : Bool) {c : KvCache} (hn : n ≤ c.size) :
    slotLoop wrapGivesUp c.size c.cells n (2 * c.size + 2) c.head 0
      = some (searchSlot wrapGivesUp c n) := by
  have h := slotLoop_isSome wrapGivesUp c.cells hn (2 * c.size + 2) c.head 0
    (by split <;> omega)
  obtain ⟨r, hr⟩ := Option.isSome_iff_exists.mp h
  rw [searchSlot, hr]
  rfl

/-- A slot that the loop finds is free and lies in the cache. -/
theorem slotLoop_found {wrapGivesUp : Bool} {size : Nat} {fuel head tested h : Nat}
    (hr : slotLoop wrapGivesUp size cells n fuel head tested = some (true, h)) :
    h + n ≤ size ∧ ∀ i < n, (cells (h + i)).pos < 0 := by
  induction fuel generalizing head tested with
  | zero => cases hr
  | succ fuel ih =>
    rw [slotLoop] at hr
    split at hr
    · simp only at hr
      split at hr
      · cases hr
      · exact ih hr
    · rename_i hwrap
      cases hfirst : firstUsed cells head n with
      | none =>
        -- the only way to return `true`
        rw [hfirst] at hr
        obtain rfl : head = h := by simpa using hr
        exact ⟨by omega, firstUsed_eq_none.mp hfirst⟩
      | some i =>
        simp only [hfirst] at hr
        split at hr
        · cases hr
        · exact ih hr

/-- The slot that a search finds. -/
theorem searchSlot_found {wrapGivesUp : Bool} {c : KvCache} (hn : n ≤ c.size)
    (h : (searchSlot wrapGivesUp c n).1 = true) :
    (searchSlot wrapGivesUp c n).2 + n ≤ c.size ∧
      ∀ i < n, (c.cells ((searchSlot wrapGivesUp c n).2 + i)).pos < 0 := by
  have hr := searchSlot_eq wrapGivesUp hn
  refine slotLoop_found (hr.trans ?_)
  rw [← h]

/-- A cell of the slot holds its token. -/
theorem placeTokens_mem {head i : Nat} {b : UBatch} (hi : i < b.length) :
    placeTokens cells head b (head + i)
      = { cells (head + i) with
          pos := b[i].pos, seqId := (cells (head + i)).seqId ∪ b[i].seqId.toFinset } := by
  have hsub : head + i - head = i := by omega
  rw [placeTokens, if_pos (by omega), hsub, List.getElem?_eq_getElem hi]

/-- The cells outside the slot stay. -/
theorem placeTokens_of_not_mem {head i : Nat} {b : UBatch} (hi : i < head ∨ head + b.length ≤ i) :
    placeTokens cells head b i = cells i := by
  rw [placeTokens]
  split
  · rw [List.getElem?_eq_none (by omega)]
  · rfl

/-! ### Facts about the exact scan -/

theorem cellMaxLoop_le (cells : Nat → KvCell) (size : Nat) : cellMaxLoop cells size ≤ size := by
  induction size with
  | zero => exact Nat.le_refl 0
  | succ size ih =>
    rw [cellMaxLoop]
    split
    · exact Nat.le_refl _
    · exact Nat.le_succ_of_le ih

/-- The exact scan misses no live cell. -/
theorem lt_cellMaxLoop (cells : Nat → KvCell) {i size : Nat} (hi : i < size)
    (hlive : (cells i).live = true) : i < cellMaxLoop cells size := by
  induction size with
  | zero => omega
  | succ size ih =>
    rw [cellMaxLoop]
    split
    · exact hi
    · rename_i htop
      rcases Nat.lt_succ_iff_lt_or_eq.mp hi with h | rfl
      · exact ih h
      · exact absurd hlive htop

/-!
## The sliding cache

The sliding-window layers keep their keys in a second, smaller cache. It stays small by
eviction: `llamaKvSwaEvict` frees each cell that is out of the window of all its sequences.
A sequence's window is measured from a reference position (`refPos`): its first position in
the ubatch, or, when the ubatch has no token of it, its last position in the cache.
-/

/-- The positions of a sequence among the tokens, in order. -/
def positionsOf (s : Int) (ts : List Token) : List Int :=
  (ts.filter fun t => s ∈ t.seqId).map Token.pos

/-- `ref[s]` after the loop over the cells: the last position of the sequence in the cache. -/
def cacheMaxPos (c : KvCache) (s : Int) : Option Int :=
  ((((List.range c.size).map c.cells).filter fun cell =>
    decide (0 ≤ cell.pos) && cell.hasSeqId s).map KvCell.pos).max?

/-- `in_batch[s]`: the first position of the sequence in the ubatch. -/
def batchMinPos (b : UBatch) (s : Int) : Option Int := (positionsOf s b).min?

/-- `ref[s]`: the earliest position that can still be queried. -/
def refPos (c : KvCache) (b : UBatch) (s : Int) : Option Int :=
  match batchMinPos b s with
  | some p => some p
  | none => cacheMaxPos c s

/-- The position is in the window of a sequence. A sequence with no reference position
cannot be shown to have moved past it. -/
def inWindow (ref : Option Int) (nKeep pos : Int) : Bool :=
  match ref with
  | none => true
  | some r => decide (r - pos < nKeep)

/-- The cell is in the window of one of its sequences. -/
def windowLive (ref : Int → Option Int) (nKeep : Int) (cell : KvCell) : Bool :=
  decide (∃ s ∈ cell.seqId, inWindow (ref s) nKeep cell.pos = true)

/-- The body of the evicting loop. -/
def evictCell (ref : Int → Option Int) (nKeep : Int) (_ : Nat) (cell : KvCell) : CellStep :=
  if cell.pos < 0 ∨ cell.isEmpty then .put cell
  else if windowLive ref nKeep cell then .put cell
  else .free { cell.clearSeq with pos := -1, delta := 0 } true

/-- `llama_kv_swa_evict` with the sliding cache active. The head moves back when a cell was
evicted before it. The sum `n_keep` does not overflow: the sliding cache is only made when the
window and the guard together are smaller than the context. -/
def llamaKvSwaEvict (c : KvCache) (nSwa : Nat) (b : UBatch) (guard : Nat) : KvCache :=
  let w := sweep c (evictCell (refPos c b) ((nSwa : Int) + guard))
  { c with cells := w.cells, used := w.used, head := w.head c }

/-- The body of the loop of `llama_kv_swa_release_slot`. -/
def releaseCell (_ : Nat) (cell : KvCell) : CellStep :=
  if 0 ≤ cell.pos then .free { cell.clearSeq with pos := -1, delta := 0 } true else .put cell

/-- `llama_kv_swa_release_slot`. -/
def llamaKvSwaReleaseSlot (c : KvCache) (head n : Nat) : KvCache :=
  let is := ((List.range n).map fun i => head + i).filter fun i => i < c.size
  let w := sweepOver c releaseCell is
  { c with cells := w.cells, used := w.used }

/-- `llama_kv_swa_seq_pos_max`. -/
def llamaKvSwaSeqPosMax (c : KvCache) (s : Int) : Int :=
  (List.range c.size).foldl (fun res i =>
    if 0 ≤ (c.cells i).pos ∧ (c.cells i).hasSeqId s then max res (c.cells i).pos else res) (-1)

/-- `llama_kv_swa_coverage_ok` with the sliding cache active. -/
def llamaKvSwaCoverageOk (c : KvCache) (nSwa : Nat) (s : Int) : Bool :=
  let pmax := llamaKvSwaSeqPosMax c s
  if pmax < 0 then true
  else
    let lo := max 0 (pmax - nSwa + 1)
    (List.range (pmax - lo + 1).toNat).all fun k =>
      (List.range c.size).any fun i =>
        decide ((c.cells i).pos = lo + k) && (c.cells i).hasSeqId s

end PxqLlama.Kv
