import Mathlib.Algebra.Group.Int.Defs
import Mathlib.Algebra.Group.Nat.Defs
import Mathlib.Data.Finset.Basic

/-!
# `Kv.Cache`: cells, and the edits of a sequence

The cache of `src/llama-context.h` is an array of cells. A cell at a position below zero is
free; a cell holds its position, a pending shift and the set of the sequences that share it.
The edits `llama_kv_cache_seq_*` of `src/llama.cpp` are all one pass over the cells: each
step looks at one cell, and puts it back changed or frees it (`CellStep`). `sweep` is that
pass. It keeps the number of used cells and the first cell freed, as every loop does.

The counters are `uint32_t`: `used` may go below zero, and then wraps.
-/

namespace PxqLlama.Kv

/-- `struct llama_kv_cell`, without the shadow of the set. -/
structure KvCell where
  pos : Int := -1
  delta : Int := 0
  src : Int := 0
  seqId : Finset Int := ∅
  deriving DecidableEq

/-- `is_empty`. -/
def KvCell.isEmpty (c : KvCell) : Bool := c.seqId = ∅

/-- `has_seq_id`. -/
def KvCell.hasSeqId (c : KvCell) (s : Int) : Bool := s ∈ c.seqId

/-! The sequences of a cell are gone through in the order of their numbers. -/

theorem seqId_trans : IsTrans Int (· ≤ ·) := inferInstance

theorem seqId_antisymm : Std.Antisymm fun s t : Int => s ≤ t := inferInstance

def KvCell.addSeq (c : KvCell) (s : Int) : KvCell := { c with seqId := insert s c.seqId }

def KvCell.eraseSeq (c : KvCell) (s : Int) : KvCell := { c with seqId := c.seqId.erase s }

def KvCell.clearSeq (c : KvCell) : KvCell := { c with seqId := ∅ }

/-- The cell counts for the attention window: it has a position and a sequence. -/
def KvCell.live (c : KvCell) : Bool := decide (0 ≤ c.pos) && !c.isEmpty

/-- `struct llama_kv_cache`: the fields that decide which cell holds what. `qnextSlots` is
`llama_kv_qnext_state_slots`, the rows of recurrent state storage. -/
structure KvCache where
  hasShift : Bool := false
  doDefrag : Bool := false
  doCopy : Bool := false
  recurrent : Bool := false
  qnextSlots : Nat := 0
  head : Nat := 0
  size : Nat
  used : Nat := 0
  n : Nat := 0
  cells : Nat → KvCell

/-- `llama_kv_cache_init`: every cell as constructed. The state of a recurrent or hybrid model
is its own copy source. -/
def llamaKvCacheInit (recurrent hybrid : Bool) (qnextSlots size : Nat) : KvCache where
  recurrent := recurrent
  qnextSlots := qnextSlots
  size := size
  cells := fun i => if (recurrent ∨ hybrid) ∧ i < size then { src := i } else {}

/-- `llama_kv_has_qnext_state_storage`. -/
def KvCache.hasQnextState (c : KvCache) : Bool := decide (0 < c.qnextSlots)

/-- `llama_kv_qnext_seq_id_in_range`. -/
def KvCache.qnextSeqIdInRange (c : KvCache) (s : Int) : Bool :=
  decide (0 < c.qnextSlots ∧ 0 ≤ s ∧ s < c.qnextSlots)

/-- `(uint32_t) seq_id < cache.size`. -/
def KvCache.seqIdFits (c : KvCache) (s : Int) : Bool := decide (0 ≤ s ∧ s < c.size)

/-! ### One pass over the cells -/

/-- `x--` on a `uint32_t`. -/
def decU32 (x : Nat) : Nat := (x + (2 ^ 32 - 1)) % 2 ^ 32

/-- `x += y` on a `uint32_t`. -/
def addU32 (x y : Nat) : Nat := (x + y) % 2 ^ 32

/-- What the body of a loop does to its cell. -/
inductive CellStep
  /-- The cell stays in use or free, as `cell`. -/
  | put (cell : KvCell)
  /-- The cell is freed; `counted` says whether `used` goes down. -/
  | free (cell : KvCell) (counted : Bool)

def CellStep.cell : CellStep → KvCell
  | .put cell => cell
  | .free cell _ => cell

/-- The variables of such a loop; `newHead` is the size while no cell is freed. -/
structure Sweep where
  cells : Nat → KvCell
  used : Nat
  newHead : Nat

def sweepStep (size : Nat) (body : Nat → KvCell → CellStep) (w : Sweep) (i : Nat) : Sweep :=
  match body i (w.cells i) with
  | .put cell => { w with cells := Function.update w.cells i cell }
  | .free cell counted =>
    { cells := Function.update w.cells i cell
      used := if counted then decU32 w.used else w.used
      newHead := if w.newHead = size then i else w.newHead }

/-- The loop over the given cells. -/
def sweepOver (c : KvCache) (body : Nat → KvCell → CellStep) (is : List Nat) : Sweep :=
  is.foldl (sweepStep c.size body) { cells := c.cells, used := c.used, newHead := c.size }

/-- `for (i = 0; i < cache.size; ++i)`. -/
def sweep (c : KvCache) (body : Nat → KvCell → CellStep) : Sweep :=
  sweepOver c body (List.range c.size)

/-- "If we freed up a slot, set head to it so searching can start there." -/
def Sweep.head (w : Sweep) (c : KvCache) : Nat :=
  if w.newHead ≠ c.size ∧ w.newHead < c.head then w.newHead else c.head

/-! ### Edits of a sequence -/

/-- `std::numeric_limits<llama_pos>::max()`. -/
def posMax : Int := 2 ^ 31 - 1

/-- `if (p0 < 0) p0 = 0;` -/
def rangeFrom (p0 : Int) : Int := if p0 < 0 then 0 else p0

/-- `if (p1 < 0) p1 = std::numeric_limits<llama_pos>::max();` -/
def rangeTo (p1 : Int) : Int := if p1 < 0 then posMax else p1

/-- `llama_kv_cache_clear`. -/
def llamaKvCacheClear (c : KvCache) : KvCache :=
  { c with
    cells := fun i =>
      if i < c.size then { c.cells i with pos := -1, src := i, seqId := ∅ } else c.cells i
    head := 0
    used := 0 }

/-- The recurrent branch of `llama_kv_cache_seq_rm` refuses a partial removal. -/
def seqRmRefused (c : KvCache) (s p0 p1 : Int) : Bool :=
  c.recurrent && (decide ((c.size : Int) ≤ s) ||
    (if 0 ≤ s then
      decide ((0 < p0 ∧ p0 ≤ (c.cells s.toNat).pos) ∨ (0 < p1 ∧ p1 ≤ (c.cells s.toNat).pos))
    else decide (p0 ≠ p1 ∧ (p0 ≠ 0 ∨ p1 ≠ posMax))))

/-- The body of the loop of `llama_kv_cache_seq_rm`. -/
def seqRmCell (qnext : Bool) (s p0 p1 : Int) (i : Nat) (cell : KvCell) : CellStep :=
  if p0 ≤ cell.pos ∧ cell.pos < p1 then
    if s < 0 ∨ cell.hasSeqId s then
      let cell := if s < 0 then cell.clearSeq else cell.eraseSeq s
      if cell.isEmpty then
        .free { cell with pos := -1, src := if qnext then i else cell.src } (0 ≤ cell.pos)
      else .put cell
    else .put cell
  else .put cell

/-- `llama_kv_cache_seq_rm`: whether it was possible, and the cache after it. -/
def llamaKvCacheSeqRm (c : KvCache) (s p0 p1 : Int) : Bool × KvCache :=
  if seqRmRefused c s (rangeFrom p0) (rangeTo p1) then (false, c)
  else
    let w := sweep c (seqRmCell c.hasQnextState s (rangeFrom p0) (rangeTo p1))
    (true, { c with cells := w.cells, used := w.used, head := w.head c })

/-- The body of the loop of `llama_kv_cache_seq_cp`. -/
def seqCpCell (src dst p0 p1 : Int) (_ : Nat) (cell : KvCell) : CellStep :=
  .put (if cell.hasSeqId src ∧ p0 ≤ cell.pos ∧ cell.pos < p1 then cell.addSeq dst else cell)

/-- The part that is about recurrent state storage: the destination cell takes over the
source of the source. It asserts that this is a cell. -/
def seqCpQnext (c : KvCache) (src dst : Int) : Option (Int × KvCache) :=
  if c.hasQnextState ∧ c.qnextSeqIdInRange dst ∧ c.qnextSeqIdInRange src ∧ c.seqIdFits dst ∧
      c.seqIdFits src then
    let src := (c.cells src.toNat).src
    if c.seqIdFits src then
      let cells := Function.update c.cells dst.toNat { c.cells dst.toNat with src := src }
      let cells := Function.update cells dst.toNat
        { cells dst.toNat with pos := (cells src.toNat).pos }
      some (src, { c with cells := cells, doCopy := true })
    else none
  else some (src, c)

/-- `llama_kv_cache_seq_cp`; `none` when an assertion fails. -/
def llamaKvCacheSeqCp (c : KvCache) (src dst p0 p1 : Int) : Option KvCache :=
  if c.recurrent then
    if c.seqIdFits dst ∧ c.seqIdFits src then
      let src := (c.cells src.toNat).src
      if c.seqIdFits src then
        let cells := Function.update c.cells dst.toNat { c.cells dst.toNat with src := src }
        let dstCell := cells dst.toNat
        let dstCell :=
          if (cells src.toNat).hasSeqId src then dstCell.addSeq dst else dstCell.eraseSeq dst
        let cells := Function.update cells dst.toNat dstCell
        let cells := Function.update cells dst.toNat
          { cells dst.toNat with pos := (cells src.toNat).pos }
        some { c with cells := cells, doCopy := true }
      else none
    else some c
  else
    match seqCpQnext c src dst with
    | none => none
    | some (src, c) =>
      let w := sweep c (seqCpCell src dst (rangeFrom p0) (rangeTo p1))
      some { c with cells := w.cells, head := 0 }

/-- The body of the loop of `llama_kv_cache_seq_keep`. -/
def seqKeepCell (qnext : Bool) (s : Int) (i : Nat) (cell : KvCell) : CellStep :=
  if cell.hasSeqId s then .put (cell.clearSeq.addSeq s)
  else
    .free { cell.clearSeq with pos := -1, src := if qnext then i else cell.src } (0 ≤ cell.pos)

/-- `llama_kv_cache_seq_keep`. -/
def llamaKvCacheSeqKeep (c : KvCache) (s : Int) : KvCache :=
  let w := sweep c (seqKeepCell c.hasQnextState s)
  { c with cells := w.cells, used := w.used, head := w.head c }

/-- The cell carries the sequence at a position in the range. -/
def KvCell.inRange (cell : KvCell) (s p0 p1 : Int) : Bool :=
  cell.hasSeqId s && decide (p0 ≤ cell.pos ∧ cell.pos < p1)

/-- The body of the loop of `llama_kv_cache_seq_add`. -/
def seqAddCell (s p0 p1 delta : Int) (_ : Nat) (cell : KvCell) : CellStep :=
  if cell.inRange s p0 p1 then
    let cell := { cell with pos := cell.pos + delta, delta := cell.delta + delta }
    if cell.pos < 0 then .free { cell.clearSeq with pos := -1 } (!cell.isEmpty) else .put cell
  else .put cell

/-- The recurrent branch of `llama_kv_cache_seq_add` and `llama_kv_cache_seq_div`: the
position of one cell. -/
def seqShiftRecurrent (c : KvCache) (s p0 p1 : Int) (f : Int → Int) : KvCache :=
  if 0 ≤ s ∧ s < c.size ∧ (c.cells s.toNat).inRange s p0 p1 then
    let cell := c.cells s.toNat
    { c with cells := Function.update c.cells s.toNat { cell with pos := f cell.pos } }
  else c

/-- `llama_kv_cache_seq_add`. -/
def llamaKvCacheSeqAdd (c : KvCache) (s p0 p1 delta : Int) : KvCache :=
  let p0 := rangeFrom p0
  let p1 := rangeTo p1
  if p0 = p1 then c
  else if c.recurrent then seqShiftRecurrent c s p0 p1 (· + delta)
  else
    let w := sweep c (seqAddCell s p0 p1 delta)
    { c with
      hasShift := c.hasShift || (List.range c.size).any fun i => (c.cells i).inRange s p0 p1
      cells := w.cells
      used := w.used
      head := if w.newHead ≠ c.size then w.newHead else 0 }

/-- The body of the loop of `llama_kv_cache_seq_div`. The C quotient truncates. -/
def seqDivCell (s p0 p1 d : Int) (_ : Nat) (cell : KvCell) : CellStep :=
  if cell.inRange s p0 p1 then
    let pos := cell.pos.tdiv d
    .put { cell with pos := pos, delta := cell.delta + (pos - cell.pos) }
  else .put cell

/-- `llama_kv_cache_seq_div`. -/
def llamaKvCacheSeqDiv (c : KvCache) (s p0 p1 d : Int) : KvCache :=
  let p0 := rangeFrom p0
  let p1 := rangeTo p1
  if p0 = p1 then c
  else if c.recurrent then seqShiftRecurrent c s p0 p1 (·.tdiv d)
  else
    { c with
      hasShift := c.hasShift || (List.range c.size).any fun i => (c.cells i).inRange s p0 p1
      cells := (sweep c (seqDivCell s p0 p1 d)).cells }

/-! ### Facts about one pass -/

theorem sweepStep_cells (size : Nat) (body : Nat → KvCell → CellStep) (w : Sweep) (i : Nat) :
    (sweepStep size body w i).cells = Function.update w.cells i (body i (w.cells i)).cell := by
  rw [sweepStep]
  cases body i (w.cells i) with
  | put cell => rfl
  | free cell counted => rfl

/-- A pass changes each cell it visits once, by the body alone. -/
theorem foldl_sweepStep_cells (size : Nat) (body : Nat → KvCell → CellStep) {is : List Nat}
    (hnd : is.Nodup) (w : Sweep) (i : Nat) :
    (is.foldl (sweepStep size body) w).cells i
      = if i ∈ is then (body i (w.cells i)).cell else w.cells i := by
  induction is generalizing w with
  | nil => rfl
  | cons j is ih =>
    obtain ⟨hj, hnd⟩ := List.nodup_cons.mp hnd
    rw [List.foldl_cons, ih hnd, sweepStep_cells]
    by_cases hij : i = j
    · rw [hij, if_neg hj, if_pos (List.mem_cons_self ..), Function.update_self]
    · rw [Function.update_of_ne hij]
      simp only [List.mem_cons, hij, false_or]

@[simp] theorem sweep_cells (c : KvCache) (body : Nat → KvCell → CellStep) (i : Nat) :
    (sweep c body).cells i
      = if i < c.size then (body i (c.cells i)).cell else c.cells i := by
  rw [sweep, sweepOver, foldl_sweepStep_cells _ _ List.nodup_range]
  simp only [List.mem_range]

end PxqLlama.Kv
