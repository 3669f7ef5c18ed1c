import PxqLlama.Kv.Defrag
import PxqLlama.Lib.Runs

/-!
# `Kv.Edit`: runs on one cache

`SeqEdit` is one edit of the sequences of a cache. `CacheOp` is one call on a cache: an
edit, an allocation, a defragmentation, or a step of the checkpoint that lives in the cache
itself (`checkpoint_save`, `checkpoint_restore`, `checkpoint_delete`). `cacheRun` is a run of
calls.
-/

namespace PxqLlama.Kv

/-- One edit of the sequences. -/
inductive SeqEdit
  | rm (s p0 p1 : Int)
  | cp (src dst p0 p1 : Int)
  | keep (s : Int)
  | add (s p0 p1 delta : Int)
  | div (s p0 p1 d : Int)
  | clear

/-- The cache after an edit; `none` when an assertion fails. -/
def SeqEdit.apply (c : KvCache) : SeqEdit → Option KvCache
  | .rm s p0 p1 => some (llamaKvCacheSeqRm c s p0 p1).2
  | .cp src dst p0 p1 => llamaKvCacheSeqCp c src dst p0 p1
  | .keep s => some (llamaKvCacheSeqKeep c s)
  | .add s p0 p1 delta => some (llamaKvCacheSeqAdd c s p0 p1 delta)
  | .div s p0 p1 d => some (llamaKvCacheSeqDiv c s p0 p1 d)
  | .clear => some (llamaKvCacheClear c)

/-- What an edit does to one cell; `qnext` says whether there is recurrent state storage. -/
def SeqEdit.cell (qnext : Bool) (i : Nat) (cell : KvCell) : SeqEdit → KvCell
  | .rm s p0 p1 => (seqRmCell qnext s (rangeFrom p0) (rangeTo p1) i cell).cell
  | .cp src dst p0 p1 => (seqCpCell src dst (rangeFrom p0) (rangeTo p1) i cell).cell
  | .keep s => (seqKeepCell qnext s i cell).cell
  | .add s p0 p1 delta =>
    if rangeFrom p0 = rangeTo p1 then cell
    else (seqAddCell s (rangeFrom p0) (rangeTo p1) delta i cell).cell
  | .div s p0 p1 d =>
    if rangeFrom p0 = rangeTo p1 then cell
    else (seqDivCell s (rangeFrom p0) (rangeTo p1) d i cell).cell
  | .clear => { cell with pos := -1, src := i, seqId := ∅ }

/-- What taking sequences out of a cell comes to: the cell keeps some at its position, or it is
freed, and counted when it had a position. -/
inductive CellRemoved (i : Nat) (cell : KvCell) : CellStep → Prop
  | kept {cell' : KvCell} (hseq : cell'.seqId ⊆ cell.seqId)
      (hne : cell.seqId.Nonempty → cell'.seqId.Nonempty) (hpos : cell'.pos = cell.pos)
      (hdelta : cell'.delta = cell.delta) (hsrc : cell'.src = cell.src) :
      CellRemoved i cell (.put cell')
  | freed {cell' : KvCell} (hseq : cell'.seqId = ∅) (hpos : cell'.pos = -1)
      (hdelta : cell'.delta = cell.delta) (hsrc : cell'.src = cell.src ∨ cell'.src = i) :
      CellRemoved i cell (.free cell' (0 ≤ cell.pos))

theorem CellRemoved.same (i : Nat) (cell : KvCell) : CellRemoved i cell (.put cell) :=
  .kept (Finset.Subset.refl _) id rfl rfl rfl

/-- What a removal leaves of a cell. -/
theorem seqRmCell_removed (qnext : Bool) (s p0 p1 : Int) (i : Nat) (cell : KvCell) :
    CellRemoved i cell (seqRmCell qnext s p0 p1 i cell) := by
  have htaken : (if s < 0 then cell.clearSeq else cell.eraseSeq s).seqId ⊆ cell.seqId ∧
      (if s < 0 then cell.clearSeq else cell.eraseSeq s).pos = cell.pos ∧
      (if s < 0 then cell.clearSeq else cell.eraseSeq s).delta = cell.delta ∧
      (if s < 0 then cell.clearSeq else cell.eraseSeq s).src = cell.src := by
    split
    · exact ⟨Finset.empty_subset _, rfl, rfl, rfl⟩
    · exact ⟨Finset.erase_subset s _, rfl, rfl, rfl⟩
  rw [seqRmCell]
  generalize (if s < 0 then cell.clearSeq else cell.eraseSeq s) = cell' at htaken ⊢
  obtain ⟨hseq, hpos, hdelta, hsrc⟩ := htaken
  split
  · split
    · simp only [hpos]
      split
      · rename_i hempty
        refine .freed (of_decide_eq_true hempty) rfl hdelta ?_
        cases qnext with
        | true => exact Or.inr rfl
        | false => exact Or.inl hsrc
      · rename_i hsome
        refine .kept hseq (fun _ => ?_) hpos hdelta hsrc
        exact Finset.nonempty_iff_ne_empty.mpr fun h => hsome (decide_eq_true h)
    · exact .same i cell
  · exact .same i cell

theorem seqKeepCell_removed (qnext : Bool) (s : Int) (i : Nat) (cell : KvCell) :
    CellRemoved i cell (seqKeepCell qnext s i cell) := by
  rw [seqKeepCell]
  split
  · rename_i hhas
    refine .kept ?_ (fun _ => ⟨s, Finset.mem_insert_self _ _⟩) rfl rfl rfl
    exact Finset.insert_subset (of_decide_eq_true hhas) (Finset.empty_subset _)
  · refine .freed rfl rfl rfl ?_
    cases qnext with
    | true => exact Or.inr rfl
    | false => exact Or.inl rfl

theorem KvCell.inRange_of_eq (cell : KvCell) (s : Int) {p0 p1 : Int} (h : p0 = p1) :
    cell.inRange s p0 p1 = false := by
  rw [KvCell.inRange, h, Bool.and_eq_false_iff]
  exact Or.inr (decide_eq_false (by omega))

/-- An empty range needs no case of its own. -/
theorem SeqEdit.cell_add (qnext : Bool) (i : Nat) (cell : KvCell) (s p0 p1 delta : Int) :
    SeqEdit.cell qnext i cell (.add s p0 p1 delta)
      = (seqAddCell s (rangeFrom p0) (rangeTo p1) delta i cell).cell := by
  rw [SeqEdit.cell, ite_eq_right_iff, seqAddCell]
  intro hempty
  rw [cell.inRange_of_eq s hempty]
  rfl

theorem SeqEdit.cell_div (qnext : Bool) (i : Nat) (cell : KvCell) (s p0 p1 d : Int) :
    SeqEdit.cell qnext i cell (.div s p0 p1 d)
      = (seqDivCell s (rangeFrom p0) (rangeTo p1) d i cell).cell := by
  rw [SeqEdit.cell, ite_eq_right_iff, seqDivCell]
  intro hempty
  rw [cell.inRange_of_eq s hempty]
  rfl

/-- The edit divides by one or more. -/
def SeqEdit.Ok : SeqEdit → Prop
  | .div _ _ _ d => 1 ≤ d
  | _ => True

/-- The edit copies no sequence, and so no recurrent state either. -/
def SeqEdit.NoCopy : SeqEdit → Prop
  | .cp _ _ _ _ => False
  | _ => True

/-! ### The checkpoint in the cache -/

/-- `cells_snapshot`, `head_snapshot` and `used_snapshot`. -/
structure KvSnapshot where
  cells : Nat → KvCell
  head : Nat
  used : Nat

/-- A cache with its checkpoint, when one is saved. -/
structure CkptCache where
  cache : KvCache
  ckpt : Option KvSnapshot

/-- `checkpoint_save`. -/
def checkpointSave (c : CkptCache) : CkptCache :=
  { c with ckpt := some { cells := c.cache.cells, head := c.cache.head, used := c.cache.used } }

/-- `checkpoint_restore`. -/
def checkpointRestore (c : CkptCache) : CkptCache :=
  match c.ckpt with
  | none => c
  | some ckpt =>
    { c with cache := { c.cache with cells := ckpt.cells, head := ckpt.head, used := ckpt.used } }

/-- `checkpoint_delete`. -/
def checkpointDelete (c : CkptCache) : CkptCache := { c with ckpt := none }

/-! ### Runs -/

/-- One call on a cache. -/
inductive CacheOp
  | findSlot (b : UBatch)
  | edit (e : SeqEdit)
  | defrag (maxMoves : Nat)
  | save
  | restore
  | delete

/-- The cache after a call; `none` when an assertion fails. -/
def cacheStep (c : CkptCache) : CacheOp → Option CkptCache
  | .findSlot b => some { c with cache := (llamaKvCacheFindSlot c.cache b).2 }
  | .edit e => (e.apply c.cache).map fun cache => { c with cache := cache }
  | .defrag maxMoves =>
    (llamaKvCacheDefragInternal c.cache maxMoves).map fun r => { c with cache := r.1 }
  | .save => some (checkpointSave c)
  | .restore => some (checkpointRestore c)
  | .delete => some (checkpointDelete c)

/-- The cache after a run of calls. -/
def cacheRun (c : CkptCache) : List CacheOp → Option CkptCache
  | [] => some c
  | op :: ops => (cacheStep c op).bind fun c => cacheRun c ops

/-- Tokens have a position and a sequence, and a defragmentation may make a move. -/
def CacheOp.Ok : CacheOp → Prop
  | .findSlot b => ∀ t ∈ b, 0 ≤ t.pos ∧ t.seqId ≠ []
  | .edit e => e.Ok
  | .defrag maxMoves => 1 ≤ maxMoves
  | _ => True

/-! ### What an edit does -/

/-- What an edit of a cache that is not recurrent leaves. -/
structure Edited (e : SeqEdit) (c c' : KvCache) : Prop where
  size : c'.size = c.size
  recurrent : c'.recurrent = c.recurrent
  qnextSlots : c'.qnextSlots = c.qnextSlots
  head : c.head ≤ c.size → c'.head ≤ c.size
  cell : ∀ i < c.size, c'.cells i = e.cell c.hasQnextState i (c.cells i)

variable {body : Nat → KvCell → CellStep}

/-- The first freed cell lies in the cache. -/
theorem foldl_sweepStep_newHead_le {size : Nat} {is : List Nat} (his : ∀ i ∈ is, i < size)
    {w : Sweep} (hw : w.newHead ≤ size) : (is.foldl (sweepStep size body) w).newHead ≤ size := by
  induction is generalizing w with
  | nil => exact hw
  | cons i is ih =>
    rw [List.foldl_cons]
    apply ih fun j hj => his j (List.mem_cons_of_mem _ hj)
    have hi := his i (List.mem_cons_self ..)
    rw [sweepStep]
    split
    · exact hw
    · simp only
      split <;> omega

theorem sweep_newHead_le (c : KvCache) (body : Nat → KvCell → CellStep) :
    (sweep c body).newHead ≤ c.size :=
  foldl_sweepStep_newHead_le (fun _ hi => List.mem_range.mp hi) (Nat.le_refl _)

theorem sweep_head_le {c : KvCache} (hhead : c.head ≤ c.size) : (sweep c body).head c ≤ c.size := by
  have := sweep_newHead_le c body
  rw [Sweep.head]
  split <;> omega

section
variable {c : KvCache}

theorem edited_seqKeep (s : Int) : Edited (.keep s) c (llamaKvCacheSeqKeep c s) where
  size := rfl
  recurrent := rfl
  qnextSlots := rfl
  head := sweep_head_le
  cell := by
    intro i hi
    show (sweep c _).cells i = _
    rw [sweep_cells, if_pos hi]
    rfl

theorem edited_clear : Edited .clear c (llamaKvCacheClear c) where
  size := rfl
  recurrent := rfl
  qnextSlots := rfl
  head := fun _ => Nat.zero_le _
  cell := by
    intro i hi
    simp only [llamaKvCacheClear, if_pos hi]
    rfl

theorem edited_seqCp (src dst p0 p1 : Int) :
    Edited (.cp src dst p0 p1) c { c with
      cells := (sweep c (seqCpCell src dst (rangeFrom p0) (rangeTo p1))).cells
      head := 0 } := by
  refine ⟨rfl, rfl, rfl, fun _ => Nat.zero_le _, fun i hi => ?_⟩
  simp only [sweep_cells, if_pos hi]
  rfl

variable (hrec : c.recurrent = false)
include hrec

theorem edited_seqRm (s p0 p1 : Int) : Edited (.rm s p0 p1) c (llamaKvCacheSeqRm c s p0 p1).2 := by
  rw [llamaKvCacheSeqRm, if_neg (by simp [seqRmRefused, hrec])]
  refine ⟨rfl, rfl, rfl, sweep_head_le, fun i hi => ?_⟩
  simp only [sweep_cells, if_pos hi]
  rfl

/-- A shift of positions is the edit of each cell. -/
theorem edited_seqAdd (s p0 p1 delta : Int) :
    Edited (.add s p0 p1 delta) c (llamaKvCacheSeqAdd c s p0 p1 delta) := by
  simp only [llamaKvCacheSeqAdd]
  split
  · rename_i hempty
    exact ⟨rfl, rfl, rfl, id, fun i _ => by rw [SeqEdit.cell, if_pos hempty]⟩
  · rename_i hrange
    rw [if_neg (by simp [hrec])]
    refine ⟨rfl, rfl, rfl, fun _ => ?_, fun i hi => ?_⟩
    · have := sweep_newHead_le c (seqAddCell s (rangeFrom p0) (rangeTo p1) delta)
      simp only
      split <;> omega
    · rw [SeqEdit.cell, if_neg hrange]
      simp only [sweep_cells, if_pos hi]

theorem edited_seqDiv (s p0 p1 d : Int) :
    Edited (.div s p0 p1 d) c (llamaKvCacheSeqDiv c s p0 p1 d) := by
  simp only [llamaKvCacheSeqDiv]
  split
  · rename_i hempty
    exact ⟨rfl, rfl, rfl, id, fun i _ => by rw [SeqEdit.cell, if_pos hempty]⟩
  · rename_i hrange
    rw [if_neg (by simp [hrec])]
    refine ⟨rfl, rfl, rfl, id, fun i hi => ?_⟩
    rw [SeqEdit.cell, if_neg hrange]
    simp only [sweep_cells, if_pos hi]

/-- Without recurrent state storage a copy does not abort. -/
theorem seqCp_eq (hqnext : c.qnextSlots = 0) (src dst p0 p1 : Int) :
    llamaKvCacheSeqCp c src dst p0 p1 = some { c with
      cells := (sweep c (seqCpCell src dst (rangeFrom p0) (rangeTo p1))).cells
      head := 0 } := by
  have hno : seqCpQnext c src dst = some (src, c) := by
    rw [seqCpQnext, if_neg (by simp [KvCache.hasQnextState, hqnext])]
  rw [llamaKvCacheSeqCp, if_neg (by simp [hrec]), hno]

/-- An edit that copies no state does not abort, and acts on each cell by itself. -/
theorem SeqEdit.apply_edited_of {e : SeqEdit} (hcopy : c.qnextSlots = 0 ∨ e.NoCopy) :
    ∃ c', e.apply c = some c' ∧ Edited e c c' := by
  cases e with
  | rm s p0 p1 => exact ⟨_, rfl, edited_seqRm hrec s p0 p1⟩
  | cp src dst p0 p1 =>
    rcases hcopy with hqnext | hno
    · exact ⟨_, seqCp_eq hrec hqnext src dst p0 p1, edited_seqCp src dst p0 p1⟩
    · exact hno.elim
  | keep s => exact ⟨_, rfl, edited_seqKeep s⟩
  | add s p0 p1 delta => exact ⟨_, rfl, edited_seqAdd hrec s p0 p1 delta⟩
  | div s p0 p1 d => exact ⟨_, rfl, edited_seqDiv hrec s p0 p1 d⟩
  | clear => exact ⟨_, rfl, edited_clear⟩

theorem SeqEdit.apply_edited (hqnext : c.qnextSlots = 0) (e : SeqEdit) :
    ∃ c', e.apply c = some c' ∧ Edited e c c' :=
  SeqEdit.apply_edited_of hrec (Or.inl hqnext)

end

/-!
## The first and the last position of a sequence

`llama_kv_cache_seq_pos_min` takes the position of the first cell that holds the sequence, and
`llama_kv_cache_seq_pos_max` the greatest of zero and the positions of all such cells.

`PosOp` is a call on the cache, or a move of the head as a decode makes it before and after its
graph.
-/

/-- `llama_kv_cache_seq_pos_max`. -/
def llamaKvCacheSeqPosMax (c : KvCache) (s : Int) : Int :=
  (List.range c.size).foldl
    (fun result i => if (c.cells i).hasSeqId s then max result (c.cells i).pos else result) 0

/-- `llama_kv_cache_seq_pos_min`: the loop stops at the first cell of the sequence. -/
def llamaKvCacheSeqPosMin (c : KvCache) (s : Int) : Int :=
  match (List.range c.size).find? fun i => (c.cells i).hasSeqId s with
  | some i => (c.cells i).pos
  | none => -1

/-- The positions of the cells that hold the sequence. -/
def KvCache.held (c : KvCache) (s : Int) : Set Int :=
  { p | ∃ i < c.size, s ∈ (c.cells i).seqId ∧ (c.cells i).pos = p }

/-- One call, or a new head. -/
inductive PosOp
  | call (op : CacheOp)
  | head (h : Nat)

/-- The cache after a call; `none` when an assertion fails. -/
def posStep (c : CkptCache) : PosOp → Option CkptCache
  | .call op => cacheStep c op
  | .head h => some { c with cache := { c.cache with head := h } }

end PxqLlama.Kv
