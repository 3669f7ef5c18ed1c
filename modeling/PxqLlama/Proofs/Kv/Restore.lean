import PxqLlama.Kv.SeqState
import PxqLlama.Proofs.Kv.Slot
import PxqLlama.Kv.Edit

/-!
# `Proofs.Kv.Restore`: the cells of a restore

A restore first drops the sequence: `KvCell.drop` is what that does to one cell. Then it places
the saved positions as one ubatch. So it ends in one of three ways (`MetaRead`): it aborts on a
blob without cells, it finds no run of free cells, or it fills the next slot, which starts from
the head as the drop leaves it.
-/

namespace PxqLlama.Kv

/-! ### The drop -/

/-- The cell without the sequence. A position that a removal does not reach stays. -/
def KvCell.drop (qnext : Bool) (d : Int) (i : Nat) (cell : KvCell) : KvCell :=
  if d ∈ cell.seqId ∧ 0 ≤ cell.pos ∧ cell.pos < posMax then
    if cell.seqId.erase d = ∅ then
      { cell with pos := -1, src := if qnext then i else cell.src, seqId := ∅ }
    else cell.eraseSeq d
  else cell

theorem seqRmCell_all {d : Int} (hd : 0 ≤ d) (qnext : Bool) (i : Nat) (cell : KvCell) :
    (seqRmCell qnext d 0 posMax i cell).cell = cell.drop qnext d i := by
  have hneg : ¬ d < 0 := Int.not_lt.mpr hd
  rw [seqRmCell, KvCell.drop]
  by_cases hrange : 0 ≤ cell.pos ∧ cell.pos < posMax
  · simp only [hrange, and_self, if_true, hneg, false_or, if_false, and_true, KvCell.hasSeqId,
      decide_eq_true_eq, KvCell.isEmpty, KvCell.eraseSeq]
    split
    · split
      · rename_i hempty
        rw [CellStep.cell, hempty]
      · rfl
    · rfl
  · rw [if_neg hrange, if_neg fun h => hrange h.2]
    rfl

section
variable {c : KvCache} {d : Int}

/-- The public removal of a sequence, without a sliding cache. -/
theorem kvSeqRm_dropSeq {ctx : KvContext} (hswa : ctx.swaKvActive = false) :
    (kvSeqRm ctx d (-1) (-1)).2 = { ctx with kvSelf := dropSeq ctx.kvSelf d } :=
  kvSeqRm_inactive hswa d (-1) (-1)

/-- What the drop of a sequence leaves besides the cells. -/
theorem dropSeq_shape (hrec : c.recurrent = false) :
    (dropSeq c d).size = c.size ∧ (dropSeq c d).recurrent = false ∧
      (dropSeq c d).qnextSlots = c.qnextSlots ∧ (dropSeq c d).doDefrag = c.doDefrag ∧
      (dropSeq c d).hasShift = c.hasShift := by
  rw [dropSeq, llamaKvCacheSeqRm, if_neg (by simp [seqRmRefused, hrec])]
  exact ⟨rfl, hrec, rfl, rfl, rfl⟩

theorem dropSeq_cell (hrec : c.recurrent = false) (hd : 0 ≤ d) {i : Nat} (hi : i < c.size) :
    (dropSeq c d).cells i = (c.cells i).drop c.hasQnextState d i := by
  have hcell := (edited_seqRm hrec d (-1) (-1)).cell i hi
  rw [dropSeq, hcell, ← seqRmCell_all hd]
  rfl

theorem dropSeq_head_le (hrec : c.recurrent = false) (hhead : c.head ≤ c.size) :
    (dropSeq c d).head ≤ (dropSeq c d).size := by
  rw [(dropSeq_shape hrec).1]
  exact (edited_seqRm hrec d (-1) (-1)).head hhead

end

section
variable {qnext : Bool} {d : Int} {i : Nat} {cell : KvCell}

@[simp] theorem drop_delta : (cell.drop qnext d i).delta = cell.delta := by
  rw [KvCell.drop]
  split
  · split <;> rfl
  · rfl

/-- A cell that has a position when the sequence is dropped had it before. -/
theorem drop_pos (hpos : 0 ≤ (cell.drop qnext d i).pos) :
    (cell.drop qnext d i).pos = cell.pos := by
  rw [KvCell.drop] at hpos ⊢
  split at hpos
  · rename_i hheld
    rw [if_pos hheld]
    split at hpos
    · exact absurd hpos (by simp)
    · rename_i hne
      rw [if_neg hne]
      rfl
  · rename_i hother
    rw [if_neg hother]

/-- A cell with the sequence keeps its position when that is out of the reach of a removal, or
when the cell has another sequence. -/
theorem drop_pos_cases (hmem : d ∈ cell.seqId) (hpos : 0 ≤ (cell.drop qnext d i).pos) :
    posMax ≤ cell.pos ∨ (cell.seqId.erase d).Nonempty := by
  have heq := drop_pos hpos
  rw [heq] at hpos
  by_contra hneither
  rw [not_or, Int.not_le, Finset.not_nonempty_iff_eq_empty] at hneither
  rw [KvCell.drop, if_pos ⟨hmem, hpos, hneither.1⟩, if_pos hneither.2] at heq
  simp only at heq
  omega

end

/-! ### The placement -/

/-- The three ways of a restore of the cells. -/
inductive MetaRead (c : KvCache) (d : Int) (pos : List Int) : Option (Bool × KvCache) → Prop
  | aborted (hpos : pos = []) : MetaRead c d pos none
  | full {h : Nat} (hpos : pos ≠ []) (hfull : ∀ k, ¬ (dropSeq c d).FreeRun pos.length k)
    (hle : h ≤ c.size) : MetaRead c d pos (some (false, { dropSeq c d with head := h }))
  | placed {h : Nat} (hpos : pos ≠ []) (hslot : (dropSeq c d).NextSlot pos.length h) :
    MetaRead c d pos (some (true, (dropSeq c d).place h (restoreBatch d pos)))

section
variable {c : KvCache} {d : Int} {pos : List Int}

@[simp] theorem restoreBatch_length : (restoreBatch d pos).length = pos.length := by
  simp [restoreBatch]

/-- A cell of the slot holds its position and the sequence. -/
theorem place_restored_mem {h i : Nat} {p : Int} (hp : pos[i]? = some p) :
    (c.place h (restoreBatch d pos)).cells (h + i)
      = { c.cells (h + i) with pos := p, seqId := insert d (c.cells (h + i)).seqId } := by
  obtain ⟨hi, rfl⟩ := List.getElem?_eq_some_iff.mp hp
  have hi' : i < (restoreBatch d pos).length := by simpa using hi
  show placeTokens c.cells h (restoreBatch d pos) (h + i) = _
  rw [placeTokens_mem hi']
  simp only [restoreBatch, List.getElem_map]
  congr 1
  ext s
  simp

theorem place_restored_of_not_mem {h i : Nat} (hi : i < h ∨ h + pos.length ≤ i) :
    (c.place h (restoreBatch d pos)).cells i = c.cells i := by
  apply placeTokens_of_not_mem
  rwa [restoreBatch_length]

/-- The assertions about the slot hold. -/
theorem placeRestored_placed (hpos : pos ≠ []) {h : Nat} (hslot : c.NextSlot pos.length h)
    (hfound : llamaKvCacheFindSlot c (restoreBatch d pos)
      = (true, c.place h (restoreBatch d pos))) :
    placeRestored c d pos = some (true, c.place h (restoreBatch d pos)) := by
  have hlength : 0 < pos.length := List.length_pos_iff.mpr hpos
  have hfirst := place_restored_mem (c := c) (d := d) (h := h)
    (List.getElem?_eq_getElem hlength)
  have hlast := place_restored_mem (c := c) (d := d) (h := h)
    (List.getElem?_eq_getElem (show pos.length - 1 < pos.length by omega))
  rw [Nat.add_zero] at hfirst
  rw [placeRestored, hfound]
  have hhead : (c.place h (restoreBatch d pos)).head = h := rfl
  have hsize : (c.place h (restoreBatch d pos)).size = c.size := rfl
  simp only [if_true, hhead, hsize, Nat.add_sub_assoc hlength, hfirst, hlast]
  rw [if_pos]
  refine ⟨hslot.freeRun.1, ?_, ?_, ?_, ?_⟩
  · rw [List.head?_eq_getElem?, List.getElem?_eq_getElem hlength]
  · rw [List.getLast?_eq_getElem?, List.getElem?_eq_getElem]
  · simp [KvCell.hasSeqId]
  · simp [KvCell.hasSeqId]

/-- What the reader of the cells leaves in a cache that is not recurrent. -/
theorem readKvCacheMeta_read (hrec : c.recurrent = false) (hhead : c.head ≤ c.size) (d : Int)
    (pos : List Int) : MetaRead c d pos (readKvCacheMeta c d pos) := by
  obtain ⟨hsize, hrec', -⟩ := dropSeq_shape (d := d) hrec
  have hhead' := dropSeq_head_le (d := d) hrec hhead
  have halloc := findSlot_allocated (b := restoreBatch d pos) hrec' hhead'
  rw [readKvCacheMeta]
  by_cases hpos : pos = []
  · -- no first cell to compare with
    subst hpos
    have hnone : placeRestored (dropSeq c d) d [] = none := by
      have hyes := halloc.found_iff.mpr
        ⟨(dropSeq c d).head, hhead', fun i hi => absurd hi (Nat.not_lt_zero i)⟩
      rw [placeRestored]
      simp only [hyes, if_true]
      rw [if_neg]
      rintro ⟨-, hfirst, -⟩
      cases hfirst
    rw [hnone]
    exact .aborted rfl
  · generalize hr : llamaKvCacheFindSlot (dropSeq c d) (restoreBatch d pos) = r at halloc
    cases halloc with
    | found hslot =>
      rw [restoreBatch_length] at hslot
      rw [placeRestored_placed hpos hslot hr]
      exact .placed hpos hslot
    | full hfull hle =>
      rw [restoreBatch_length] at hfull
      rw [placeRestored, hr]
      simp only [Bool.false_eq_true, if_false]
      exact .full hpos hfull (hsize ▸ hle)

end

end PxqLlama.Kv
