import PxqLlama.Kv.Edit

/-!
# `Proofs.Kv.SeqCopy`: when a sequence copy only shares cells

`llama_kv_cache_seq_cp` is to let the destination share the cells of the source. Where recurrent
states have rows, it also notes that the row of the destination takes over a row, in the cells
with the numbers of the two sequences. Those cells hold tokens too. The note goes to the cell of
the destination with a position, and the loop over the tokens then looks for the source of the
source.

`SharesOnly` is the contract, and `sharesOnly_iff` says exactly when the code meets it. Without
rows of recurrent state the first part of the condition is empty.
-/

namespace PxqLlama.Kv

/-- A position in the range of a call. A bound below zero is none. -/
def InBounds (p0 p1 pos : Int) : Prop := (p0 < 0 ∨ p0 ≤ pos) ∧ (p1 < 0 ∨ pos < p1)

/-- The destination shares the cells of the source in the range, and nothing else changes. -/
structure SharesOnly (c : KvCache) (src dst p0 p1 : Int) (c' : KvCache) : Prop where
  pos : ∀ i < c.size, (c'.cells i).pos = (c.cells i).pos
  occupied : ∀ i < c.size, 0 ≤ (c'.cells i).pos ↔ 0 ≤ (c.cells i).pos
  used : c'.used = c.used
  holds : ∀ i < c.size, dst ∈ (c'.cells i).seqId ↔
    dst ∈ (c.cells i).seqId ∨ src ∈ (c.cells i).seqId ∧ InBounds p0 p1 (c.cells i).pos

/-- The branch about recurrent state is taken. -/
def KvCache.CopiesRow (c : KvCache) (src dst : Int) : Prop :=
  c.hasQnextState ∧ c.qnextSeqIdInRange dst ∧ c.qnextSeqIdInRange src ∧ c.seqIdFits dst ∧
    c.seqIdFits src

instance (c : KvCache) (src dst : Int) : Decidable (c.CopiesRow src dst) :=
  inferInstanceAs (Decidable (_ ∧ _))

/-- `seq_id_src` when the loop over the cells begins. -/
def KvCache.loopSource (c : KvCache) (src dst : Int) : Int :=
  if c.CopiesRow src dst then (c.cells src.toNat).src else src

/-- The state before the call lets a copy share cells only. A row that is copied comes from a cell
with the position of the destination's cell. A cell without the destination holds what the loop
looks for, at a position the loop covers, exactly when it was asked for. -/
structure KvCache.CopyHarmless (c : KvCache) (src dst p0 p1 : Int) : Prop where
  row : c.CopiesRow src dst →
    (c.cells (c.loopSource src dst).toNat).pos = (c.cells dst.toNat).pos
  cells : ∀ i < c.size, dst ∉ (c.cells i).seqId →
    (c.loopSource src dst ∈ (c.cells i).seqId ∧ rangeFrom p0 ≤ (c.cells i).pos ∧
        (c.cells i).pos < rangeTo p1 ↔
      src ∈ (c.cells i).seqId ∧ InBounds p0 p1 (c.cells i).pos)

/-- The cells when the loop begins. -/
def KvCache.rowCopied (c : KvCache) (src dst : Int) : Nat → KvCell :=
  if c.CopiesRow src dst then
    Function.update c.cells dst.toNat { c.cells dst.toNat with
      src := c.loopSource src dst
      pos := (c.cells (c.loopSource src dst).toNat).pos }
  else c.cells

/-- What a copy does that does not abort: the note, and then the loop. -/
theorem seqCp_cases {c c' : KvCache} {src dst p0 p1 : Int} (hrec : c.recurrent = false)
    (h : llamaKvCacheSeqCp c src dst p0 p1 = some c') :
    c'.used = c.used ∧ ∀ i < c.size, c'.cells i =
      (seqCpCell (c.loopSource src dst) dst (rangeFrom p0) (rangeTo p1) i
        (c.rowCopied src dst i)).cell := by
  rw [llamaKvCacheSeqCp, if_neg (by simp [hrec])] at h
  by_cases hrow : c.CopiesRow src dst
  · have hsrc : c.loopSource src dst = (c.cells src.toNat).src := if_pos hrow
    by_cases hfits : c.seqIdFits (c.cells src.toNat).src = true
    · have hq : seqCpQnext c src dst = some _ := (if_pos hrow).trans (if_pos hfits)
      rw [hq] at h
      -- The first update writes the source only, so the position read is the one of before.
      have hpos : (Function.update c.cells dst.toNat
            { c.cells dst.toNat with src := (c.cells src.toNat).src }
          (c.cells src.toNat).src.toNat).pos = (c.cells (c.cells src.toNat).src.toNat).pos := by
        by_cases heq : (c.cells src.toNat).src.toNat = dst.toNat
        · rw [heq, Function.update_self]
        · rw [Function.update_of_ne heq]
      obtain rfl := Option.some.inj h
      refine ⟨rfl, fun i hi => ?_⟩
      show (sweep _ _).cells i = _
      rw [sweep_cells, if_pos hi, hpos, KvCache.rowCopied, if_pos hrow, hsrc]
      simp only [Function.update_self, Function.update_idem]
    · have hq : seqCpQnext c src dst = none := (if_pos hrow).trans (if_neg hfits)
      rw [hq] at h
      cases h
  · have hsrc : c.loopSource src dst = src := if_neg hrow
    have hq : seqCpQnext c src dst = some (src, c) := if_neg hrow
    rw [hq] at h
    obtain rfl := Option.some.inj h
    refine ⟨rfl, fun i hi => ?_⟩
    show (sweep _ _).cells i = _
    rw [sweep_cells, if_pos hi, KvCache.rowCopied, if_neg hrow, hsrc]

/-- The loop keeps the position of a cell. -/
theorem seqCpCell_pos (src dst p0 p1 : Int) (i : Nat) (cell : KvCell) :
    (seqCpCell src dst p0 p1 i cell).cell.pos = cell.pos := by
  show (if _ then _ else _ : KvCell).pos = _
  split <;> rfl

/-- Who holds the destination after the loop. -/
theorem mem_seqCpCell (src dst p0 p1 : Int) (i : Nat) (cell : KvCell) :
    dst ∈ (seqCpCell src dst p0 p1 i cell).cell.seqId ↔
      dst ∈ cell.seqId ∨ src ∈ cell.seqId ∧ p0 ≤ cell.pos ∧ cell.pos < p1 := by
  show dst ∈ (if cell.hasSeqId src ∧ p0 ≤ cell.pos ∧ cell.pos < p1 then cell.addSeq dst
    else cell).seqId ↔ _
  have hhas : cell.hasSeqId src = true ↔ src ∈ cell.seqId := decide_eq_true_iff
  split
  · rename_i hin
    rw [hhas] at hin
    exact iff_of_true (Finset.mem_insert_self dst cell.seqId) (Or.inr hin)
  · rename_i hout
    rw [hhas] at hout
    exact ⟨Or.inl, fun h => h.resolve_right hout⟩

section
variable {c : KvCache} {src dst : Int}

theorem rowCopied_seqId (i : Nat) : (c.rowCopied src dst i).seqId = (c.cells i).seqId := by
  rw [KvCache.rowCopied]
  split
  · by_cases hi : i = dst.toNat
    · rw [hi, Function.update_self]
    · rw [Function.update_of_ne hi]
  · rfl

/-- The note leaves every position exactly when the row comes from the same position. -/
theorem rowCopied_pos_iff :
    (∀ i < c.size, (c.rowCopied src dst i).pos = (c.cells i).pos) ↔
      (c.CopiesRow src dst →
        (c.cells (c.loopSource src dst).toNat).pos = (c.cells dst.toNat).pos) := by
  constructor
  · intro h hrow
    have hfits : 0 ≤ dst ∧ dst < c.size := of_decide_eq_true hrow.2.2.2.1
    have hdst := h dst.toNat (by omega)
    rwa [KvCache.rowCopied, if_pos hrow, Function.update_self] at hdst
  · intro h i _
    rw [KvCache.rowCopied]
    split
    · rename_i hrow
      by_cases hi : i = dst.toNat
      · rw [hi, Function.update_self]
        exact h hrow
      · rw [Function.update_of_ne hi]
    · rfl

end

/-- **When a copy shares cells only.** A call on a cache that is not recurrent, and that does not
abort, lets the destination share the cells asked for and changes nothing else exactly when the
cells before the call are as `CopyHarmless` says. -/
theorem sharesOnly_iff {c c' : KvCache} {src dst p0 p1 : Int} (hrec : c.recurrent = false)
    (h : llamaKvCacheSeqCp c src dst p0 p1 = some c') :
    SharesOnly c src dst p0 p1 c' ↔ c.CopyHarmless src dst p0 p1 := by
  obtain ⟨hused, hcells⟩ := seqCp_cases hrec h
  have hpos : ∀ i < c.size, (c'.cells i).pos = (c.rowCopied src dst i).pos := by
    intro i hi
    rw [hcells i hi, seqCpCell_pos]
  have hholds : ∀ i < c.size, dst ∈ (c'.cells i).seqId ↔ dst ∈ (c.cells i).seqId ∨
      c.loopSource src dst ∈ (c.cells i).seqId ∧ rangeFrom p0 ≤ (c.rowCopied src dst i).pos ∧
        (c.rowCopied src dst i).pos < rangeTo p1 := by
    intro i hi
    rw [hcells i hi, mem_seqCpCell, rowCopied_seqId]
  constructor
  · intro hshares
    have hsame : ∀ i < c.size, (c.rowCopied src dst i).pos = (c.cells i).pos := fun i hi =>
      (hpos i hi).symm.trans (hshares.pos i hi)
    refine ⟨rowCopied_pos_iff.mp hsame, fun i hi hdst => ?_⟩
    have hboth := (hholds i hi).symm.trans (hshares.holds i hi)
    rw [hsame i hi] at hboth
    simpa only [hdst, false_or] using hboth
  · intro hcond
    have hsame := rowCopied_pos_iff.mpr hcond.row
    refine ⟨fun i hi => (hpos i hi).trans (hsame i hi), fun i hi => ?_, hused, fun i hi => ?_⟩
    · rw [hpos i hi, hsame i hi]
    · rw [hholds i hi, hsame i hi]
      by_cases hdst : dst ∈ (c.cells i).seqId
      · exact iff_of_true (Or.inl hdst) (Or.inl hdst)
      · simpa only [hdst, false_or] using hcond.cells i hi hdst

/-- A hybrid cache of three cells with two rows of state. Sequence `0` has its tokens in the cells
`0` and `1`, the cell `2` is free. -/
def hybridCells : KvCache where
  qnextSlots := 2
  size := 3
  used := 2
  cells := fun i => if i < 2 then { pos := i, src := i, seqId := {0} } else { src := i }

/-- The copy of both tokens to sequence `1` puts the second token at the position of the first. -/
theorem not_sharesOnly_hybrid :
    ∃ c', llamaKvCacheSeqCp hybridCells 0 1 0 2 = some c' ∧ (c'.cells 1).pos = 0 ∧
      ¬ SharesOnly hybridCells 0 1 0 2 c' := by
  refine ⟨_, rfl, by decide, fun h => ?_⟩
  have hpos := h.pos 1 (by decide)
  revert hpos
  decide

/-- The same copy in a cache without rows of state. -/
theorem sharesOnly_iff_plain :
    ∃ c c' : KvCache, llamaKvCacheSeqCp c 0 1 0 2 = some c' ∧ c.CopyHarmless 0 1 0 2 ∧
      SharesOnly c 0 1 0 2 c' := by
  let c : KvCache := { hybridCells with qnextSlots := 0 }
  have hcond : c.CopyHarmless 0 1 0 2 := by
    refine ⟨fun hrow => absurd hrow (by decide), ?_⟩
    have hsource : c.loopSource 0 1 = 0 := rfl
    intro i _ _
    simp [hsource, rangeFrom, rangeTo, InBounds]
  refine ⟨c, _, rfl, hcond, (sharesOnly_iff rfl rfl).mpr hcond⟩

end PxqLlama.Kv
