import PxqLlama.Proofs.Kv.Restore
import PxqLlama.Proofs.Kv.SelfHead

/-!
# `Proofs.Kv.PartialRestore`: a checkpoint without rows

A partial restore drops the cells of a sequence and places the saved positions in the next run of
free cells. The rows stay where they are, so a token comes back to its own row only when the
`k`-th saved cell is the `k`-th cell of that run. `CkptOk` says when that is, for the tokens that
the trim to `n_past` leaves, and `partial_restore_in_place_iff` that nothing less will do.

The cells of the other sequences are never in the run, and the two removals only take the
sequence out of them (`KeepsOthers`).
-/

namespace PxqLlama.Kv

/-- The cell `i` holds a token of the sequence. -/
def KvCache.HoldsAt (c : KvCache) (i : Nat) (s p : Int) : Prop :=
  i < c.size ∧ s ∈ (c.cells i).seqId ∧ (c.cells i).pos = p

instance (c : KvCache) (i : Nat) (s p : Int) : Decidable (c.HoldsAt i s p) :=
  inferInstanceAs (Decidable (_ ∧ _ ∧ _))

/-! ### The other sequences -/

/-- Cells in use by other sequences differ in the sequence at most. -/
def KeepsOthers (s : Int) (c c' : KvCache) : Prop :=
  c'.size = c.size ∧ ∀ i < c.size, 0 ≤ (c.cells i).pos → ((c.cells i).seqId.erase s).Nonempty →
    (c'.cells i).eraseSeq s = (c.cells i).eraseSeq s

section
variable {s : Int} {c c' c'' : KvCache}

theorem KeepsOthers.trans (h : KeepsOthers s c c') (h' : KeepsOthers s c' c'') :
    KeepsOthers s c c'' := by
  obtain ⟨hsize, hcell⟩ := h
  obtain ⟨hsize', hcell'⟩ := h'
  refine ⟨hsize'.trans hsize, fun i hi hpos hother => ?_⟩
  have heq := hcell i hi hpos hother
  obtain ⟨hpos', hseq⟩ : (c'.cells i).pos = (c.cells i).pos ∧
      (c'.cells i).seqId.erase s = (c.cells i).seqId.erase s := by
    simp only [KvCell.eraseSeq, KvCell.mk.injEq] at heq
    exact ⟨heq.1, heq.2.2.2⟩
  rw [hcell' i (hsize.symm ▸ hi) (hpos'.symm ▸ hpos) (hseq.symm ▸ hother), heq]

/-- Taking a sequence out of a cell that has others frees nothing. -/
theorem seqRmCell_eraseSeq {cell : KvCell} (hs : 0 ≤ s)
    (hother : (cell.seqId.erase s).Nonempty) (qnext : Bool) (p0 p1 : Int) (i : Nat) :
    (seqRmCell qnext s p0 p1 i cell).cell.eraseSeq s = cell.eraseSeq s := by
  rw [seqRmCell]
  split
  · split
    · have hne : (cell.eraseSeq s).isEmpty = false := decide_eq_false hother.ne_empty
      simp only [if_neg (Int.not_lt.mpr hs), hne, Bool.false_eq_true, if_false, CellStep.cell]
      simp only [KvCell.eraseSeq, Finset.erase_idem]
    · rfl
  · rfl

theorem keepsOthers_seqRm (hrec : c.recurrent = false) (hs : 0 ≤ s) (p0 p1 : Int) :
    KeepsOthers s c (llamaKvCacheSeqRm c s p0 p1).2 := by
  have hedited := edited_seqRm hrec s p0 p1
  refine ⟨hedited.size, fun i hi _ hother => ?_⟩
  rw [hedited.cell i hi]
  exact seqRmCell_eraseSeq hs hother ..

/-- A slot takes no cell in use. -/
theorem keepsOthers_place {h : Nat} {pos : List Int} (hslot : c.FreeRun pos.length h) :
    KeepsOthers s c (c.place h (restoreBatch s pos)) := by
  refine ⟨rfl, fun i hi hpos _ => ?_⟩
  have hout : i < h ∨ h + pos.length ≤ i := by
    by_contra hin
    have hfree := hslot.2 (i - h) (by omega)
    rw [KvCache.Free, show h + (i - h) = i by omega] at hfree
    omega
  rw [place_restored_of_not_mem hout]

end

/-! ### The tokens of the sequence -/

section
variable {s p : Int} {c : KvCache} {i : Nat}

/-- A removal moves no position. -/
theorem CellRemoved.pos {cell : KvCell} {step : CellStep} (h : CellRemoved i cell step) :
    step.cell.pos = cell.pos ∨ step.cell.pos = -1 := by
  cases h with
  | kept _ _ hpos _ _ => exact Or.inl hpos
  | freed _ hpos _ _ => exact Or.inr hpos

/-- The trim leaves the tokens below `n_past`. -/
theorem holdsAt_trim (hrec : c.recurrent = false) (hp : 0 ≤ p) {nPast : Int}
    (hlt : p < nPast) :
    (llamaKvCacheSeqRm c s nPast (-1)).2.HoldsAt i s p ↔ c.HoldsAt i s p := by
  have hedited := edited_seqRm hrec s nPast (-1)
  have hfrom : rangeFrom nPast = nPast := if_neg (by omega)
  rw [KvCache.HoldsAt, KvCache.HoldsAt, hedited.size]
  refine and_congr_right fun hi => ?_
  rw [hedited.cell i hi]
  by_cases hpos : (c.cells i).pos < nPast
  · -- the cell is out of the range
    have hput : SeqEdit.cell c.hasQnextState i (c.cells i) (.rm s nPast (-1)) = c.cells i := by
      rw [SeqEdit.cell, seqRmCell, hfrom, if_neg (by omega)]
      rfl
    rw [hput]
  · -- its position, if it keeps one, is not below `n_past`
    refine iff_of_false ?_ fun h => by omega
    rintro ⟨-, heq⟩
    have hcases := (seqRmCell_removed c.hasQnextState s (rangeFrom nPast) (rangeTo (-1)) i
      (c.cells i)).pos
    rw [SeqEdit.cell] at heq
    omega

/-- The drop leaves no token that it reaches. -/
theorem not_holdsAt_drop (hrec : c.recurrent = false) (hs : 0 ≤ s) (hp : 0 ≤ p)
    (hlt : p < posMax) : ¬ (dropSeq c s).HoldsAt i s p := by
  rintro ⟨hi, hmem, hpos⟩
  rw [(dropSeq_shape hrec).1] at hi
  rw [dropSeq_cell hrec hs hi] at hmem hpos
  have heq := drop_pos (hpos ▸ hp)
  rw [KvCell.drop] at hmem
  split at hmem
  · split at hmem
    · exact absurd hmem (Finset.notMem_empty s)
    · exact absurd hmem (Finset.notMem_erase s _)
  · rename_i hout
    exact hout ⟨hmem, by omega, by omega⟩

/-- A restored slot holds the tokens of the blob in their order. -/
theorem holdsAt_place (hrec : c.recurrent = false) (hs : 0 ≤ s) (hp : 0 ≤ p) (hlt : p < posMax)
    {h : Nat} {pos : List Int} (hslot : (dropSeq c s).FreeRun pos.length h) :
    ((dropSeq c s).place h (restoreBatch s pos)).HoldsAt i s p
      ↔ ∃ k, pos[k]? = some p ∧ i = h + k := by
  constructor
  · rintro ⟨hi, hmem, hpos⟩
    by_cases hin : h ≤ i ∧ i < h + pos.length
    · obtain ⟨k, rfl⟩ := Nat.exists_eq_add_of_le hin.1
      have hk := List.getElem?_eq_getElem (show k < pos.length by omega)
      rw [place_restored_mem hk] at hpos
      exact ⟨k, hpos ▸ hk, rfl⟩
    · -- no cell outside holds the sequence any more
      rw [place_restored_of_not_mem (by omega)] at hmem hpos
      exact absurd ⟨hi, hmem, hpos⟩ (not_holdsAt_drop hrec hs hp hlt)
  · rintro ⟨k, hk, rfl⟩
    have hlength := (List.getElem?_eq_some_iff.mp hk).1
    have hfits := hslot.1
    refine ⟨show h + k < (dropSeq c s).size by omega, ?_, ?_⟩
    · rw [place_restored_mem hk]
      exact Finset.mem_insert_self ..
    · rw [place_restored_mem hk]

end

/-! ### The saved cells -/

section
variable {c : KvCache} {s : Int}

theorem savedCells_eq (hs : 0 ≤ s) :
    savedCells c s = (List.range c.size).filter fun i => (c.cells i).hasSeqId s := by
  rw [savedCells, cellRanges, Ranges.places_ofTest]
  congr 1
  funext i
  rw [KvCache.writesCell, decide_eq_false (by omega), Bool.false_and, Bool.false_or]

theorem mem_savedCells (hs : 0 ≤ s) {i : Nat} :
    i ∈ savedCells c s ↔ i < c.size ∧ s ∈ (c.cells i).seqId := by
  rw [savedCells_eq hs, List.mem_filter, List.mem_range, KvCell.hasSeqId, decide_eq_true_eq]

theorem savedCells_pairwise (hs : 0 ≤ s) : (savedCells c s).Pairwise (· < ·) := by
  rw [savedCells_eq hs]
  exact List.pairwise_lt_range.filter _

end

/-- The tokens below `n_past` come back to their cells exactly when the `k`-th of the saved cells
is the `k`-th of the slot. -/
theorem in_place_iff {saved : List Nat} (hsaved : saved.Pairwise (· < ·)) (pos : Nat → Int)
    (h : Nat) (nPast : Int) :
    (∀ i p, 0 ≤ p → p < nPast →
      ((∃ k, (saved.map pos)[k]? = some p ∧ i = h + k) ↔ (i ∈ saved ∧ pos i = p))) ↔
    ∀ k i, saved[k]? = some i → 0 ≤ pos i → pos i < nPast → i = h + k := by
  constructor
  · intro hsame
    -- the cells with such a token, in the cache before and in the slot: both lists ascend, and
    -- they have the same members
    let ks := (List.range saved.length).filter fun k =>
      decide (0 ≤ pos (saved.getD k 0) ∧ pos (saved.getD k 0) < nPast)
    have hks : ∀ k, k ∈ ks ↔
        k < saved.length ∧ 0 ≤ pos (saved.getD k 0) ∧ pos (saved.getD k 0) < nPast := by
      intro k
      simp [ks]
    have hget : ∀ {k}, k < saved.length → saved[k]? = some (saved.getD k 0) := by
      intro k hk
      rw [List.getD_eq_getElem?_getD, List.getElem?_eq_getElem hk, Option.getD_some]
    have hascend : ks.Pairwise (· < ·) := List.pairwise_lt_range.filter _
    have hbefore : (ks.map fun k => saved.getD k 0).Pairwise (· < ·) := by
      rw [List.pairwise_map]
      refine hascend.imp_of_mem fun {a b} ha hb hab => ?_
      have hb' := ((hks b).mp hb).1
      have hlt := List.pairwise_iff_getElem.mp hsaved a b (by omega) hb' hab
      simpa [List.getD_eq_getElem?_getD, List.getElem?_eq_getElem hb',
        List.getElem?_eq_getElem (show a < saved.length by omega)] using hlt
    have hslot : (ks.map fun k => h + k).Pairwise (· < ·) := by
      rw [List.pairwise_map]
      exact hascend.imp fun hab => by omega
    have hmem : ∀ i, i ∈ ks.map (fun k => saved.getD k 0) ↔ i ∈ ks.map fun k => h + k := by
      intro i
      simp only [List.mem_map]
      constructor
      · rintro ⟨k, hk, rfl⟩
        obtain ⟨hlt, hge, hpast⟩ := (hks k).mp hk
        obtain ⟨k', hk', heq⟩ := (hsame _ _ hge hpast).mpr
          ⟨List.mem_of_getElem? (hget hlt), rfl⟩
        have hlt' : k' < saved.length := by
          simpa using (List.getElem?_eq_some_iff.mp hk').1
        rw [List.getElem?_map, hget hlt', Option.map_some, Option.some.injEq] at hk'
        exact ⟨k', (hks k').mpr ⟨hlt', by rwa [hk'], by rwa [hk']⟩, heq.symm⟩
      · rintro ⟨k, hk, rfl⟩
        obtain ⟨hlt, hge, hpast⟩ := (hks k).mp hk
        obtain ⟨hin, heq⟩ := (hsame (h + k) _ hge hpast).mp
          ⟨k, by rw [List.getElem?_map, hget hlt, Option.map_some], rfl⟩
        obtain ⟨k', hk'⟩ := List.getElem?_of_mem hin
        have hlt' := (List.getElem?_eq_some_iff.mp hk').1
        have hsome : saved.getD k' 0 = h + k := Option.some.inj ((hget hlt').symm.trans hk')
        exact ⟨k', (hks k').mpr ⟨hlt', by rwa [hsome, heq], by rwa [hsome, heq]⟩, hsome⟩
    have heq := hbefore.eq_of_mem_iff hslot hmem
    intro k i hk hge hpast
    have hlt := (List.getElem?_eq_some_iff.mp hk).1
    have hi : saved.getD k 0 = i := Option.some.inj ((hget hlt).symm.trans hk)
    rw [← hi]
    exact List.map_inj_left.mp heq k ((hks k).mpr ⟨hlt, hi.symm ▸ hge, hi.symm ▸ hpast⟩)
  · intro hin i p hge hpast
    constructor
    · rintro ⟨k, hk, rfl⟩
      rw [List.getElem?_map, Option.map_eq_some_iff] at hk
      obtain ⟨i, hi, rfl⟩ := hk
      rw [← hin k i hi hge hpast]
      exact ⟨List.mem_of_getElem? hi, rfl⟩
    · rintro ⟨hmem, rfl⟩
      obtain ⟨k, hk⟩ := List.getElem?_of_mem hmem
      exact ⟨k, by rw [List.getElem?_map, hk, Option.map_some], hin k i hk hge hpast⟩

/-! ### The restore -/

/-- The tokens of a placement, and the kind of cache that it leaves. -/
theorem HybridCache.rowsPlace {st : RowsState} (h : HybridCache st) (b : UBatch) :
    HybridCache (rowsPlace st b) ∧ (rowsPlace st b).ctx.kvSelf.size = st.ctx.kvSelf.size := by
  obtain ⟨n, hrewind⟩ := rewindHead_eq st.ctx.kvSelf b.length
  have hslot := findSlot_slotted (c := rewindHead st.ctx.kvSelf b.length)
    (by rw [hrewind]; exact h.recurrent) b
  have hhead := placeUbatch_selfHead h.recurrent h.head b
  -- besides the head, a search keeps the kind of the cache
  have hkind : (placeUbatch st.ctx b).2.kvSelf.recurrent = false ∧
      (placeUbatch st.ctx b).2.kvSelf.qnextSlots = st.ctx.kvSelf.qnextSlots ∧
      (placeUbatch st.ctx b).2.kvSelf.size = st.ctx.kvSelf.size ∧
      (placeUbatch st.ctx b).2.swaKvActive = false := by
    have hrec := hslot.recurrent
    have hqnext := hslot.qnextSlots
    have hsize := hslot.size
    rw [hrewind] at hrec hqnext hsize
    simp only [placeUbatch, placeSwa, h.active, Bool.false_eq_true, Bool.true_eq_false, if_false,
      hrewind]
    split
    · exact ⟨hrec.trans h.recurrent, hqnext, hsize, rfl⟩
    · rw [setSelfN, if_neg (by rw [hrec]; simp [h.recurrent])]
      exact ⟨hrec.trans h.recurrent, hqnext, hsize, rfl⟩
  obtain ⟨hrec, hqnext, hsize, hactive⟩ := hkind
  have hstates : decide (0 < (placeUbatch st.ctx b).2.kvSelf.qnextSlots) = true := by
    rw [hqnext]
    exact h.states
  rw [Kv.rowsPlace]
  simp only
  split
  · exact ⟨⟨hrec, hstates, hactive, hhead⟩, hsize⟩
  · exact ⟨⟨hrec, hstates, hactive, advanceHead_head_le ..⟩, hsize⟩

theorem HybridCache.placeAll {st : RowsState} (h : HybridCache st) (bs : List UBatch) :
    HybridCache (placeAll st bs) ∧ (placeAll st bs).ctx.kvSelf.size = st.ctx.kvSelf.size := by
  induction bs generalizing st with
  | nil => exact ⟨h, rfl⟩
  | cons b bs ih =>
    obtain ⟨hplaced, hsize⟩ := h.rowsPlace b
    obtain ⟨hall, hsize'⟩ := ih hplaced
    exact ⟨hall, hsize'.trans hsize⟩

/-- How a partial restore ends, for the tokens below `n_past`: the slot holds those of the blob, or
none is left. -/
inductive PartialRestored (vReads : Bool) (mid : KvCache) (blob : SeqBlob) (s nPast : Int)
    (after : KvCache) : Prop
  | placed {h : Nat} (haccepted : blobAccepted vReads mid blob s true = true)
    (hslot : (dropSeq mid s).NextSlot blob.pos.length h)
    (htokens : ∀ i p, 0 ≤ p → p < nPast →
      (after.HoldsAt i s p ↔ ∃ k, blob.pos[k]? = some p ∧ i = h + k))
  | gone (hno : blobAccepted vReads mid blob s true = false ∨
      ∀ h, ¬ (dropSeq mid s).NextSlot blob.pos.length h)
    (htokens : ∀ i p, 0 ≤ p → p < nPast → ¬ after.HoldsAt i s p)

section
variable {vReads : Bool} {blob : SeqBlob} {s nPast : Int}

/-- The trim leaves these tokens. -/
theorem PartialRestored.trim {mid after : KvCache} (hrec : after.recurrent = false)
    (h : PartialRestored vReads mid blob s nPast after) :
    PartialRestored vReads mid blob s nPast (llamaKvCacheSeqRm after s nPast (-1)).2 := by
  cases h with
  | placed haccepted hslot htokens =>
    refine .placed haccepted hslot fun i p hp hlt => ?_
    rw [holdsAt_trim hrec hp hlt]
    exact htokens i p hp hlt
  | gone hno htokens =>
    refine .gone hno fun i p hp hlt => ?_
    rw [holdsAt_trim hrec hp hlt]
    exact htokens i p hp hlt

/-- A partial restore aborts on a blob without cells. Otherwise it changes no row, and no cell in
use by another sequence. -/
theorem partialRestore_cases (vReads : Bool) {mid : RowsState} (h : HybridCache mid)
    (hs : 0 ≤ s) (hmax : nPast ≤ posMax) (hkeys : blob.keys = none) :
    (blob.pos = [] ∧ seqSetData vReads mid blob s true = none) ∨
    (blob.pos ≠ [] ∧ ∃ ok c, seqSetData vReads mid blob s true
        = some (ok, ⟨{ mid.ctx with kvSelf := c }, mid.rows⟩) ∧ c.recurrent = false ∧
      KeepsOthers s mid.ctx.kvSelf c ∧ PartialRestored vReads mid.ctx.kvSelf blob s nPast c) := by
  obtain ⟨hsize, hrec, hqnext, -⟩ := dropSeq_shape (d := s) h.recurrent
  have hundo : ∀ c : KvCache, (kvSeqRm { mid.ctx with kvSelf := c } s (-1) (-1)).2
      = { mid.ctx with kvSelf := dropSeq c s } :=
    fun c => kvSeqRm_dropSeq h.active
  have hrows : ∀ head, { mid.rows with
      self := loadedRows vReads mid.rows.self head blob true } = mid.rows := by
    intro head
    simp only [loadedRows, hkeys]
    split <;> rfl
  -- what every end that drops the sequence once more has
  have hdropped : ∀ c : KvCache, c.recurrent = false → KeepsOthers s mid.ctx.kvSelf c →
      (dropSeq c s).recurrent = false ∧ KeepsOthers s mid.ctx.kvSelf (dropSeq c s) ∧
        ∀ i p, 0 ≤ p → p < nPast → ¬ (dropSeq c s).HoldsAt i s p := by
    intro c hc hothers
    exact ⟨(dropSeq_shape hc).2.1, hothers.trans (keepsOthers_seqRm hc hs (-1) (-1)),
      fun i p hp hlt => not_holdsAt_drop hc hs hp (by omega)⟩
  have hothers : KeepsOthers s mid.ctx.kvSelf (dropSeq mid.ctx.kvSelf s) :=
    keepsOthers_seqRm h.recurrent hs (-1) (-1)
  have hmeta := readKvCacheMeta_read h.recurrent h.head s blob.pos
  rw [seqSetData, h.active, if_neg Bool.false_ne_true, readKvCache]
  generalize readKvCacheMeta mid.ctx.kvSelf s blob.pos = r at hmeta
  cases hmeta with
  | aborted hpos => exact Or.inl ⟨hpos, rfl⟩
  | @full h₀ hpos hfull hle =>
    obtain ⟨hrec', hothers', hgone⟩ :=
      hdropped { dropSeq mid.ctx.kvSelf s with head := h₀ } hrec hothers
    refine Or.inr ⟨hpos, false, _, ?_, hrec', hothers',
      .gone (Or.inr fun h hslot => hfull h hslot.freeRun) hgone⟩
    simp only [Option.map_some, Bool.false_eq_true, if_false, hundo]
  | @placed h₀ hpos hslot =>
    have hplaced : KeepsOthers s mid.ctx.kvSelf
        ((dropSeq mid.ctx.kvSelf s).place h₀ (restoreBatch s blob.pos)) :=
      hothers.trans (keepsOthers_place hslot.freeRun)
    have hrec' : ((dropSeq mid.ctx.kvSelf s).place h₀ (restoreBatch s blob.pos)).recurrent
        = false := hrec
    have hrange : KvCache.qnextSeqIdInRange
          ((dropSeq mid.ctx.kvSelf s).place h₀ (restoreBatch s blob.pos)) s
        = mid.ctx.kvSelf.qnextSeqIdInRange s := by
      simp only [KvCache.qnextSeqIdInRange, KvCache.place, hqnext]
    have haccepted : blobAccepted vReads
          ((dropSeq mid.ctx.kvSelf s).place h₀ (restoreBatch s blob.pos)) blob s true
        = blobAccepted vReads mid.ctx.kvSelf blob s true := by
      rw [blobAccepted, blobAccepted, expectedStateRows, expectedStateRows, hrange]
    by_cases hyes : blobAccepted vReads mid.ctx.kvSelf blob s true = true
    · refine Or.inr ⟨hpos, true, _, ?_, hrec', hplaced, .placed hyes hslot fun i p hp hlt =>
        holdsAt_place h.recurrent hs hp (by omega) hslot.freeRun⟩
      simp only [Option.map_some, if_true, haccepted, hyes, hrows]
    · obtain ⟨hrec₁, hothers₁, hgone⟩ := hdropped _ hrec' hplaced
      refine Or.inr ⟨hpos, false, _, ?_, hrec₁, hothers₁,
        .gone (Or.inl (by simpa using hyes)) hgone⟩
      simp only [Option.map_some, if_true, haccepted, if_neg hyes, hundo, hrows]

end

/-! ### The checkpoint -/

/-- What a restore owes: the tokens of the sequence below `n_past` are in the cells that they were
in when the checkpoint was saved, every row is as it was, and so is every cell in use by another
sequence. -/
structure CkptKept (before mid after : RowsState) (s nPast : Int) : Prop where
  tokens : ∀ i p, 0 ≤ p → p < nPast →
    (after.ctx.kvSelf.HoldsAt i s p ↔ before.ctx.kvSelf.HoldsAt i s p)
  rows : after.rows = mid.rows
  others : KeepsOthers s mid.ctx.kvSelf after.ctx.kvSelf

/-- When it is paid: the sequence had a cell, and no token below `n_past`, or the blob is accepted
and the slot that it takes has the saved cells of these tokens in their places. -/
structure CkptOk (vReads : Bool) (before mid : RowsState) (s nPast : Int) : Prop where
  held : ∃ i p, before.ctx.kvSelf.HoldsAt i s p
  kept : (∀ i p, 0 ≤ p → p < nPast → ¬ before.ctx.kvSelf.HoldsAt i s p) ∨
    (blobAccepted vReads mid.ctx.kvSelf (writeKvCache before s true) s true = true ∧
      ∃ h, (dropSeq mid.ctx.kvSelf s).NextSlot (savedCells before.ctx.kvSelf s).length h ∧
        ∀ k i, (savedCells before.ctx.kvSelf s)[k]? = some i →
          0 ≤ (before.ctx.kvSelf.cells i).pos → (before.ctx.kvSelf.cells i).pos < nPast →
          i = h + k)

/-- A checkpoint leaves the tokens at their rows exactly when the condition is met. -/
theorem partial_restore_in_place_iff {w : CkptState} (h : HybridCache w.st) (vReads : Bool)
    {s nPast : Int} (hs : 0 ≤ s) (hmax : nPast ≤ posMax) (bs : List UBatch) :
    (∃ w', ckptRun vReads w s bs nPast = some w' ∧
        CkptKept w.st (placeAll w.st bs) w'.st s nPast)
      ↔ CkptOk vReads w.st (placeAll w.st bs) s nPast := by
  have hmid := (h.placeAll bs).1
  have hheld : (∃ i p, w.st.ctx.kvSelf.HoldsAt i s p) ↔
      (writeKvCache w.st s true).pos ≠ [] := by
    rw [writeKvCache, ne_eq, List.map_eq_nil_iff, List.eq_nil_iff_forall_not_mem, not_forall_not]
    refine exists_congr fun i => ?_
    rw [mem_savedCells hs]
    exact ⟨fun ⟨_, hi, hmem, _⟩ => ⟨hi, hmem⟩, fun ⟨hi, hmem⟩ => ⟨_, hi, hmem, rfl⟩⟩
  have hbefore : ∀ i p, w.st.ctx.kvSelf.HoldsAt i s p ↔
      i ∈ savedCells w.st.ctx.kvSelf s ∧ (w.st.ctx.kvSelf.cells i).pos = p := by
    intro i p
    rw [KvCache.HoldsAt, mem_savedCells hs, and_assoc]
  have hrun : ckptRun vReads w s bs nPast
      = (seqSetData vReads (placeAll w.st bs) (writeKvCache w.st s true) s true).map fun r =>
          ⟨trimSeq r.2 s nPast,
            Function.update w.cpuStateBySeq s (some (writeKvCache w.st s true))⟩ := by
    simp only [ckptRun, llamaSpecCkptSave, llamaSpecCkptRestore, seqGetData, h.active,
      Bool.false_eq_true, if_false, Function.update_self]
  have hlength : (writeKvCache w.st s true).pos.length
      = (savedCells w.st.ctx.kvSelf s).length := by
    simp [writeKvCache]
  rcases partialRestore_cases vReads hmid hs hmax
    (show (writeKvCache w.st s true).keys = none from rfl) with ⟨hpos, hnone⟩ |
      ⟨hpos, ok, c, hsome, hrec, hothers, hends⟩
  · -- no cell was saved: the restore aborts
    refine iff_of_false ?_ fun hok => hheld.mp hok.held hpos
    rintro ⟨w', hw', -⟩
    rw [hrun, hnone] at hw'
    cases hw'
  · have hafter : ∀ P : RowsState → Prop, (∃ w', ckptRun vReads w s bs nPast = some w' ∧ P w'.st) ↔
        P (trimSeq ⟨{ (placeAll w.st bs).ctx with kvSelf := c }, (placeAll w.st bs).rows⟩ s
          nPast) := by
      intro P
      rw [hrun, hsome]
      simp
    rw [hafter fun st => CkptKept w.st (placeAll w.st bs) st s nPast]
    have hothers' := hothers.trans (keepsOthers_seqRm hrec hs nPast (-1))
    cases hends.trim hrec with
    | @placed h₀ haccepted hslot htokens =>
      rw [hlength] at hslot
      have hplace := in_place_iff (savedCells_pairwise (c := w.st.ctx.kvSelf) hs)
        (fun i => (w.st.ctx.kvSelf.cells i).pos) h₀ nPast
      have hiff : CkptKept w.st (placeAll w.st bs) (trimSeq
            ⟨{ (placeAll w.st bs).ctx with kvSelf := c }, (placeAll w.st bs).rows⟩ s nPast)
            s nPast ↔
          ∀ k i, (savedCells w.st.ctx.kvSelf s)[k]? = some i →
            0 ≤ (w.st.ctx.kvSelf.cells i).pos → (w.st.ctx.kvSelf.cells i).pos < nPast →
            i = h₀ + k := by
        rw [← hplace]
        constructor
        · intro hkept i p hp hlt
          rw [← hbefore, ← hkept.tokens i p hp hlt]
          exact (htokens i p hp hlt).symm
        · refine fun hin => ⟨fun i p hp hlt => ?_, rfl, hothers'⟩
          rw [hbefore, ← hin i p hp hlt]
          exact htokens i p hp hlt
      rw [hiff]
      constructor
      · exact fun hin => ⟨hheld.mpr hpos, Or.inr ⟨haccepted, h₀, hslot, hin⟩⟩
      · rintro ⟨-, hnone | ⟨-, h₁, hslot₁, hin⟩⟩
        · intro k i hk hge hlt
          exact absurd ((hbefore i _).mpr ⟨List.mem_of_getElem? hk, rfl⟩) (hnone i _ hge hlt)
        · rw [hslot.unique hslot₁]
          exact hin
    | gone hno htokens =>
      constructor
      · intro hkept
        refine ⟨hheld.mpr hpos, Or.inl fun i p hp hlt => ?_⟩
        rw [← hkept.tokens i p hp hlt]
        exact htokens i p hp hlt
      · rintro ⟨-, hnone | ⟨haccepted, h₁, hslot₁, -⟩⟩
        · exact ⟨fun i p hp hlt => iff_of_false (htokens i p hp hlt) (hnone i p hp hlt), rfl,
            hothers'⟩
        · -- the blob would have been placed
          rcases hno with hrefused | hfull
          · rw [haccepted] at hrefused
            cases hrefused
          · rw [hlength] at hfull
            exact absurd hslot₁ (hfull h₁)

/-- A hybrid context with eight cells and the states of two sequences. -/
def ckptContext : KvContext where
  kvSelf := llamaKvCacheInit false true 2 8
  kvSwa := llamaKvCacheInit false false 0 0
  swaKvActive := false
  nSwa := 0
  swaKvGuard := 0
  flashAttn := false
  rope := true
  canShift := true
  maxMoves := 100

/-- The state after these placements, without a checkpoint. -/
def placedState (bs : List UBatch) : CkptState where
  st := placeAll ⟨ckptContext, ⟨fun _ => 0, fun _ => 0⟩⟩ bs
  cpuStateBySeq := fun _ => none

theorem hybridCache_placedState (bs : List UBatch) : HybridCache (placedState bs).st :=
  (HybridCache.placeAll ⟨rfl, rfl, rfl, Nat.zero_le _⟩ bs).1

/-- Two tokens of sequence 0 in the first cells, and one of sequence 1 behind them: a draft token
goes away, and the others come back to their cells. -/
theorem partial_restore_in_place_first :
    ∃ w', ckptRun true (placedState [[⟨0, [0]⟩, ⟨1, [0]⟩], [⟨0, [1]⟩]]) 0 [[⟨2, [0]⟩]] 2
        = some w' ∧
      CkptKept (placedState [[⟨0, [0]⟩, ⟨1, [0]⟩], [⟨0, [1]⟩]]).st
        (placeAll (placedState [[⟨0, [0]⟩, ⟨1, [0]⟩], [⟨0, [1]⟩]]).st [[⟨2, [0]⟩]]) w'.st 0 2 := by
  refine (partial_restore_in_place_iff (hybridCache_placedState _) true (by decide) (by decide)
    [[⟨2, [0]⟩]]).mpr ⟨⟨0, 0, by decide +kernel⟩, Or.inr ⟨by decide +kernel, 0, Or.inl ?_, ?_⟩⟩
  · exact ⟨by decide +kernel, ⟨by decide +kernel, by decide +kernel⟩, fun k _ hk =>
      absurd hk (Nat.not_lt_zero k)⟩
  · have hsaved : savedCells (placedState [[⟨0, [0]⟩, ⟨1, [0]⟩], [⟨0, [1]⟩]]).st.ctx.kvSelf 0
        = [0, 1] := by decide +kernel
    intro k i hk _ _
    rw [hsaved] at hk
    match k with
    | 0 => exact (Option.some.inj hk).symm
    | 1 => exact (Option.some.inj hk).symm
    | k + 2 => cases hk

/-- With a cell of sequence 1 in between, the three saved positions go to the cells behind it, and
the token at position 0 takes the row of the one at position 2. -/
theorem partial_restore_moves_token :
    ¬ ∀ (w : CkptState) (vReads : Bool) (s nPast : Int) (bs : List UBatch), HybridCache w.st →
      0 ≤ s → nPast ≤ posMax →
      ∃ w', ckptRun vReads w s bs nPast = some w' ∧
        CkptKept w.st (placeAll w.st bs) w'.st s nPast := by
  intro h
  obtain ⟨w', hrun, hkept⟩ := h (placedState [[⟨0, [0]⟩, ⟨1, [0]⟩], [⟨0, [1]⟩], [⟨2, [0]⟩]]) true
    0 3 [[⟨3, [0]⟩]] (hybridCache_placedState _) (by decide) (by decide)
  have hfinal : (ckptRun true (placedState [[⟨0, [0]⟩, ⟨1, [0]⟩], [⟨0, [1]⟩], [⟨2, [0]⟩]]) 0
      [[⟨3, [0]⟩]] 3).map (fun w => decide (0 ∈ (w.st.ctx.kvSelf.cells 0).seqId)) = some false := by
    decide +kernel
  rw [hrun, Option.map_some, Option.some.injEq, decide_eq_false_iff_not] at hfinal
  exact hfinal ((hkept.tokens 0 0 (by decide) (by decide)).mpr (by decide +kernel)).2.1

end PxqLlama.Kv
