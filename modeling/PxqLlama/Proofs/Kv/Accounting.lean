import PxqLlama.Kv.Edit
import PxqLlama.Lib.Tally
import PxqLlama.Proofs.Kv.Slot

/-!
# `Proofs.Kv.Accounting`: the number of used cells

`Accounted` says that `used` is the number of cells with a position, and that these are the
cells with a sequence. The allocator and the defragmentation rely on it.

Every edit of a sequence is one pass over the cells. A pass keeps the count when each step
counts (`StepCounts`): a cell that is put back has a position when it had one, and a cell that
is freed is counted when it had one. So each edit comes down to what its step does to one
cell.
-/

namespace PxqLlama.Kv

open Tally

/-- The cell has a position. -/
def KvCell.HasPos (cell : KvCell) : Prop := 0 ≤ cell.pos

instance : DecidablePred KvCell.HasPos := fun cell => inferInstanceAs (Decidable (0 ≤ cell.pos))

/-- The cell has a position exactly when it has a sequence. -/
def KvCell.Sound (cell : KvCell) : Prop := 0 ≤ cell.pos ↔ cell.seqId.Nonempty

/-- The number of cells with a position. -/
def KvCache.numUsed (c : KvCache) : Nat := tally KvCell.HasPos c.cells 0 c.size

/-- The count of the used cells is exact, and these are the cells with a sequence. -/
structure Accounted (c : KvCache) : Prop where
  used : c.used = c.numUsed
  sound : ∀ i < c.size, (c.cells i).Sound

/-! ### One pass -/

/-- The step of a pass keeps the count. -/
def StepCounts (cell : KvCell) : CellStep → Prop
  | .put cell' => 0 ≤ cell'.pos ↔ 0 ≤ cell.pos
  | .free cell' counted => cell'.pos < 0 ∧ (counted = true ↔ 0 ≤ cell.pos)

theorem addU32_of_lt {x y : Nat} (h : x + y < 2 ^ 32) : addU32 x y = x + y :=
  Nat.mod_eq_of_lt h

theorem numUsed_le (c : KvCache) : c.numUsed ≤ c.size :=
  tally_le

variable {w : Sweep} {is : List Nat} {b : UBatch}

section
variable {size : Nat} {body : Nat → KvCell → CellStep}

/-- How far `used` is from the count, up to a wrap, is the same after a pass; and the count is not
more. -/
structure KeepsDrift (size : Nat) (w w' : Sweep) : Prop where
  drift : ((w'.used : Int) - tally KvCell.HasPos w'.cells 0 size) % 2 ^ 32
    = ((w.used : Int) - tally KvCell.HasPos w.cells 0 size) % 2 ^ 32
  le : tally KvCell.HasPos w'.cells 0 size ≤ tally KvCell.HasPos w.cells 0 size
  lt : w.used < 2 ^ 32 → w'.used < 2 ^ 32

/-- A visit that counts its own cell right leaves the drift of the count as it is. -/
theorem sweepStep_keepsDrift {i : Nat} (hi : i < size)
    (hstep : StepCounts (w.cells i) (body i (w.cells i))) :
    KeepsDrift size w (sweepStep size body w i) := by
  rw [sweepStep]
  cases hbody : body i (w.cells i) with
  | put cell =>
    rw [hbody, StepCounts] at hstep
    have hiff : KvCell.HasPos cell ↔ KvCell.HasPos (w.cells i) := hstep
    have hupdate := tally_update (p := KvCell.HasPos) (f := w.cells) (x := cell)
      (Nat.zero_le i) hi
    simp only [hiff] at hupdate
    have hcount := Nat.add_right_cancel hupdate
    exact ⟨by rw [hcount], Nat.le_of_eq hcount, id⟩
  | free cell counted =>
    rw [hbody, StepCounts] at hstep
    obtain ⟨hfree, hcounted⟩ := hstep
    have hupdate := tally_update (p := KvCell.HasPos) (f := w.cells) (x := cell)
      (Nat.zero_le i) hi
    have hno : ¬ KvCell.HasPos cell := Int.not_le.mpr hfree
    rw [if_neg hno] at hupdate
    by_cases hold : KvCell.HasPos (w.cells i)
    · -- a cell that had a position is counted out on both sides
      rw [if_pos hold] at hupdate
      simp only [hcounted.mpr hold, if_true, decU32]
      exact ⟨by simp only; omega, by simp only; omega, fun _ => Nat.mod_lt _ (by decide)⟩
    · rw [if_neg hold] at hupdate
      simp only
      rw [if_neg fun h => hold (hcounted.mp h)]
      exact ⟨by simp only; omega, by simp only; omega, id⟩

/-- So does a sweep that visits no cell twice. -/
theorem foldl_sweepStep_keepsDrift (hnd : is.Nodup) (hmem : ∀ i ∈ is, i < size)
    (hstep : ∀ i ∈ is, StepCounts (w.cells i) (body i (w.cells i))) :
    KeepsDrift size w (is.foldl (sweepStep size body) w) := by
  induction is generalizing w with
  | nil => exact ⟨rfl, Nat.le_refl _, id⟩
  | cons i is ih =>
    obtain ⟨hi, hnd⟩ := List.nodup_cons.mp hnd
    have hfirst := sweepStep_keepsDrift (hmem i (List.mem_cons_self ..))
      (hstep i (List.mem_cons_self ..))
    have hrest : ∀ j ∈ is, StepCounts ((sweepStep size body w i).cells j)
        (body j ((sweepStep size body w i).cells j)) := by
      -- the step at `i` leaves the cells that are still to be visited
      intro j hj
      have hne : j ≠ i := fun heq => hi (heq ▸ hj)
      rw [sweepStep_cells, Function.update_of_ne hne]
      exact hstep j (List.mem_cons_of_mem _ hj)
    have hlater := ih hnd (fun j hj => hmem j (List.mem_cons_of_mem _ hj)) hrest
    rw [List.foldl_cons]
    exact ⟨hlater.drift.trans hfirst.drift, hlater.le.trans hfirst.le, hlater.lt ∘ hfirst.lt⟩

/-- A pass keeps the distance of `used` from the count. -/
theorem foldl_sweepStep_used {d : Nat} (hnd : is.Nodup) (hmem : ∀ i ∈ is, i < size)
    (hstep : ∀ i ∈ is, StepCounts (w.cells i) (body i (w.cells i)))
    (hused : w.used = tally KvCell.HasPos w.cells 0 size + d) (hlt : w.used < 2 ^ 32) :
    (is.foldl (sweepStep size body) w).used
      = tally KvCell.HasPos (is.foldl (sweepStep size body) w).cells 0 size + d := by
  have hkeeps := foldl_sweepStep_keepsDrift hnd hmem hstep
  have hdrift := hkeeps.drift
  have hle := hkeeps.le
  have hlt' := hkeeps.lt hlt
  omega

end

section
variable {c c' : KvCache} {body : Nat → KvCell → CellStep}

/-- A sweep over distinct cells keeps the count of the used cells exact. -/
theorem Accounted.sweepOver (hc : Accounted c) (hsize : c.size < 2 ^ 32) (hnd : is.Nodup)
    (hmem : ∀ i ∈ is, i < c.size) (hstep : ∀ i ∈ is, StepCounts (c.cells i) (body i (c.cells i)))
    (hsound : ∀ i ∈ is, ((body i (c.cells i)).cell).Sound) (hsize' : c'.size = c.size)
    (hcells : c'.cells = (sweepOver c body is).cells)
    (hused : c'.used = (sweepOver c body is).used) : Accounted c' where
  used := by
    rw [hused, KvCache.numUsed, hsize', hcells, Kv.sweepOver]
    have hle := numUsed_le c
    have hlt : c.used < 2 ^ 32 := by
      rw [hc.used]
      omega
    exact foldl_sweepStep_used (d := 0) (w := ⟨c.cells, c.used, c.size⟩) hnd hmem hstep hc.used hlt
  sound := by
    intro i hi
    rw [hsize'] at hi
    rw [hcells, Kv.sweepOver, foldl_sweepStep_cells _ _ hnd]
    split
    · rename_i hin
      exact hsound i hin
    · exact hc.sound i hi

/-- A pass over the cells keeps the accounts. -/
theorem Accounted.sweep (hc : Accounted c) (hsize : c.size < 2 ^ 32)
    (hstep : ∀ i < c.size, StepCounts (c.cells i) (body i (c.cells i)))
    (hsound : ∀ i < c.size, ((body i (c.cells i)).cell).Sound)
    (hsize' : c'.size = c.size) (hcells : c'.cells = (sweep c body).cells)
    (hused : c'.used = (sweep c body).used) : Accounted c' :=
  hc.sweepOver hsize List.nodup_range (fun _ hi => List.mem_range.mp hi)
    (fun i hi => hstep i (List.mem_range.mp hi)) (fun i hi => hsound i (List.mem_range.mp hi))
    hsize' hcells hused

/-- An edit that frees no cell keeps the accounts. -/
theorem Accounted.of_cells (hc : Accounted c) (hsize : c'.size = c.size) (hused : c'.used = c.used)
    (hpos : ∀ i < c.size, (0 ≤ (c'.cells i).pos ↔ 0 ≤ (c.cells i).pos))
    (hsound : ∀ i < c.size, (c'.cells i).Sound) : Accounted c' where
  used := by
    rw [hused, hc.used, KvCache.numUsed, KvCache.numUsed, hsize]
    exact tally_congr fun i _ hi => (hpos i hi).symm
  sound := by
    rw [hsize]
    exact hsound

end

/-! ### The edits -/

/-- A removal counts a cell out when it had a position. -/
theorem CellRemoved.stepCounts {i : Nat} {cell : KvCell} {step : CellStep}
    (h : CellRemoved i cell step) : StepCounts cell step := by
  cases h with
  | kept _ _ hpos _ _ => rw [StepCounts, hpos]
  | freed _ hpos _ _ => exact ⟨by rw [hpos]; decide, decide_eq_true_iff⟩

section
variable {cell : KvCell} (hs : cell.Sound) (i : Nat)
include hs

theorem KvCell.Sound.empty_iff : cell.isEmpty = true ↔ cell.pos < 0 := by
  rw [KvCell.isEmpty, decide_eq_true_iff, ← Finset.not_nonempty_iff_eq_empty]
  exact (not_congr hs).symm.trans Int.not_le

theorem CellRemoved.sound {step : CellStep} (h : CellRemoved i cell step) : step.cell.Sound := by
  cases h with
  | kept hseq hne hpos _ _ =>
    rw [CellStep.cell, KvCell.Sound, hpos]
    exact hs.trans ⟨hne, fun h => h.mono hseq⟩
  | freed hseq hpos _ _ => simp [CellStep.cell, KvCell.Sound, hseq, hpos]

/-- A shifted cell is counted out when its position gets negative. -/
theorem seqAddCell_counts (s p0 p1 delta : Int) :
    StepCounts cell (seqAddCell s p0 p1 delta i cell)
      ∧ (seqAddCell s p0 p1 delta i cell).cell.Sound := by
  rw [seqAddCell]
  split
  · rename_i hin
    simp only [KvCell.inRange, KvCell.hasSeqId, Bool.and_eq_true, decide_eq_true_eq] at hin
    have hne : cell.seqId.Nonempty := ⟨s, hin.1⟩
    simp only
    split
    · -- shifted below zero: the cell is freed
      refine ⟨⟨by simp, ?_⟩, ?_⟩
      · simp [KvCell.isEmpty, hne.ne_empty, hs.mpr hne]
      · simp [CellStep.cell, KvCell.Sound, KvCell.clearSeq]
    · rename_i hpos
      exact ⟨iff_of_true (Int.not_lt.mp hpos) (hs.mpr hne), iff_of_true (Int.not_lt.mp hpos) hne⟩
  · exact ⟨Iff.rfl, hs⟩

theorem seqDivCell_sound {s p0 p1 d : Int} (hd : 1 ≤ d) :
    (0 ≤ (seqDivCell s p0 p1 d i cell).cell.pos ↔ 0 ≤ cell.pos)
      ∧ (seqDivCell s p0 p1 d i cell).cell.Sound := by
  rw [seqDivCell]
  split
  · rename_i hin
    simp only [KvCell.inRange, KvCell.hasSeqId, Bool.and_eq_true, decide_eq_true_eq] at hin
    have hne : cell.seqId.Nonempty := ⟨s, hin.1⟩
    have hpos : 0 ≤ cell.pos.tdiv d := Int.tdiv_nonneg (hs.mpr hne) (by omega)
    exact ⟨iff_of_true hpos (hs.mpr hne), iff_of_true hpos hne⟩
  · exact ⟨Iff.rfl, hs⟩

theorem seqCpCell_sound (src dst p0 p1 : Int) :
    (0 ≤ (seqCpCell src dst p0 p1 i cell).cell.pos ↔ 0 ≤ cell.pos)
      ∧ (seqCpCell src dst p0 p1 i cell).cell.Sound := by
  rw [seqCpCell, CellStep.cell]
  split
  · rename_i hin
    rw [KvCell.hasSeqId, decide_eq_true_iff] at hin
    refine ⟨Iff.rfl, iff_of_true (hs.mpr ⟨src, hin.1⟩) ⟨dst, ?_⟩⟩
    exact Finset.mem_insert_self _ _
  · exact ⟨Iff.rfl, hs⟩

end

section
variable {c : KvCache}

theorem accounted_clear : Accounted (llamaKvCacheClear c) where
  used := by
    symm
    apply tally_eq_zero
    intro i _ hi
    simp only [llamaKvCacheClear] at hi ⊢
    simp [hi, KvCell.HasPos]
  sound := by
    intro i hi
    simp only [llamaKvCacheClear] at hi ⊢
    simp [hi, KvCell.Sound]

variable (hc : Accounted c) (hrec : c.recurrent = false)
include hc

theorem Accounted.seqKeep (hsize : c.size < 2 ^ 32) (s : Int) :
    Accounted (llamaKvCacheSeqKeep c s) :=
  hc.sweep hsize (fun i _ => (seqKeepCell_removed _ s i _).stepCounts)
    (fun i hi => (seqKeepCell_removed _ s i _).sound (hc.sound i hi)) rfl rfl rfl

include hrec

theorem Accounted.seqRm (hsize : c.size < 2 ^ 32) (s p0 p1 : Int) :
    Accounted (llamaKvCacheSeqRm c s p0 p1).2 := by
  rw [llamaKvCacheSeqRm, if_neg (by simp [seqRmRefused, hrec])]
  exact hc.sweep hsize (fun i _ => (seqRmCell_removed _ s _ _ i _).stepCounts)
    (fun i hi => (seqRmCell_removed _ s _ _ i _).sound (hc.sound i hi)) rfl rfl rfl

theorem Accounted.seqAdd (hsize : c.size < 2 ^ 32) (s p0 p1 delta : Int) :
    Accounted (llamaKvCacheSeqAdd c s p0 p1 delta) := by
  simp only [llamaKvCacheSeqAdd]
  split
  · exact hc
  · rw [if_neg (by simp [hrec])]
    exact hc.sweep hsize (fun i hi => (seqAddCell_counts (hc.sound i hi) i s _ _ delta).1)
      (fun i hi => (seqAddCell_counts (hc.sound i hi) i s _ _ delta).2) rfl rfl rfl

theorem Accounted.seqDiv {s p0 p1 d : Int} (hd : 1 ≤ d) :
    Accounted (llamaKvCacheSeqDiv c s p0 p1 d) := by
  simp only [llamaKvCacheSeqDiv]
  split
  · exact hc
  · rw [if_neg (by simp [hrec])]
    refine hc.of_cells rfl rfl (fun i hi => ?_) fun i hi => ?_
    · simp only [sweep_cells, if_pos hi]
      exact (seqDivCell_sound (hc.sound i hi) i hd).1
    · simp only [sweep_cells, if_pos hi]
      exact (seqDivCell_sound (hc.sound i hi) i hd).2

theorem Accounted.seqCp (hqnext : c.qnextSlots = 0) {c' : KvCache} {src dst p0 p1 : Int}
    (h : llamaKvCacheSeqCp c src dst p0 p1 = some c') : Accounted c' := by
  rw [seqCp_eq hrec hqnext] at h
  cases h
  refine hc.of_cells rfl rfl (fun i hi => ?_) fun i hi => ?_
  · simp only [sweep_cells, if_pos hi]
    exact (seqCpCell_sound (hc.sound i hi) i src dst _ _).1
  · simp only [sweep_cells, if_pos hi]
    exact (seqCpCell_sound (hc.sound i hi) i src dst _ _).2

/-- Every edit keeps the accounts. -/
theorem Accounted.edit (hsize : c.size < 2 ^ 32) (hqnext : c.qnextSlots = 0) {e : SeqEdit}
    (he : e.Ok) {c' : KvCache} (h : e.apply c = some c') : Accounted c' := by
  cases e with
  | rm s p0 p1 =>
    cases h
    exact hc.seqRm hrec hsize s p0 p1
  | cp src dst p0 p1 => exact hc.seqCp hrec hqnext h
  | keep s =>
    cases h
    exact hc.seqKeep hsize s
  | add s p0 p1 delta =>
    cases h
    exact hc.seqAdd hrec hsize s p0 p1 delta
  | div s p0 p1 d =>
    cases h
    exact hc.seqDiv hrec he
  | clear =>
    cases h
    exact accounted_clear

end

/-! ### Placement -/

/-- A placement adds its tokens with a position to the count. -/
theorem numUsed_place {c : KvCache} {h : Nat} (hrun : c.FreeRun b.length h) :
    (c.place h b).numUsed = c.numUsed + b.countP (0 ≤ ·.pos) := by
  obtain ⟨hfits, hfree⟩ := hrun
  show tally KvCell.HasPos (placeTokens c.cells h b) 0 c.size
    = tally KvCell.HasPos c.cells 0 c.size + b.countP (0 ≤ ·.pos)
  -- before the slot and after it the cells stay; in the slot they were free
  have hbefore : tally KvCell.HasPos (placeTokens c.cells h b) 0 h
      = tally KvCell.HasPos c.cells 0 h :=
    tally_congr fun i _ hi => by rw [placeTokens_of_not_mem (Or.inl hi)]
  have hafter : tally KvCell.HasPos (placeTokens c.cells h b) (h + b.length) c.size
      = tally KvCell.HasPos c.cells (h + b.length) c.size :=
    tally_congr fun i hi _ => by rw [placeTokens_of_not_mem (Or.inr hi)]
  have hold : tally KvCell.HasPos c.cells h (h + b.length) = 0 := by
    apply tally_eq_zero
    intro i hi hlt
    have := hfree (i - h) (by omega)
    rw [show h + (i - h) = i by omega] at this
    exact Int.not_le.mpr this
  have hnew : tally KvCell.HasPos (placeTokens c.cells h b) h (h + b.length)
      = b.countP (0 ≤ ·.pos) :=
    tally_eq_countP fun k hk => by rw [placeTokens_mem hk]; rfl
  rw [← tally_add (Nat.zero_le h) (by omega : h ≤ c.size),
    ← tally_add (by omega : h ≤ h + b.length) hfits,
    ← tally_add (f := c.cells) (Nat.zero_le h) (by omega : h ≤ c.size),
    ← tally_add (f := c.cells) (by omega : h ≤ h + b.length) hfits]
  omega

/-- Placing a batch in a free run adds just the cells that it fills. -/
theorem Accounted.place {c : KvCache} (hc : Accounted c) (hsize : c.size < 2 ^ 32) {h : Nat}
    (hrun : c.FreeRun b.length h) (hb : ∀ t ∈ b, 0 ≤ t.pos ∧ t.seqId ≠ []) :
    Accounted (c.place h b) where
  used := by
    have hcount := numUsed_place hrun
    rw [List.countP_eq_length.mpr fun t ht => decide_eq_true (hb t ht).1] at hcount
    have hle : (c.place h b).numUsed ≤ c.size := numUsed_le _
    show addU32 c.used b.length = _
    rw [hcount, hc.used, addU32_of_lt (by omega)]
  sound := by
    intro i hi
    show (placeTokens c.cells h b i).Sound
    by_cases hin : i < h ∨ h + b.length ≤ i
    · rw [placeTokens_of_not_mem hin]
      exact hc.sound i hi
    · obtain ⟨k, rfl⟩ : ∃ k, i = h + k := ⟨i - h, by omega⟩
      have hk : k < b.length := by omega
      obtain ⟨hpos, hseq⟩ := hb _ (List.getElem_mem hk)
      rw [placeTokens_mem hk]
      refine iff_of_true hpos ?_
      rw [Finset.union_nonempty]
      exact Or.inr (List.toFinset_nonempty_iff _ |>.mpr hseq)

/-- An allocation keeps the accounts, whether it finds a slot or not. -/
theorem Allocated.accounted {c : KvCache} {r : Bool × KvCache} (hr : Allocated c b r)
    (hc : Accounted c) (hsize : c.size < 2 ^ 32) (hb : ∀ t ∈ b, 0 ≤ t.pos ∧ t.seqId ≠ []) :
    Accounted r.2 := by
  cases hr with
  | found hslot => exact hc.place hsize hslot.freeRun hb
  | full hfull hle => exact ⟨hc.used, hc.sound⟩

end PxqLlama.Kv
