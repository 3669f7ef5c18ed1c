import PxqLlama.Proofs.Kv.Accounting
import PxqLlama.Proofs.Kv.Restore

/-!
# `Proofs.Kv.SeqDrop`: what the drop of a sequence reaches

A restore drops the destination sequence before it reads the cells, and a restore that is refused
drops it once more. The drop is `llama_kv_cache_seq_rm` of the whole sequence. It does not reach
every cell: the range that stands for all positions begins at zero and ends before the greatest
`llama_pos`, so a cell outside of it keeps the sequence (`Reached`). A recurrent cache can also
refuse the removal, when the sequence is no cell or the cell of the sequence is at the greatest
position (`seqRmRefused_all`).

`DropReaches` says of a cache that none of this happens, and `noneHolds_dropSeq_iff` that no cell
holds the sequence after the drop exactly then. Whatever the drop reaches, the other sequences keep
their cells (`othersKept_dropSeq`).
-/

namespace PxqLlama.Kv

/-! ### The others -/

/-- No cell holds the sequence. -/
def NoneHolds (c : KvCache) (d : Int) : Prop := ∀ i < c.size, d ∉ (c.cells i).seqId

/-- How far `used` is from the number of cells with a position, up to a wrap. -/
def KvCache.drift (c : KvCache) : Int := ((c.used : Int) - c.numUsed) % 2 ^ 32

/-- The cells of the other sequences are as before: the position, the other sequences, and what
they count in `used`. -/
structure OthersKept (d : Int) (c c' : KvCache) : Prop where
  size : c'.size = c.size
  pos : ∀ i < c.size, ∀ t ∈ (c.cells i).seqId, t ≠ d → (c'.cells i).pos = (c.cells i).pos
  seqs : ∀ i < c.size, (c'.cells i).seqId.erase d = (c.cells i).seqId.erase d
  used : c'.drift = c.drift

section
variable {c c' c'' : KvCache} {d : Int}

theorem OthersKept.refl (d : Int) (c : KvCache) : OthersKept d c c :=
  ⟨rfl, fun _ _ _ _ _ => rfl, fun _ _ => rfl, rfl⟩

/-- Another sequence is in the same cells. -/
theorem OthersKept.mem_iff (h : OthersKept d c c') {i : Nat} (hi : i < c.size) {t : Int}
    (hne : t ≠ d) : t ∈ (c'.cells i).seqId ↔ t ∈ (c.cells i).seqId := by
  have hseqs := congrArg (t ∈ ·) (h.seqs i hi)
  simpa only [Finset.mem_erase, ne_eq, hne, not_false_eq_true, true_and, eq_iff_iff] using hseqs

/-- The other sequences are the same read in either direction. -/
theorem OthersKept.symm (h : OthersKept d c c') : OthersKept d c' c where
  size := h.size.symm
  pos := by
    intro i hi t ht hne
    rw [h.size] at hi
    exact (h.pos i hi t ((h.mem_iff hi hne).mp ht) hne).symm
  seqs := fun i hi => (h.seqs i (h.size ▸ hi)).symm
  used := h.used.symm

/-- And through a cache in between. -/
theorem OthersKept.trans (h : OthersKept d c c') (h' : OthersKept d c' c'') :
    OthersKept d c c'' where
  size := h'.size.trans h.size
  pos := by
    intro i hi t ht hne
    rw [h'.pos i (h.size ▸ hi) t ((h.mem_iff hi hne).mpr ht) hne, h.pos i hi t ht hne]
  seqs := fun i hi => (h'.seqs i (h.size ▸ hi)).trans (h.seqs i hi)
  used := h'.used.trans h.used

end

/-! ### One cell -/

/-- The removal of a whole sequence reaches a cell at this position. -/
def Reached (p : Int) : Prop := 0 ≤ p ∧ p < posMax

instance (p : Int) : Decidable (Reached p) := inferInstanceAs (Decidable (_ ∧ _))

section
variable {qnext : Bool} {i : Nat} {cell : KvCell}

theorem drop_erase : (cell.drop qnext d i).seqId.erase d = cell.seqId.erase d := by
  rw [KvCell.drop]
  split
  · split
    · rename_i hempty
      rw [hempty]
      rfl
    · exact Finset.erase_idem
  · rfl

/-- A cell that another sequence holds keeps its position. -/
theorem drop_pos_of_other {t : Int} (ht : t ∈ cell.seqId) (hne : t ≠ d) :
    (cell.drop qnext d i).pos = cell.pos := by
  have hmem : t ∈ cell.seqId.erase d := Finset.mem_erase.mpr ⟨hne, ht⟩
  rw [KvCell.drop]
  split
  · rw [if_neg (Finset.ne_empty_of_mem hmem)]
    rfl
  · rfl

/-- A cell holds the sequence after the drop exactly when it did before, at a position that the drop
does not reach. -/
theorem mem_drop_iff :
    d ∈ (cell.drop qnext d i).seqId ↔ d ∈ cell.seqId ∧ ¬ Reached cell.pos := by
  rw [KvCell.drop, Reached]
  by_cases hheld : d ∈ cell.seqId ∧ 0 ≤ cell.pos ∧ cell.pos < posMax
  · rw [if_pos hheld]
    refine iff_of_false ?_ fun h => h.2 hheld.2
    split
    · exact Finset.notMem_empty d
    · exact Finset.notMem_erase d _
  · rw [if_neg hheld]
    exact ⟨fun hmem => ⟨hmem, fun h => hheld ⟨hmem, h⟩⟩, And.left⟩

/-- Such a cell stays as it is. -/
theorem drop_eq_of_mem (h : d ∈ (cell.drop qnext d i).seqId) : cell.drop qnext d i = cell := by
  rw [KvCell.drop, if_neg fun hheld => (mem_drop_iff.mp h).2 hheld.2]

/-- The drop takes no other sequence from a cell and gives it none. -/
theorem drop_subset_iff : (cell.drop qnext d i).seqId ⊆ {d} ↔ cell.seqId ⊆ {d} := by
  rw [Finset.subset_singleton_iff, Finset.subset_singleton_iff, ← Finset.erase_eq_empty_iff,
    ← Finset.erase_eq_empty_iff, drop_erase]

end

/-! ### All cells -/

section
variable {c : KvCache} {d : Int}

/-- A recurrent cache refuses the drop of a sequence that is no cell of it, or whose cell is at the
greatest position. -/
theorem seqRmRefused_all (hd : 0 ≤ d) : seqRmRefused c d 0 posMax = true ↔
    c.recurrent = true ∧ ((c.size : Int) ≤ d ∨ posMax ≤ (c.cells d.toNat).pos) := by
  rw [seqRmRefused, if_pos hd]
  have hmax : (0 : Int) < posMax := by decide
  simp [hmax]

/-- The drop of any cache: a recurrent one can refuse it. -/
theorem dropSeq_eq (c : KvCache) (d : Int) :
    dropSeq c d =
      if seqRmRefused c d 0 posMax then c
      else { c with
        cells := (sweep c (seqRmCell c.hasQnextState d 0 posMax)).cells
        used := (sweep c (seqRmCell c.hasQnextState d 0 posMax)).used
        head := (sweep c (seqRmCell c.hasQnextState d 0 posMax)).head c } := by
  rw [dropSeq, llamaKvCacheSeqRm]
  show (if seqRmRefused c d 0 posMax then (false, c) else _ : Bool × KvCache).2 = _
  split <;> rfl

@[simp] theorem dropSeq_size (c : KvCache) (d : Int) : (dropSeq c d).size = c.size := by
  rw [dropSeq_eq]
  split <;> rfl

variable {i : Nat}

theorem dropSeq_cell_of_swept (hd : 0 ≤ d) (hswept : ¬ seqRmRefused c d 0 posMax = true)
    (hi : i < c.size) : (dropSeq c d).cells i = (c.cells i).drop c.hasQnextState d i := by
  rw [dropSeq_eq, if_neg hswept]
  show (sweep c _).cells i = _
  rw [sweep_cells, if_pos hi, seqRmCell_all hd]

/-- Whatever the drop reaches, the others keep their cells. -/
theorem othersKept_dropSeq (hd : 0 ≤ d) (c : KvCache) : OthersKept d c (dropSeq c d) := by
  by_cases hrefused : seqRmRefused c d 0 posMax = true
  · rw [dropSeq_eq, if_pos hrefused]
    exact OthersKept.refl d c
  · refine ⟨dropSeq_size c d, fun i hi t ht hne => ?_, fun i hi => ?_, ?_⟩
    · rw [dropSeq_cell_of_swept hd hrefused hi]
      exact drop_pos_of_other ht hne
    · rw [dropSeq_cell_of_swept hd hrefused hi]
      exact drop_erase
    · rw [dropSeq_eq, if_neg hrefused]
      exact (foldl_sweepStep_keepsDrift (w := ⟨c.cells, c.used, c.size⟩) List.nodup_range
        (fun _ hi => List.mem_range.mp hi)
        fun i _ => (seqRmCell_removed c.hasQnextState d 0 posMax i _).stepCounts).drift

/-- A cell that holds the sequence after the drop is as before. -/
theorem dropSeq_cell_of_mem (hd : 0 ≤ d) (hi : i < c.size)
    (hmem : d ∈ ((dropSeq c d).cells i).seqId) : (dropSeq c d).cells i = c.cells i := by
  by_cases hrefused : seqRmRefused c d 0 posMax = true
  · rw [dropSeq_eq, if_pos hrefused]
  · rw [dropSeq_cell_of_swept hd hrefused hi] at hmem ⊢
    exact drop_eq_of_mem hmem

/-- Which cells hold the sequence after the drop. -/
theorem mem_dropSeq_iff (hd : 0 ≤ d) (hi : i < c.size) :
    d ∈ ((dropSeq c d).cells i).seqId ↔
      d ∈ (c.cells i).seqId ∧ (seqRmRefused c d 0 posMax = true ∨ ¬ Reached (c.cells i).pos) := by
  by_cases hrefused : seqRmRefused c d 0 posMax = true
  · rw [dropSeq_eq, if_pos hrefused, and_iff_left (Or.inl hrefused)]
  · rw [dropSeq_cell_of_swept hd hrefused hi, mem_drop_iff, or_iff_right hrefused]

/-- The drop adds and takes no other sequence. -/
theorem dropSeq_subset_iff (hd : 0 ≤ d) (hi : i < c.size) :
    ((dropSeq c d).cells i).seqId ⊆ {d} ↔ (c.cells i).seqId ⊆ {d} := by
  by_cases hrefused : seqRmRefused c d 0 posMax = true
  · rw [dropSeq_eq, if_pos hrefused]
  · rw [dropSeq_cell_of_swept hd hrefused hi, drop_subset_iff]

/-- To be reached by a second drop is to be reached by the first one. -/
theorem reached_dropSeq_iff (hd : 0 ≤ d) (hi : i < c.size) :
    (d ∈ ((dropSeq c d).cells i).seqId → Reached ((dropSeq c d).cells i).pos) ↔
      (d ∈ (c.cells i).seqId → Reached (c.cells i).pos) := by
  constructor
  · intro h hmem
    by_contra hout
    have hstill := (mem_dropSeq_iff hd hi).mpr ⟨hmem, Or.inr hout⟩
    have hreached := h hstill
    rw [dropSeq_cell_of_mem hd hi hstill] at hreached
    exact hout hreached
  · intro h hmem
    rw [dropSeq_cell_of_mem hd hi hmem]
    exact h ((mem_dropSeq_iff hd hi).mp hmem).1

/-- A removal of the sequence reaches every cell that holds it; and the cache, if it is recurrent,
does not refuse the removal. -/
def DropReaches (c : KvCache) (d : Int) : Prop :=
  ∀ i < c.size, d ∈ (c.cells i).seqId → Reached (c.cells i).pos ∧
    (c.recurrent = true → d < c.size ∧ (c.cells d.toNat).pos < posMax)

/-- The drop takes the sequence from every cell exactly when it reaches all of them. -/
theorem noneHolds_dropSeq_iff (hd : 0 ≤ d) : NoneHolds (dropSeq c d) d ↔ DropReaches c d := by
  rw [NoneHolds, DropReaches, dropSeq_size]
  refine forall_congr' fun i => ?_
  refine forall_congr' fun hi => ?_
  rw [mem_dropSeq_iff hd hi, seqRmRefused_all hd]
  constructor
  · intro h hmem
    by_contra hout
    apply h
    refine ⟨hmem, ?_⟩
    by_contra hneither
    rw [not_or, not_not, not_and_or] at hneither
    refine hout ⟨hneither.2, fun hrec => ?_⟩
    have := hneither.1.resolve_left fun h => h hrec
    omega
  · rintro h ⟨hmem, ⟨hrec, hrefused⟩ | hout⟩
    · have := (h hmem).2 hrec
      omega
    · exact hout (h hmem).1

/-- A second drop reaches no cell that the first one did not. -/
theorem mem_dropSeq_twice (hd : 0 ≤ d) (hi : i < c.size) :
    d ∈ ((dropSeq (dropSeq c d) d).cells i).seqId ↔ d ∈ ((dropSeq c d).cells i).seqId := by
  have hi' : i < (dropSeq c d).size := by rwa [dropSeq_size]
  rw [mem_dropSeq_iff hd hi', and_iff_left_iff_imp]
  intro hmem
  rw [dropSeq_cell_of_mem hd hi hmem]
  rcases ((mem_dropSeq_iff hd hi).mp hmem).2 with hrefused | hout
  · rw [dropSeq_eq, if_pos hrefused]
    exact Or.inl hrefused
  · exact Or.inr hout

theorem noneHolds_dropSeq_twice (hd : 0 ≤ d) :
    NoneHolds (dropSeq (dropSeq c d) d) d ↔ NoneHolds (dropSeq c d) d := by
  rw [NoneHolds, NoneHolds, dropSeq_size, dropSeq_size]
  refine forall_congr' fun i => ?_
  refine forall_congr' fun hi => ?_
  rw [mem_dropSeq_twice hd hi]

end

end PxqLlama.Kv
