import PxqLlama.Proofs.Kv.SeqDrop

/-!
# `Proofs.Kv.RecurrentRestore`: the cells of a restore into a recurrent cache

A recurrent cache has one cell for each sequence, and finding a slot there writes the positions of
the batch to the cell of the sequence, one after the other, so that the last one stays
(`scan_restored`). It does not make the cell hold the sequence. The assertions behind the search
ask just that, and also that the cells of the slot hold the first and the last position: so they
are about what the drop has left in the cells (`StillHeld`).

`RecurrentRead` lists the ways in which the read of the cells can end. When it gets past the
assertions, the cleanup undoes the one cell that was written. `used` is the delicate part: each
position that comes behind a negative one is counted as a cell taken, and only one of them is
counted out again (`dips`).
-/

namespace PxqLlama.Kv

open Tally

/-! ### The positions, one after the other -/

/-- How often the positions go below zero, from `q` on. -/
def dips : Int → List Int → Nat
  | _, [] => 0
  | q, p :: ps => (if 0 ≤ q ∧ p < 0 then 1 else 0) + dips p ps

theorem dips_le (q : Int) (ps : List Int) : dips q ps ≤ ps.length := by
  induction ps generalizing q with
  | nil => exact Nat.le_refl 0
  | cons p ps ih =>
    have := ih p
    rw [dips, List.length_cons]
    split <;> omega

/-- From a position on, they never go below zero when all of them are positions. -/
theorem dips_eq_zero_iff {q : Int} (hq : 0 ≤ q) (ps : List Int) :
    dips q ps = 0 ↔ ∀ p ∈ ps, 0 ≤ p := by
  induction ps generalizing q with
  | nil => simp [dips]
  | cons p ps ih =>
    rw [dips, List.forall_mem_cons]
    by_cases hp : 0 ≤ p
    · rw [if_neg (by omega), Nat.zero_add, ih hp, and_iff_right hp]
    · rw [if_pos (by omega)]
      exact iff_of_false (by omega) fun h => hp h.1

/-- One, when there is a position. -/
def occupied (p : Int) : Int := if 0 ≤ p then 1 else 0

/-- What the loop over a restored batch leaves: the last position is in the cell of the sequence,
which is the whole slot, and `used` has changed as the cell has, and by one for each dip. -/
structure CellScanned (d : Int) (pos : List Int) (w w' : RecurrentScan) : Prop where
  cells : w'.cells = Function.update w.cells d.toNat
    { w.cells d.toNat with pos := pos.getLastD (w.cells d.toNat).pos }
  bounds : pos ≠ [] → w'.min = min w.min d ∧ w'.max = max w.max d
  used : ((w'.used : Int) - w.used - (occupied (pos.getLastD (w.cells d.toNat).pos)
    - occupied (w.cells d.toNat).pos) - dips (w.cells d.toNat).pos pos) % 2 ^ 32 = 0

/-- The loop over a restored batch, for a sequence that is a cell. -/
theorem scan_restored {d : Int} {size : Nat} (hd : 0 ≤ d) (hsize : d < size) (pos : List Int)
    (w : RecurrentScan) :
    ∃ w', (pos.map fun p => (p, d)).foldl (recurrentStep size) (.ok w) = .ok w' ∧
      CellScanned d pos w w' := by
  induction pos generalizing w with
  | nil =>
    refine ⟨w, rfl, ?_, fun h => absurd rfl h, by simp [dips]⟩
    exact (Function.update_eq_self d.toNat w.cells).symm
  | cons p pos ih =>
    -- the first position, and the loop over the others
    obtain ⟨w', hw', hscan⟩ := ih {
      max := if w.max < d then d else w.max
      min := if d < w.min then d else w.min
      used := if (w.cells d.toNat).pos < 0 ∧ 0 ≤ p then addU32 w.used 1 else w.used
      cells := Function.update w.cells d.toNat { w.cells d.toNat with pos := p } }
    have hlast : (p :: pos).getLastD (w.cells d.toNat).pos = pos.getLastD p := by
      cases pos <;> rfl
    refine ⟨w', ?_, ?_, fun _ => ?_, ?_⟩
    · rw [List.map_cons, List.foldl_cons, recurrentStep]
      simp only
      rw [if_pos ⟨hd, hsize⟩]
      exact hw'
    · rw [hscan.cells, hlast]
      simp
    · by_cases hpos : pos = []
      · subst hpos
        cases hw'
        constructor <;> simp only <;> split <;> omega
      · obtain ⟨hmin, hmax⟩ := hscan.bounds hpos
        rw [hmin, hmax]
        constructor <;> simp only <;> split <;> omega
    · have hused := hscan.used
      simp only [Function.update_self] at hused
      rw [hlast, dips]
      generalize pos.getLastD p = last at hused
      generalize dips p pos = n at hused
      simp only [addU32, occupied] at hused ⊢
      split at hused <;> split at hused <;> split at hused <;> split <;> split <;> split <;> omega

/-- A sequence that is no cell is refused at its first position. -/
theorem scan_refused {d : Int} {size : Nat} (hsize : (size : Int) ≤ d) {pos : List Int}
    (hpos : pos ≠ []) (w : RecurrentScan) :
    (pos.map fun p => (p, d)).foldl (recurrentStep size) (.ok w) = .error w := by
  have hstays : ∀ ps : List (Int × Int),
      ps.foldl (recurrentStep size) (.error w) = .error w := by
    intro ps
    induction ps with
    | nil => rfl
    | cons p ps ih => rw [List.foldl_cons, recurrentStep, ih]
  cases pos with
  | nil => exact absurd rfl hpos
  | cons p pos =>
    rw [List.map_cons, List.foldl_cons, recurrentStep]
    simp only
    rw [if_neg (by omega), hstays]

/-! ### The read of the cells -/

/-- The assertions of a restore hold. The drop has not reached the cell of the sequence, which
therefore holds it still; it is the first cell of the slot, and the last position is in it. When
there are more positions than one, the last cell of the slot is another one, and it has the last
position and holds the sequence as well. -/
structure StillHeld (c : KvCache) (d : Int) (pos : List Int) : Prop where
  fits : d.toNat + pos.length ≤ c.size
  ends : pos.head? = pos.getLast?
  first : d ∈ (c.cells d.toNat).seqId ∧ ¬ Reached (c.cells d.toNat).pos
  last : 1 < pos.length → d ∈ (c.cells (d.toNat + pos.length - 1)).seqId ∧
    pos.getLast? = some (c.cells (d.toNat + pos.length - 1)).pos ∧
    (posMax ≤ (c.cells d.toNat).pos ∨ ¬ Reached (c.cells (d.toNat + pos.length - 1)).pos)

/-- The cache with the positions in the cell of the sequence. -/
structure CellTaken (c : KvCache) (d : Int) (pos : List Int) (c' : KvCache) : Prop where
  size : c'.size = c.size
  recurrent : c'.recurrent = c.recurrent
  head : c'.head = d.toNat
  cells : c'.cells = Function.update c.cells d.toNat
    { c.cells d.toNat with pos := pos.getLastD (c.cells d.toNat).pos }
  used : ((c'.used : Int) - c.used - (occupied (pos.getLastD (c.cells d.toNat).pos)
    - occupied (c.cells d.toNat).pos) - dips (c.cells d.toNat).pos pos) % 2 ^ 32 = 0

/-- The ways of a restore into a recurrent cache. Without a cell there is nothing to compare with,
unless the bounds of the slot are the wrong way round already. A sequence that is no cell is
refused. Else the positions are in the cell of the sequence, and the assertions decide. -/
inductive RecurrentRead (c : KvCache) (d : Int) (pos : List Int) :
    Option (Bool × KvCache) → Prop
  | empty (hpos : pos = []) (hsize : c.size ≤ 1) : RecurrentRead c d pos none
  | refused {head n : Nat} (hout : (pos = [] ∧ 2 ≤ c.size) ∨ (pos ≠ [] ∧ (c.size : Int) ≤ d)) :
    RecurrentRead c d pos (some (false, { dropSeq c d with head := head, n := n }))
  | unheld (hpos : pos ≠ []) (hcell : d < c.size) (hnot : ¬ StillHeld c d pos) :
    RecurrentRead c d pos none
  | taken {c' : KvCache} (hpos : pos ≠ []) (hcell : d < c.size) (hheld : StillHeld c d pos)
    (htaken : CellTaken (dropSeq c d) d pos c') : RecurrentRead c d pos (some (true, c'))

section
variable {c c' : KvCache} {d : Int} {pos : List Int}

/-- The batch of a restore, as the loop goes through it. -/
theorem flatMap_restoreBatch (d : Int) (pos : List Int) :
    (restoreBatch d pos).flatMap (fun t => t.seqId.map fun s => (t.pos, s))
      = pos.map fun p => (p, d) := by
  induction pos with
  | nil => rfl
  | cons p pos ih =>
    rw [restoreBatch, List.map_cons, List.flatMap_cons]
    rw [restoreBatch] at ih
    rw [ih]
    rfl

theorem dropSeq_recurrent (c : KvCache) (d : Int) : (dropSeq c d).recurrent = c.recurrent := by
  rw [dropSeq_eq]
  split <;> rfl

/-- In a recurrent cache a cell keeps the sequence when the drop is refused, or when its position is
out of reach. The cell of the sequence is out of reach in both cases. -/
theorem mem_dropSeq_own (hd : 0 ≤ d) (hcell : d < c.size) :
    d ∈ ((dropSeq c d).cells d.toNat).seqId ↔
      d ∈ (c.cells d.toNat).seqId ∧ ¬ Reached (c.cells d.toNat).pos := by
  rw [mem_dropSeq_iff hd (by omega), seqRmRefused_all hd]
  refine and_congr_right fun _ => ⟨?_, Or.inr⟩
  rintro (⟨-, hbeyond | hmax⟩ | hout)
  · omega
  · exact fun hreached => absurd hreached.2 (Int.not_lt.mpr hmax)
  · exact hout

theorem mem_dropSeq_last (hrec : c.recurrent = true) (hd : 0 ≤ d) (hcell : d < c.size) {i : Nat}
    (hi : i < c.size) : d ∈ ((dropSeq c d).cells i).seqId ↔
      d ∈ (c.cells i).seqId ∧
        (posMax ≤ (c.cells d.toNat).pos ∨ ¬ Reached (c.cells i).pos) := by
  have hin : ¬ (c.size : Int) ≤ d := by omega
  rw [mem_dropSeq_iff hd hi, seqRmRefused_all hd, and_iff_right hrec, or_iff_right hin]

/-- The assertions are about the cells as the drop leaves them. -/
theorem stillHeld_iff (hrec : c.recurrent = true) (hd : 0 ≤ d) (hcell : d < c.size)
    (hpos : pos ≠ []) (htaken : CellTaken (dropSeq c d) d pos c') :
    StillHeld c d pos ↔ c'.head + pos.length ≤ c'.size ∧
      pos.head? = some (c'.cells c'.head).pos ∧
      pos.getLast? = some (c'.cells (c'.head + pos.length - 1)).pos ∧
      (c'.cells c'.head).hasSeqId d = true ∧
      (c'.cells (c'.head + pos.length - 1)).hasSeqId d = true := by
  have hlength : 0 < pos.length := List.length_pos_iff.mpr hpos
  have hlast : pos.getLast? = some (pos.getLastD ((dropSeq c d).cells d.toNat).pos) := by
    rw [List.getLastD_eq_getLast?, List.getLast?_eq_some_getLast hpos]
    rfl
  have hown := mem_dropSeq_own hd hcell
  simp only [htaken.head, htaken.size, htaken.cells, dropSeq_size, KvCell.hasSeqId,
    decide_eq_true_eq, Function.update_self]
  by_cases hone : pos.length = 1
  · -- the last cell is the first one
    have hsame : d.toNat + pos.length - 1 = d.toNat := by omega
    rw [hsame, Function.update_self, ← hlast]
    constructor
    · exact fun h => ⟨h.fits, h.ends, rfl, hown.mpr h.first, hown.mpr h.first⟩
    · exact fun h => ⟨h.1, h.2.1, hown.mp h.2.2.2.1, fun hmore => by omega⟩
  · have hother : d.toNat + pos.length - 1 ≠ d.toNat := by omega
    rw [Function.update_of_ne hother, ← hlast]
    constructor
    · intro h
      obtain ⟨hmem, hpos, hout⟩ := h.last (by omega)
      have hi : d.toNat + pos.length - 1 < c.size := by
        have := h.fits
        omega
      have hkept := (mem_dropSeq_last hrec hd hcell hi).mpr ⟨hmem, hout⟩
      rw [dropSeq_cell_of_mem hd hi hkept]
      exact ⟨h.fits, h.ends, hpos, hown.mpr h.first, hmem⟩
    · rintro ⟨hfits, hends, hpos, hfirst, hkept⟩
      have hi : d.toNat + pos.length - 1 < c.size := by omega
      rw [dropSeq_cell_of_mem hd hi hkept] at hpos
      obtain ⟨hmem, hout⟩ := (mem_dropSeq_last hrec hd hcell hi).mp hkept
      exact ⟨hfits, hends, hown.mp hfirst, fun _ => ⟨hmem, hpos, hout⟩⟩

/-- What the reader of the cells leaves in a recurrent cache, refused or not. -/
theorem readKvCacheMeta_recurrent (hrec : c.recurrent = true) (hd : 0 ≤ d) (pos : List Int) :
    RecurrentRead c d pos (readKvCacheMeta c d pos) := by
  have hdrop := dropSeq_recurrent c d
  have hsize := dropSeq_size c d
  rw [readKvCacheMeta, placeRestored, llamaKvCacheFindSlot, if_pos (hdrop.trans hrec),
    findSlotRecurrent, flatMap_restoreBatch]
  by_cases hpos : pos = []
  · subst hpos
    simp only [List.map_nil, List.foldl_nil, List.head?_nil]
    by_cases htwo : 2 ≤ c.size
    · have hno : ¬ ((dropSeq c d).size : Int) - 1 ≤ 0 := by omega
      simp only [hno, decide_false, Bool.false_eq_true, if_false]
      exact .refused (Or.inl ⟨rfl, htwo⟩)
    · have hyes : ((dropSeq c d).size : Int) - 1 ≤ 0 := by omega
      simp only [hyes, decide_true, if_true]
      rw [if_neg (by simp)]
      exact .empty rfl (by omega)
  · by_cases hcell : d < c.size
    · obtain ⟨w, hw, hscan⟩ := scan_restored hd (hsize ▸ hcell) pos
        { min := (dropSeq c d).size - 1, max := 0, used := (dropSeq c d).used
          cells := (dropSeq c d).cells }
      obtain ⟨hmin, hmax⟩ := hscan.bounds hpos
      simp only [hw]
      have hfound : w.min ≤ w.max := by
        rw [hmin, hmax]
        omega
      simp only [hfound, decide_true, if_true]
      have hhead : w.min.toNat = d.toNat := by
        rw [hmin, hsize]
        simp only
        omega
      have htaken : CellTaken (dropSeq c d) d pos { dropSeq c d with
          cells := w.cells
          used := w.used
          head := w.min.toNat
          n := ((w.max - w.min + 1) % 2 ^ 32).toNat } :=
        ⟨rfl, rfl, hhead, hscan.cells, hscan.used⟩
      have hiff := stillHeld_iff hrec hd hcell hpos htaken
      by_cases hheld : StillHeld c d pos
      · rw [if_pos (hiff.mp hheld)]
        exact .taken hpos hcell hheld htaken
      · rw [if_neg fun h => hheld (hiff.mpr h)]
        exact .unheld hpos hcell hheld
    · rw [scan_refused (by omega) hpos]
      simp only [Bool.false_eq_true, if_false]
      exact .refused (Or.inr ⟨hpos, by omega⟩)

/-! ### The cleanup -/

/-- The cleanup undoes the cell that was written. The last position is one that a removal reaches,
and none is negative, or `used` would count the cell twice; every other cell with the sequence is
in reach; and no other sequence is in the cell. -/
structure CellUndone (c : KvCache) (d : Int) (pos : List Int) : Prop where
  nonneg : ∀ p ∈ pos, 0 ≤ p
  last : ∀ p ∈ pos.getLast?, p < posMax
  others : ∀ i < c.size, i ≠ d.toNat → d ∈ (c.cells i).seqId → Reached (c.cells i).pos
  alone : (c.cells d.toNat).seqId ⊆ {d}

/-- A store to a cell, and the number of cells with a position. -/
theorem tally_update_pos {n i : Nat} (hi : i < n) (cells : Nat → KvCell) (cell : KvCell) :
    (tally KvCell.HasPos (Function.update cells i cell) 0 n : Int) + occupied (cells i).pos
      = tally KvCell.HasPos cells 0 n + occupied cell.pos := by
  have hcount := tally_update (p := KvCell.HasPos) (f := cells) (x := cell) (Nat.zero_le i) hi
  have hocc : ∀ cell : KvCell, occupied cell.pos = if cell.HasPos then 1 else 0 := fun _ => rfl
  rw [hocc, hocc]
  by_cases hold : (cells i).HasPos <;> by_cases hnew : cell.HasPos <;>
    simp only [hold, hnew, if_true, if_false] at hcount ⊢ <;> omega

/-- `used` is right exactly when the positions never go below zero. -/
theorem drift_taken (hd : 0 ≤ d) (hcell : d < c.size) (hpos : pos.length < 2 ^ 32)
    (htaken : CellTaken c d pos c') :
    c'.drift = c.drift ↔ dips (c.cells d.toNat).pos pos = 0 := by
  obtain ⟨cell, hpos', hcells⟩ : ∃ cell : KvCell,
      cell.pos = pos.getLastD (c.cells d.toNat).pos ∧
        c'.cells = Function.update c.cells d.toNat cell := ⟨_, rfl, htaken.cells⟩
  have hcount := tally_update_pos (show d.toNat < c.size by omega) c.cells cell
  have hused := htaken.used
  rw [← hpos'] at hused
  have hle := dips_le (c.cells d.toNat).pos pos
  rw [KvCache.drift, KvCache.drift, KvCache.numUsed, KvCache.numUsed, htaken.size, hcells]
  omega

/-- Behind the cleanup no cell holds the sequence, and those of the others are as before the
restore, exactly when the cleanup undoes the cell. -/
theorem cleanup_taken_iff (hrec : c.recurrent = true) (hd : 0 ≤ d) (hcell : d < c.size)
    (hpos : pos ≠ []) (hcount : pos.length < 2 ^ 32) (hheld : StillHeld c d pos)
    (htaken : CellTaken (dropSeq c d) d pos c') :
    (NoneHolds (dropSeq c' d) d ∧ OthersKept d c (dropSeq c' d)) ↔ CellUndone c d pos := by
  obtain ⟨p, hlast⟩ : ∃ p, pos.getLast? = some p := ⟨_, List.getLast?_eq_some_getLast hpos⟩
  have hhead : pos.head? = some p := hheld.ends.trans hlast
  have hown := (mem_dropSeq_own hd hcell).mpr hheld.first
  have hsame := dropSeq_cell_of_mem hd (show d.toNat < c.size by omega) hown
  have hcells : c'.cells = Function.update (dropSeq c d).cells d.toNat
      { c.cells d.toNat with pos := p } := by
    rw [htaken.cells, hsame, List.getLastD_eq_getLast?, hlast]
    rfl
  have hsize : c'.size = c.size := htaken.size.trans (dropSeq_size c d)
  have hrec' : c'.recurrent = true := htaken.recurrent.trans ((dropSeq_recurrent c d).trans hrec)
  -- the cleanup reaches the cell at its new position, and each other cell as before
  have hnone : NoneHolds (dropSeq c' d) d ↔ Reached p ∧
      ∀ i < c.size, i ≠ d.toNat → d ∈ (c.cells i).seqId → Reached (c.cells i).pos := by
    rw [noneHolds_dropSeq_iff hd, DropReaches, hsize, hcells]
    constructor
    · intro h
      have hp := (h d.toNat (by omega) (by rw [Function.update_self]; exact hheld.first.1)).1
      rw [Function.update_self] at hp
      refine ⟨hp, fun i hi hne => (reached_dropSeq_iff hd hi).mp fun hmem => ?_⟩
      have hreached := (h i hi (by rwa [Function.update_of_ne hne])).1
      rwa [Function.update_of_ne hne] at hreached
    · rintro ⟨hp, hothers⟩ i hi hmem
      refine ⟨?_, fun _ => ⟨hcell, by rw [Function.update_self]; exact hp.2⟩⟩
      by_cases hne : i = d.toNat
      · subst hne
        rw [Function.update_self]
        exact hp
      · rw [Function.update_of_ne hne] at hmem ⊢
        exact (reached_dropSeq_iff hd hi).mpr (hothers i hi hne) hmem
  have hkept : OthersKept d c (dropSeq c' d) ↔ OthersKept d (dropSeq c d) c' :=
    ⟨fun h => (othersKept_dropSeq hd c).symm.trans (h.trans (othersKept_dropSeq hd c').symm),
      fun h => (othersKept_dropSeq hd c).trans (h.trans (othersKept_dropSeq hd c'))⟩
  have hdrift := drift_taken (c := dropSeq c d) hd (by rwa [dropSeq_size]) hcount htaken
  rw [hnone, hkept]
  constructor
  · rintro ⟨⟨hp, hothers⟩, hkept⟩
    have hdips := hdrift.mp hkept.used
    refine ⟨?_, fun q hq => ?_, hothers, fun t ht => ?_⟩
    · cases pos with
      | nil => cases hlast
      | cons q pos =>
        obtain rfl := Option.some.inj hhead
        rw [dips] at hdips
        exact List.forall_mem_cons.mpr ⟨hp.1, (dips_eq_zero_iff hp.1 pos).mp (by omega)⟩
    · obtain rfl := Option.some.inj (hlast.symm.trans hq)
      exact hp.2
    · -- another sequence in the cell would have seen it move
      rw [Finset.mem_singleton]
      by_contra hne
      have hmoved := hkept.pos d.toNat (by rw [dropSeq_size]; omega) t (by rwa [hsame]) hne
      rw [hcells, Function.update_self, hsame] at hmoved
      exact hheld.first.2 (hmoved ▸ hp)
  · intro h
    have hp : Reached p := ⟨h.nonneg p (List.mem_of_getLast? hlast), h.last p hlast⟩
    refine ⟨⟨hp, h.others⟩, htaken.size, fun i hi t ht hne => ?_, fun i hi => ?_, ?_⟩
    · rw [hcells]
      by_cases hi' : i = d.toNat
      · subst hi'
        rw [hsame] at ht
        exact absurd (Finset.mem_singleton.mp (h.alone ht)) hne
      · rw [Function.update_of_ne hi']
    · rw [hcells]
      by_cases hi' : i = d.toNat
      · subst hi'
        rw [Function.update_self, hsame]
      · rw [Function.update_of_ne hi']
    · apply hdrift.mpr
      cases pos with
      | nil => rfl
      | cons q pos =>
        obtain ⟨hq, hnonneg⟩ := List.forall_mem_cons.mp h.nonneg
        rw [dips, (dips_eq_zero_iff hq pos).mpr hnonneg, if_neg (by omega)]

end

end PxqLlama.Kv
