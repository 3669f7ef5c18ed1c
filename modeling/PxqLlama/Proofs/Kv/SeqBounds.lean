import PxqLlama.Proofs.Kv.SeqCopy
import PxqLlama.Proofs.Kv.Slot
import PxqLlama.Proofs.Kv.StateCopy

/-!
# `Proofs.Kv.SeqBounds`: when the first cell has the first position

The greatest position of a sequence is found wherever its tokens are. The least is that of the
first cell that holds the sequence, so it is right exactly when no later cell has a smaller one
(`seqPosMin_isLeast_iff`). An allocator that goes back to freed cells, or a defragmentation that
fills holes from the end, puts later tokens into earlier cells.

`InOrder` is the invariant of the runs in which this does not happen: of two cells with a common
sequence, the later one has no smaller position. `KeepsOrder` says for each call, on the cells
before it, that it brings no token in front of an earlier one. Removals of any kind always do.
-/

namespace PxqLlama.Kv

/-! ### One state -/

variable {i : Nat} {b : UBatch} {p0 p1 : Int} {cell : KvCell}

section
variable {c : KvCache} {s : Int}

theorem foldl_max_le {is : List Nat} {p bound : Int} (hp : p ≤ bound)
    (hle : ∀ i ∈ is, s ∈ (c.cells i).seqId → (c.cells i).pos ≤ bound) :
    is.foldl (fun result i => if (c.cells i).hasSeqId s then max result (c.cells i).pos else result)
      p ≤ bound := by
  induction is generalizing p with
  | nil => exact hp
  | cons i is ih =>
    rw [List.foldl_cons]
    refine ih ?_ fun j hj => hle j (List.mem_cons_of_mem i hj)
    split
    · rename_i hs
      exact max_le hp (hle i (List.mem_cons_self ..) (of_decide_eq_true hs))
    · exact hp

/-- The scan for the last position bounds every cell of the sequence. -/
theorem le_foldl_max {is : List Nat} {p : Int} :
    p ≤ is.foldl (fun result i => if (c.cells i).hasSeqId s then max result (c.cells i).pos
        else result) p ∧
      ∀ i ∈ is, s ∈ (c.cells i).seqId → (c.cells i).pos ≤
        is.foldl (fun result i => if (c.cells i).hasSeqId s then max result (c.cells i).pos
          else result) p := by
  induction is generalizing p with
  | nil => exact ⟨le_refl p, fun i hi => absurd hi List.not_mem_nil⟩
  | cons i is ih =>
    rw [List.foldl_cons]
    obtain ⟨hstart, hrest⟩ := ih (p := if (c.cells i).hasSeqId s then max p (c.cells i).pos else p)
    refine ⟨le_trans ?_ hstart, fun j hj hs => ?_⟩
    · split
      · exact le_max_left _ _
      · exact le_refl p
    · rcases List.mem_cons.mp hj with rfl | hj
      · have hhas : (c.cells j).hasSeqId s = true := decide_eq_true hs
        rw [if_pos hhas] at hstart ⊢
        exact le_trans (le_max_right _ _) hstart
      · exact hrest j hj hs

/-- The greatest position is right exactly when one of the cells has a position at all. -/
theorem seqPosMax_isGreatest_iff :
    IsGreatest (c.held s) (llamaKvCacheSeqPosMax c s) ↔
      ∃ i < c.size, s ∈ (c.cells i).seqId ∧ 0 ≤ (c.cells i).pos := by
  have hfold : 0 ≤ llamaKvCacheSeqPosMax c s ∧ ∀ i ∈ List.range c.size, s ∈ (c.cells i).seqId →
      (c.cells i).pos ≤ llamaKvCacheSeqPosMax c s := le_foldl_max
  obtain ⟨hzero, hall⟩ := hfold
  constructor
  · rintro ⟨⟨i, hi, hs, hpos⟩, -⟩
    exact ⟨i, hi, hs, hpos ▸ hzero⟩
  · rintro ⟨i, hi, hs, hpos⟩
    -- The maximum is taken by some cell, as one cell reaches zero.
    obtain ⟨top, hmem, hmax⟩ := Finset.exists_max_image
      ((Finset.range c.size).filter fun j => s ∈ (c.cells j).seqId) (fun j => (c.cells j).pos)
      ⟨i, Finset.mem_filter.mpr ⟨Finset.mem_range.mpr hi, hs⟩⟩
    obtain ⟨htop, hholds⟩ := Finset.mem_filter.mp hmem
    have hle : ∀ j < c.size, s ∈ (c.cells j).seqId → (c.cells j).pos ≤ (c.cells top).pos :=
      fun j hj hjs => hmax j (Finset.mem_filter.mpr ⟨Finset.mem_range.mpr hj, hjs⟩)
    have heq : llamaKvCacheSeqPosMax c s = (c.cells top).pos :=
      le_antisymm
        (foldl_max_le (le_trans hpos (hle i hi hs)) fun j hj => hle j (List.mem_range.mp hj))
        (hall top (List.mem_range.mpr (Finset.mem_range.mp htop)) hholds)
    refine ⟨⟨top, Finset.mem_range.mp htop, hholds, heq.symm⟩, ?_⟩
    rintro p ⟨j, hj, hjs, rfl⟩
    rw [heq]
    exact hle j hj hjs

/-- The loop for the least position stops at the first cell of the sequence. -/
theorem seqPosMin_eq (hi : i < c.size) (hs : s ∈ (c.cells i).seqId)
    (hfirst : ∀ k < i, s ∉ (c.cells k).seqId) : llamaKvCacheSeqPosMin c s = (c.cells i).pos := by
  have hfind : (List.range c.size).find? (fun k => (c.cells k).hasSeqId s) = some i := by
    rw [List.find?_range_eq_some]
    refine ⟨decide_eq_true hs, List.mem_range.mpr hi, fun k hk => ?_⟩
    simpa [KvCell.hasSeqId] using hfirst k hk
  rw [llamaKvCacheSeqPosMin, hfind]

/-- The least position is right exactly when no cell behind the first one has a smaller one. -/
theorem seqPosMin_isLeast_iff (hi : i < c.size) (hs : s ∈ (c.cells i).seqId)
    (hfirst : ∀ k < i, s ∉ (c.cells k).seqId) :
    IsLeast (c.held s) (llamaKvCacheSeqPosMin c s) ↔
      ∀ j < c.size, s ∈ (c.cells j).seqId → (c.cells i).pos ≤ (c.cells j).pos := by
  rw [seqPosMin_eq hi hs hfirst]
  constructor
  · rintro ⟨-, hle⟩ j hj hjs
    exact hle ⟨j, hj, hjs, rfl⟩
  · intro hle
    refine ⟨⟨i, hi, hs, rfl⟩, ?_⟩
    rintro p ⟨j, hj, hjs, rfl⟩
    exact hle j hj hjs

end

/-! ### Order of the cells -/

/-- Of two cells with a common sequence, the later one has no smaller position. A cell with a
sequence has a position. -/
structure InOrder (c : KvCache) : Prop where
  recurrent : c.recurrent = false
  head : c.head ≤ c.size
  pos : ∀ i < c.size, (c.cells i).seqId.Nonempty → 0 ≤ (c.cells i).pos
  order : ∀ i j, i < j → j < c.size → ∀ s ∈ (c.cells i).seqId, s ∈ (c.cells j).seqId →
    (c.cells i).pos ≤ (c.cells j).pos

/-- In such a cache both bounds are right. -/
theorem InOrder.bounds {c : KvCache} (h : InOrder c) {s : Int}
    (hheld : ∃ i < c.size, s ∈ (c.cells i).seqId) :
    IsLeast (c.held s) (llamaKvCacheSeqPosMin c s) ∧
      IsGreatest (c.held s) (llamaKvCacheSeqPosMax c s) := by
  constructor
  · have hfind : ∃ i, i < c.size ∧ s ∈ (c.cells i).seqId := hheld
    obtain ⟨hi, hs⟩ := Nat.find_spec hfind
    have hfirst : ∀ k < Nat.find hfind, s ∉ (c.cells k).seqId := by
      intro k hk hks
      exact Nat.find_min hfind hk ⟨by omega, hks⟩
    refine (seqPosMin_isLeast_iff hi hs hfirst).mpr fun j hj hjs => ?_
    rcases Nat.lt_trichotomy (Nat.find hfind) j with hlt | heq | hgt
    · exact h.order _ j hlt hj s hs hjs
    · rw [← heq]
    · exact absurd hjs (hfirst j hgt)
  · obtain ⟨i, hi, hs⟩ := hheld
    exact seqPosMax_isGreatest_iff.mpr ⟨i, hi, hs, h.pos i hi ⟨s, hs⟩⟩

/-! ### What keeps the order -/

/-- The tokens of a batch are in order, and so they are with the cells in front of and behind the
slot at `h`. -/
structure BatchFits (c : KvCache) (b : UBatch) (h : Nat) : Prop where
  within : ∀ i j (hij : i < j) (hj : j < b.length), ∀ s ∈ (b[i]).seqId, s ∈ (b[j]).seqId →
    (b[i]).pos ≤ (b[j]).pos
  before : ∀ i < h, ∀ t ∈ b, ∀ s ∈ t.seqId, s ∈ (c.cells i).seqId → (c.cells i).pos ≤ t.pos
  behind : ∀ i, h + b.length ≤ i → i < c.size → ∀ t ∈ b, ∀ s ∈ t.seqId, s ∈ (c.cells i).seqId →
    t.pos ≤ (c.cells i).pos

/-- The positions in a range are changed by `f`, and none passes one outside the range in a cell
with a common sequence. -/
def CarriesInOrder (c : KvCache) (s p0 p1 : Int) (f : Int → Int) : Prop :=
  ∀ i j, i < j → j < c.size → (∃ s' ∈ (c.cells i).seqId, s' ∈ (c.cells j).seqId) →
    ((c.cells i).inRange s p0 p1 = true → (c.cells j).inRange s p0 p1 = false →
      f (c.cells i).pos ≤ (c.cells j).pos) ∧
    ((c.cells i).inRange s p0 p1 = false → (c.cells j).inRange s p0 p1 = true →
      (c.cells i).pos ≤ f (c.cells j).pos)

/-- The cell holds the destination of a copy after it. -/
def KvCell.Joins (cell : KvCell) (src dst p0 p1 : Int) : Prop :=
  dst ∈ cell.seqId ∨ src ∈ cell.seqId ∧ rangeFrom p0 ≤ cell.pos ∧ cell.pos < rangeTo p1

/-- An edit brings no token in front of an earlier one. -/
def SeqEdit.KeepsOrder (c : KvCache) : SeqEdit → Prop
  | .cp src dst p0 p1 => ¬ c.CopiesRow src dst ∧ ∀ i j, i < j → j < c.size →
      (c.cells i).Joins src dst p0 p1 → (c.cells j).Joins src dst p0 p1 →
      (c.cells i).pos ≤ (c.cells j).pos
  | .add s p0 p1 delta => CarriesInOrder c s (rangeFrom p0) (rangeTo p1) (· + delta)
  | .div s p0 p1 d => 0 < d ∧ CarriesInOrder c s (rangeFrom p0) (rangeTo p1) (·.tdiv d)
  | _ => True

/-- A call brings no token in front of an earlier one, on the cells before it. A batch fits to its
slot, an edit keeps the order, and a defragmentation finds no hole. -/
def KeepsOrder (c : CkptCache) : PosOp → Prop
  | .call (.findSlot b) => (∀ t ∈ b, 0 ≤ t.pos) ∧
      ∀ h, c.cache.NextSlot b.length h → BatchFits c.cache b h
  | .call (.edit e) => e.KeepsOrder c.cache
  | .call (.defrag _) => ∀ i < c.cache.used, (c.cache.cells i).isEmpty = false
  | .head h => h ≤ c.cache.size
  | _ => True

/-! ### One call -/

section
variable {c c' : KvCache}

/-- A free cell holds no sequence. -/
theorem InOrder.free (h : InOrder c) (hi : i < c.size) (hfree : (c.cells i).pos < 0) :
    (c.cells i).seqId = ∅ := by
  by_contra hne
  have := h.pos i hi (Finset.nonempty_iff_ne_empty.mpr hne)
  omega

/-- A cell after the placement: as before, or a token of the batch. -/
theorem InOrder.placed_cases (hc : InOrder c) {h : Nat} (hslot : c.NextSlot b.length h) (i : Nat) :
    ((i < h ∨ h + b.length ≤ i) ∧ (c.place h b).cells i = c.cells i) ∨
      ∃ (a : Nat) (ha : a < b.length), i = h + a ∧ ((c.place h b).cells i).pos = (b[a]).pos ∧
        ((c.place h b).cells i).seqId = (b[a]).seqId.toFinset := by
  by_cases hout : i < h ∨ h + b.length ≤ i
  · exact Or.inl ⟨hout, placeTokens_of_not_mem hout⟩
  · right
    obtain ⟨hle, hfree⟩ := hslot.freeRun
    obtain ⟨a, rfl⟩ : ∃ a, i = h + a := ⟨i - h, by omega⟩
    have ha : a < b.length := by omega
    have hcell : (c.place h b).cells (h + a) = _ := placeTokens_mem ha
    have hempty : (c.cells (h + a)).seqId = ∅ := hc.free (by omega) (hfree a ha)
    refine ⟨a, ha, rfl, by rw [hcell], ?_⟩
    rw [hcell]
    simp only [hempty, Finset.empty_union]

/-- Tokens placed behind the positions that are there keep the cells in order. -/
theorem InOrder.place (hc : InOrder c) {h : Nat} (hslot : c.NextSlot b.length h)
    (hpos : ∀ t ∈ b, 0 ≤ t.pos) (hfits : BatchFits c b h) : InOrder (c.place h b) := by
  obtain ⟨hle, -⟩ := hslot.freeRun
  refine ⟨hc.recurrent, by show h ≤ c.size; omega, fun i hi hne => ?_, ?_⟩
  · rcases hc.placed_cases hslot i with ⟨-, hold⟩ | ⟨a, ha, -, hnew, -⟩
    · rw [hold] at hne ⊢
      exact hc.pos i hi hne
    · rw [hnew]
      exact hpos _ (List.getElem_mem ha)
  · intro i j hij hj s hsi hsj
    rcases hc.placed_cases hslot i with ⟨hi, hold⟩ | ⟨a, ha, hia, hnew, hseq⟩
    · rw [hold] at hsi ⊢
      rcases hc.placed_cases hslot j with ⟨-, hold'⟩ | ⟨a', ha', hja, hnew', hseq'⟩
      · rw [hold'] at hsj ⊢
        exact hc.order i j hij hj s hsi hsj
      · -- a cell in front of the slot, and one in it
        rw [hseq', List.mem_toFinset] at hsj
        rw [hnew']
        exact hfits.before i (by omega) _ (List.getElem_mem ha') s hsj hsi
    · rw [hseq, List.mem_toFinset] at hsi
      rw [hnew]
      rcases hc.placed_cases hslot j with ⟨hjout, hold'⟩ | ⟨a', ha', hja, hnew', hseq'⟩
      · rw [hold'] at hsj ⊢
        exact hfits.behind j (by omega) hj _ (List.getElem_mem ha) s hsi hsj
      · rw [hseq', List.mem_toFinset] at hsj
        rw [hnew']
        exact hfits.within a a' (by omega) ha' s hsi hsj

/-- An edit that only takes sequences away, and leaves the position of a cell that keeps one. -/
theorem InOrder.of_shrinks (hc : InOrder c) (hrec : c'.recurrent = c.recurrent)
    (hsize : c'.size = c.size) (hhead : c'.head ≤ c.size)
    (hcells : ∀ i < c.size, (c'.cells i).seqId ⊆ (c.cells i).seqId ∧
      ((c'.cells i).seqId.Nonempty → (c'.cells i).pos = (c.cells i).pos)) : InOrder c' := by
  refine ⟨hrec.trans hc.recurrent, hsize ▸ hhead, fun i hi hne => ?_, ?_⟩
  · rw [hsize] at hi
    obtain ⟨hsub, hpos⟩ := hcells i hi
    rw [hpos hne]
    exact hc.pos i hi (hne.mono hsub)
  · intro i j hij hj s hsi hsj
    rw [hsize] at hj
    obtain ⟨hsubi, hposi⟩ := hcells i (by omega)
    obtain ⟨hsubj, hposj⟩ := hcells j hj
    rw [hposi ⟨s, hsi⟩, hposj ⟨s, hsj⟩]
    exact hc.order i j hij hj s (hsubi hsi) (hsubj hsj)

/-- An edit that moves positions by a monotone `f`, and frees the cells that fall below zero. -/
theorem InOrder.of_carried (hc : InOrder c) (hrec : c'.recurrent = c.recurrent)
    (hsize : c'.size = c.size) (hhead : c'.head ≤ c.size) {s : Int} (hp0 : 0 ≤ p0) {f : Int → Int}
    (hmono : ∀ p q, 0 ≤ p → p ≤ q → f p ≤ f q) (hcarries : CarriesInOrder c s p0 p1 f)
    (hcells : ∀ i < c.size, (c'.cells i).seqId ⊆ (c.cells i).seqId ∧
      ((c'.cells i).seqId.Nonempty → 0 ≤ (c'.cells i).pos ∧ (c'.cells i).pos =
        if (c.cells i).inRange s p0 p1 then f (c.cells i).pos else (c.cells i).pos)) :
    InOrder c' := by
  refine ⟨hrec.trans hc.recurrent, hsize ▸ hhead, fun i hi hne => ?_, ?_⟩
  · rw [hsize] at hi
    exact ((hcells i hi).2 hne).1
  · intro i j hij hj t hti htj
    rw [hsize] at hj
    obtain ⟨hsubi, hposi⟩ := hcells i (by omega)
    obtain ⟨hsubj, hposj⟩ := hcells j hj
    have hold := hc.order i j hij hj t (hsubi hti) (hsubj htj)
    obtain ⟨hfirst, hsecond⟩ := hcarries i j hij hj ⟨t, hsubi hti, hsubj htj⟩
    rw [(hposi ⟨t, hti⟩).2, (hposj ⟨t, htj⟩).2]
    cases hi : (c.cells i).inRange s p0 p1 with
    | true =>
      cases hj' : (c.cells j).inRange s p0 p1 with
      | true =>
        have hlow : p0 ≤ (c.cells i).pos := by
          rw [KvCell.inRange, Bool.and_eq_true] at hi
          exact (of_decide_eq_true hi.2).1
        exact hmono _ _ (le_trans hp0 hlow) hold
      | false => exact hfirst hi hj'
    | false =>
      cases hj' : (c.cells j).inRange s p0 p1 with
      | true => exact hsecond hi hj'
      | false => exact hold

theorem rangeFrom_nonneg (p0 : Int) : 0 ≤ rangeFrom p0 := by
  rw [rangeFrom]
  split <;> omega

theorem CellRemoved.shrinks {step : CellStep} (h : CellRemoved i cell step) :
    step.cell.seqId ⊆ cell.seqId ∧ (step.cell.seqId.Nonempty → step.cell.pos = cell.pos) := by
  cases h with
  | kept hseq _ hpos _ _ => exact ⟨hseq, fun _ => hpos⟩
  | freed hseq _ _ _ =>
    rw [CellStep.cell, hseq]
    exact ⟨Finset.empty_subset _, fun hne => absurd hne Finset.not_nonempty_empty⟩

/-- A shift moves the positions in its range, or frees the cell. -/
theorem seqAddCell_carries {s delta : Int} (hpos : cell.seqId.Nonempty → 0 ≤ cell.pos) :
    (seqAddCell s p0 p1 delta i cell).cell.seqId ⊆ cell.seqId ∧
      ((seqAddCell s p0 p1 delta i cell).cell.seqId.Nonempty →
        0 ≤ (seqAddCell s p0 p1 delta i cell).cell.pos ∧
        (seqAddCell s p0 p1 delta i cell).cell.pos =
          if cell.inRange s p0 p1 then cell.pos + delta else cell.pos) := by
  rw [seqAddCell]
  split
  · simp only
    split
    · exact ⟨Finset.empty_subset _, fun hne => absurd hne Finset.not_nonempty_empty⟩
    · rename_i hge
      exact ⟨Finset.Subset.refl _, fun _ => ⟨Int.not_lt.mp hge, rfl⟩⟩
  · exact ⟨Finset.Subset.refl _, fun hne => ⟨hpos hne, rfl⟩⟩

theorem seqDivCell_carries {s d : Int} (hd : 0 < d) (hpos : cell.seqId.Nonempty → 0 ≤ cell.pos) :
    (seqDivCell s p0 p1 d i cell).cell.seqId ⊆ cell.seqId ∧
      ((seqDivCell s p0 p1 d i cell).cell.seqId.Nonempty →
        0 ≤ (seqDivCell s p0 p1 d i cell).cell.pos ∧
        (seqDivCell s p0 p1 d i cell).cell.pos =
          if cell.inRange s p0 p1 then cell.pos.tdiv d else cell.pos) := by
  rw [seqDivCell]
  split
  · refine ⟨Finset.Subset.refl _, fun hne => ⟨?_, rfl⟩⟩
    exact Int.tdiv_nonneg (hpos hne) (Int.le_of_lt hd)
  · exact ⟨Finset.Subset.refl _, fun hne => ⟨hpos hne, rfl⟩⟩

/-- Without a row to copy a copy is the loop over the cells. -/
theorem seqCp_eq_of_not_copiesRow (hrec : c.recurrent = false) {src dst : Int}
    (hno : ¬ c.CopiesRow src dst) (p0 p1 : Int) :
    llamaKvCacheSeqCp c src dst p0 p1 = some { c with
      cells := (sweep c (seqCpCell src dst (rangeFrom p0) (rangeTo p1))).cells
      head := 0 } := by
  have hq : seqCpQnext c src dst = some (src, c) := if_neg hno
  rw [llamaKvCacheSeqCp, if_neg (by simp [hrec]), hq]

theorem edited_of_noCopy (hrec : c.recurrent = false) {e : SeqEdit} (he : e.NoCopy)
    (happly : e.apply c = some c') : Edited e c c' := by
  obtain ⟨c₁, happly₁, hedited⟩ := SeqEdit.apply_edited_of hrec (Or.inr he)
  obtain rfl := Option.some.inj (happly.symm.trans happly₁)
  exact hedited

/-- An edit that keeps the order. -/
theorem InOrder.edit (hc : InOrder c) {e : SeqEdit} (he : e.KeepsOrder c)
    (happly : e.apply c = some c') : InOrder c' ∧ c'.size = c.size := by
  have hedited : Edited e c c' := by
    cases e with
    | cp src dst p0 p1 =>
      have heq := seqCp_eq_of_not_copiesRow hc.recurrent he.1 p0 p1
      obtain rfl := Option.some.inj (happly.symm.trans heq)
      exact edited_seqCp src dst p0 p1
    | rm | keep | add | div | clear => exact edited_of_noCopy hc.recurrent trivial happly
  refine ⟨?_, hedited.size⟩
  have hhead := hedited.head hc.head
  cases e with
  | rm s p0 p1 =>
    exact hc.of_shrinks hedited.recurrent hedited.size hhead fun i hi => by
      rw [hedited.cell i hi]
      exact (seqRmCell_removed _ _ _ _ i _).shrinks
  | keep s =>
    exact hc.of_shrinks hedited.recurrent hedited.size hhead fun i hi => by
      rw [hedited.cell i hi]
      exact (seqKeepCell_removed _ _ i _).shrinks
  | clear =>
    exact hc.of_shrinks hedited.recurrent hedited.size hhead fun i hi => by
      rw [hedited.cell i hi]
      exact ⟨Finset.empty_subset _, fun hne => absurd hne Finset.not_nonempty_empty⟩
  | add s p0 p1 delta =>
    have hcarries : CarriesInOrder c s (rangeFrom p0) (rangeTo p1) (· + delta) := he
    refine hc.of_carried hedited.recurrent hedited.size hhead (rangeFrom_nonneg p0)
      (fun p q _ hpq => by show p + delta ≤ q + delta; omega) hcarries fun i hi => ?_
    rw [hedited.cell i hi, SeqEdit.cell_add]
    exact seqAddCell_carries (hc.pos i hi)
  | div s p0 p1 d =>
    refine hc.of_carried hedited.recurrent hedited.size hhead (rangeFrom_nonneg p0)
      (fun p q hp hpq => ?_) he.2 fun i hi => ?_
    · show p.tdiv d ≤ q.tdiv d
      rw [Int.tdiv_eq_ediv_of_nonneg hp, Int.tdiv_eq_ediv_of_nonneg (le_trans hp hpq)]
      exact Int.ediv_le_ediv he.1 hpq
    · rw [hedited.cell i hi, SeqEdit.cell_div]
      exact seqDivCell_carries he.1 (hc.pos i hi)
  | cp src dst p0 p1 =>
    have hcell : ∀ i < c.size, c'.cells i =
        (seqCpCell src dst (rangeFrom p0) (rangeTo p1) i (c.cells i)).cell := hedited.cell
    have hpos : ∀ i < c.size, (c'.cells i).pos = (c.cells i).pos := fun i hi => by
      rw [hcell i hi, seqCpCell_pos]
    -- A sequence other than the destination was there before.
    have hother : ∀ i < c.size, ∀ s ∈ (c'.cells i).seqId, s ≠ dst → s ∈ (c.cells i).seqId := by
      intro i hi s hs hne
      rw [hcell i hi, seqCpCell] at hs
      simp only [CellStep.cell] at hs
      split at hs
      · exact Finset.mem_of_mem_insert_of_ne hs hne
      · exact hs
    have hjoins : ∀ i < c.size, dst ∈ (c'.cells i).seqId ↔ (c.cells i).Joins src dst p0 p1 := by
      intro i hi
      rw [hcell i hi]
      exact mem_seqCpCell src dst _ _ i _
    refine ⟨hedited.recurrent.trans hc.recurrent, hedited.size ▸ hhead, fun i hi hne => ?_, ?_⟩
    · rw [hedited.size] at hi
      rw [hpos i hi]
      obtain ⟨s, hs⟩ := hne
      by_cases hsd : s = dst
      · rw [hsd] at hs
        rcases (hjoins i hi).mp hs with hold | ⟨-, hlow, -⟩
        · exact hc.pos i hi ⟨dst, hold⟩
        · exact le_trans (rangeFrom_nonneg p0) hlow
      · exact hc.pos i hi ⟨s, hother i hi s hs hsd⟩
    · intro i j hij hj s hsi hsj
      rw [hedited.size] at hj
      rw [hpos i (by omega), hpos j hj]
      by_cases hsd : s = dst
      · rw [hsd] at hsi hsj
        exact he.2 i j hij hj ((hjoins i (by omega)).mp hsi) ((hjoins j hj).mp hsj)
      · exact hc.order i j hij hj s (hother i (by omega) s hsi hsd) (hother j hj s hsj hsd)

/-- Only the counters differ. -/
theorem InOrder.of_cells (hc : InOrder c) (hrec : c'.recurrent = c.recurrent)
    (hsize : c'.size = c.size) (hhead : c'.head ≤ c.size) (hcells : c'.cells = c.cells) :
    InOrder c' := by
  refine hc.of_shrinks hrec hsize hhead fun i _ => ?_
  rw [hcells]
  exact ⟨Finset.Subset.refl _, fun _ => rfl⟩

/-- A defragmentation that finds no hole moves no cell. -/
theorem InOrder.defrag (hc : InOrder c) {maxMoves : Nat}
    (hfull : ∀ i < c.used, (c.cells i).isEmpty = false) {r : KvCache × (Nat → Nat)}
    (h : llamaKvCacheDefragInternal c maxMoves = some r) :
    InOrder r.1 ∧ r.1.size = c.size := by
  rw [llamaKvCacheDefragInternal_eq, Option.map_eq_some_iff] at h
  obtain ⟨st, hst, rfl⟩ := h
  rw [defragVars] at hst
  split at hst
  · cases hst
  · have hkept : st.cells = c.cells ∧ st.head = c.head := defragLoop_full _ hfull hst
    obtain ⟨hcells, hhead⟩ := hkept
    have hle : st.head ≤ c.size := by
      rw [hhead]
      exact hc.head
    exact ⟨hc.of_cells rfl rfl hle hcells, rfl⟩

/-- An allocation puts the batch into a slot that it fits to, or changes the head only. -/
theorem InOrder.findSlot (hc : InOrder c) (hpos : ∀ t ∈ b, 0 ≤ t.pos)
    (hfits : ∀ h, c.NextSlot b.length h → BatchFits c b h) :
    InOrder (llamaKvCacheFindSlot c b).2 ∧ (llamaKvCacheFindSlot c b).2.size = c.size := by
  have hcase : Allocated c b (llamaKvCacheFindSlot c b) :=
    findSlot_allocated hc.recurrent hc.head
  generalize llamaKvCacheFindSlot c b = r at hcase ⊢
  cases hcase with
  | found hslot => exact ⟨hc.place hslot hpos (hfits _ hslot), rfl⟩
  | full hfull hle => exact ⟨hc.of_cells rfl rfl hle rfl, rfl⟩

end

/-! ### Runs -/

/-- The cache that `checkpoint_restore` would leave. -/
def KvCache.restored (c : KvCache) (k : KvSnapshot) : KvCache :=
  { c with cells := k.cells, head := k.head, used := k.used }

/-- The cells are in order, now and in the checkpoint. -/
structure CkptInOrder (c : CkptCache) : Prop where
  now : InOrder c.cache
  saved : ∀ k, c.ckpt = some k → InOrder (c.cache.restored k)

/-- A call that leaves the checkpoint. -/
theorem CkptInOrder.of_now {c c' : CkptCache} (hc : CkptInOrder c) (hckpt : c'.ckpt = c.ckpt)
    (hnow : InOrder c'.cache) (hsize : c'.cache.size = c.cache.size) : CkptInOrder c' := by
  refine ⟨hnow, fun k hk => ?_⟩
  rw [hckpt] at hk
  have hold := hc.saved k hk
  have hrec : c'.cache.recurrent = c.cache.recurrent :=
    hnow.recurrent.trans hc.now.recurrent.symm
  exact hold.of_cells hrec hsize hold.head rfl

/-- Every call that keeps the order does so in the cache and in its checkpoints. -/
theorem CkptInOrder.step {c c' : CkptCache} {a : PosOp} (hc : CkptInOrder c)
    (hok : KeepsOrder c a) (h : posStep c a = some c') : CkptInOrder c' := by
  cases a with
  | head k =>
    obtain rfl := Option.some.inj h
    exact hc.of_now rfl (hc.now.of_cells rfl rfl hok rfl) rfl
  | call op =>
    cases op with
    | findSlot b =>
      obtain rfl := Option.some.inj h
      obtain ⟨hnow, hsize⟩ := hc.now.findSlot hok.1 hok.2
      exact hc.of_now rfl hnow hsize
    | edit e =>
      obtain ⟨cache, happly, rfl⟩ := Option.map_eq_some_iff.mp h
      obtain ⟨hnow, hsize⟩ := hc.now.edit hok happly
      exact hc.of_now rfl hnow hsize
    | defrag maxMoves =>
      obtain ⟨r, hdefrag, rfl⟩ := Option.map_eq_some_iff.mp h
      obtain ⟨hnow, hsize⟩ := hc.now.defrag hok hdefrag
      exact hc.of_now rfl hnow hsize
    | save =>
      obtain rfl := Option.some.inj h
      refine ⟨hc.now, fun k hk => ?_⟩
      obtain rfl := Option.some.inj hk
      exact hc.now
    | restore =>
      obtain rfl := Option.some.inj h
      rw [checkpointRestore]
      split
      · exact hc
      · rename_i k hk
        exact ⟨hc.saved k hk, fun k' hk' => hc.saved k' hk'⟩
    | delete =>
      obtain rfl := Option.some.inj h
      exact ⟨hc.now, fun k hk => absurd hk (by simp [checkpointDelete])⟩

/-- A new cache of a model with attention, with no checkpoint. -/
def emptyCache (hybrid : Bool) (qnextSlots size : Nat) : CkptCache where
  cache := llamaKvCacheInit false hybrid qnextSlots size
  ckpt := none

theorem emptyCache_inOrder (hybrid : Bool) (qnextSlots size : Nat) :
    CkptInOrder (emptyCache hybrid qnextSlots size) := by
  have hnone : ∀ i, ((emptyCache hybrid qnextSlots size).cache.cells i).seqId = ∅ := by
    intro i
    show ((llamaKvCacheInit false hybrid qnextSlots size).cells i).seqId = ∅
    simp only [llamaKvCacheInit]
    split <;> rfl
  refine ⟨⟨rfl, Nat.zero_le _, fun i _ hne => ?_, fun i j _ _ s hs => ?_⟩, fun k hk => ?_⟩
  · rw [hnone i] at hne
    exact absurd hne Finset.not_nonempty_empty
  · rw [hnone i] at hs
    exact absurd hs (Finset.notMem_empty s)
  · cases hk

/-- In every state of a run whose calls keep the order, the bounds of a sequence that some cell
holds are its least and its greatest position. -/
theorem seqPos_bounds_of_keepsOrder {hybrid : Bool} {qnextSlots size : Nat} {c : CkptCache}
    (hruns : Runs (emptyCache hybrid qnextSlots size) posStep KeepsOrder c) {s : Int}
    (hheld : ∃ i < c.cache.size, s ∈ (c.cache.cells i).seqId) :
    IsLeast (c.cache.held s) (llamaKvCacheSeqPosMin c.cache s) ∧
      IsGreatest (c.cache.held s) (llamaKvCacheSeqPosMax c.cache s) := by
  have hinv : CkptInOrder c := hruns.invariant (emptyCache_inOrder hybrid qnextSlots size)
    fun _ _ _ hc hok hstep => hc.step hok hstep
  exact hinv.now.bounds hheld

/-- Two tokens in an empty cache, and the removal of the first. -/
theorem seqPos_bounds_of_keepsOrder_removed :
    let c := Runs.last posStep (emptyCache false 0 4)
      [.call (.findSlot [⟨3, [0]⟩, ⟨5, [0]⟩]), .call (.edit (.rm 0 3 4))]
    Runs (emptyCache false 0 4) posStep KeepsOrder c ∧
      IsLeast (c.cache.held 0) (llamaKvCacheSeqPosMin c.cache 0) ∧
      IsGreatest (c.cache.held 0) (llamaKvCacheSeqPosMax c.cache 0) := by
  have hfits : KeepsOrder (emptyCache false 0 4) (.call (.findSlot [⟨3, [0]⟩, ⟨5, [0]⟩])) := by
    refine ⟨by decide, fun h _ => ⟨?_, ?_, ?_⟩⟩
    · intro i j hij hj s _ _
      have hi : i = 0 := by simp at hj; omega
      have hj' : j = 1 := by simp at hj; omega
      subst hi hj'
      show (3 : Int) ≤ 5
      decide
    · intro i _ t _ s _ hs
      exact absurd hs (by simp [emptyCache, llamaKvCacheInit])
    · intro i _ _ t _ s _ hs
      exact absurd hs (by simp [emptyCache, llamaKvCacheInit])
  have hruns : Runs (emptyCache false 0 4) posStep KeepsOrder (Runs.last posStep
      (emptyCache false 0 4) [.call (.findSlot [⟨3, [0]⟩, ⟨5, [0]⟩]), .call (.edit (.rm 0 3 4))]) :=
    Runs.of_allowed .init ⟨hfits, by decide, trivial, by decide, trivial⟩
  exact ⟨hruns, seqPos_bounds_of_keepsOrder hruns ⟨1, by decide, by decide⟩⟩

/-! ### A cell that is used again -/

/-- Sequence `1` takes the cells `0` and `1`, sequence `0` the next two. Sequence `1` is removed,
and the next two tokens of sequence `0` take its cells. -/
def reuseRun : List PosOp :=
  [ .call (.findSlot [⟨0, [1]⟩, ⟨1, [1]⟩]),
    .head 2,
    .call (.findSlot [⟨0, [0]⟩, ⟨1, [0]⟩]),
    .call (.edit (.rm 1 (-1) (-1))),
    .call (.findSlot [⟨2, [0]⟩, ⟨3, [0]⟩]) ]

/-- The first cell of sequence `0` has position two then, and its least position is zero. -/
theorem seqPosMin_not_least_after_reuse :
    let c := Runs.last posStep (emptyCache false 0 4) reuseRun
    Runs (emptyCache false 0 4) posStep (fun _ _ => True) c ∧
      0 ∈ (c.cache.cells 0).seqId ∧ llamaKvCacheSeqPosMin c.cache 0 = 2 ∧
      ¬ IsLeast (c.cache.held 0) (llamaKvCacheSeqPosMin c.cache 0) := by
  have hmin : llamaKvCacheSeqPosMin (Runs.last posStep (emptyCache false 0 4) reuseRun).cache 0
      = 2 := by decide
  refine ⟨Runs.of_allowed .init (by decide), by decide, hmin, fun hleast => ?_⟩
  rw [hmin] at hleast
  have hzero : (0 : Int) ∈ (Runs.last posStep (emptyCache false 0 4) reuseRun).cache.held 0 :=
    ⟨2, by decide, by decide, by decide⟩
  exact absurd (hleast.2 hzero) (by decide)

end PxqLlama.Kv
