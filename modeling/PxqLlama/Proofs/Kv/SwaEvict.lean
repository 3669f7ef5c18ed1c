import PxqLlama.Kv.Context

/-!
# `Proofs.Kv.SwaEvict`: what eviction keeps

`Holds` is the invariant of the sliding cache, for the tokens placed so far: every cell holds
placed tokens, no two cells hold the same token of a sequence, and a token that a later query
can still see has a cell. Later queries of a sequence lie beyond its placed tokens.

`Kept` says what a step that places nothing may do to a cell: leave its tokens alone, or
empty it when all its sequences are past it (`Past`). Such a step keeps the invariant
(`Kept.holds`). Eviction is one at every guard (`evict_kept`): the reference position of a
sequence is never above its next query, and the guard only makes the test stricter.
-/

namespace PxqLlama.Kv

/-! ### Positions of a sequence -/

variable {s p : Int} {ps : List Int} {i : Nat}

theorem mem_positionsOf {q : Int} {ts : List Token} :
    q ∈ positionsOf s ts ↔ ∃ t ∈ ts, s ∈ t.seqId ∧ t.pos = q := by
  simp [positionsOf, and_assoc]

@[simp] theorem positionsOf_append (s : Int) (ts us : List Token) :
    positionsOf s (ts ++ us) = positionsOf s ts ++ positionsOf s us := by
  rw [positionsOf, List.filter_append, List.map_append]
  rfl

/-- The positions go up by one, from a position that is not negative. -/
def Consecutive (ps : List Int) : Prop :=
  ∃ a : Int, 0 ≤ a ∧ ∀ k, (h : k < ps.length) → ps[k] = a + k

theorem Consecutive.nonneg (h : Consecutive ps) (hp : p ∈ ps) : 0 ≤ p := by
  obtain ⟨a, ha, hps⟩ := h
  obtain ⟨k, hk, rfl⟩ := List.getElem_of_mem hp
  rw [hps k hk]
  omega

theorem Consecutive.pairwise (h : Consecutive ps) : ps.Pairwise (· < ·) := by
  obtain ⟨a, -, hps⟩ := h
  rw [List.pairwise_iff_getElem]
  intro i j hi hj hij
  rw [hps i hi, hps j hj]
  omega

/-- The position lies beyond the placed tokens of the sequence. -/
def Beyond (placed : List Token) (s p : Int) : Prop :=
  ∀ q ∈ positionsOf s placed, q < p

/-- New tokens lie beyond the placed ones. -/
theorem Consecutive.beyond {placed b : List Token} (h : Consecutive (positionsOf s (placed ++ b)))
    (hp : p ∈ positionsOf s b) : Beyond placed s p := by
  intro q hq
  have hlt := h.pairwise
  rw [positionsOf_append, List.pairwise_append] at hlt
  exact hlt.2.2 q hq p hp

theorem Beyond.of_append {placed b : List Token} (h : Beyond (placed ++ b) s p) :
    Beyond placed s p := by
  intro q hq
  apply h q
  rw [positionsOf_append]
  exact List.mem_append_left _ hq

/-- The least of the new positions comes right after the last old one, so it is at most any
position that lies beyond the old ones. -/
theorem Consecutive.least_le {qs : List Int} (h : Consecutive (ps ++ qs)) {q r : Int}
    (hq : q ∈ ps) (hp : ∀ q ∈ ps, q < p) (hr : r ∈ qs) (hleast : ∀ r' ∈ qs, r ≤ r') : r ≤ p := by
  obtain ⟨a, -, hall⟩ := h
  have hps : 0 < ps.length := List.length_pos_of_mem hq
  have hqs : 0 < qs.length := List.length_pos_of_mem hr
  -- the last old position and the first new one
  have hlast := hall (ps.length - 1) (by rw [List.length_append]; omega)
  have hfirst := hall ps.length (by rw [List.length_append]; omega)
  rw [List.getElem_append_left (by omega)] at hlast
  rw [List.getElem_append_right (Nat.le_refl _)] at hfirst
  have hlt := hp _ (List.getElem_mem (l := ps) (show ps.length - 1 < ps.length by omega))
  have hle := hleast _
        (List.getElem_mem (l := qs) (show ps.length - ps.length < qs.length by omega))
  omega

/-! ### The invariant -/

/-- Every later query of each of the cell's sequences is past the window of the cell. -/
def Past (nSwa : Nat) (placed : List Token) (cell : KvCell) : Prop :=
  ∀ s ∈ cell.seqId, ∀ p, Beyond placed s p → (nSwa : Int) ≤ p - cell.pos

/-- What the sliding cache holds of the placed tokens. -/
structure Holds (nSwa : Nat) (placed : List Token) (c : KvCache) : Prop where
  free : ∀ i < c.size, (c.cells i).pos < 0 → (c.cells i).seqId = ∅
  mem : ∀ i < c.size, ∀ s ∈ (c.cells i).seqId, (c.cells i).pos ∈ positionsOf s placed
  unique : ∀ i < c.size, ∀ j < c.size, ∀ s ∈ (c.cells i).seqId, s ∈ (c.cells j).seqId →
    (c.cells i).pos = (c.cells j).pos → i = j
  window : ∀ s p, Beyond placed s p → ∀ q ∈ positionsOf s placed, p - q < nSwa →
    ∃ i < c.size, s ∈ (c.cells i).seqId ∧ (c.cells i).pos = q

/-- The cell keeps its tokens. -/
def SameTokens (cell cell' : KvCell) : Prop :=
  cell'.seqId = cell.seqId ∧ (cell.seqId.Nonempty → cell'.pos = cell.pos)

/-- Each cell keeps its tokens, or is emptied when they are past. -/
structure Kept (nSwa : Nat) (placed : List Token) (c c' : KvCache) : Prop where
  size : c'.size = c.size
  recurrent : c'.recurrent = c.recurrent
  cell : ∀ i < c.size, SameTokens (c.cells i) (c'.cells i) ∨
    ((c'.cells i).seqId = ∅ ∧ Past nSwa placed (c.cells i))

variable {nSwa : Nat} {placed : List Token} {c c' c'' : KvCache} {b : UBatch}

theorem Kept.of_cells (hsize : c'.size = c.size) (hrec : c'.recurrent = c.recurrent)
    (hcells : ∀ i < c.size, SameTokens (c.cells i) (c'.cells i)) : Kept nSwa placed c c' :=
  ⟨hsize, hrec, fun i hi => Or.inl (hcells i hi)⟩

/-- What two evictions keep is kept by both together. -/
theorem Kept.trans (h : Kept nSwa placed c c') (h' : Kept nSwa placed c' c'') :
    Kept nSwa placed c c'' := by
  refine ⟨h'.size.trans h.size, h'.recurrent.trans h.recurrent, fun i hi => ?_⟩
  have hi' : i < c'.size := by rw [h.size]; exact hi
  rcases h.cell i hi with ⟨hseq, hpos⟩ | ⟨hempty, hpast⟩
  · rcases h'.cell i hi' with ⟨hseq', hpos'⟩ | ⟨hempty', hpast'⟩
    · left
      refine ⟨hseq'.trans hseq, fun hne => ?_⟩
      rw [hpos' (by rw [hseq]; exact hne), hpos hne]
    · right
      refine ⟨hempty', fun s hs p hp => ?_⟩
      have := hpast' s (by rw [hseq]; exact hs) p hp
      rw [hpos ⟨s, hs⟩] at this
      exact this
  · right
    refine ⟨?_, hpast⟩
    rcases h'.cell i hi' with ⟨hseq', -⟩ | ⟨hempty', -⟩
    · rw [hseq', hempty]
    · exact hempty'

/-- A cell that still has a sequence has its tokens. -/
theorem Kept.sameTokens (h : Kept nSwa placed c c') (hi : i < c.size)
    (hs : s ∈ (c'.cells i).seqId) :
    (c'.cells i).seqId = (c.cells i).seqId ∧ (c'.cells i).pos = (c.cells i).pos := by
  rcases h.cell i hi with ⟨hseq, hpos⟩ | ⟨hempty, -⟩
  · rw [hseq] at hs
    exact ⟨hseq, hpos ⟨s, hs⟩⟩
  · rw [hempty] at hs
    exact absurd hs (Finset.notMem_empty s)

/-- A step that places nothing keeps the invariant. -/
theorem Kept.holds (h : Kept nSwa placed c c') (hc : Holds nSwa placed c) :
    Holds nSwa placed c' where
  free := by
    -- A cell with a sequence kept its position, so it was free and had none.
    intro i hi hpos
    by_contra hne
    obtain ⟨s, hs⟩ := Finset.nonempty_iff_ne_empty.mpr hne
    rw [h.size] at hi
    obtain ⟨hseq, hpos'⟩ := h.sameTokens hi hs
    rw [hseq, hc.free i hi (by rw [← hpos']; exact hpos)] at hs
    exact absurd hs (Finset.notMem_empty s)
  mem := by
    intro i hi s hs
    rw [h.size] at hi
    obtain ⟨hseq, hpos⟩ := h.sameTokens hi hs
    rw [hpos]
    rw [hseq] at hs
    exact hc.mem i hi s hs
  unique := by
    intro i hi j hj s hs hs' hpos
    rw [h.size] at hi hj
    obtain ⟨hseqi, hposi⟩ := h.sameTokens hi hs
    obtain ⟨hseqj, hposj⟩ := h.sameTokens hj hs'
    rw [hseqi] at hs
    rw [hseqj] at hs'
    rw [hposi, hposj] at hpos
    exact hc.unique i hi j hj s hs hs' hpos
  window := by
    intro s p hp q hq hwin
    obtain ⟨i, hi, hs, hpos⟩ := hc.window s p hp q hq hwin
    refine ⟨i, by rw [h.size]; exact hi, ?_⟩
    rcases h.cell i hi with ⟨hseq, hpos'⟩ | ⟨-, hpast⟩
    · rw [hseq, hpos' ⟨s, hs⟩]
      exact ⟨hs, hpos⟩
    · -- A past cell is out of the window of `p`.
      have := hpast s hs p hp
      omega

/-! ### Eviction -/

/-- The reference position of a sequence in the cache is at most any later query. -/
theorem refPos_le (hc : Holds nSwa placed c) (hb : ∀ s, Consecutive (positionsOf s (placed ++ b)))
    (hi : i < c.size) {r : Int} (hs : s ∈ (c.cells i).seqId) (hp : Beyond placed s p)
    (hr : refPos c b s = some r) : r ≤ p := by
  rw [refPos] at hr
  cases hmin : batchMinPos b s with
  | some r' =>
    -- present: the first position in the ubatch is the next one of the sequence
    simp only [hmin, Option.some.injEq] at hr
    subst hr
    rw [batchMinPos, List.min?_eq_some_iff] at hmin
    have hcons := hb s
    rw [positionsOf_append] at hcons
    exact hcons.least_le (hc.mem i hi s hs) hp hmin.1 hmin.2
  | none =>
    -- absent: a position that the cache holds
    simp only [hmin] at hr
    have hmem := List.max?_mem hr
    simp only [List.mem_map, List.mem_filter, List.mem_range, Bool.and_eq_true,
      decide_eq_true_eq, KvCell.hasSeqId] at hmem
    obtain ⟨cell, ⟨⟨j, hj, rfl⟩, -, hsj⟩, rfl⟩ := hmem
    exact Int.le_of_lt (hp _ (hc.mem j hj s hsj))

/-- A cell that is not live for the evictor is past. -/
theorem past_of_not_windowLive (hc : Holds nSwa placed c)
    (hb : ∀ s, Consecutive (positionsOf s (placed ++ b))) {guard : Nat} (hi : i < c.size)
    (hlive : windowLive (refPos c b) ((nSwa : Int) + guard) (c.cells i) = false) :
    Past nSwa placed (c.cells i) := by
  intro s hs p hp
  rw [windowLive, decide_eq_false_iff_not] at hlive
  have hout : inWindow (refPos c b s) ((nSwa : Int) + guard) (c.cells i).pos = false := by
    by_contra hin
    exact hlive ⟨s, hs, by simpa using hin⟩
  cases href : refPos c b s with
  | none =>
    rw [href] at hout
    cases hout
  | some r =>
    have hle := refPos_le hc hb hi hs hp href
    rw [href, inWindow, decide_eq_false_iff_not] at hout
    omega

theorem evict_cells (c : KvCache) (nSwa : Nat) (b : UBatch) (guard i : Nat) :
    (llamaKvSwaEvict c nSwa b guard).cells i
      = if i < c.size then (evictCell (refPos c b) ((nSwa : Int) + guard) i (c.cells i)).cell
        else c.cells i :=
  sweep_cells c _ i

/-- An eviction leaves a cell as it is, or frees one that no query to come sees. -/
theorem evict_cell {c : KvCache} (nSwa : Nat) (b : UBatch) (guard : Nat) (hi : i < c.size) :
    (llamaKvSwaEvict c nSwa b guard).cells i = c.cells i ∨
      windowLive (refPos c b) ((nSwa : Int) + guard) (c.cells i) = false ∧
        (llamaKvSwaEvict c nSwa b guard).cells i
          = { (c.cells i).clearSeq with pos := -1, delta := 0 } := by
  rw [evict_cells, if_pos hi, evictCell]
  split
  · exact Or.inl rfl
  · split
    · exact Or.inl rfl
    · rename_i hlive
      exact Or.inr ⟨by simpa using hlive, rfl⟩

/-- Eviction keeps every cell that a later query can see, at every guard. -/
theorem evict_kept (hc : Holds nSwa placed c)
    (hb : ∀ s, Consecutive (positionsOf s (placed ++ b))) (guard : Nat) :
    Kept nSwa placed c (llamaKvSwaEvict c nSwa b guard) := by
  refine ⟨rfl, rfl, fun i hi => ?_⟩
  rcases evict_cell nSwa b guard hi with hkept | ⟨hlive, hfree⟩
  · rw [hkept]
    exact Or.inl ⟨rfl, fun _ => rfl⟩
  · rw [hfree]
    exact Or.inr ⟨rfl, past_of_not_windowLive hc hb hi hlive⟩

/-! ### A sequence leaves -/

/-- The token without a sequence. -/
def Token.dropSeq (t : Token) (s : Int) : Token :=
  { t with seqId := t.seqId.filter fun s' => s' ≠ s }

theorem positionsOf_dropSeq_self (s : Int) (ts : List Token) :
    positionsOf s (ts.map fun t => t.dropSeq s) = [] := by
  simp [positionsOf, Token.dropSeq]

theorem positionsOf_dropSeq_of_ne {s' : Int} (h : s' ≠ s) (ts : List Token) :
    positionsOf s' (ts.map fun t => t.dropSeq s) = positionsOf s' ts := by
  rw [positionsOf, List.filter_map, List.map_map, positionsOf]
  congr 1
  apply List.filter_congr
  intro t _
  simp [Token.dropSeq, h]

/-- Removing a sequence from a cell. -/
theorem seqRmCell_whole {cell : KvCell} (hs : 0 ≤ s) (qnext : Bool) (i : Nat)
    (hrange : s ∈ cell.seqId → 0 ≤ cell.pos ∧ cell.pos < posMax) :
    (seqRmCell qnext s 0 posMax i cell).cell.seqId = cell.seqId.erase s ∧
      ((cell.seqId.erase s).Nonempty →
        (seqRmCell qnext s 0 posMax i cell).cell.pos = cell.pos) := by
  have hneg : ¬ s < 0 := by omega
  by_cases hmem : s ∈ cell.seqId
  · -- the sequence is taken out, and the cell is freed when no other one is left
    simp only [seqRmCell, if_pos (hrange hmem), KvCell.hasSeqId, hmem, decide_true, or_true,
      if_true, if_neg hneg, KvCell.isEmpty, KvCell.eraseSeq, decide_eq_true_eq]
    split
    · rename_i hempty
      refine ⟨rfl, fun hne => ?_⟩
      rw [hempty] at hne
      exact absurd hne Finset.not_nonempty_empty
    · exact ⟨rfl, fun _ => rfl⟩
  · have hput : (seqRmCell qnext s 0 posMax i cell).cell = cell := by
      simp only [seqRmCell, KvCell.hasSeqId, hmem, decide_false, hneg, or_self, Bool.false_eq_true,
        if_false]
      split <;> rfl
    rw [hput, Finset.erase_eq_of_notMem hmem]
    exact ⟨rfl, fun _ => rfl⟩

/-- Removing a whole sequence takes it out of every cell, and leaves the other sequences. -/
theorem Holds.seqRm (hc : Holds nSwa placed c) (hrec : c.recurrent = false) (hs : 0 ≤ s)
    (hrange : ∀ q ∈ positionsOf s placed, 0 ≤ q ∧ q < posMax) :
    Holds nSwa (placed.map fun t => t.dropSeq s) (llamaKvCacheSeqRm c s (-1) (-1)).2 := by
  have hrm : (llamaKvCacheSeqRm c s (-1) (-1)).2.size = c.size ∧
      (llamaKvCacheSeqRm c s (-1) (-1)).2.cells
        = (sweep c (seqRmCell c.hasQnextState s 0 posMax)).cells := by
    rw [llamaKvCacheSeqRm, seqRmRefused, hrec]
    exact ⟨rfl, rfl⟩
  generalize (llamaKvCacheSeqRm c s (-1) (-1)).2 = c' at hrm ⊢
  obtain ⟨hsize, hcells⟩ := hrm
  have hcell : ∀ i < c.size, (c'.cells i).seqId = (c.cells i).seqId.erase s ∧
      (((c.cells i).seqId.erase s).Nonempty → (c'.cells i).pos = (c.cells i).pos) := by
    intro i hi
    rw [hcells, sweep_cells, if_pos hi]
    exact seqRmCell_whole hs _ i fun hmem => hrange _ (hc.mem i hi s hmem)
  -- A sequence that a cell has now is another one, and the cell had it at the same position.
  have hold : ∀ i < c.size, ∀ s' ∈ (c'.cells i).seqId,
      s' ≠ s ∧ s' ∈ (c.cells i).seqId ∧ (c'.cells i).pos = (c.cells i).pos := by
    intro i hi s' hs'
    obtain ⟨hseq, hpos⟩ := hcell i hi
    rw [hseq] at hs'
    exact ⟨Finset.ne_of_mem_erase hs', Finset.mem_of_mem_erase hs', hpos ⟨s', hs'⟩⟩
  exact {
    free := by
      intro i hi hneg
      rw [hsize] at hi
      by_contra hne
      obtain ⟨s', hs'⟩ := Finset.nonempty_iff_ne_empty.mpr hne
      obtain ⟨-, hmem, hpos⟩ := hold i hi s' hs'
      rw [hc.free i hi (by rw [← hpos]; exact hneg)] at hmem
      exact absurd hmem (Finset.notMem_empty s')
    mem := by
      intro i hi s' hs'
      rw [hsize] at hi
      obtain ⟨hne, hmem, hpos⟩ := hold i hi s' hs'
      rw [positionsOf_dropSeq_of_ne hne, hpos]
      exact hc.mem i hi s' hmem
    unique := by
      intro i hi j hj s' hsi hsj hpos
      rw [hsize] at hi hj
      obtain ⟨-, hmemi, hposi⟩ := hold i hi s' hsi
      obtain ⟨-, hmemj, hposj⟩ := hold j hj s' hsj
      rw [hposi, hposj] at hpos
      exact hc.unique i hi j hj s' hmemi hmemj hpos
    window := by
      intro s' p hp q hq hwin
      by_cases hne : s' = s
      · rw [hne, positionsOf_dropSeq_self] at hq
        cases hq
      · rw [Beyond, positionsOf_dropSeq_of_ne hne] at hp
        rw [positionsOf_dropSeq_of_ne hne] at hq
        obtain ⟨i, hi, hmem, hpos⟩ := hc.window s' p hp q hq hwin
        obtain ⟨hseq', hpos'⟩ := hcell i hi
        have hmem' := Finset.mem_erase.mpr ⟨hne, hmem⟩
        refine ⟨i, by rw [hsize]; exact hi, ?_, ?_⟩
        · rw [hseq']
          exact hmem'
        · rw [hpos' ⟨s', hmem'⟩]
          exact hpos }

/-! ### Placement -/

/-- The ubatch was written to free cells, from the head on. -/
structure TokensAt (c c' : KvCache) (b : UBatch) : Prop where
  size : c'.size = c.size
  recurrent : c'.recurrent = c.recurrent
  fits : c'.head + b.length ≤ c.size
  free : ∀ k < b.length, (c.cells (c'.head + k)).pos < 0
  cells : c'.cells = placeTokens c.cells c'.head b

/-- The search of the sliding cache leaves the cells, or finds a slot. -/
theorem swaFindSlot_cases (c : KvCache) (b : UBatch) :
    ((llamaKvSwaFindSlot c b).1 = false ∧ (llamaKvSwaFindSlot c b).2.size = c.size ∧
      (llamaKvSwaFindSlot c b).2.recurrent = c.recurrent ∧
      (llamaKvSwaFindSlot c b).2.cells = c.cells) ∨
    ((llamaKvSwaFindSlot c b).1 = true ∧ TokensAt c (llamaKvSwaFindSlot c b).2 b) := by
  rw [llamaKvSwaFindSlot]
  split
  · exact Or.inl ⟨rfl, rfl, rfl, rfl⟩
  · rename_i hsize
    simp only
    split
    · rename_i hfound
      obtain ⟨hfits, hfree⟩ := searchSlot_found (Nat.le_of_not_lt hsize) hfound
      exact Or.inr ⟨rfl, rfl, rfl, hfits, hfree, rfl⟩
    · exact Or.inl ⟨rfl, rfl, rfl, rfl⟩

/-- One attempt: eviction, and then a slot or nothing. -/
theorem swaTry_cases (hc : Holds nSwa placed c)
    (hb : ∀ s, Consecutive (positionsOf s (placed ++ b))) (guard : Nat)
    {r : Bool × KvCache} (hr : llamaKvSwaFindSlot (llamaKvSwaEvict c nSwa b guard) b = r) :
    (r.1 = false ∧ Kept nSwa placed c r.2) ∨
      (r.1 = true ∧ ∃ c₁, Kept nSwa placed c c₁ ∧ TokensAt c₁ r.2 b) := by
  have hkept := evict_kept hc hb guard
  subst hr
  rcases swaFindSlot_cases (llamaKvSwaEvict c nSwa b guard) b with
    ⟨hno, hsize, hrec, hcells⟩ | ⟨hyes, hat⟩
  · left
    refine ⟨hno, hkept.trans (Kept.of_cells hsize hrec fun i _ => ?_)⟩
    rw [hcells]
    exact ⟨rfl, fun _ => rfl⟩
  · exact Or.inr ⟨hyes, _, hkept, hat⟩

theorem releaseSlot_cells (c : KvCache) (head n i : Nat) :
    (llamaKvSwaReleaseSlot c head n).cells i
      = if head ≤ i ∧ i < head + n ∧ i < c.size then (releaseCell i (c.cells i)).cell
        else c.cells i := by
  have hnodup : (((List.range n).map fun i => head + i).filter fun i => i < c.size).Nodup :=
    (List.nodup_range.map fun i j hij => by omega).filter _
  have hmem : i ∈ (((List.range n).map fun i => head + i).filter fun i => i < c.size) ↔
      head ≤ i ∧ i < head + n ∧ i < c.size := by
    simp only [List.mem_filter, List.mem_map, List.mem_range, decide_eq_true_eq]
    constructor
    · rintro ⟨⟨k, hk, rfl⟩, hi⟩
      omega
    · rintro ⟨hlo, hhi, hi⟩
      exact ⟨⟨i - head, by omega, by omega⟩, hi⟩
  show (sweepOver c releaseCell _).cells i = _
  rw [sweepOver, foldl_sweepStep_cells _ _ hnodup]
  simp only [hmem]

variable (hat : TokensAt c c' b)
include hat

/-- A cell of the slot. -/
theorem TokensAt.cell_slot (hc : Holds nSwa placed c) {k : Nat} (hk : k < b.length) :
    (c'.cells (c'.head + k)).pos = b[k].pos ∧
      (c'.cells (c'.head + k)).seqId = b[k].seqId.toFinset := by
  have hfits := hat.fits
  have hempty := hc.free (c'.head + k) (by omega) (hat.free k hk)
  rw [hat.cells, placeTokens_mem hk, hempty, Finset.empty_union]
  exact ⟨rfl, rfl⟩

/-- A cell outside the slot. -/
theorem TokensAt.cell_other (hi : i < c'.head ∨ c'.head + b.length ≤ i) :
    c'.cells i = c.cells i := by
  rw [hat.cells, placeTokens_of_not_mem hi]

/-- A cell that had a sequence is not in the slot. -/
theorem TokensAt.cell_held (hc : Holds nSwa placed c) (hi : i < c.size)
    (hs : s ∈ (c.cells i).seqId) : c'.cells i = c.cells i := by
  apply hat.cell_other
  by_contra hin
  have hfree := hat.free (i - c'.head) (by omega)
  rw [show c'.head + (i - c'.head) = i by omega] at hfree
  rw [hc.free i hi hfree] at hs
  exact absurd hs (Finset.notMem_empty s)

/-- A cell that has a sequence now held it before, or is in the slot. -/
theorem TokensAt.cell_cases (hc : Holds nSwa placed c) (hs : s ∈ (c'.cells i).seqId) :
    (c'.cells i = c.cells i ∧ s ∈ (c.cells i).seqId) ∨
      ∃ k, ∃ hk : k < b.length, i = c'.head + k ∧ s ∈ b[k].seqId ∧ (c'.cells i).pos = b[k].pos := by
  by_cases hin : i < c'.head ∨ c'.head + b.length ≤ i
  · have hcell := hat.cell_other hin
    rw [hcell] at hs
    exact Or.inl ⟨hcell, hs⟩
  · right
    obtain ⟨k, rfl⟩ : ∃ k, i = c'.head + k := ⟨i - c'.head, by omega⟩
    have hk : k < b.length := by omega
    obtain ⟨hpos, hseq⟩ := hat.cell_slot hc hk
    rw [hseq, List.mem_toFinset] at hs
    exact ⟨k, hk, rfl, hs, hpos⟩

/-- Undoing a placement empties the slot, and leaves what the eviction left. -/
theorem TokensAt.release (hc : Holds nSwa placed c) {c₂ : KvCache} (hsize : c₂.size = c'.size)
    (hrec : c₂.recurrent = c'.recurrent) (hcells : c₂.cells = c'.cells)
    (hb : ∀ s, Consecutive (positionsOf s (placed ++ b))) :
    Kept nSwa placed c (llamaKvSwaReleaseSlot c₂ c'.head b.length) := by
  refine Kept.of_cells (hsize.trans hat.size) (hrec.trans hat.recurrent) fun i hi => ?_
  rw [releaseSlot_cells, hcells, hsize, hat.size]
  -- The slot was free before the placement, and is empty after the release.
  by_cases hin : i < c'.head ∨ c'.head + b.length ≤ i
  · rw [if_neg (by omega), hat.cell_other hin]
    exact ⟨rfl, fun _ => rfl⟩
  · obtain ⟨k, rfl⟩ : ∃ k, i = c'.head + k := ⟨i - c'.head, by omega⟩
    have hk : k < b.length := by omega
    have hempty := hc.free _ hi (hat.free k hk)
    obtain ⟨hpos, hseq⟩ := hat.cell_slot hc hk
    rw [if_pos (by omega), SameTokens, hempty]
    refine ⟨?_, fun hne => absurd hne Finset.not_nonempty_empty⟩
    rw [releaseCell]
    split
    · rfl
    · -- a cell of the slot below position zero has no sequence
      rename_i hneg
      rw [CellStep.cell, hseq, List.toFinset_eq_empty_iff, List.eq_nil_iff_forall_not_mem]
      intro s hs
      have hmem : b[k].pos ∈ positionsOf s (placed ++ b) := by
        rw [positionsOf_append]
        exact List.mem_append_right _ (mem_positionsOf.mpr ⟨_, List.getElem_mem hk, hs, rfl⟩)
      have := (hb s).nonneg hmem
      omega

/-- After a placement, every token that a query beyond the old tokens can see has a cell. -/
theorem TokensAt.resident (hc : Holds nSwa placed c) {q : Int} (hp : Beyond placed s p)
    (hq : q ∈ positionsOf s (placed ++ b)) (hwin : p - q < nSwa) :
    ∃ i < c'.size, s ∈ (c'.cells i).seqId ∧ (c'.cells i).pos = q := by
  rw [positionsOf_append, List.mem_append] at hq
  rw [hat.size]
  rcases hq with hold | hnew
  · obtain ⟨i, hi, hs, hpos⟩ := hc.window s p hp q hold hwin
    refine ⟨i, hi, ?_⟩
    rw [hat.cell_held hc hi hs]
    exact ⟨hs, hpos⟩
  · obtain ⟨t, ht, hs, rfl⟩ := mem_positionsOf.mp hnew
    obtain ⟨k, hk, rfl⟩ := List.getElem_of_mem ht
    obtain ⟨hpos, hseq⟩ := hat.cell_slot hc hk
    have hfits := hat.fits
    refine ⟨c'.head + k, by omega, ?_, hpos⟩
    rw [hseq, List.mem_toFinset]
    exact hs

/-- A placement keeps the invariant, for the tokens placed now. -/
theorem TokensAt.holds (hc : Holds nSwa placed c)
    (hb : ∀ s, Consecutive (positionsOf s (placed ++ b))) : Holds nSwa (placed ++ b) c' where
  free := by
    intro i hi hpos
    rw [hat.size] at hi
    by_contra hne
    obtain ⟨s, hs⟩ := Finset.nonempty_iff_ne_empty.mpr hne
    rcases hat.cell_cases hc hs with ⟨hcell, hs'⟩ | ⟨k, hk, -, hs', hpos'⟩
    · rw [hcell] at hpos
      rw [hc.free i hi hpos] at hs'
      exact absurd hs' (Finset.notMem_empty s)
    · -- a token with a sequence has a position
      have hmem : b[k].pos ∈ positionsOf s (placed ++ b) := by
        rw [positionsOf_append]
        exact List.mem_append_right _ (mem_positionsOf.mpr ⟨_, List.getElem_mem hk, hs', rfl⟩)
      have := (hb s).nonneg hmem
      omega
  mem := by
    intro i hi s hs
    rw [hat.size] at hi
    rw [positionsOf_append, List.mem_append]
    rcases hat.cell_cases hc hs with ⟨hcell, hs'⟩ | ⟨k, hk, -, hs', hpos'⟩
    · rw [hcell]
      exact Or.inl (hc.mem i hi s hs')
    · rw [hpos']
      exact Or.inr (mem_positionsOf.mpr ⟨_, List.getElem_mem hk, hs', rfl⟩)
  unique := by
    intro i hi j hj s hsi hsj hpos
    rw [hat.size] at hi hj
    -- An old token of a sequence lies below a new one.
    have hlt : ∀ q ∈ positionsOf s placed, ∀ k, (hk : k < b.length) → s ∈ b[k].seqId →
        q < b[k].pos := fun q hq k hk hs =>
      (hb s).beyond (mem_positionsOf.mpr ⟨_, List.getElem_mem hk, hs, rfl⟩) q hq
    rcases hat.cell_cases hc hsi with ⟨hci, hsi'⟩ | ⟨k, hk, rfl, hsk, hposk⟩
    · rcases hat.cell_cases hc hsj with ⟨hcj, hsj'⟩ | ⟨l, hl, rfl, hsl, hposl⟩
      · rw [hci, hcj] at hpos
        exact hc.unique i hi j hj s hsi' hsj' hpos
      · have := hlt _ (hc.mem i hi s hsi') l hl hsl
        rw [hci] at hpos
        omega
    · rcases hat.cell_cases hc hsj with ⟨hcj, hsj'⟩ | ⟨l, hl, rfl, hsl, hposl⟩
      · have := hlt _ (hc.mem j hj s hsj') k hk hsk
        rw [hcj] at hpos
        omega
      · -- two new tokens: the positions of the sequence go up within the ubatch
        have hmono := (hb s).pairwise
        rw [positionsOf_append, List.pairwise_append] at hmono
        have hmono' := hmono.2.1
        rw [positionsOf, List.pairwise_map, List.pairwise_filter,
          List.pairwise_iff_getElem] at hmono'
        rcases Nat.lt_trichotomy k l with hkl | rfl | hlk
        · have := hmono' k l hk hl hkl (by simpa using hsk) (by simpa using hsl)
          omega
        · rfl
        · have := hmono' l k hl hk hlk (by simpa using hsl) (by simpa using hsk)
          omega
  window := fun _ _ hp _ hq hwin => hat.resident hc hp.of_append hq hwin

end PxqLlama.Kv

/-!
## The ways of a placement

`Slotted` is what a search for a slot leaves: the cells as they were, or with the tokens in cells
that were free. Unlike `Allocated` it does not say which slot, and so it asks nothing of the head.

The sliding cache evicts and searches, once or twice, so what an eviction and a failed search
keep holds before the search that counts (`swaPlace_slotted`). `placeUbatch_slotted` puts the
searches of both caches together.
-/

namespace PxqLlama.Kv

/-- What a search for a slot leaves of the cells. -/
structure Slotted (c : KvCache) (b : UBatch) (r : Bool × KvCache) : Prop where
  size : r.2.size = c.size
  recurrent : r.2.recurrent = c.recurrent
  qnextSlots : r.2.qnextSlots = c.qnextSlots
  doDefrag : r.2.doDefrag = c.doDefrag
  full : r.1 = false → r.2.cells = c.cells
  fits : r.1 = true → r.2.head + b.length ≤ c.size
  free : r.1 = true → ∀ k < b.length, (c.cells (r.2.head + k)).pos < 0
  found : r.1 = true → r.2.cells = placeTokens c.cells r.2.head b

/-- Both searches end in one way or the other. -/
theorem slotted_search (swa : Bool) (c : KvCache) (b : UBatch) :
    Slotted c b (if c.size < b.length then (false, c)
      else
        let (found, head) := searchSlot swa c b.length
        if found then
          (true, { c with
            head := head
            cells := placeTokens c.cells head b
            used := addU32 c.used b.length })
        else (false, { c with head := head })) := by
  split
  · exact ⟨rfl, rfl, rfl, rfl, fun _ => rfl, fun h => Bool.noConfusion h,
      fun h => Bool.noConfusion h, fun h => Bool.noConfusion h⟩
  · rename_i hsize
    simp only
    split
    · rename_i hyes
      obtain ⟨hfits, hfree⟩ := searchSlot_found (Nat.le_of_not_lt hsize) hyes
      exact ⟨rfl, rfl, rfl, rfl, fun h => Bool.noConfusion h, fun _ => hfits, fun _ => hfree,
        fun _ => rfl⟩
    · exact ⟨rfl, rfl, rfl, rfl, fun _ => rfl, fun h => Bool.noConfusion h,
        fun h => Bool.noConfusion h, fun h => Bool.noConfusion h⟩

theorem swaFindSlot_slotted (c : KvCache) (b : UBatch) : Slotted c b (llamaKvSwaFindSlot c b) :=
  slotted_search true c b

theorem findSlot_slotted {c : KvCache} (hrec : c.recurrent = false) (b : UBatch) :
    Slotted c b (llamaKvCacheFindSlot c b) := by
  rw [llamaKvCacheFindSlot, if_neg (by simp [hrec])]
  exact slotted_search false c b

section
variable {nSwa : Nat} {b : UBatch} {P : KvCache → Prop}
  (hevict : ∀ {c : KvCache} (guard : Nat), P c → P (llamaKvSwaEvict c nSwa b guard))
  (hfull : ∀ {c : KvCache} {r : Bool × KvCache}, Slotted c b r → P c → r.1 = false → P r.2)
include hevict hfull

/-- The search of the sliding cache, once or twice, starts from a cache that satisfies what
evictions and failed searches keep. -/
theorem swaPlace_slotted {c : KvCache} (hc : P c) (guard : Nat) :
    ∃ c₁, P c₁ ∧ Slotted c₁ b (swaPlace c nSwa guard b) := by
  have hfirst := swaFindSlot_slotted (llamaKvSwaEvict c nSwa b guard) b
  rw [swaPlace, swaTry]
  simp only
  split
  · rename_i hyes
    refine ⟨llamaKvSwaEvict c nSwa b guard, hevict guard hc, ?_⟩
    rw [← hyes]
    exact hfirst
  · rename_i hno
    rw [Bool.not_eq_true] at hno
    exact ⟨llamaKvSwaEvict (llamaKvSwaFindSlot (llamaKvSwaEvict c nSwa b guard) b).2 nSwa b 0,
      hevict 0 (hfull hfirst (hevict guard hc) hno), swaFindSlot_slotted _ b⟩

end

theorem rewindHead_eq (c : KvCache) (n : Nat) : ∃ h, rewindHead c n = { c with head := h } := by
  rw [rewindHead]
  split <;> exact ⟨_, rfl⟩

/-- The three ends of a placement in two caches, by the searches `r` and `r'`: the sliding cache
refuses, `kv_self` refuses and the slot of the sliding cache is released, or both take the
ubatch. -/
theorem placeUbatch_slotted {ctx : KvContext} {b : UBatch} {P : KvCache → Prop}
    (hactive : ctx.swaKvActive = true) (hrec : ctx.kvSelf.recurrent = false)
    (hevict : ∀ {c : KvCache} (guard : Nat), P c → P (llamaKvSwaEvict c ctx.nSwa b guard))
    (hfull : ∀ {c : KvCache} {r : Bool × KvCache}, Slotted c b r → P c → r.1 = false → P r.2)
    (hc : P ctx.kvSwa) :
    ∃ c₁ h r r', P c₁ ∧ Slotted c₁ b r ∧ Slotted { ctx.kvSelf with head := h } b r' ∧
      ((r.1 = false ∧ placeUbatch ctx b
          = (1, { ctx with kvSelf := { ctx.kvSelf with head := h }, kvSwa := r.2 })) ∨
        (r.1 = true ∧ r'.1 = false ∧ ∃ n, placeUbatch ctx b = (1, { ctx with
          kvSelf := r'.2
          kvSwa := llamaKvSwaReleaseSlot { r.2 with n := n } r.2.head b.length })) ∨
        (r.1 = true ∧ r'.1 = true ∧ ∃ n n', placeUbatch ctx b = (0, { ctx with
          kvSelf := { r'.2 with n := n' }
          kvSwa := { r.2 with n := n } }))) := by
  obtain ⟨h, hrewind⟩ := rewindHead_eq ctx.kvSelf b.length
  obtain ⟨c₁, hc₁, hslot⟩ := swaPlace_slotted hevict hfull hc ctx.swaKvGuard
  have hslot' := findSlot_slotted (c := { ctx.kvSelf with head := h }) hrec b
  simp only [placeUbatch, swaUndone, swaInputs, placeSwa, hactive, if_true, hrewind]
  generalize swaPlace ctx.kvSwa ctx.nSwa ctx.swaKvGuard b = r at hslot ⊢
  have hrec' := hslot'.recurrent
  generalize llamaKvCacheFindSlot { ctx.kvSelf with head := h } b = r' at hslot' hrec' ⊢
  refine ⟨c₁, h, r, r', hc₁, hslot, hslot', ?_⟩
  by_cases hno : r.1 = false
  · rw [if_pos hno]
    exact Or.inl ⟨hno, rfl⟩
  · rw [if_neg hno]
    rw [Bool.not_eq_false] at hno
    by_cases hno' : r'.1 = false
    · rw [if_pos hno']
      exact Or.inr (Or.inl ⟨hno, hno', _, rfl⟩)
    · rw [if_neg hno', setSelfN, if_neg (by simp [hrec', hrec])]
      rw [Bool.not_eq_false] at hno'
      exact Or.inr (Or.inr ⟨hno, hno', _, _, rfl⟩)

end PxqLlama.Kv
