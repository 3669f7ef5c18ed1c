import PxqLlama.Proofs.Kv.PublicEdits
import PxqLlama.Proofs.Kv.SwaEvict

/-!
# `Proofs.Kv.Mirror`: what the sliding cache holds is in `kv_self`

Every cell of the sliding cache that holds a sequence has its mirror image in `kv_self`: a cell
at the same position with the same sequences (`Mirrors`). The public edits make the same edits
to both caches, and an edit looks at the position and the sequences of a cell only; an eviction
frees cells of the sliding cache; and a placement puts its tokens in both caches or in none.

The converse does not hold, since the sliding cache evicts.
-/

namespace PxqLlama.Kv

/-! ### Cells and edits -/

/-- The position and the sequences of a cell. -/
def KvCell.content (cell : KvCell) : Int × Finset Int := (cell.pos, cell.seqId)

/-- A cell without a position holds no sequence. -/
def FreeEmpty (c : KvCache) : Prop :=
  ∀ i < c.size, (c.cells i).pos < 0 → (c.cells i).seqId = ∅

/-- Every cell of `a` that holds a sequence is mirrored in `c`. -/
def Mirrors (a c : KvCache) : Prop :=
  ∀ i < a.size, (a.cells i).seqId.Nonempty →
    ∃ j < c.size, (c.cells j).content = (a.cells i).content

/-- What an edit does to the content of a cell. -/
def SeqEdit.content (x : Int × Finset Int) : SeqEdit → Int × Finset Int
  | .rm s p0 p1 =>
    if (rangeFrom p0 ≤ x.1 ∧ x.1 < rangeTo p1) ∧ (s < 0 ∨ s ∈ x.2) then
      let seqs := if s < 0 then ∅ else x.2.erase s
      if seqs = ∅ then (-1, ∅) else (x.1, seqs)
    else x
  | .cp src dst p0 p1 =>
    if src ∈ x.2 ∧ rangeFrom p0 ≤ x.1 ∧ x.1 < rangeTo p1 then (x.1, insert dst x.2) else x
  | .keep s => if s ∈ x.2 then (x.1, {s}) else (-1, ∅)
  | .add s p0 p1 delta =>
    if s ∈ x.2 ∧ rangeFrom p0 ≤ x.1 ∧ x.1 < rangeTo p1 then
      if x.1 + delta < 0 then (-1, ∅) else (x.1 + delta, x.2)
    else x
  | .div s p0 p1 d =>
    if s ∈ x.2 ∧ rangeFrom p0 ≤ x.1 ∧ x.1 < rangeTo p1 then (x.1.tdiv d, x.2) else x
  | .clear => (-1, ∅)

/-- An edit looks at the content of a cell only. -/
theorem SeqEdit.cell_content (e : SeqEdit) (qnext : Bool) (i : Nat) (cell : KvCell) :
    (e.cell qnext i cell).content = e.content cell.content := by
  have hiff (s p0 p1 : Int) :
      (s ∈ cell.content.2 ∧ p0 ≤ cell.content.1 ∧ cell.content.1 < p1) ↔
        s ∈ cell.seqId ∧ p0 ≤ cell.pos ∧ cell.pos < p1 := Iff.rfl
  cases e with
  | rm s p0 p1 =>
    have herase : (if s < 0 then cell.clearSeq else cell.eraseSeq s).content
        = (cell.pos, if s < 0 then ∅ else cell.seqId.erase s) := by
      split <;> rfl
    simp only [SeqEdit.cell, seqRmCell, SeqEdit.content]
    generalize (if s < 0 then cell.clearSeq else cell.eraseSeq s) = cell' at herase ⊢
    obtain ⟨hpos, hseq⟩ := Prod.mk.inj herase
    simp only [KvCell.hasSeqId, decide_eq_true_eq, KvCell.content, KvCell.isEmpty, hseq]
    split_ifs <;> simp_all [CellStep.cell]
  | cp src dst p0 p1 =>
    simp only [SeqEdit.cell, seqCpCell, KvCell.hasSeqId, decide_eq_true_eq, CellStep.cell,
      SeqEdit.content]
    by_cases hin : src ∈ cell.seqId ∧ rangeFrom p0 ≤ cell.pos ∧ cell.pos < rangeTo p1
    · rw [if_pos hin, if_pos ((hiff _ _ _).mpr hin)]
      rfl
    · rw [if_neg hin, if_neg (mt (hiff _ _ _).mp hin)]
  | keep s =>
    simp only [SeqEdit.cell, seqKeepCell, KvCell.hasSeqId, decide_eq_true_eq, SeqEdit.content]
    by_cases hin : s ∈ cell.seqId
    · rw [if_pos hin, if_pos (show s ∈ cell.content.2 from hin)]
      rfl
    · rw [if_neg hin, if_neg (show s ∉ cell.content.2 from hin)]
      rfl
  | add s p0 p1 delta =>
    rw [SeqEdit.cell_add]
    simp only [seqAddCell, KvCell.inRange, KvCell.hasSeqId, Bool.and_eq_true, decide_eq_true_eq,
      SeqEdit.content]
    by_cases hin : s ∈ cell.seqId ∧ rangeFrom p0 ≤ cell.pos ∧ cell.pos < rangeTo p1
    · rw [if_pos hin, if_pos ((hiff _ _ _).mpr hin)]
      split_ifs <;> first | rfl | contradiction
    · rw [if_neg hin, if_neg (mt (hiff _ _ _).mp hin)]
      rfl
  | div s p0 p1 d =>
    rw [SeqEdit.cell_div]
    simp only [seqDivCell, KvCell.inRange, KvCell.hasSeqId, Bool.and_eq_true, decide_eq_true_eq,
      SeqEdit.content]
    by_cases hin : s ∈ cell.seqId ∧ rangeFrom p0 ≤ cell.pos ∧ cell.pos < rangeTo p1
    · rw [if_pos hin, if_pos ((hiff _ _ _).mpr hin)]
      rfl
    · rw [if_neg hin, if_neg (mt (hiff _ _ _).mp hin)]
      rfl
  | clear => rfl

/-- An edit gives no sequence to a cell that holds none. -/
theorem SeqEdit.content_empty (e : SeqEdit) {x : Int × Finset Int} (h : x.2 = ∅) :
    (e.content x).2 = ∅ := by
  cases e <;> simp only [SeqEdit.content, h] <;> split_ifs <;> simp_all

variable {e : SeqEdit}

/-- An edit frees a cell altogether. -/
theorem SeqEdit.content_free (he : e.Ok) {x : Int × Finset Int} (h : x.1 < 0 → x.2 = ∅)
    (hpos : (e.content x).1 < 0) : (e.content x).2 = ∅ := by
  by_cases hneg : x.1 < 0
  · exact e.content_empty (h hneg)
  · cases e with
    | rm s p0 p1 =>
      simp only [SeqEdit.content] at hpos ⊢
      split_ifs at hpos ⊢ <;> first | rfl | contradiction
    | cp src dst p0 p1 =>
      simp only [SeqEdit.content] at hpos ⊢
      split_ifs at hpos <;> contradiction
    | keep s =>
      simp only [SeqEdit.content] at hpos ⊢
      split_ifs at hpos ⊢ <;> first | rfl | contradiction
    | add s p0 p1 delta =>
      simp only [SeqEdit.content] at hpos ⊢
      split_ifs at hpos ⊢ <;> first | rfl | contradiction
    | div s p0 p1 d =>
      have hd : 0 ≤ d := Int.le_trans (by decide) he
      have hdiv : 0 ≤ x.1.tdiv d := Int.tdiv_nonneg (Int.not_lt.mp hneg) hd
      simp only [SeqEdit.content] at hpos ⊢
      split_ifs at hpos
      · exact absurd hpos (Int.not_lt.mpr hdiv)
      · contradiction
    | clear => rfl
/-! ### Caches and edits -/

section
variable {a a' c c' : KvCache}

theorem freeEmpty_edited (he : e.Ok) (hedited : Edited e c c') (h : FreeEmpty c) :
    FreeEmpty c' := by
  intro i hi hpos
  rw [hedited.size] at hi
  have hcontent := e.cell_content c.hasQnextState i (c.cells i)
  rw [← hedited.cell i hi] at hcontent
  obtain ⟨hpos', hseq⟩ := Prod.mk.inj hcontent
  rw [hseq]
  exact e.content_free he (h i hi) (hpos' ▸ hpos)

/-- The same edit keeps the mirror images. -/
theorem Mirrors.edited (h : Mirrors a c) (ha : Edited e a a') (hc : Edited e c c') :
    Mirrors a' c' := by
  intro i hi hne
  rw [ha.size] at hi
  have hcontent := e.cell_content a.hasQnextState i (a.cells i)
  rw [← ha.cell i hi] at hcontent
  have hheld : (a.cells i).seqId.Nonempty := by
    rw [Finset.nonempty_iff_ne_empty]
    intro hempty
    have hnone : (a'.cells i).seqId = ∅ :=
      (congrArg Prod.snd hcontent).trans (e.content_empty hempty)
    rw [hnone] at hne
    exact absurd hne Finset.not_nonempty_empty
  obtain ⟨j, hj, hsame⟩ := h i hi hheld
  refine ⟨j, by rw [hc.size]; exact hj, ?_⟩
  rw [hc.cell j hj, e.cell_content, hsame, hcontent]

/-- Two caches without recurrent states of which the first is mirrored in the second. -/
structure MirrorOk (a c : KvCache) : Prop where
  recurrent : a.recurrent = false ∧ c.recurrent = false
  qnextSlots : a.qnextSlots = 0 ∧ c.qnextSlots = 0
  free : FreeEmpty a ∧ FreeEmpty c
  mirrors : Mirrors a c

theorem MirrorOk.edit (he : e.Ok) (h : MirrorOk a c) (ha : e.apply a = some a')
    (hc : e.apply c = some c') : MirrorOk a' c' := by
  obtain ⟨a₁, ha₁, heda⟩ := SeqEdit.apply_edited h.recurrent.1 h.qnextSlots.1 e
  obtain ⟨c₁, hc₁, hedc⟩ := SeqEdit.apply_edited h.recurrent.2 h.qnextSlots.2 e
  obtain rfl : a₁ = a' := Option.some.inj (ha₁.symm.trans ha)
  obtain rfl : c₁ = c' := Option.some.inj (hc₁.symm.trans hc)
  exact {
    recurrent := ⟨heda.recurrent.trans h.recurrent.1, hedc.recurrent.trans h.recurrent.2⟩
    qnextSlots := ⟨heda.qnextSlots.trans h.qnextSlots.1, hedc.qnextSlots.trans h.qnextSlots.2⟩
    free := ⟨freeEmpty_edited he heda h.free.1, freeEmpty_edited he hedc h.free.2⟩
    mirrors := h.mirrors.edited heda hedc }

/-- A list of edits keeps the two caches mirrored. -/
theorem MirrorOk.editAll {es : List SeqEdit} (hes : ∀ e ∈ es, e.Ok) (h : MirrorOk a c)
    (ha : editAll a es = some a') (hc : editAll c es = some c') : MirrorOk a' c' := by
  induction es generalizing a c with
  | nil =>
    cases ha
    cases hc
    exact h
  | cons e es ih =>
    rw [Kv.editAll, Option.bind_eq_some_iff] at ha hc
    obtain ⟨a₁, ha₁, ha⟩ := ha
    obtain ⟨c₁, hc₁, hc⟩ := hc
    exact ih (fun e' he' => hes e' (List.mem_cons_of_mem _ he'))
      (h.edit (hes e (List.mem_cons_self ..)) ha₁ hc₁) ha hc

/-! ### Other cells with the same content -/

/-- Cells that change in their shift only. -/
theorem MirrorOk.of_content (h : MirrorOk a c)
    (ha : a'.size = a.size ∧ a'.recurrent = a.recurrent ∧ a'.qnextSlots = a.qnextSlots)
    (hc : c'.size = c.size ∧ c'.recurrent = c.recurrent ∧ c'.qnextSlots = c.qnextSlots)
    (hacells : ∀ i < a.size, (a'.cells i).content = (a.cells i).content ∨
      (a'.cells i).seqId = ∅)
    (hccells : ∀ i < c.size, (c'.cells i).content = (c.cells i).content) : MirrorOk a' c' where
  recurrent := ⟨ha.2.1.trans h.recurrent.1, hc.2.1.trans h.recurrent.2⟩
  qnextSlots := ⟨ha.2.2.trans h.qnextSlots.1, hc.2.2.trans h.qnextSlots.2⟩
  free := by
    constructor
    · intro i hi hpos
      rw [ha.1] at hi
      rcases hacells i hi with hsame | hempty
      · obtain ⟨hpos', hseq⟩ := Prod.mk.inj hsame
        rw [hseq]
        exact h.free.1 i hi (hpos' ▸ hpos)
      · exact hempty
    · intro i hi hpos
      rw [hc.1] at hi
      obtain ⟨hpos', hseq⟩ := Prod.mk.inj (hccells i hi)
      rw [hseq]
      exact h.free.2 i hi (hpos' ▸ hpos)
  mirrors := by
    intro i hi hne
    rw [ha.1] at hi
    rcases hacells i hi with hsame | hempty
    · obtain ⟨hpos', hseq⟩ := Prod.mk.inj hsame
      obtain ⟨j, hj, hmirror⟩ := h.mirrors i hi (hseq ▸ hne)
      exact ⟨j, by rw [hc.1]; exact hj, (hccells j hj).trans (hmirror.trans hsame.symm)⟩
    · rw [hempty] at hne
      exact absurd hne Finset.not_nonempty_empty

theorem MirrorOk.evict (h : MirrorOk a c) (nSwa : Nat) (b : UBatch) (guard : Nat) :
    MirrorOk (llamaKvSwaEvict a nSwa b guard) c := by
  refine h.of_content ⟨rfl, rfl, rfl⟩ ⟨rfl, rfl, rfl⟩ (fun i hi => ?_) fun _ _ => rfl
  rcases evict_cell nSwa b guard hi with hkept | ⟨-, hfree⟩
  · rw [hkept]
    exact Or.inl rfl
  · rw [hfree]
    exact Or.inr rfl

/-! ### Placement -/

variable {b : UBatch} {r r' : Bool × KvCache}

theorem Slotted.mirrorOk_full (hslot : Slotted a b r) (h : MirrorOk a c) (hno : r.1 = false) :
    MirrorOk r.2 c :=
  h.of_content ⟨hslot.size, hslot.recurrent, hslot.qnextSlots⟩ ⟨rfl, rfl, rfl⟩
    (fun i _ => Or.inl (by rw [hslot.full hno])) fun _ _ => rfl

/-- A cell after a placement: one of the slot with its token, or one that was there before. -/
theorem Slotted.cell_cases (hslot : Slotted a b r) (hfree : FreeEmpty a) (hyes : r.1 = true)
    (i : Nat) :
    (∃ k, ∃ hk : k < b.length, i = r.2.head + k ∧
        (r.2.cells i).content = (b[k].pos, b[k].seqId.toFinset)) ∨
      (r.2.cells i = a.cells i ∧ (i < r.2.head ∨ r.2.head + b.length ≤ i)) := by
  rw [hslot.found hyes]
  by_cases hin : i < r.2.head ∨ r.2.head + b.length ≤ i
  · exact Or.inr ⟨placeTokens_of_not_mem hin, hin⟩
  · left
    obtain ⟨k, rfl⟩ : ∃ k, i = r.2.head + k := ⟨i - r.2.head, by omega⟩
    have hk : k < b.length := by omega
    have hfits := hslot.fits hyes
    refine ⟨k, hk, rfl, ?_⟩
    rw [placeTokens_mem hk, KvCell.content,
      hfree (r.2.head + k) (by omega) (hslot.free hyes k hk), Finset.empty_union]

theorem Slotted.freeEmpty (hslot : Slotted a b r) (hfree : FreeEmpty a) (hyes : r.1 = true)
    (hb : ∀ t ∈ b, 0 ≤ t.pos) : FreeEmpty r.2 := by
  intro i hi hpos
  rw [hslot.size] at hi
  rcases hslot.cell_cases hfree hyes i with ⟨k, hk, -, hcontent⟩ | ⟨hsame, -⟩
  · have hpos' : (r.2.cells i).pos = b[k].pos := congrArg Prod.fst hcontent
    have := hb _ (List.getElem_mem hk)
    omega
  · rw [hsame] at hpos ⊢
    exact hfree i hi hpos

/-- Both caches take the tokens. -/
theorem Slotted.mirrorOk_found (h : MirrorOk a c) (hslot : Slotted a b r) (hyes : r.1 = true)
    (hslot' : Slotted c b r') (hyes' : r'.1 = true) (hb : ∀ t ∈ b, 0 ≤ t.pos) :
    MirrorOk r.2 r'.2 where
  recurrent := ⟨hslot.recurrent.trans h.recurrent.1, hslot'.recurrent.trans h.recurrent.2⟩
  qnextSlots := ⟨hslot.qnextSlots.trans h.qnextSlots.1, hslot'.qnextSlots.trans h.qnextSlots.2⟩
  free := ⟨hslot.freeEmpty h.free.1 hyes hb, hslot'.freeEmpty h.free.2 hyes' hb⟩
  mirrors := by
    intro i hi hne
    rw [hslot.size] at hi
    rcases hslot.cell_cases h.free.1 hyes i with ⟨k, hk, -, hcontent⟩ | ⟨hsame, -⟩
    · -- a token of the ubatch: it is in the slot of the other cache, too
      have hfits := hslot'.fits hyes'
      refine ⟨r'.2.head + k, by rw [hslot'.size]; omega, ?_⟩
      rcases hslot'.cell_cases h.free.2 hyes' (r'.2.head + k) with
        ⟨k', hk', heq, hcontent'⟩ | ⟨-, hout⟩
      · obtain rfl : k = k' := by omega
        rw [hcontent', hcontent]
      · omega
    · -- a cell from before: its mirror image is in use, so it is not in the slot
      rw [hsame] at hne ⊢
      obtain ⟨j, hj, hmirror⟩ := h.mirrors i hi hne
      refine ⟨j, by rw [hslot'.size]; exact hj, ?_⟩
      rw [← hmirror, hslot'.found hyes', placeTokens_of_not_mem]
      by_contra hin
      have hneg := hslot'.free hyes' (j - r'.2.head) (by omega)
      rw [show r'.2.head + (j - r'.2.head) = j by omega] at hneg
      have hempty := h.free.2 j hj hneg
      rw [show (c.cells j).seqId = (a.cells i).seqId from congrArg Prod.snd hmirror] at hempty
      rw [hempty] at hne
      exact absurd hne Finset.not_nonempty_empty

/-- `kv_self` refuses, and the slot of the sliding cache is released. -/
theorem Slotted.mirrorOk_release (h : MirrorOk a c) (hslot : Slotted a b r) (hyes : r.1 = true)
    (hslot' : Slotted c b r') (hno : r'.1 = false) (hb : ∀ t ∈ b, 0 ≤ t.pos)
    (ha : a'.size = r.2.size ∧ a'.recurrent = r.2.recurrent ∧ a'.qnextSlots = r.2.qnextSlots ∧
      a'.cells = r.2.cells) :
    MirrorOk (llamaKvSwaReleaseSlot a' r.2.head b.length) r'.2 := by
  obtain ⟨hsize, hrec, hqnext, hcells⟩ := ha
  refine h.of_content
    ⟨hsize.trans hslot.size, hrec.trans hslot.recurrent, hqnext.trans hslot.qnextSlots⟩
    ⟨hslot'.size, hslot'.recurrent, hslot'.qnextSlots⟩ (fun i hi => ?_)
    fun i _ => by rw [hslot'.full hno]
  rw [releaseSlot_cells, hcells, hsize, hslot.size]
  rcases hslot.cell_cases h.free.1 hyes i with ⟨k, hk, heq, hcontent⟩ | ⟨hsame, hout⟩
  · right
    have hpos : (r.2.cells i).pos = b[k].pos := congrArg Prod.fst hcontent
    rw [if_pos ⟨by omega, by omega, hi⟩, releaseCell,
      if_pos (by rw [hpos]; exact hb _ (List.getElem_mem hk))]
    rfl
  · left
    rw [if_neg (by omega), hsame]

end

end PxqLlama.Kv
