import PxqLlama.Kv.MaskFill
import PxqLlama.Lib.Ranges

/-!
# `Proofs.Kv.MaskFill`: the masks agree

Each loop body stores one value to its entry of each tensor (`EntryFor`), and the value is open
exactly when `MaskCtx.decides` says so. The loops around it visit each entry once, in one thread
or in several (`fills_of_entry`). `maskFillsAgree` is the result for all of them.

Two limits of the formats show. In an `f16` mask the bias of ALiBi is minus infinity from the
distance `65520` on. And the shadow of a cell has numbers below zero for "no sequence" and for
"several", so a cell that only holds such a number is not found (`MaskCtx.Hides`).
-/

namespace PxqLlama.Kv

open RangeChunks

/-! ### The formats -/

section
variable {p d : Nat}

theorem two_pow_log2_le_roundBits (hp : 0 < p) (hd : d ≠ 0) :
    2 ^ Nat.log2 d ≤ roundBits p d := by
  have hsplit : 2 ^ Nat.log2 d
      = 2 ^ (Nat.log2 d - (Nat.log2 d + 1 - p)) * 2 ^ (Nat.log2 d + 1 - p) := by
    rw [← pow_add]
    congr 1
    omega
  have hquot : 2 ^ (Nat.log2 d - (Nat.log2 d + 1 - p)) ≤ d / 2 ^ (Nat.log2 d + 1 - p) := by
    rw [Nat.le_div_iff_mul_le (Nat.two_pow_pos _), ← hsplit]
    exact Nat.log2_self_le hd
  have hle : 2 ^ Nat.log2 d ≤ d / 2 ^ (Nat.log2 d + 1 - p) * 2 ^ (Nat.log2 d + 1 - p) := by
    rw [hsplit]
    exact Nat.mul_le_mul_right _ hquot
  rw [roundBits]
  split
  · exact hle.trans (Nat.mul_le_mul_right _ (Nat.le_succ _))
  · exact hle

/-- Rounding to a float never passes the next power of two. -/
theorem roundBits_le_two_pow (p d : Nat) : roundBits p d ≤ 2 ^ (Nat.log2 d + 1) := by
  have hsplit : 2 ^ (Nat.log2 d + 1)
      = 2 ^ (Nat.log2 d + 1 - (Nat.log2 d + 1 - p)) * 2 ^ (Nat.log2 d + 1 - p) := by
    rw [← pow_add]
    congr 1
    omega
  have hquot : d / 2 ^ (Nat.log2 d + 1 - p) + 1
      ≤ 2 ^ (Nat.log2 d + 1 - (Nat.log2 d + 1 - p)) := by
    rw [Nat.succ_le_iff, Nat.div_lt_iff_lt_mul (Nat.two_pow_pos _), ← hsplit]
    exact Nat.lt_log2_self
  have hle : (d / 2 ^ (Nat.log2 d + 1 - p) + 1) * 2 ^ (Nat.log2 d + 1 - p)
      ≤ 2 ^ (Nat.log2 d + 1) := by
    rw [hsplit]
    exact Nat.mul_le_mul_right _ hquot
  rw [roundBits]
  split
  · exact hle
  · exact (Nat.mul_le_mul_right _ (Nat.le_succ _)).trans hle

/-- A number that fits is not rounded. -/
theorem roundBits_of_lt (hp : 0 < p) (h : d < 2 ^ p) : roundBits p d = d := by
  have hlog : Nat.log2 d + 1 ≤ p := by
    by_cases hd : d = 0
    · rw [hd, Nat.log2_zero]
      exact hp
    · exact (Nat.log2_lt hd).mpr h
  rw [roundBits]
  simp only [Nat.sub_eq_zero_of_le hlog, pow_zero, Nat.div_one, Nat.mod_one, mul_one]
  rw [if_neg (by omega)]

/-- The distances that an `f16` mask can hold. -/
theorem roundBits_lt_iff (d : Nat) : roundBits 11 (roundBits 24 d) < 2 ^ 16 ↔ d < 65520 := by
  by_cases hlarge : 2 ^ 16 ≤ d
  · -- a number from `2 ^ 16` on stays above it
    have hmono : ∀ {p x : Nat}, 0 < p → 2 ^ 16 ≤ x → 2 ^ 16 ≤ roundBits p x := by
      intro p x hp hx
      have hlog : 16 ≤ Nat.log2 x := by
        rw [Nat.le_log2 (by omega)]
        exact hx
      exact (Nat.pow_le_pow_right (by decide) hlog).trans
        (two_pow_log2_le_roundBits hp (by omega))
    have hrounded := hmono (p := 11) (by decide) (hmono (p := 24) (by decide) hlarge)
    omega
  · have hfloat : roundBits 24 d = d := roundBits_of_lt (by decide) (by omega)
    rw [hfloat]
    by_cases hsmall : d < 2 ^ 15
    · have hlog : Nat.log2 d + 1 ≤ 15 := by
        by_cases hd : d = 0
        · rw [hd, Nat.log2_zero]
          decide
        · exact (Nat.log2_lt hd).mpr hsmall
      have hle := (roundBits_le_two_pow 11 d).trans (Nat.pow_le_pow_right (by decide) hlog)
      omega
    · -- sixteen bits are rounded to a multiple of 32
      have hlog : Nat.log2 d = 15 := by
        rw [Nat.log2_eq_iff (by omega)]
        omega
      rw [roundBits]
      simp only [hlog]
      split <;> omega

end

/-! ### The sequences of a cell -/

/-- The shadow answers as the set does, unless the only sequence of the cell has a number below
zero that does not stand for several. -/
theorem hasSeqFast_iff (c : KvCell) (s : Int) :
    c.hasSeqFast s = true ↔ s ∈ c.seqId ∧ ¬ (c.seqId = {s} ∧ s < 0 ∧ s ≠ -2) := by
  have hset : ∀ t, t ∈ c.seqId.sort (· ≤ ·) ↔ t ∈ c.seqId := fun t => Finset.mem_sort _
  have hcard : (c.seqId.sort (· ≤ ·)).length = c.seqId.card := Finset.length_sort _
  rw [KvCell.hasSeqFast, KvCell.seqShadow]
  match hsort : c.seqId.sort (· ≤ ·) with
  | [] =>
    have hempty : c.seqId = ∅ := by
      rw [hsort] at hcard
      exact Finset.card_eq_zero.mp hcard.symm
    simp [hempty]
  | [t] =>
    have honly : c.seqId = {t} := by
      ext x
      rw [← hset, hsort, List.mem_singleton, Finset.mem_singleton]
    rw [KvCell.hasSeqId, honly]
    simp only [Finset.mem_singleton, Finset.singleton_inj]
    by_cases ht : 0 ≤ t
    · rw [if_pos ht, decide_eq_true_iff]
      constructor
      · rintro rfl
        exact ⟨rfl, fun h => absurd h.2.1 (by omega)⟩
      · rintro ⟨rfl, -⟩
        rfl
    · rw [if_neg ht, Bool.and_eq_true, decide_eq_true_iff, decide_eq_true_iff]
      constructor
      · rintro ⟨htwo, rfl⟩
        exact ⟨rfl, fun h => h.2.2 htwo⟩
      · rintro ⟨rfl, hne⟩
        refine ⟨?_, rfl⟩
        by_contra htwo
        exact hne ⟨rfl, by omega, htwo⟩
  | t :: u :: rest =>
    have hmany : ∀ x, c.seqId ≠ {x} := by
      intro x hx
      rw [hsort, hx] at hcard
      simp at hcard
    simp [hmany, KvCell.hasSeqId]

/-! ### The decision -/

/-- The cell holds the token's sequence, and is not ahead of it. -/
def Token.attends (t : Token) (c : KvCell) : Prop := t.firstSeq ∈ c.seqId ∧ c.pos ≤ t.pos

/-- The cell is in the chunk or in the window of the token. The window is read as `int32_t`. -/
def MaskCtx.Reaches (m : MaskCtx) (t : Token) (c : KvCell) : Prop :=
  if m.nAttnChunk ≠ 0 then t.pos / m.nAttnChunk = c.pos / m.nAttnChunk
  else t.pos - c.pos < toI32 m.nSwa

/-- What the formats cannot say: the only sequence of a cell has a number below zero that the
shadow uses otherwise, or the bias of ALiBi is too large for `f16`. -/
def MaskCtx.Hides (m : MaskCtx) (t : Token) (c : KvCell) : Prop :=
  (m.soa = true ∧ c.seqId = {t.firstSeq} ∧ t.firstSeq < 0 ∧ t.firstSeq ≠ -2) ∨
    (m.useAlibi = true ∧ m.flashAttn = true ∧ 65520 ≤ t.pos - c.pos)

/-- The decision about the token and the cell. -/
def MaskCtx.decides (m : MaskCtx) (t : Token) (c : KvCell) : MaskTensor → Prop
  | .full => t.attends c ∧ ¬ m.Hides t c
  | .sliding => t.attends c ∧ m.Reaches t c ∧ ¬ m.Hides t c

section
variable {m : MaskCtx} {t : Token} {c : KvCell}

/-- A cell that the token attends to, as far as the shadow knows. -/
theorem cellHasSeq_iff : m.cellHasSeq c t.firstSeq = true ↔
    t.firstSeq ∈ c.seqId ∧
      ¬ (m.soa = true ∧ c.seqId = {t.firstSeq} ∧ t.firstSeq < 0 ∧ t.firstSeq ≠ -2) := by
  rw [MaskCtx.cellHasSeq]
  by_cases hsoa : m.soa = true
  · rw [if_pos hsoa, hasSeqFast_iff]
    simp [hsoa]
  · rw [if_neg hsoa, KvCell.hasSeqId, decide_eq_true_iff]
    simp [hsoa]

/-- The chunk of a token starts at its last multiple. -/
theorem posChunkStart_eq {chunk : Nat} {pos : Int} (hpos : 0 ≤ pos) (hlt : pos < 2 ^ 31) :
    posChunkStart chunk pos = pos / chunk * chunk := by
  obtain ⟨p, rfl⟩ := Int.eq_ofNat_of_zero_le hpos
  have hp : p < 2 ^ 31 := by exact_mod_cast hlt
  have hsame : toU32 (p : Int) = p := by
    rw [toU32, show ((p : Int) % 2 ^ 32) = ((p % 2 ^ 32 : Nat) : Int) by push_cast; rfl]
    rw [Int.toNat_natCast]
    omega
  have hle : p / chunk * chunk ≤ p := Nat.div_mul_le_self p chunk
  rw [posChunkStart, hsame, toI32, if_pos (by omega), Nat.mod_eq_of_lt (by omega)]
  push_cast
  rfl

/-- A cell is cut off exactly when the window or the chunk does not reach it. -/
theorem cutOff_iff (hpos : m.nAttnChunk ≠ 0 → 0 ≤ t.pos ∧ t.pos < 2 ^ 31)
    (hcell : c.pos ≤ t.pos) :
    m.cutOff c t.pos = false ↔ m.Reaches t c := by
  rw [MaskCtx.cutOff, MaskCtx.Reaches]
  by_cases hchunk : m.nAttnChunk ≠ 0
  · rw [if_pos hchunk, if_pos hchunk, posChunkStart_eq (hpos hchunk).1 (hpos hchunk).2,
      Bool.or_eq_false_iff, decide_eq_false_iff_not, decide_eq_false_iff_not]
    have hk : (0 : Int) < m.nAttnChunk := by omega
    have hself : t.pos / m.nAttnChunk * m.nAttnChunk ≤ t.pos := Int.ediv_mul_le _ (by omega)
    constructor
    · rintro ⟨hstart, -⟩
      -- the cell is between the start of the chunk and the token
      apply le_antisymm
      · exact (Int.le_ediv_iff_mul_le hk).mpr (by omega)
      · exact Int.ediv_le_ediv hk hcell
    · intro heq
      refine ⟨?_, by omega⟩
      rw [heq, not_lt]
      exact Int.ediv_mul_le _ (by omega)
  · rw [if_neg hchunk, if_neg hchunk, decide_eq_false_iff_not, not_le]

/-- A value of an entry that is not cut off is open, unless it does not fit. -/
theorem opens_stored_iff (hcell : c.pos ≤ t.pos) :
    (m.stored (m.openValue c t.pos)).opens = true ↔
      ¬ (m.useAlibi = true ∧ m.flashAttn = true ∧ 65520 ≤ t.pos - c.pos) := by
  have hdist : ((c.pos - t.pos).natAbs : Int) = t.pos - c.pos := by omega
  rw [MaskCtx.stored, MaskCtx.openValue]
  by_cases halibi : m.useAlibi = true <;> by_cases hflash : m.flashAttn = true
  · simp only [halibi, hflash, if_true, true_and, ggmlFp32ToFp16, roundBits_lt_iff]
    by_cases hfits : (c.pos - t.pos).natAbs < 65520
    · rw [if_pos hfits]
      simp only [MaskValue.opens, true_iff]
      omega
    · rw [if_neg hfits]
      simp only [MaskValue.opens, Bool.false_eq_true, false_iff, not_not]
      omega
  · simp [halibi, hflash, MaskValue.opens]
  · simp only [halibi, hflash, Bool.false_eq_true, if_true, if_false, false_and, not_false_iff,
      iff_true]
    decide
  · simp [halibi, hflash, MaskValue.opens]

end

/-! ### The loop bodies -/

/-- The stores have one value for the place, and it is open exactly when the decision says so. -/
def EntryFor (ws : List MaskStore) (place : MaskTensor × Nat) (decision : Prop) : Prop :=
  ∃ v, (ws.filter fun w => w.1 = place) = [(place, v)] ∧ (v.opens = true ↔ decision)

variable {dst : MaskTensor} {idx j i : Nat} {w : MaskStore}

section
variable {m : MaskCtx} {cells : Nat → KvCell} {nKv : Nat}

/-- One place is stored to in a tensor that is there. -/
theorem filter_store (hdst : m.has dst = true) (idx : Nat) (f : MaskValue) :
    ((m.store dst idx f).filter fun w => w.1 = (dst, idx)) = [((dst, idx), m.stored f)] := by
  rw [MaskCtx.store, if_pos hdst]
  simp

theorem filter_store_other {dst' : MaskTensor} (h : dst ≠ dst') (idx : Nat) (f : MaskValue) :
    ((m.store dst idx f).filter fun w => w.1 = (dst', idx)) = [] := by
  rw [MaskCtx.store]
  split
  · simp [h]
  · rfl

/-- The two stores of a loop body. -/
theorem entryFor_stores (hdst : m.has dst = true) {f g : MaskValue} {decision : Prop}
    (h : (m.stored (if dst = .full then f else g)).opens = true ↔ decision) :
    EntryFor (m.store .full idx f ++ m.store .sliding idx g) (dst, idx) decision := by
  refine ⟨m.stored (if dst = .full then f else g), ?_, h⟩
  rw [List.filter_append]
  cases dst with
  | full =>
    rw [filter_store hdst, filter_store_other (by decide), List.append_nil]
    rfl
  | sliding =>
    rw [filter_store hdst, filter_store_other (by decide), List.nil_append]
    rfl

theorem store_place {f : MaskValue} (hw : w ∈ m.store dst idx f) : w.1.2 = idx := by
  rw [MaskCtx.store] at hw
  split at hw
  · rw [List.mem_singleton.mp hw]
  · cases hw

variable {t : Token}

/-- The body of the thread stores to its own entry only. -/
theorem threadedEntry_place (hw : w ∈ threadedEntry m cells nKv j t i) : w.1.2 = j * nKv + i := by
  rcases List.mem_append.mp hw with hw | hw
  · exact store_place hw
  · exact store_place hw

theorem swaEntry_place (hw : w ∈ swaEntry m cells nKv j t i) : w.1.2 = j * nKv + i :=
  store_place hw

theorem openValue_ne_negInf (c : KvCell) (pos : Int) : m.openValue c pos ≠ .negInf := by
  rw [MaskCtx.openValue]
  split <;> simp

theorem opens_stored_negInf : (m.stored .negInf).opens = false := by
  rw [MaskCtx.stored]
  split <;> rfl

/-- The check that comes first in each body. -/
theorem closed_iff {c : KvCell} :
    (!m.cellHasSeq c t.firstSeq || decide (t.pos < c.pos)) = true ↔
      ¬ (m.cellHasSeq c t.firstSeq = true ∧ c.pos ≤ t.pos) := by
  rw [Bool.or_eq_true, Bool.not_eq_true', decide_eq_true_iff, not_and_or, Bool.not_eq_true, not_le]

/-- The body of a thread decides about its entry. -/
theorem entryFor_threadedEntry (hdst : m.has dst = true)
    (hpos : m.nAttnChunk ≠ 0 → 0 ≤ t.pos ∧ t.pos < 2 ^ 31) (j i : Nat) :
    EntryFor (threadedEntry m cells nKv j t i) (dst, j * nKv + i)
      (m.decides t (cells i) dst) := by
  apply entryFor_stores hdst
  by_cases hseen : m.cellHasSeq (cells i) t.firstSeq = true ∧ (cells i).pos ≤ t.pos
  · obtain ⟨hmem, hnamed⟩ := cellHasSeq_iff.mp hseen.1
    rw [if_neg (closed_iff.not.mpr (not_not.mpr hseen)), if_pos (openValue_ne_negInf _ _)]
    have hvalue := opens_stored_iff (m := m) hseen.2
    have hcut := cutOff_iff hpos hseen.2
    cases dst with
    | full =>
      rw [if_pos rfl, hvalue, MaskCtx.decides, Token.attends, MaskCtx.Hides, not_or]
      exact ⟨fun h => ⟨⟨hmem, hseen.2⟩, hnamed, h⟩, fun h => h.2.2⟩
    | sliding =>
      rw [if_neg (by decide), MaskCtx.decides, ← hcut, Token.attends, MaskCtx.Hides, not_or]
      by_cases hreach : m.cutOff (cells i) t.pos = true
      · rw [if_pos hreach, opens_stored_negInf]
        simp [hreach]
      · rw [if_neg hreach, hvalue]
        rw [Bool.not_eq_true] at hreach
        exact ⟨fun h => ⟨⟨hmem, hseen.2⟩, hreach, hnamed, h⟩, fun h => h.2.2.2⟩
  · -- a closed entry is minus infinity in each tensor
    rw [if_pos (closed_iff.mpr hseen)]
    simp only [ite_self, opens_stored_negInf]
    have hdecides : ¬ (t.attends (cells i) ∧ ¬ m.Hides t (cells i)) := by
      rintro ⟨⟨hmem, hle⟩, hhides⟩
      exact hseen ⟨cellHasSeq_iff.mpr ⟨hmem, fun h => hhides (Or.inl h)⟩, hle⟩
    cases dst with
    | full => simpa [MaskCtx.decides] using hdecides
    | sliding =>
      rw [MaskCtx.decides]
      simp only [Bool.false_eq_true, false_iff]
      exact fun h => hdecides ⟨h.1, h.2.2⟩

/-- The body of the one thread stores the same, although it cuts off closed entries too. -/
theorem singleEntry_eq (j : Nat) (t : Token) (i : Nat) :
    singleEntry m cells nKv j t i = threadedEntry m cells nKv j t i := by
  rw [singleEntry, threadedEntry]
  simp only
  congr 2
  by_cases hclosed : (!m.cellHasSeq (cells i) t.firstSeq || decide (t.pos < (cells i).pos)) = true
  · rw [if_pos hclosed]
    simp
  · have hne : m.openValue (cells i) t.pos ≠ .negInf := by
      rw [MaskCtx.openValue]
      split <;> simp
    rw [if_neg hclosed, if_pos hne]

/-- So does the row without ALiBi, and so does its variant that reads the shadow. -/
theorem noalibiF16_eq (hflash : m.flashAttn = true) (halibi : m.useAlibi = false) (j : Nat)
    (t : Token) (first last : Nat) :
    noalibiF16 m cells nKv j t first last
      = (List.range' first (last - first)).flatMap (threadedEntry m cells nKv j t) := by
  -- zero and minus infinity are the same in each type
  have hstored : ∀ p : Prop, [Decidable p] →
      m.stored (if p then .negInf else .neg 0) = if p then .negInf else .neg 0 := by
    intro p hp
    rw [MaskCtx.stored, if_pos hflash]
    split <;> decide
  have hvalue : ∀ c : KvCell, m.openValue c t.pos = .neg 0 := by
    intro c
    rw [MaskCtx.openValue, halibi]
    rfl
  rw [noalibiF16]
  by_cases hshadow : (m.soa && m.hasMask && !m.hasSwa) = true
  · rw [if_pos hshadow, List.map_eq_flatMap]
    refine List.flatMap_congr fun i _ => ?_
    simp only [Bool.and_eq_true, Bool.not_eq_true'] at hshadow
    obtain ⟨⟨hsoa, hmask⟩, hswa⟩ := hshadow
    rw [threadedEntry]
    simp only [MaskCtx.store, MaskCtx.has, hmask, hswa, if_true, Bool.false_eq_true, if_false,
      List.append_nil, hvalue, hstored, MaskCtx.cellHasSeq, hsoa]
    -- the variant asks for an open entry, the loop body for a closed one
    by_cases hle : (cells i).pos ≤ t.pos
    · cases (cells i).hasSeqFast t.firstSeq <;> simp [hle]
    · simp [hle, not_le.mp hle]
  · rw [if_neg hshadow]
    refine List.flatMap_congr fun i _ => ?_
    rw [threadedEntry]
    simp only [MaskCtx.store, MaskCtx.has, hvalue, hstored]
    congr 1
    by_cases hswa : m.hasSwa = true
    · rw [if_pos hswa, if_pos hswa]
      by_cases hclosed : (!m.cellHasSeq (cells i) t.firstSeq || decide (t.pos < (cells i).pos))
          = true
      · rw [if_pos hclosed]
        simp [MaskCtx.stored, hflash, ggmlFp32ToFp16]
      · rw [if_neg hclosed]
        simp only [ne_eq, reduceCtorEq, not_false_eq_true, if_true, hstored]
    · rw [if_neg hswa, if_neg hswa]

/-- The body of the sliding cache decides about its entry: it keeps no chunks, and its cells are
at a position. -/
theorem entryFor_swaEntry (hdst : m.hasSwa = true) (hchunk : m.nAttnChunk = 0) (j i : Nat) :
    EntryFor (swaEntry m cells nKv j t i) (.sliding, j * nKv + i)
      (m.decides t (cells i) .sliding ∧ 0 ≤ (cells i).pos) := by
  have hhas : m.has .sliding = true := hdst
  rw [swaEntry]
  refine ⟨_, filter_store hhas _ _, ?_⟩
  by_cases hseen : m.cellHasSeq (cells i) t.firstSeq = true ∧ (cells i).pos ≤ t.pos
  · obtain ⟨hmem, hnamed⟩ := cellHasSeq_iff.mp hseen.1
    have hvalue := opens_stored_iff (m := m) hseen.2
    by_cases hneg : (cells i).pos < 0
    · simp only [hneg, decide_true, Bool.or_true, if_true, ne_eq, not_true_eq_false, false_and,
        if_false, opens_stored_negInf]
      simp [not_le.mpr hneg]
    · have hopen : (!m.cellHasSeq (cells i) t.firstSeq || decide (t.pos < (cells i).pos))
          = false := by
        rw [← Bool.not_eq_true, closed_iff, not_not]
        exact hseen
      simp only [hopen, hneg, decide_false, Bool.or_false, Bool.false_eq_true, if_false, ne_eq,
        openValue_ne_negInf, not_false_eq_true, true_and]
      rw [MaskCtx.decides, MaskCtx.Reaches, if_neg (not_not.mpr hchunk), Token.attends,
        MaskCtx.Hides, not_or]
      by_cases hreach : toI32 m.nSwa ≤ t.pos - (cells i).pos
      · rw [if_pos hreach, opens_stored_negInf]
        simp [not_lt.mpr hreach]
      · rw [if_neg hreach, hvalue]
        exact ⟨fun h => ⟨⟨⟨hmem, hseen.2⟩, not_le.mp hreach, hnamed, h⟩, not_lt.mp hneg⟩,
          fun h => h.1.2.2.2⟩
  · have hclosed := closed_iff.mpr hseen
    simp only [hclosed, Bool.true_or, if_true, ne_eq, not_true_eq_false, false_and, if_false,
      opens_stored_negInf, Bool.false_eq_true, false_iff]
    rintro ⟨⟨⟨hmem, hle⟩, -, hhides⟩, -⟩
    exact hseen ⟨cellHasSeq_iff.mpr ⟨hmem, fun h => hhides (Or.inl h)⟩, hle⟩

end

/-! ### The loops -/

/-- A loop over the tokens, and in it a loop over some cells. -/
def fillLoops (batch : List Token) (entry : Nat → Token → Nat → List MaskStore)
    (first last : Nat) : List MaskStore :=
  batch.zipIdx.flatMap fun (t, j) => (List.range' first (last - first)).flatMap (entry j t)

/-- The stores have, for each token and each cell, one value for its place, and it is open
exactly when the decision says so. -/
def Fills (cells : Nat → KvCell) (nKv : Nat) (batch : List Token) (dst : MaskTensor)
    (decision : Token → KvCell → Prop) (ws : List MaskStore) : Prop :=
  ∀ (j : Nat) (hj : j < batch.length), ∀ i < nKv,
    EntryFor ws (dst, j * nKv + i) (decision batch[j] (cells i))

section
variable {nKv : Nat} {batch : List Token} {entry : Nat → Token → Nat → List MaskStore}
  (hplace : ∀ j t i, ∀ w ∈ entry j t i, w.1.2 = j * nKv + i)
include hplace

theorem filter_entry_of_ne {j' i' : Nat} {t : Token} (hi : i < nKv) (hi' : i' < nKv)
    (hne : ¬ (j' = j ∧ i' = i)) (dst : MaskTensor) :
    ((entry j' t i').filter fun w => w.1 = (dst, j * nKv + i)) = [] := by
  rw [List.filter_eq_nil_iff]
  intro w hw hkey
  rw [decide_eq_true_iff] at hkey
  have hidx : j * nKv + i = j' * nKv + i' := by
    rw [← hplace j' t i' w hw, hkey]
  -- the row and the column come from the index
  have hrow : (j * nKv + i) / nKv = j := by
    rw [Nat.mul_comm, Nat.mul_add_div (by omega), Nat.div_eq_of_lt hi, Nat.add_zero]
  have hrow' : (j' * nKv + i') / nKv = j' := by
    rw [Nat.mul_comm, Nat.mul_add_div (by omega), Nat.div_eq_of_lt hi', Nat.add_zero]
  have hj : j' = j := by
    rw [← hrow, ← hrow', hidx]
  subst hj
  exact hne ⟨rfl, by omega⟩

/-- The loops come to the entry of a token and a cell of theirs once. -/
theorem filter_fillLoops {first last : Nat} (hlast : last ≤ nKv) (hj : j < batch.length)
    (hfirst : first ≤ i) (hi : i < last) (dst : MaskTensor) :
    ((fillLoops batch entry first last).filter fun w => w.1 = (dst, j * nKv + i))
      = (entry j batch[j] i).filter fun w => w.1 = (dst, j * nKv + i) := by
  have hcol : ∀ i', i' ∈ List.range' first (last - first) → i' < nKv := by
    intro i' hi'
    rw [List.mem_range'_1] at hi'
    omega
  have htokens : batch.zipIdx.Nodup := by
    apply List.Nodup.of_map Prod.snd
    rw [List.zipIdx_map_snd]
    exact List.nodup_range'
  have htoken : (batch[j], j) ∈ batch.zipIdx := List.mem_zipIdx_iff_getElem?.mpr (by simp [hj])
  rw [fillLoops, filter_flatMap_of_unique htokens htoken, filter_flatMap_of_unique
    List.nodup_range' (List.mem_range'_1.mpr (by omega : first ≤ i ∧ i < first + (last - first)))]
  · intro i' hi' hne
    exact filter_entry_of_ne hplace (by omega) (hcol i' hi') (fun h => hne h.2) dst
  · rintro ⟨t, j'⟩ hmem hne
    have hget := List.mem_zipIdx_iff_getElem?.mp hmem
    rw [List.filter_flatMap, List.flatMap_eq_nil_iff]
    intro i' hi'
    refine filter_entry_of_ne hplace (by omega) (hcol i' hi') (fun h => hne ?_) dst
    obtain ⟨rfl, -⟩ := h
    rw [List.getElem?_eq_getElem hj] at hget
    rw [Option.some.inj hget]

/-- A loop over other cells does not come to it. -/
theorem filter_fillLoops_other {first last : Nat} (hlast : last ≤ nKv) (hi : i < nKv)
    (hout : ¬ (first ≤ i ∧ i < last)) (dst : MaskTensor) :
    ((fillLoops batch entry first last).filter fun w => w.1 = (dst, j * nKv + i)) = [] := by
  rw [fillLoops, List.filter_flatMap, List.flatMap_eq_nil_iff]
  rintro ⟨t, j'⟩ -
  rw [List.filter_flatMap, List.flatMap_eq_nil_iff]
  intro i' hi'
  rw [List.mem_range'_1] at hi'
  refine filter_entry_of_ne hplace hi (by omega) (fun h => ?_) dst
  omega

/-- The loops of several threads come to each entry once, in whichever order they run. -/
theorem filter_threads {nThread : Nat} (hthread : 0 < nThread) (hj : j < batch.length)
    (hi : i < nKv) (dst : MaskTensor) :
    (((List.range nThread).flatMap fun ith =>
        fillLoops batch entry (ith * ((nKv + nThread - 1) / nThread))
          (min nKv (ith * ((nKv + nThread - 1) / nThread) + (nKv + nThread - 1) / nThread))).filter
        fun w => w.1 = (dst, j * nKv + i))
      = (entry j batch[j] i).filter fun w => w.1 = (dst, j * nKv + i) := by
  obtain ⟨hith, hfirst, hlast⟩ := exists_chunk hthread hi
  generalize (nKv + nThread - 1) / nThread = npt at *
  rw [filter_flatMap_of_unique List.nodup_range (List.mem_range.mpr hith),
    filter_fillLoops hplace (Nat.min_le_left _ _) hj hfirst hlast]
  intro ith _ hne
  apply filter_fillLoops_other hplace (Nat.min_le_left _ _) hi
  rintro ⟨hlo, hhi⟩
  apply hne
  rw [Nat.lt_min] at hhi
  -- the quotient names the thread
  symm
  apply Nat.div_eq_of_lt_le hlo
  rw [Nat.succ_mul]
  exact hhi.2

end

/-! ### All of the fills -/

/-- The stores of the threads in some order, and then the stores behind the tokens. -/
def MaskFills.Runs (fills : MaskFills) (ws : List MaskStore) : Prop :=
  ∃ order, order.Perm fills.threads.flatten ∧ ws = order ++ fills.pad

/-- What the fills agree about: the fill with one thread, the fill with several, and the fill of
the sliding cache. Each may be followed by the stores behind the tokens. -/
structure MaskFillsAgree (m : MaskCtx) (cells : Nat → KvCell) (nKv : Nat)
    (swaCells : Nat → KvCell) (nKvSwa : Nat) (batch : List Token) (nThread : Nat) : Prop where
  single : ∀ dst, m.has dst = true → ∀ pad ∈ [[], fillPad m nKv batch.length], ∀ ws,
    MaskFills.Runs ⟨[fillSingle m cells nKv batch], pad⟩ ws →
      Fills cells nKv batch dst (fun t c => m.decides t c dst) ws
  threads : ∀ dst, m.has dst = true → ∀ ws,
    MaskFills.Runs ⟨fillThreads m cells nKv batch nThread, fillPad m nKv batch.length⟩ ws →
      Fills cells nKv batch dst (fun t c => m.decides t c dst) ws
  -- the context only makes a sliding cache for a model without chunks
  slidingCache : m.hasSwa = true → m.nAttnChunk = 0 → ∀ ws,
    (llamaSetInpKQMaskSwa m swaCells nKvSwa batch nThread).Runs ws →
      Fills swaCells nKvSwa batch .sliding (fun t c => m.decides t c .sliding ∧ 0 ≤ c.pos) ws

section
variable {m : MaskCtx} {nKv : Nat} {batch : List Token}

theorem filter_fillPad (m : MaskCtx) (nKv nTokens : Nat) (dst : MaskTensor)
    (hidx : idx < nTokens * nKv) :
    ((fillPad m nKv nTokens).filter fun w => w.1 = (dst, idx)) = [] := by
  rw [fillPad, List.filter_flatMap, List.flatMap_eq_nil_iff]
  intro idx' hidx'
  rw [List.mem_range'_1] at hidx'
  rw [List.filter_eq_nil_iff]
  intro w hw hkey
  rw [decide_eq_true_iff] at hkey
  have hplace : w.1.2 = idx' := by
    rcases List.mem_append.mp hw with hw | hw
    · exact store_place hw
    · exact store_place hw
  rw [hkey] at hplace
  change idx = idx' at hplace
  omega

/-- The order of the threads and the stores behind the tokens do not matter. -/
theorem fills_of_runs {cells : Nat → KvCell} {decision : Token → KvCell → Prop}
    {fills : MaskFills} {ws : List MaskStore}
    (hpad : ∀ idx < batch.length * nKv, (fills.pad.filter fun w => w.1 = (dst, idx)) = [])
    (h : Fills cells nKv batch dst decision fills.threads.flatten) (hruns : fills.Runs ws) :
    Fills cells nKv batch dst decision ws := by
  obtain ⟨order, hperm, rfl⟩ := hruns
  intro j hj i hi
  obtain ⟨v, hv, hopens⟩ := h j hj i hi
  refine ⟨v, ?_, hopens⟩
  have hidx : j * nKv + i < batch.length * nKv := by
    have hrows : (j + 1) * nKv ≤ batch.length * nKv := Nat.mul_le_mul_right _ hj
    rw [Nat.succ_mul] at hrows
    omega
  have hone := hperm.filter fun w => w.1 = (dst, j * nKv + i)
  rw [hv] at hone
  rw [List.filter_append, hpad _ hidx, List.append_nil, List.perm_singleton.mp hone]

/-- The rows of either kind are loops over the cells. -/
theorem fillSingle_eq (m : MaskCtx) (cells : Nat → KvCell) (nKv : Nat) (batch : List Token) :
    fillSingle m cells nKv batch = fillLoops batch (threadedEntry m cells nKv) 0 nKv := by
  rw [fillSingle, fillLoops]
  refine List.flatMap_congr fun ⟨t, j⟩ _ => ?_
  simp only
  by_cases hplain : (!m.useAlibi && m.flashAttn) = true
  · rw [if_pos hplain]
    rw [Bool.and_eq_true, Bool.not_eq_true'] at hplain
    exact noalibiF16_eq hplain.2 hplain.1 j t 0 nKv
  · rw [if_neg hplain, Nat.sub_zero]
    exact List.flatMap_congr fun i _ => singleEntry_eq j t i

/-- A thread of the parallel fill writes the entries of its own rows. -/
theorem computeThread_eq (m : MaskCtx) (cells : Nat → KvCell) (nKv : Nat) (batch : List Token)
    (npt : Nat) :
    computeThread m cells nKv batch npt = fun ith =>
      fillLoops batch (threadedEntry m cells nKv) (ith * npt) (min nKv (ith * npt + npt)) := by
  funext ith
  rw [computeThread]
  simp only
  split
  · -- a thread without cells
    rename_i hnone
    rw [fillLoops, Nat.sub_eq_zero_of_le hnone]
    simp
  · rw [fillLoops]
    refine List.flatMap_congr fun ⟨t, j⟩ _ => ?_
    simp only
    by_cases hplain : (!m.useAlibi && m.flashAttn) = true
    · rw [if_pos hplain]
      rw [Bool.and_eq_true, Bool.not_eq_true'] at hplain
      exact noalibiF16_eq hplain.2 hplain.1 j t _ _
    · rw [if_neg hplain]

end

/-- The loops of the sliding cache, in one thread or in several. -/
theorem filter_swaFillThreads (m : MaskCtx) (cells : Nat → KvCell) {nKv : Nat}
    {batch : List Token} {nThread : Nat} (hthread : 0 < nThread) (hj : j < batch.length)
    (hi : i < nKv) (dst : MaskTensor) :
    ((swaFillThreads m cells nKv batch nThread).flatten.filter fun w => w.1 = (dst, j * nKv + i))
      = (swaEntry m cells nKv j batch[j] i).filter fun w => w.1 = (dst, j * nKv + i) := by
  have hplace : ∀ j t i, ∀ w ∈ swaEntry m cells nKv j t i, w.1.2 = j * nKv + i :=
    fun j t i w hw => swaEntry_place hw
  rw [swaFillThreads]
  split
  · -- a thread without cells has no stores, as its loops have none
    have hloops : ∀ first last : Nat,
        (if first < last then swaFillRange m cells nKv batch first last else [])
          = fillLoops batch (swaEntry m cells nKv) first last := by
      intro first last
      split
      · rfl
      · rename_i hnone
        rw [fillLoops, Nat.sub_eq_zero_of_le (Nat.not_lt.mp hnone)]
        simp
    simp only [hloops, ← List.flatMap_def]
    exact filter_threads hplace hthread hj hi dst
  · rw [List.flatten_cons, List.flatten_nil, List.append_nil]
    exact filter_fillLoops hplace (Nat.le_refl _) hj (Nat.zero_le _) hi dst

/-- The mask fills agree: every entry is stored once, and it is open exactly when the cell holds
the token's sequence at a position that is not ahead, and that the sliding mask reaches, as far as
the formats can say so. -/
theorem maskFillsAgree (m : MaskCtx) (cells : Nat → KvCell) (nKv : Nat)
    (swaCells : Nat → KvCell) (nKvSwa : Nat) (batch : List Token) {nThread : Nat}
    (hthread : 0 < nThread)
    (hpos : m.nAttnChunk ≠ 0 → ∀ t ∈ batch, 0 ≤ t.pos ∧ t.pos < 2 ^ 31) :
    MaskFillsAgree m cells nKv swaCells nKvSwa batch nThread := by
  have hplace : ∀ j t i, ∀ w ∈ threadedEntry m cells nKv j t i, w.1.2 = j * nKv + i :=
    fun j t i w hw => threadedEntry_place hw
  have hentry : ∀ dst, m.has dst = true → ∀ (j : Nat) (hj : j < batch.length), ∀ i < nKv,
      EntryFor (threadedEntry m cells nKv j batch[j] i) (dst, j * nKv + i)
        (m.decides batch[j] (cells i) dst) := fun dst hdst j hj i _ =>
    entryFor_threadedEntry hdst (fun hchunk => hpos hchunk _ (List.getElem_mem hj)) j i
  constructor
  case single =>
    intro dst hdst pad hpad ws hruns
    apply fills_of_runs ?_ ?_ hruns
    · intro idx hidx
      rcases List.mem_cons.mp hpad with rfl | hpad
      · rfl
      · rw [List.mem_singleton.mp hpad]
        exact filter_fillPad m nKv batch.length dst hidx
    · intro j hj i hi
      simp only [List.flatten_cons, List.flatten_nil, List.append_nil, fillSingle_eq]
      obtain ⟨v, hv, hopens⟩ := hentry dst hdst j hj i hi
      exact ⟨v, by rw [filter_fillLoops hplace (Nat.le_refl _) hj (Nat.zero_le _) hi, hv], hopens⟩
  case threads =>
    intro dst hdst ws hruns
    apply fills_of_runs (fun idx hidx => filter_fillPad m nKv batch.length dst hidx) ?_ hruns
    intro j hj i hi
    simp only [fillThreads, computeThread_eq, ← List.flatMap_def]
    obtain ⟨v, hv, hopens⟩ := hentry dst hdst j hj i hi
    exact ⟨v, by rw [filter_threads hplace hthread hj hi, hv], hopens⟩
  case slidingCache =>
    intro hswa hchunk ws hruns
    apply fills_of_runs (fun idx hidx => filter_fillPad _ nKvSwa batch.length _ hidx) ?_ hruns
    intro j hj i hi
    have hentry : EntryFor (swaEntry m swaCells nKvSwa j batch[j] i) (.sliding, j * nKvSwa + i)
        (m.decides batch[j] (swaCells i) .sliding ∧ 0 ≤ (swaCells i).pos) :=
      entryFor_swaEntry hswa hchunk j i
    obtain ⟨v, hv, hopens⟩ := hentry
    refine ⟨v, ?_, hopens⟩
    rw [← hv]
    exact filter_swaFillThreads m swaCells hthread hj hi .sliding

/-- A model without ALiBi that has both masks in `f16`, with a window of four. -/
def slidingF16 : MaskCtx where
  flashAttn := true
  useAlibi := false
  soa := true
  nSwa := 4
  nAttnChunk := 0
  hasMask := true
  hasSwa := true

/-- Cells that all hold one sequence at one position. -/
def sameCells (pos s : Int) : Nat → KvCell := fun _ => { pos := pos, seqId := {s} }

/-- The masks of a window, and those of chunks of three positions. -/
theorem maskFillsAgree_slidingF16 :
    MaskFillsAgree slidingF16 (sameCells 2 0) 3 (sameCells 2 0) 2 [⟨5, [0]⟩] 4 ∧
      MaskFillsAgree { slidingF16 with nAttnChunk := 3 } (sameCells 2 0) 3 (sameCells 2 0) 2
        [⟨5, [0]⟩] 4 := by
  constructor
  · exact maskFillsAgree _ _ _ _ _ _ (by decide) fun hchunk => absurd rfl hchunk
  · apply maskFillsAgree _ _ _ _ _ _ (by decide)
    intro _ t ht
    rw [List.mem_singleton.mp ht]
    decide

theorem not_fills_of_closed {cells : Nat → KvCell} {t : Token} {decision : Token → KvCell → Prop}
    {ws : List MaskStore} (hclosed : (ws.filter fun w => w.1 = (dst, 0)) = [((dst, 0), .negInf)])
    (hdecision : decision t (cells 0)) : ¬ Fills cells 1 [t] dst decision ws := by
  intro h
  obtain ⟨v, hv, hopens⟩ := h 0 Nat.zero_lt_one 0 Nat.zero_lt_one
  have hv' : v = .negInf := by
    have heq := hclosed.symm.trans hv
    simp only [List.cons.injEq, Prod.mk.injEq, and_true, true_and] at heq
    exact heq.symm
  rw [hv'] at hopens
  exact absurd (hopens.mpr hdecision) (by decide)

/-- The formats and the types show: a distance of `65520` with ALiBi in `f16`; a sequence with the
number of the empty shadow; a window that is not an `int32_t`; a cell of the sliding cache, and a
token of a model with chunks, at a position below zero. -/
theorem mask_fills_close_at_the_limits :
    ¬ Fills (sameCells 0 0) 1 [⟨65520, [0]⟩] .full (fun t c => t.attends c)
        (fillSingle { slidingF16 with useAlibi := true } (sameCells 0 0) 1 [⟨65520, [0]⟩]) ∧
      ¬ Fills (sameCells 0 (-1)) 1 [⟨0, [-1]⟩] .full (fun t c => t.attends c)
        (fillSingle slidingF16 (sameCells 0 (-1)) 1 [⟨0, [-1]⟩]) ∧
      ¬ Fills (sameCells 0 0) 1 [⟨0, [0]⟩] .sliding
        (fun t c => t.attends c ∧ t.pos - c.pos < (2 ^ 31 : Nat))
        (fillSingle { slidingF16 with nSwa := 2 ^ 31 } (sameCells 0 0) 1 [⟨0, [0]⟩]) ∧
      ¬ Fills (sameCells (-1) 0) 1 [⟨0, [0]⟩] .sliding
        (fun t c => t.attends c ∧ t.pos - c.pos < (4 : Nat))
        (swaFillThreads slidingF16 (sameCells (-1) 0) 1 [⟨0, [0]⟩] 1).flatten ∧
      ¬ Fills (sameCells (-2) 0) 1 [⟨-1, [0]⟩] .sliding
        (fun t c => t.attends c ∧ t.pos / 3 = c.pos / 3)
        (fillSingle { slidingF16 with nAttnChunk := 3 } (sameCells (-2) 0) 1 [⟨-1, [0]⟩]) := by
  refine ⟨?alibi, ?shadow, ?window, ?swaCell, ?chunk⟩
  case alibi =>
    exact not_fills_of_closed (by decide +kernel) ⟨Finset.mem_singleton_self 0, by decide⟩
  case shadow =>
    exact not_fills_of_closed (by decide +kernel) ⟨Finset.mem_singleton_self (-1), by decide⟩
  case window =>
    have hattends : Token.attends ⟨0, [0]⟩ (sameCells 0 0 0) :=
      ⟨Finset.mem_singleton_self 0, by decide⟩
    exact not_fills_of_closed (by decide +kernel) ⟨hattends, by decide⟩
  case swaCell =>
    have hattends : Token.attends ⟨0, [0]⟩ (sameCells (-1) 0 0) :=
      ⟨Finset.mem_singleton_self 0, by decide⟩
    exact not_fills_of_closed (by decide +kernel) ⟨hattends, by decide⟩
  case chunk =>
    have hattends : Token.attends ⟨-1, [0]⟩ (sameCells (-2) 0 0) :=
      ⟨Finset.mem_singleton_self 0, by decide⟩
    exact not_fills_of_closed (by decide +kernel) ⟨hattends, by decide⟩

end PxqLlama.Kv
