import Mathlib.Data.List.GetD
import PxqLlama.Lib.Ranges
import PxqLlama.Ple.Rows

/-!
# `Proofs.Ple.Rows`: the rows do not depend on the split

`refRow` is the row of a head at a position of the whole sequence. A ubatch finds the tokens of
its windows in two places, itself and the history (`prevTok_seqBatch`), and the history holds the
last tokens before it (`HistAt`). So each ubatch has the rows of its positions
(`llamaSetInputsPle_seqBatch`), and by induction on the ubatches so has the run (`pleRun_eq`).
-/

namespace PxqLlama.Ple

/-! ### The reference -/

/-- The token `s` places before the position `p`, seen from there: a position before the sequence
counts as an end of sequence, and so does every token at or before the nearest earlier one. -/
def refTok (eos : Int) (t : List Int) (p s : Nat) : Int :=
  if s ≤ p ∧ ∀ k ∈ List.range' 1 s, t.getD (p - k) 0 ≠ eos then t.getD (p - s) 0 else eos

/-- The hash of `n` tokens. -/
def refHash (hp : PleHparams) (t : List Int) (p n : Nat) : UInt64 :=
  ((List.range n).map fun s =>
    UInt64.ofInt (refTok hp.eosTokenId t p s) * hp.layerMultipliers s).foldl (· ^^^ ·) 0

/-- The row of the head `h` at the position `p`: the heads of an order are next to each other. -/
def refRow (hp : PleHparams) (t : List Int) (p h : Nat) : Int32 :=
  Int32.ofNat ((refHash hp t p (h / hp.headsPerNgram + 2)).toNat % (hp.headVocabSizes h).toNat
    + (hp.headOffsets h).toNat)

/-! ### The window -/

section
variable {hp : PleHparams}

/-- Trimming a history before it grows loses nothing. -/
theorem trimToks_append (xs ys : List Int) :
    trimToks hp (trimToks hp xs ++ ys) = trimToks hp (xs ++ ys) := by
  by_cases hlong : hp.ngramSize - 1 ≤ xs.length
  · -- what was cut off before is cut off again
    have hsplit : (xs ++ ys).length - (hp.ngramSize - 1)
        = (xs.length - (hp.ngramSize - 1)) + ys.length := by
      rw [List.length_append]
      omega
    have hlength : (trimToks hp xs ++ ys).length - (hp.ngramSize - 1) = ys.length := by
      rw [List.length_append, trimToks, List.length_drop]
      omega
    rw [trimToks, hlength, trimToks, trimToks, hsplit, ← List.drop_drop,
      List.drop_append_of_le_length (Nat.sub_le _ _)]
  · have hself : trimToks hp xs = xs := by
      rw [trimToks, Nat.sub_eq_zero_of_le (by omega), List.drop_zero]
    rw [hself]

theorem trimToks_trimToks (xs : List Int) : trimToks hp (trimToks hp xs) = trimToks hp xs := by
  have h : trimToks hp (trimToks hp xs ++ []) = trimToks hp (xs ++ []) := trimToks_append xs []
  rwa [List.append_nil, List.append_nil] at h

theorem length_trimToks (xs : List Int) :
    (trimToks hp xs).length = min xs.length (hp.ngramSize - 1) := by
  rw [trimToks, List.length_drop]
  omega

/-- The padded history has the tokens before its end at their places. -/
theorem getD_padToks {xs : List Int} {back : Nat} (hpos : 0 < back) (hlen : back ≤ xs.length)
    (hwin : back ≤ hp.ngramSize - 1) :
    (padToks hp (trimToks hp xs)).getD ((padToks hp (trimToks hp xs)).length - back) hp.eosTokenId
      = xs.getD (xs.length - back) 0 := by
  have hlength : (trimToks hp xs).length = min xs.length (hp.ngramSize - 1) := length_trimToks xs
  have hpad : (padToks hp (trimToks hp xs)).length = hp.ngramSize - 1 := by
    rw [padToks, List.length_append, List.length_replicate, hlength]
    omega
  -- the place is behind the padding, as far from the end as it is in the whole history
  have hbehind : (List.replicate (hp.ngramSize - 1 - (trimToks hp xs).length)
      hp.eosTokenId).length ≤ hp.ngramSize - 1 - back := by
    rw [List.length_replicate, hlength]
    omega
  have hplace : xs.length - (hp.ngramSize - 1) + (hp.ngramSize - 1 - back
      - (hp.ngramSize - 1 - (trimToks hp xs).length)) = xs.length - back := by
    rw [hlength]
    omega
  rw [hpad, padToks, List.getD_append_right _ _ _ _ hbehind, List.length_replicate]
  rw [trimToks, List.getD_eq_getElem?_getD, List.getElem?_drop, ← trimToks, hplace,
    List.getD_eq_getElem?_getD, List.getElem?_eq_getElem (by omega)]
  rfl

end

variable {t : List Int} {hist : PleHist}

section
variable {hp : PleHparams} {seq : Int} {done part : List Int}

/-- The lambda `prev` for the stretch `part` of a sequence behind `done`. -/
theorem prevTok_seqBatch {i s : Nat} (hwin : s ≤ hp.ngramSize - 1) :
    prevTok hp (seqBatch seq done.length part) (padToks hp (trimToks hp done)) i s
      = if s ≤ done.length + i then (done ++ part).getD (done.length + i - s) 0
        else hp.eosTokenId := by
  rw [prevTok]
  by_cases hin : s ≤ i
  · -- the token is in the ubatch
    have hpos : posOf (seqBatch seq done.length part) (i - s)
        = posOf (seqBatch seq done.length part) i - s := by
      simp only [posOf, seqBatch]
      omega
    rw [if_pos ⟨hin, rfl, hpos⟩, if_pos (by omega),
      List.getD_append_right _ _ _ _ (by omega : done.length ≤ done.length + i - s)]
    simp only [tokOf, seqBatch]
    congr 1
    omega
  · rw [if_neg (fun h => hin h.1)]
    simp only
    have hlength : (trimToks hp done).length = min done.length (hp.ngramSize - 1) :=
      length_trimToks done
    have hpad : (padToks hp (trimToks hp done)).length = hp.ngramSize - 1 := by
      rw [padToks, List.length_append, List.length_replicate, hlength]
      omega
    by_cases hbefore : s ≤ done.length + i
    · -- the token is in the history
      rw [if_pos hbefore, if_pos, getD_padToks (by omega) (by omega) (by omega),
        List.getD_append _ _ _ _ (by omega : done.length + i - s < done.length)]
      · congr 1
        omega
      · rw [hpad]
        refine ⟨by omega, by omega, ?_⟩
        simp only [posOf, seqBatch]
        omega
    · rw [if_neg hbefore, if_neg]
      rintro ⟨-, -, hpos⟩
      simp only [posOf, seqBatch] at hpos
      omega

/-- The loop that fills `ctx`: the token of a place, unless an end of sequence came before. -/
theorem getElem?_ctxLoop (prev : Nat → Int) (eos : Int) (cut : Bool) (s k : Nat) {j : Nat}
    (hj : j < k) :
    (ctxLoop prev eos cut s k)[j]? = some
      (if cut = false ∧ ∀ r ∈ List.range' s j, prev r ≠ eos then prev (s + j) else eos) := by
  induction k generalizing cut s j with
  | zero => omega
  | succ k ih =>
    rw [ctxLoop]
    cases j with
    | zero =>
      cases cut <;> simp
    | succ j =>
      have hplace : s + 1 + j = s + (j + 1) := by omega
      rw [List.getElem?_cons_succ, ih _ _ (by omega), hplace]
      simp only [List.range'_succ, List.forall_mem_cons]
      cases cut with
      | true => simp
      | false =>
        simp only [Bool.false_or, Bool.false_eq_true, if_false, decide_eq_false_iff_not, ne_eq,
          true_and]

/-- The window of a token of the ubatch, as the whole sequence has it. -/
theorem getD_pleCtx {i s : Nat} (hwin : s ≤ hp.ngramSize - 1) :
    (pleCtx hp (seqBatch seq done.length part) (padToks hp (trimToks hp done)) i).getD s 0
      = refTok hp.eosTokenId (done ++ part) (done.length + i) s := by
  rw [pleCtx, List.getD_eq_getElem?_getD, refTok]
  cases s with
  | zero =>
    rw [List.getElem?_cons_zero, List.range'_zero, if_pos ⟨Nat.zero_le _, by simp⟩]
    rw [List.getD_append_right _ _ _ _ (by omega : done.length ≤ done.length + i - 0)]
    simp only [tokOf, seqBatch, Option.getD_some]
    congr 1
    omega
  | succ j =>
    have hprev : ∀ r ≤ j + 1, prevTok hp (seqBatch seq done.length part)
        (padToks hp (trimToks hp done)) i r = if r ≤ done.length + i then
          (done ++ part).getD (done.length + i - r) 0 else hp.eosTokenId :=
      fun r hr => prevTok_seqBatch (by omega)
    rw [List.getElem?_cons_succ, getElem?_ctxLoop _ _ _ _ _ (by omega), Option.getD_some,
      hprev _ (by omega), Nat.add_comm 1 j]
    by_cases hin : j + 1 ≤ done.length + i
    · -- the places in between are in the sequence too
      rw [if_pos hin]
      by_cases hlast : (done ++ part).getD (done.length + i - (j + 1)) 0 = hp.eosTokenId
      · rw [hlast, ite_self, ite_self]
      · have hsame : (∀ r ∈ List.range' 1 j, prevTok hp (seqBatch seq done.length part)
            (padToks hp (trimToks hp done)) i r ≠ hp.eosTokenId) ↔
            ∀ r ∈ List.range' 1 (j + 1), (done ++ part).getD (done.length + i - r) 0
              ≠ hp.eosTokenId := by
          rw [List.range'_concat, List.forall_mem_append, List.forall_mem_singleton,
            Nat.one_mul, Nat.add_comm 1 j, and_iff_left hlast]
          refine forall₂_congr fun r hr => ?_
          rw [List.mem_range'_1] at hr
          rw [hprev r (by omega), if_pos (by omega)]
        simp only [hsame, hin, true_and]
    · rw [if_neg hin, ite_self, if_neg (fun h => hin h.1)]

/-! ### The rows of an ubatch -/

/-- The rolling hash is the reference hash of the position. -/
theorem mixed_eq_refHash {ctx : List Int} {p n : Nat} (hn : 0 < n)
    (hctx : ∀ s < n, ctx.getD s 0 = refTok hp.eosTokenId t p s) :
    mixed hp ctx n = refHash hp t p n := by
  obtain ⟨n, rfl⟩ := Nat.exists_eq_add_of_lt hn
  rw [mixed, refHash, Nat.zero_add, Nat.add_sub_cancel, List.range_eq_range', List.range'_succ,
    List.map_cons, List.foldl_cons, List.foldl_map]
  rw [hctx 0 (by omega)]
  have hzero : (0 : UInt64) ^^^ UInt64.ofInt (refTok hp.eosTokenId t p 0) * hp.layerMultipliers 0
      = UInt64.ofInt (refTok hp.eosTokenId t p 0) * hp.layerMultipliers 0 := UInt64.zero_xor
  rw [hzero]
  apply List.foldl_ext
  intro acc j hj
  rw [List.mem_range'_1] at hj
  rw [hctx j (by omega)]

theorem headRow_eq (hash : UInt64) (h : Nat) :
    headRow hp hash h = Int32.ofNat
      (hash.toNat % (hp.headVocabSizes h).toNat + (hp.headOffsets h).toNat) := by
  rw [headRow, Int32.eq_iff_toBitVec_eq, UInt32.toBitVec_toInt32]
  apply BitVec.eq_of_toNat_eq
  have hsum : (hash % hp.headVocabSizes h + hp.headOffsets h).toUInt32.toBitVec.toNat
      = (hash.toNat % (hp.headVocabSizes h).toNat + (hp.headOffsets h).toNat) % 2 ^ 32 := by
    rw [UInt32.toNat_toBitVec, UInt64.toNat_toUInt32, UInt64.toNat_add, UInt64.toNat_mod]
    omega
  rw [hsum]
  rfl

/-- The rows of the token `i` of the ubatch. -/
theorem tokenRows_pleCtx (hlayout : hp.layoutOk = true) (i : Nat) :
    tokenRows hp (pleCtx hp (seqBatch seq done.length part) (padToks hp (trimToks hp done)) i)
      = (List.range hp.nHeads).map (refRow hp (done ++ part) (done.length + i)) := by
  simp only [PleHparams.layoutOk, Bool.and_eq_true, decide_eq_true_iff] at hlayout
  obtain ⟨⟨hngram, -, hper⟩, hheads⟩ := hlayout
  rw [tokenRows, ← hheads, List.map_eq_flatMap, RangeChunks.flatMap_range_mul]
  refine List.flatMap_congr fun a ha => ?_
  rw [List.mem_range] at ha
  rw [List.map_eq_flatMap]
  refine List.flatMap_congr fun g hg => ?_
  rw [List.mem_range] at hg
  -- the heads of an order are next to each other
  have horder : (a * hp.headsPerNgram + g) / hp.headsPerNgram = a := by
    rw [Nat.mul_comm, Nat.mul_add_div hper, Nat.div_eq_of_lt hg, Nat.add_zero]
  rw [refRow, horder, headRow_eq, mixed_eq_refHash (by omega)]
  intro s hs
  exact getD_pleCtx (by omega)

/-! ### The histories -/

/-- The history has the last tokens of what was decoded. -/
def HistAt (hp : PleHparams) (seq : Int) (hist : PleHist) (done : List Int) : Prop :=
  hist seq = { nextPos := done.length, toks := trimToks hp done }

/-- A token of a sequence that is in the snapshot already changes nothing. -/
theorem foldl_snapshotStep_of_mem {batch : PleBatch} (hseq : ∀ i, seqOf batch i = seq)
    (is : List Nat) {st : Snapshot} (hst : st.2 seq ≠ none) :
    is.foldl (snapshotStep hp batch) st = st := by
  obtain ⟨toks, htoks⟩ := Option.ne_none_iff_exists'.mp hst
  induction is with
  | nil => rfl
  | cons i is ih =>
    have hstep : snapshotStep hp batch st i = st := by
      simp only [snapshotStep, hseq, htoks]
    rw [List.foldl_cons, hstep, ih]

/-- A history that continues stays, and padded it is the snapshot. -/
theorem snapshotLoop_seqBatch (h : HistAt hp seq hist done) (hpart : 0 < part.length) :
    snapshotLoop hp (seqBatch seq done.length part) hist
      = (hist, Function.update (fun _ => none) seq (some (padToks hp (trimToks hp done)))) := by
  have hkept : refreshHistory hp (hist seq) (posOf (seqBatch seq done.length part) 0)
      = hist seq := by
    rw [h, refreshHistory, if_neg (by simp [posOf, seqBatch])]
    simp only [trimToks_trimToks]
  have htoks : (hist seq).toks = trimToks hp done := by
    rw [h]
  have hfirst : snapshotStep hp (seqBatch seq done.length part) (hist, fun _ => none) 0
      = (hist, Function.update (fun _ => none) seq (some (padToks hp (trimToks hp done)))) := by
    have hseq : seqOf (seqBatch seq done.length part) 0 = seq := rfl
    simp only [snapshotStep, hseq, hkept, htoks, Function.update_eq_self]
  have hlength : (seqBatch seq done.length part).nTokens = part.length - 1 + 1 := by
    simp only [seqBatch]
    omega
  rw [snapshotLoop, hlength, List.range_succ_eq_map, List.foldl_cons, hfirst,
    foldl_snapshotStep_of_mem (fun _ => rfl)]
  simp only [Function.update_self]
  exact Option.some_ne_none _

/-- After the ubatch the history has its last tokens too. -/
theorem appendLoop_seqBatch (h : HistAt hp seq hist done) :
    HistAt hp seq (appendLoop hp (seqBatch seq done.length part) hist) (done ++ part) := by
  have hrun : ∀ k ≤ part.length, HistAt hp seq
      ((List.range k).foldl (appendStep hp (seqBatch seq done.length part)) hist)
      (done ++ part.take k) := by
    intro k hk
    induction k with
    | zero => simpa using h
    | succ k ih =>
      have ih := ih (by omega)
      have hseq : seqOf (seqBatch seq done.length part) k = seq := rfl
      have htok : tokOf hp (seqBatch seq done.length part) k = part[k] := by
        simp only [tokOf, seqBatch]
        exact List.getD_eq_getElem _ _ (by omega)
      rw [List.range_succ, List.foldl_append, List.foldl_cons, List.foldl_nil, HistAt]
      simp only [appendStep, hseq, Function.update_self, htok]
      rw [ih, trimToks_append, List.append_assoc, List.take_append_getElem (by omega)]
      congr 1
      simp only [posOf, seqBatch, List.length_append, List.length_take]
      omega
  have hall := hrun part.length (Nat.le_refl _)
  rwa [List.take_length] at hall

/-- One ubatch: the rows of its positions. -/
theorem llamaSetInputsPle_seqBatch (hlayout : hp.layoutOk = true) (hvocab : hp.vocabOk = true)
    (h : HistAt hp seq hist done) (part : List Int) :
    ∃ hist', llamaSetInputsPle hp (seqBatch seq done.length part) hist = some
        ((List.range part.length).flatMap fun i =>
          (List.range hp.nHeads).map (refRow hp (done ++ part) (done.length + i)), hist') ∧
      HistAt hp seq hist' (done ++ part) := by
  rw [llamaSetInputsPle, if_neg (by simp [hlayout]), if_neg (by simp [hvocab]),
    if_neg (by simp [seqOf, seqBatch])]
  by_cases hpart : 0 < part.length
  · simp only [snapshotLoop_seqBatch h hpart]
    refine ⟨_, ?_, appendLoop_seqBatch h⟩
    have hseq : ∀ i, seqOf (seqBatch seq done.length part) i = seq := fun _ => rfl
    simp only [hseq, Function.update_self, Option.getD_some, tokenRows_pleCtx hlayout]
    rfl
  · have hnil : part = [] := List.length_eq_zero_iff.mp (by omega)
    subst hnil
    refine ⟨hist, rfl, ?_⟩
    rwa [List.append_nil]

end

/-! ### The run -/

theorem refTok_append (eos : Int) (u : List Int) {p : Nat} (hp : p < t.length) (s : Nat) :
    refTok eos (t ++ u) p s = refTok eos t p s := by
  have hsame : ∀ k, (t ++ u).getD (p - k) 0 = t.getD (p - k) 0 := fun k =>
    List.getD_append _ _ _ _ (by omega)
  simp only [refTok, hsame]

/-- What comes behind a position does not matter to its row. -/
theorem refRow_append (hp : PleHparams) (u : List Int) {p : Nat} (h : p < t.length) :
    refRow hp (t ++ u) p = refRow hp t p := by
  funext hi
  simp only [refRow, refHash, refTok_append _ u h]

/-- A run from any point on. -/
theorem pleRun_of_histAt {hp : PleHparams} (hlayout : hp.layoutOk = true)
    (hvocab : hp.vocabOk = true) {seq : Int} {done : List Int} (h : HistAt hp seq hist done)
    (parts : List (List Int)) :
    pleRun hp seq hist done.length parts = some
      ((List.range parts.flatten.length).flatMap fun i =>
        (List.range hp.nHeads).map (refRow hp (done ++ parts.flatten) (done.length + i))) := by
  induction parts generalizing hist done with
  | nil => rfl
  | cons part parts ih =>
    obtain ⟨hist', hset, h'⟩ := llamaSetInputsPle_seqBatch hlayout hvocab h part
    have hrest := ih h'
    rw [List.length_append] at hrest
    rw [pleRun, hset]
    simp only [hrest, Option.map_some, List.flatten_cons, List.length_append,
      RangeChunks.flatMap_range_add, List.append_assoc, Nat.add_assoc]
    congr 2
    refine List.flatMap_congr fun i hi => ?_
    rw [List.mem_range] at hi
    rw [← List.append_assoc, refRow_append hp parts.flatten (by rw [List.length_append]; omega)]

/-- However a sequence is split into ubatches, the run has the reference row of each head at each
position. -/
theorem pleRun_eq (hp : PleHparams) (hlayout : hp.layoutOk = true) (hvocab : hp.vocabOk = true)
    (seq : Int) (parts : List (List Int)) :
    pleRun hp seq (fun _ => {}) 0 parts = some
      ((List.range parts.flatten.length).flatMap fun p =>
        (List.range hp.nHeads).map (refRow hp parts.flatten p)) := by
  have hfresh : HistAt hp seq (fun _ => {}) [] := by
    rw [HistAt, trimToks, List.drop_nil]
    rfl
  have hrun := pleRun_of_histAt hlayout hvocab hfresh parts
  simpa using hrun

/-- Trigrams with one head for each order, and the sequence `5, 6, 0, 7` in two ubatches. -/
def trigramHparams : PleHparams where
  ngramSize := 3
  nHeads := 2
  headsPerNgram := 1
  eosTokenId := 0
  imageTokenId := 0
  layerMultipliers := fun j => [3, 5, 7].getD j 0
  headVocabSizes := fun _ => 11
  headOffsets := fun h => if h = 0 then 0 else 11

theorem pleRun_trigram : pleRun trigramHparams 1 (fun _ => {}) 0 [[5], [6, 0, 7]] = some
    ((List.range 4).flatMap fun p =>
      (List.range 2).map (refRow trigramHparams [5, 6, 0, 7] p)) :=
  pleRun_eq trigramHparams (by decide) (by decide) 1 [[5], [6, 0, 7]]

end PxqLlama.Ple
