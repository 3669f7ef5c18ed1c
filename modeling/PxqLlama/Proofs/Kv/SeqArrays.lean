import PxqLlama.Kv.SeqArrays
import PxqLlama.Proofs.Kv.HybridSplit

/-!
# `Proofs.Kv.SeqArrays`: the decomposition accepts the right batches and describes them

`pxa_decompose_seqs` looks at a token once, with the arrays of the tokens before it. `Seen` says
what these arrays are, and `decompToken_cases` that a token is refused exactly when the batch up to
it is not contiguous with increasing positions. The run of the loop is an induction over it. The
reduced form that the splitting of batches uses has the same loop (`pxaDecomposeSeqs_ofUBatch`).
-/

namespace PxqLlama.Kv.SeqArrays

variable {b : LlamaBatch}

/-! ### First occurrences -/

theorem firstSeen_concat (l : List Int) (s : Int) :
    firstSeen (l ++ [s]) = if s ∈ firstSeen l then firstSeen l else firstSeen l ++ [s] := by
  unfold firstSeen
  rw [List.foldl_append]
  rfl

theorem mem_firstSeen {l : List Int} {s : Int} : s ∈ firstSeen l ↔ s ∈ l := by
  induction l using List.reverseRecOn with
  | nil => exact Iff.rfl
  | append_singleton l x ih =>
    rw [firstSeen_concat, List.mem_append, List.mem_singleton, ← ih]
    split
    · rename_i hx
      exact ⟨Or.inl, fun h => h.elim id fun hs => hs ▸ hx⟩
    · rw [List.mem_append, List.mem_singleton]

theorem nodup_firstSeen (l : List Int) : (firstSeen l).Nodup := by
  induction l using List.reverseRecOn with
  | nil => exact List.nodup_nil
  | append_singleton l x ih =>
    rw [firstSeen_concat]
    split
    · exact ih
    · rename_i hx
      exact List.nodup_append.mpr ⟨ih, List.nodup_singleton x, fun a ha c hc heq =>
        hx (List.mem_singleton.mp hc ▸ heq ▸ ha)⟩

theorem ids_succ (b : LlamaBatch) (k : Nat) : ids b (k + 1) = ids b k ++ [b.tokSeq k] := by
  unfold ids
  rw [List.range_succ, List.map_append]
  rfl

variable {k : Nat} {prevSlot : Option Nat} {d : PxaSeqDecomp}

theorem mem_ids {s : Int} : s ∈ ids b k ↔ ∃ i < k, b.tokSeq i = s := by
  simp [ids]

/-! ### One token -/

/-- Both conditions on the first `k` tokens. -/
def Accepted (b : LlamaBatch) (k : Nat) : Prop := Contiguous b k ∧ Increasing b k

/-- The arrays behind the first `k` of `n` tokens. -/
structure Seen (b : LlamaBatch) (n k : Nat) (prevSlot : Option Nat) (d : PxaSeqDecomp) : Prop where
  ok : d.ok = false
  nSeqTokens : d.nSeqTokens = 0
  prev : prevSlot = if k = 0 then none else some (d.seqs.length - 1)
  last : 0 < k → d.seqs.getLast? = some (b.tokSeq (k - 1))
  seqs : d.seqs = firstSeen (ids b k)
  slot_length : d.seqSlot.length = n
  slot : ∀ t < k, ∃ s, d.seqSlot[t]? = some s ∧ d.seqs[s]? = some (b.tokSeq t)
  count : d.seqCount = d.seqs.map fun s => (ids b k).count s
  firstPos_length : d.seqFirstPos.length = d.seqs.length
  firstPos : ∀ s < d.seqs.length, ∃ t < k,
    d.seqs[s]? = some (b.tokSeq t) ∧ (∀ t' < t, b.tokSeq t' ≠ b.tokSeq t) ∧
      d.seqFirstPos[s]? = some (b.tokPos t)

theorem Accepted.of_succ (h : Accepted b (k + 1)) : Accepted b k :=
  ⟨fun i j l hij hjl hl => h.1 i j l hij hjl (Nat.lt_succ_of_lt hl),
    fun i j hij hj => h.2 i j hij (Nat.lt_succ_of_lt hj)⟩

/-- A token of the sequence of the token before it only needs a later position. -/
theorem accepted_extend (h : Accepted b (k + 1)) (hsame : b.tokSeq (k + 1) = b.tokSeq k) :
    Accepted b (k + 2) ↔ b.tokPos k < b.tokPos (k + 1) := by
  constructor
  · intro hnext
    exact hnext.2 k (k + 1) (Nat.lt_succ_self k) (Nat.lt_succ_self _) hsame.symm
  · intro hlt
    constructor
    · intro i j l hij hjl hl heq
      rcases Nat.lt_succ_iff_lt_or_eq.mp hl with hl' | rfl
      · exact h.1 i j l hij hjl hl' heq
      · rcases Nat.lt_succ_iff_lt_or_eq.mp hjl with hjk | rfl
        · exact h.1 i j k hij hjk (Nat.lt_succ_self k) (heq.trans hsame)
        · exact hsame.symm.trans heq.symm
    · intro i j hij hj heq
      rcases Nat.lt_succ_iff_lt_or_eq.mp hj with hj' | rfl
      · exact h.2 i j hij hj' heq
      · rcases Nat.lt_succ_iff_lt_or_eq.mp hij with hik | rfl
        · have hpos : b.tokPos i < b.tokPos k :=
            h.2 i k hik (Nat.lt_succ_self k) (heq.trans hsame)
          exact lt_trans hpos hlt
        · exact hlt

/-- A token of another sequence must be its first one. -/
theorem accepted_open (h : Accepted b k) (hnew : k ≠ 0 → b.tokSeq k ≠ b.tokSeq (k - 1)) :
    Accepted b (k + 1) ↔ b.tokSeq k ∉ ids b k := by
  constructor
  · intro hnext hmem
    obtain ⟨i, hi, heq⟩ := mem_ids.mp hmem
    have hk : k ≠ 0 := by omega
    have hlast : i ≠ k - 1 := by
      rintro rfl
      exact hnew hk heq.symm
    have hbetween := hnext.1 i (k - 1) k (by omega) (by omega) (Nat.lt_succ_self k) heq
    exact hnew hk (heq.symm.trans hbetween.symm)
  · intro hfresh
    have hne : ∀ i < k, b.tokSeq i ≠ b.tokSeq k := fun i hi heq =>
      hfresh (mem_ids.mpr ⟨i, hi, heq⟩)
    constructor
    · intro i j l hij hjl hl heq
      rcases Nat.lt_succ_iff_lt_or_eq.mp hl with hl' | rfl
      · exact h.1 i j l hij hjl hl' heq
      · exact absurd heq (hne i (by omega))
    · intro i j hij hj heq
      rcases Nat.lt_succ_iff_lt_or_eq.mp hj with hj' | rfl
      · exact h.2 i j hij hj' heq
      · exact absurd heq (hne i hij)

variable {n : Nat} {runs : List (Int × Nat)}

/-- The arrays when the run goes on: only the count of the last sequence changes. -/
theorem Seen.extend (h : Seen b n (k + 1) prevSlot d) (hk : k + 1 < n)
    (hsame : b.tokSeq (k + 1) = b.tokSeq k) :
    Seen b n (k + 2) (some (d.seqs.length - 1))
      { d with
        seqSlot := d.seqSlot.set (k + 1) (d.seqs.length - 1)
        seqCount := d.seqCount.modify (d.seqs.length - 1) (· + 1) } := by
  have hlast : d.seqs[d.seqs.length - 1]? = some (b.tokSeq (k + 1)) := by
    rw [← List.getLast?_eq_getElem?, h.last (Nat.succ_pos k), hsame]
    rfl
  have hseqs : firstSeen (ids b (k + 2)) = d.seqs := by
    have hmem : b.tokSeq (k + 1) ∈ firstSeen (ids b (k + 1)) := by
      rw [← h.seqs]
      exact List.mem_of_getElem? hlast
    rw [ids_succ b (k + 1), firstSeen_concat, if_pos hmem, ← h.seqs]
  refine ⟨h.ok, h.nSeqTokens, rfl, fun _ => ?_, hseqs.symm, ?_, ?_, ?_, h.firstPos_length, ?_⟩
  · show d.seqs.getLast? = some (b.tokSeq (k + 1))
    rw [List.getLast?_eq_getElem?]
    exact hlast
  · show (d.seqSlot.set (k + 1) _).length = n
    rw [List.length_set, h.slot_length]
  · intro t ht
    show ∃ s, (d.seqSlot.set (k + 1) (d.seqs.length - 1))[t]? = some s ∧ _
    rcases Nat.lt_succ_iff_lt_or_eq.mp ht with ht' | rfl
    · rw [List.getElem?_set_ne (by omega)]
      exact h.slot t ht'
    · refine ⟨d.seqs.length - 1, ?_, hlast⟩
      rw [List.getElem?_set_self (by rw [h.slot_length]; exact hk)]
  · show d.seqCount.modify (d.seqs.length - 1) (· + 1) = d.seqs.map _
    rw [h.count]
    apply List.ext_getElem?
    intro i
    rw [List.getElem?_modify, List.getElem?_map, List.getElem?_map]
    cases hi : d.seqs[i]? with
    | none => rfl
    | some s =>
      simp only [Option.map_some]
      rw [ids_succ b (k + 1), List.count_append, List.count_singleton]
      by_cases heq : d.seqs.length - 1 = i
      · rw [heq, hi, Option.some.injEq] at hlast
        simp [heq, hlast]
      · have hne : (b.tokSeq (k + 1) == s) = false := by
          rw [beq_eq_false_iff_ne]
          rintro rfl
          have hnodup : d.seqs.Nodup := h.seqs ▸ nodup_firstSeen _
          have hilt : i < d.seqs.length := (List.getElem?_eq_some_iff.mp hi).1
          exact heq ((List.getElem?_inj (by omega) hnodup).mp (hlast.trans hi.symm))
        simp [heq, hne]
  · intro s hs
    obtain ⟨t, ht, hrest⟩ := h.firstPos s hs
    exact ⟨t, Nat.lt_succ_of_lt ht, hrest⟩

/-- The arrays when a new sequence comes. -/
theorem Seen.open (h : Seen b n k prevSlot d) (hk : k < n) (hnew : b.tokSeq k ∉ d.seqs) :
    Seen b n (k + 1) (some d.seqs.length)
      { d with
        seqs := d.seqs ++ [b.tokSeq k]
        seqSlot := d.seqSlot.set k d.seqs.length
        seqCount := d.seqCount ++ [1]
        seqFirstPos := d.seqFirstPos ++ [b.tokPos k] } := by
  have hfresh : b.tokSeq k ∉ ids b k := by
    rw [h.seqs, mem_firstSeen] at hnew
    exact hnew
  refine ⟨h.ok, h.nSeqTokens, ?_, fun _ => ?_, ?_, ?_, ?_, ?_, ?_, ?_⟩
  · simp
  · simp
  · show d.seqs ++ [b.tokSeq k] = _
    rw [h.seqs] at hnew ⊢
    rw [ids_succ, firstSeen_concat, if_neg hnew]
  · show (d.seqSlot.set k _).length = n
    rw [List.length_set, h.slot_length]
  · intro t ht
    show ∃ s, (d.seqSlot.set k d.seqs.length)[t]? = some s ∧ (d.seqs ++ [b.tokSeq k])[s]? = _
    rcases Nat.lt_succ_iff_lt_or_eq.mp ht with ht' | rfl
    · rw [List.getElem?_set_ne (by omega)]
      obtain ⟨s, hs, hseq⟩ := h.slot t ht'
      refine ⟨s, hs, ?_⟩
      rw [List.getElem?_append_left (List.getElem?_eq_some_iff.mp hseq).1]
      exact hseq
    · refine ⟨d.seqs.length, ?_, List.getElem?_concat_length⟩
      rw [List.getElem?_set_self (by rw [h.slot_length]; exact hk)]
  · show d.seqCount ++ [1] = (d.seqs ++ [b.tokSeq k]).map _
    rw [h.count, List.map_append]
    have hone : (ids b (k + 1)).count (b.tokSeq k) = 1 := by
      rw [ids_succ, List.count_append, List.count_eq_zero.mpr hfresh]
      simp
    congr 1
    · apply List.map_congr_left
      intro s hs
      have hne : (b.tokSeq k == s) = false := by
        rw [beq_eq_false_iff_ne]
        rintro rfl
        exact hnew hs
      rw [ids_succ, List.count_append, List.count_singleton, hne]
      simp
    · show [1] = [(ids b (k + 1)).count (b.tokSeq k)]
      rw [hone]
  · show (d.seqFirstPos ++ [b.tokPos k]).length = (d.seqs ++ [b.tokSeq k]).length
    rw [List.length_append, List.length_append, h.firstPos_length]
    rfl
  · intro s hs
    show ∃ t < k + 1, (d.seqs ++ [b.tokSeq k])[s]? = _ ∧ _ ∧ (d.seqFirstPos ++ [_])[s]? = _
    rw [show ({ d with
        seqs := d.seqs ++ [b.tokSeq k]
        seqSlot := d.seqSlot.set k d.seqs.length
        seqCount := d.seqCount ++ [1]
        seqFirstPos := d.seqFirstPos ++ [b.tokPos k] } : PxaSeqDecomp).seqs.length
      = d.seqs.length + 1 from List.length_append] at hs
    rcases Nat.lt_succ_iff_lt_or_eq.mp hs with hs' | rfl
    · obtain ⟨t, ht, hseq, hfirst, hpos⟩ := h.firstPos s hs'
      refine ⟨t, Nat.lt_succ_of_lt ht, ?_, hfirst, ?_⟩
      · rw [List.getElem?_append_left hs']
        exact hseq
      · rw [List.getElem?_append_left (by rw [h.firstPos_length]; exact hs')]
        exact hpos
    · refine ⟨k, Nat.lt_succ_self k, List.getElem?_concat_length, ?_, ?_⟩
      · intro t' ht' heq
        exact hfresh (mem_ids.mpr ⟨t', ht', heq⟩)
      · rw [← h.firstPos_length]
        exact List.getElem?_concat_length

/-- At the first token of a run: the run is new and opened, or its sequence came before. -/
theorem openRun_cases (h : Seen b n k prevSlot d) (hk : k < n) (hacc : Accepted b k)
    (hnew : k ≠ 0 → b.tokSeq k ≠ b.tokSeq (k - 1)) :
    (∃ slot d', decompToken.openRun b d k (b.tokSeq k) = .ok (slot, d') ∧ Accepted b (k + 1) ∧
        Seen b n (k + 1) (some slot) d') ∨
      ∃ d', decompToken.openRun b d k (b.tokSeq k) = .error d' ∧ ¬ Accepted b (k + 1) ∧
        d'.ok = false := by
  have hacc' := accepted_open hacc hnew
  unfold decompToken.openRun
  split
  · rename_i hin
    refine Or.inr ⟨d, rfl, ?_, h.ok⟩
    rw [hacc', not_not]
    rw [h.seqs, mem_firstSeen] at hin
    exact hin
  · rename_i hout
    refine Or.inl ⟨_, _, rfl, ?_, h.open hk hout⟩
    rw [hacc']
    rw [h.seqs, mem_firstSeen] at hout
    exact hout

/-- One token: accepted and recorded, or refused just where the specification refuses. -/
theorem decompToken_cases (h : Seen b n k prevSlot d) (hk : k < n) (hacc : Accepted b k) :
    (∃ slot d', decompToken b prevSlot d k = .ok (slot, d') ∧ Accepted b (k + 1) ∧
        Seen b n (k + 1) (some slot) d') ∨
      ∃ d', decompToken b prevSlot d k = .error d' ∧ ¬ Accepted b (k + 1) ∧ d'.ok = false := by
  cases k with
  | zero =>
    have hprev : prevSlot = none := h.prev
    subst hprev
    exact openRun_cases h hk hacc fun h0 => absurd rfl h0
  | succ k =>
    have hprev : prevSlot = some (d.seqs.length - 1) := h.prev
    subst hprev
    have hlast : d.seqs[d.seqs.length - 1]? = some (b.tokSeq k) := by
      rw [← List.getLast?_eq_getElem?]
      exact h.last (Nat.succ_pos k)
    by_cases hsame : b.tokSeq (k + 1) = b.tokSeq k
    · have hacc' := accepted_extend hacc hsame
      have hstep : decompToken b (some (d.seqs.length - 1)) d (k + 1)
          = if b.tokPos (k + 1) ≤ b.tokPos k then .error d
            else .ok (d.seqs.length - 1, { d with
              seqSlot := d.seqSlot.set (k + 1) (d.seqs.length - 1)
              seqCount := d.seqCount.modify (d.seqs.length - 1) (· + 1) }) := by
        simp only [decompToken]
        rw [if_pos (hlast.trans (congrArg some hsame.symm))]
        rfl
      rw [hstep]
      split
      · rename_i hle
        exact Or.inr ⟨d, rfl, fun hnext => absurd (hacc'.mp hnext) (not_lt.mpr hle), h.ok⟩
      · rename_i hlt
        exact Or.inl ⟨_, _, rfl, hacc'.mpr (not_le.mp hlt), h.extend hk hsame⟩
    · have hstep : decompToken b (some (d.seqs.length - 1)) d (k + 1)
          = decompToken.openRun b d (k + 1) (b.tokSeq (k + 1)) := by
        have hne : d.seqs[d.seqs.length - 1]? ≠ some (b.tokSeq (k + 1)) := by
          rw [hlast]
          exact fun heq => hsame (Option.some.inj heq).symm
        simp only [decompToken]
        rw [if_neg hne]
      rw [hstep]
      exact openRun_cases h hk hacc fun _ => hsame

/-! ### The loop -/

theorem seen_start (b : LlamaBatch) (n : Nat) :
    Seen b n 0 none { seqSlot := List.replicate n 0 } where
  ok := rfl
  nSeqTokens := rfl
  prev := rfl
  last := fun h => absurd h (lt_irrefl 0)
  seqs := rfl
  slot_length := List.length_replicate
  slot := fun t ht => absurd ht (Nat.not_lt_zero t)
  count := rfl
  firstPos_length := rfl
  firstPos := fun s hs => absurd hs (Nat.not_lt_zero s)

/-- The loop over the tokens, by induction on how many are read. -/
theorem decompTokens_cases (b : LlamaBatch) (n : Nat) (hk : k ≤ n) :
    (∃ prevSlot d, decompTokens b { seqSlot := List.replicate n 0 } k = .ok (prevSlot, d) ∧
        Accepted b k ∧ Seen b n k prevSlot d) ∨
      ∃ d, decompTokens b { seqSlot := List.replicate n 0 } k = .error d ∧ ¬ Accepted b k ∧
        d.ok = false := by
  induction k with
  | zero =>
    refine Or.inl ⟨none, _, rfl, ⟨?_, ?_⟩, seen_start b n⟩
    · exact fun i j l _ _ hl => absurd hl (Nat.not_lt_zero l)
    · exact fun i j _ hj => absurd hj (Nat.not_lt_zero j)
  | succ k ih =>
    rcases ih (Nat.le_of_succ_le hk) with ⟨prevSlot, d, hrun, hacc, hseen⟩ | ⟨d, hrun, hacc, hok⟩
    · have hnext : decompTokens b { seqSlot := List.replicate n 0 } (k + 1)
          = (decompToken b prevSlot d k).map fun r => (some r.1, r.2) := by
        rw [decompTokens, hrun]
      rcases decompToken_cases hseen hk hacc with ⟨slot, d', hstep, hrest⟩ | ⟨d', hstep, hrest⟩
      · exact Or.inl ⟨some slot, d', by rw [hnext, hstep]; rfl, hrest⟩
      · exact Or.inr ⟨d', by rw [hnext, hstep]; rfl, hrest⟩
    · rw [decompTokens, hrun]
      exact Or.inr ⟨d, rfl, fun hnext => hacc hnext.of_succ, hok⟩

/-- The counts of the distinct ids are all tokens. -/
theorem sum_count_firstSeen (l : List Int) :
    ((firstSeen l).map fun s => l.count s).sum = l.length := by
  induction l using List.reverseRecOn with
  | nil => rfl
  | append_singleton l x ih =>
    have hnodup := nodup_firstSeen l
    have hold : ∀ seen : List Int, seen.Nodup →
        (seen.map fun s => (l ++ [x]).count s).sum
          = (seen.map fun s => l.count s).sum + if x ∈ seen then 1 else 0 := by
      intro seen hseen
      induction seen with
      | nil => rfl
      | cons s seen ihs =>
        rw [List.nodup_cons] at hseen
        rw [List.map_cons, List.map_cons, List.sum_cons, List.sum_cons, ihs hseen.2,
          List.count_append, List.count_singleton]
        by_cases hx : x = s
        · subst hx
          simp [hseen.1]
          omega
        · simp [hx]
          omega
    rw [firstSeen_concat, List.length_append]
    split
    · rename_i hx
      rw [hold _ hnodup, ih, if_pos hx]
      rfl
    · rename_i hx
      have hzero : l.count x = 0 := List.count_eq_zero.mpr fun hmem => hx (mem_firstSeen.mpr hmem)
      rw [List.map_append, List.sum_append, hold _ hnodup, ih, if_neg hx]
      simp [hzero]

/-! ### The result -/

/-- The comparison with the first count says that all counts agree. -/
theorem uniform_iff {l : List Nat} (hne : l ≠ []) (c dflt : Nat) :
    ((l.all fun n => n = l.headD 0) = true ∧
        (if l.all fun n => n = l.headD 0 then l.headD 0 else dflt) = c) ↔ ∀ n ∈ l, n = c := by
  cases l with
  | nil => exact absurd rfl hne
  | cons a l =>
    constructor
    · rintro ⟨hall, hc⟩
      rw [if_pos hall] at hc
      intro n hn
      have hna := List.all_eq_true.mp hall n hn
      rw [← hc]
      exact of_decide_eq_true hna
    · intro hall
      have ha : a = c := hall a List.mem_cons_self
      have hall' : (List.all (a :: l) fun n => n = (a :: l).headD 0) = true := by
        rw [List.all_eq_true]
        intro n hn
        exact decide_eq_true ((hall n hn).trans ha.symm)
      rw [if_pos hall']
      exact ⟨hall', ha⟩

/-- What has been seen at the end of the batch is what the result describes. -/
theorem describes_finish (hn : 0 < b.nTokens)
    (h : Seen b b.nTokens.toNat b.nTokens.toNat prevSlot d) : Describes b (decompFinish d) where
  seqs := h.seqs
  nSeqs := rfl
  allSame := by
    show decide (d.seqs.length = 1) = true ↔ _
    rw [decide_eq_true_iff]
    exact List.length_eq_one_iff
  slot_length := h.slot_length
  slot := h.slot
  count := h.count
  sum := by
    show (d.seqCount.sum : Int) = b.nTokens
    rw [h.count, h.seqs, sum_count_firstSeen, ids, List.length_map, List.length_range]
    omega
  firstPos := by
    intro s hs
    obtain ⟨t, ht, hseq, hfirst, hpos⟩ := h.firstPos s hs
    refine ⟨t, ht, hseq, hfirst, hpos, ?_⟩
    show (d.seqFirstPos.map fun p => decide (p = 0))[s]? = _
    rw [List.getElem?_map, hpos]
    rfl
  firstPos_length := h.firstPos_length
  reset_length := by
    show (d.seqFirstPos.map fun p => decide (p = 0)).length = d.seqs.length
    rw [List.length_map, h.firstPos_length]
  uniform := by
    have hne : d.seqCount ≠ [] := by
      obtain ⟨s, -, hseq⟩ := h.slot 0 (by omega)
      intro hnil
      rw [h.count, List.map_eq_nil_iff] at hnil
      rw [hnil] at hseq
      cases hseq
    exact fun c => uniform_iff hne c d.nSeqTokens

/-- The batches that are accepted, and their arrays. -/
theorem pxaDecomposeSeqs_spec (b : LlamaBatch) :
    ((pxaDecomposeSeqs b).ok = true ↔ Decomposable b) ∧
      ((pxaDecomposeSeqs b).ok = true → Describes b (pxaDecomposeSeqs b)) := by
  by_cases hn : b.nTokens ≤ 0
  · have hrun : pxaDecomposeSeqs b = {} := if_pos hn
    rw [hrun]
    refine ⟨⟨fun h => (by cases h), fun h => ?_⟩, fun h => (by cases h)⟩
    exact absurd h.nonempty (not_lt.mpr hn)
  · by_cases hmulti : b.hasSeq = true ∧
        (List.range b.nTokens.toNat).any (fun i => b.tokSeqCount i ≠ 1) = true
    · have hrun : pxaDecomposeSeqs b = { seqSlot := List.replicate b.nTokens.toNat 0 } := by
        unfold pxaDecomposeSeqs
        rw [if_neg hn, if_pos hmulti]
      rw [hrun]
      refine ⟨⟨fun h => (by cases h), fun h => ?_⟩, fun h => (by cases h)⟩
      obtain ⟨i, hi, hne⟩ := List.any_eq_true.mp hmulti.2
      exact absurd (h.oneSeq hmulti.1 i (List.mem_range.mp hi)) (of_decide_eq_true hne)
    · have hone : b.hasSeq = true → ∀ i < b.nTokens.toNat, b.tokSeqCount i = 1 := by
        intro hseq i hi
        by_contra hne
        exact hmulti ⟨hseq, List.any_eq_true.mpr ⟨i, List.mem_range.mpr hi, decide_eq_true hne⟩⟩
      rcases decompTokens_cases b b.nTokens.toNat (le_refl _) with
        ⟨prevSlot, d, hloop, hacc, hseen⟩ | ⟨d, hloop, hacc, hok⟩
      · have hrun : pxaDecomposeSeqs b = decompFinish d := by
          unfold pxaDecomposeSeqs
          rw [if_neg hn, if_neg hmulti, hloop]
        rw [hrun]
        exact ⟨⟨fun _ => ⟨not_le.mp hn, hone, hacc.1, hacc.2⟩, fun _ => rfl⟩,
          fun _ => describes_finish (not_le.mp hn) hseen⟩
      · have hrun : pxaDecomposeSeqs b = d := by
          unfold pxaDecomposeSeqs
          rw [if_neg hn, if_neg hmulti, hloop]
        rw [hrun]
        have hfalse : ¬ d.ok = true := by
          rw [hok]
          decide
        exact ⟨⟨fun h => absurd h hfalse, fun h => absurd ⟨h.contiguous, h.increasing⟩ hacc⟩,
          fun h => absurd h hfalse⟩

/-! ### The reduced form

`Kv.pxaDecomposeSeqs` is the function on the tokens of an ubatch, with the fields that the splitting
and the per-step record read. It keeps the runs where the arrays are kept here. -/

/-- The tokens of an ubatch as a `llama_batch` with all its arrays. -/
def ofUBatch (u : UBatch) : LlamaBatch where
  nTokens := u.length
  pos := some fun i => (u[i]?.map Token.pos).getD 0
  nSeqId := some fun i => (u[i]?.map fun t => (t.seqId.length : Int)).getD 0
  seqId := some fun i => u[i]?.map fun t j => t.seqId.getD j 0

/-- The arrays hold the runs: their sequences and their numbers of tokens. -/
structure HoldsRuns (d : PxaSeqDecomp) (prevSlot : Option Nat) (runs : List (Int × Nat)) : Prop where
  ok : d.ok = false
  nSeqTokens : d.nSeqTokens = 0
  seqs : d.seqs = runs.reverse.map Prod.fst
  count : d.seqCount = runs.reverse.map Prod.snd
  prev : prevSlot = if runs = [] then none else some (runs.length - 1)

section
variable {u : UBatch} {i : Nat} {t : Token}

theorem ofUBatch_tokSeq (ht : u[i]? = some t) : (ofUBatch u).tokSeq i = tokSeq t := by
  simp [ofUBatch, LlamaBatch.tokSeq, LlamaBatch.hasSeq, ht, tokSeq, List.headD_eq_head?_getD,
    List.head?_eq_getElem?]

theorem ofUBatch_tokPos (ht : u[i]? = some t) : (ofUBatch u).tokPos i = t.pos := by
  simp [ofUBatch, LlamaBatch.tokPos, ht]

theorem ofUBatch_tokSeqCount (ht : u[i]? = some t) :
    (ofUBatch u).tokSeqCount i = t.seqId.length := by
  simp [ofUBatch, LlamaBatch.tokSeqCount, ht]

end

/-- A run is opened for a sequence that has none, and refused for one that has. -/
theorem openRun_runs (h : HoldsRuns d prevSlot runs) (i : Nat) (s : Int) :
    (s ∉ runs.map Prod.fst → ∃ slot d', decompToken.openRun b d i s = .ok (slot, d') ∧
        HoldsRuns d' (some slot) ((s, 1) :: runs)) ∧
      (s ∈ runs.map Prod.fst → decompToken.openRun b d i s = .error d) := by
  have hmem : s ∈ d.seqs ↔ s ∈ runs.map Prod.fst := by
    rw [h.seqs, List.map_reverse, List.mem_reverse]
  constructor
  · intro hnew
    refine ⟨_, _, if_neg (mt hmem.mp hnew), h.ok, h.nSeqTokens, ?_, ?_, ?_⟩
    · simp [h.seqs]
    · simp [h.count]
    · simp [h.seqs]
  · intro hold
    exact if_pos (hmem.mpr hold)

/-- One token of the loop over the arrays is one token of the loop over the runs. -/
theorem decompToken_runs (h : HoldsRuns d prevSlot runs) {i : Nat} {t : Token} (ts : List Token)
    {last : Int} (hseq : b.tokSeq i = tokSeq t) (hpos : b.tokPos i = t.pos)
    (hlast : runs ≠ [] → b.tokPos (i - 1) = last) :
    (∃ slot d' runs', decompToken b prevSlot d i = .ok (slot, d') ∧
        HoldsRuns d' (some slot) runs' ∧ runs' ≠ [] ∧
        decompLoop (t :: ts) runs last = decompLoop ts runs' t.pos) ∨
      (decompToken b prevSlot d i = .error d ∧ decompLoop (t :: ts) runs last = none) := by
  cases runs with
  | nil =>
    obtain rfl : prevSlot = none := h.prev
    obtain ⟨slot, d', hrun, hd'⟩ := (openRun_runs h i (tokSeq t)).1 List.not_mem_nil
    refine Or.inl ⟨slot, d', _, ?_, hd', List.cons_ne_nil _ _, rfl⟩
    rw [decompToken, hseq]
    exact hrun
  | cons r runs =>
    obtain ⟨s, n⟩ := r
    obtain rfl : prevSlot = some runs.length := h.prev
    have hslot : d.seqs[runs.length]? = some s := by
      simp [h.seqs]
    rw [decompLoop]
    by_cases hsame : tokSeq t = s
    · have hstep : decompToken b (some runs.length) d i =
          if b.tokPos i ≤ b.tokPos (i - 1) then .error d
          else .ok (runs.length, { d with
            seqSlot := d.seqSlot.set i runs.length
            seqCount := d.seqCount.modify runs.length (· + 1) }) := by
        simp only [decompToken]
        rw [if_pos (by rw [hslot, hseq, hsame])]
      rw [hstep, if_pos hsame, hpos, hlast (List.cons_ne_nil _ _)]
      split
      · exact Or.inr ⟨rfl, rfl⟩
      · refine Or.inl ⟨_, _, _, rfl, ⟨h.ok, h.nSeqTokens, ?_, ?_, ?_⟩, List.cons_ne_nil _ _, rfl⟩
        · simp [h.seqs]
        · simp [h.count, List.modify_eq_take_cons_drop]
        · simp
    · have hstep : decompToken b (some runs.length) d i =
          decompToken.openRun b d i (tokSeq t) := by
        simp only [decompToken]
        rw [if_neg (by rw [hslot, hseq, Option.some.injEq]; exact Ne.symm hsame), hseq]
      rw [hstep, if_neg hsame]
      obtain ⟨hnew, hold⟩ := openRun_runs h i (tokSeq t)
      by_cases hin : tokSeq t ∈ ((s, n) :: runs).map Prod.fst
      · have hin' : tokSeq t ∈ runs.map Prod.fst := by
          rw [List.map_cons, List.mem_cons] at hin
          exact hin.resolve_left hsame
        rw [if_pos hin']
        exact Or.inr ⟨hold hin, rfl⟩
      · have hin' : tokSeq t ∉ runs.map Prod.fst := fun hmem => hin (List.mem_cons_of_mem _ hmem)
        obtain ⟨slot, d', hrun, hd'⟩ := hnew hin
        rw [if_neg hin']
        exact Or.inl ⟨slot, d', _, hrun, hd', List.cons_ne_nil _ _, rfl⟩

/-- The two loops over the first `k` tokens of an ubatch. -/
theorem decompTokens_runs (u : UBatch) (hd : HoldsRuns d none []) (hk : k ≤ u.length) :
    (∃ prevSlot d' runs last, decompTokens (ofUBatch u) d k = .ok (prevSlot, d') ∧
        HoldsRuns d' prevSlot runs ∧ (runs ≠ [] → (ofUBatch u).tokPos (k - 1) = last) ∧
        decompLoop u [] 0 = decompLoop (u.drop k) runs last) ∨
      ∃ d', decompTokens (ofUBatch u) d k = .error d' ∧ d'.ok = false ∧
        decompLoop u [] 0 = none := by
  induction k with
  | zero => exact Or.inl ⟨none, d, [], 0, rfl, hd, fun h => absurd rfl h, rfl⟩
  | succ k ih =>
    rcases ih (Nat.le_of_succ_le hk) with
      ⟨prevSlot, d', runs, last, hrun, hd', hlast, hloop⟩ | ⟨d', hrun, hok, hloop⟩
    · have ht : u[k]? = some u[k] := List.getElem?_eq_getElem hk
      have hnext : decompTokens (ofUBatch u) d (k + 1) =
          (decompToken (ofUBatch u) prevSlot d' k).map fun r => (some r.1, r.2) := by
        rw [decompTokens, hrun]
      rw [List.drop_eq_getElem_cons hk] at hloop
      rcases decompToken_runs hd' (u.drop (k + 1)) (ofUBatch_tokSeq ht) (ofUBatch_tokPos ht) hlast
        with ⟨slot, d'', runs', hstep, hd'', -, heq⟩ | ⟨hstep, heq⟩
      · exact Or.inl ⟨some slot, d'', runs', u[k].pos, by rw [hnext, hstep]; rfl, hd'',
          fun _ => ofUBatch_tokPos ht, hloop.trans heq⟩
      · exact Or.inr ⟨d', by rw [hnext, hstep]; rfl, hd'.ok, hloop.trans heq⟩
    · exact Or.inr ⟨d', by rw [decompTokens, hrun], hok, hloop⟩

/-- On the tokens of an ubatch the reduced function accepts what the function accepts, and its
fields are those of the arrays. -/
theorem pxaDecomposeSeqs_ofUBatch (u : UBatch) :
    (pxaDecomposeSeqs (ofUBatch u)).ok = (Kv.pxaDecomposeSeqs u).ok ∧
      ((Kv.pxaDecomposeSeqs u).ok = true →
        (pxaDecomposeSeqs (ofUBatch u)).seqs = (Kv.pxaDecomposeSeqs u).seqs ∧
        (pxaDecomposeSeqs (ofUBatch u)).seqCount = pxaSeqCount u ∧
        (pxaDecomposeSeqs (ofUBatch u)).uniformTok = (Kv.pxaDecomposeSeqs u).uniformTok ∧
        (pxaDecomposeSeqs (ofUBatch u)).nSeqTokens = (Kv.pxaDecomposeSeqs u).nSeqTokens) := by
  have hn : (ofUBatch u).nTokens = u.length := rfl
  rw [pxaDecomposeSeqs, Kv.pxaDecomposeSeqs]
  by_cases hempty : u = []
  · subst hempty
    exact ⟨rfl, fun h => by cases h⟩
  · have hpos : ¬ (ofUBatch u).nTokens ≤ 0 := by
      have hlen := List.length_pos_iff.mpr hempty
      omega
    have hmulti : ((ofUBatch u).hasSeq = true ∧ (List.range (ofUBatch u).nTokens.toNat).any
        (fun i => (ofUBatch u).tokSeqCount i ≠ 1) = true) ↔
          u.any (fun t => t.seqId.length != 1) = true := by
      rw [hn, Int.toNat_natCast]
      refine (and_iff_right rfl).trans ?_
      rw [List.any_eq_true, List.any_eq_true]
      constructor
      · rintro ⟨i, hi, hne⟩
        have ht := List.getElem?_eq_getElem (List.mem_range.mp hi)
        rw [ofUBatch_tokSeqCount ht, decide_eq_true_iff] at hne
        have hne : (u.get ⟨i, List.mem_range.mp hi⟩).seqId.length ≠ 1 := by exact_mod_cast hne
        exact ⟨u.get ⟨i, List.mem_range.mp hi⟩, List.getElem_mem _, bne_iff_ne.mpr hne⟩
      · rintro ⟨t, hmem, hne⟩
        obtain ⟨i, hi, rfl⟩ := List.getElem_of_mem hmem
        refine ⟨i, List.mem_range.mpr hi, ?_⟩
        rw [ofUBatch_tokSeqCount (List.getElem?_eq_getElem hi), decide_eq_true_iff]
        have hne := bne_iff_ne.mp hne
        exact_mod_cast hne
    rw [if_neg hpos]
    by_cases hany : u.any (fun t => t.seqId.length != 1) = true
    · rw [if_pos (hmulti.mpr hany), if_pos (Or.inr hany)]
      exact ⟨rfl, fun h => by cases h⟩
    · rw [if_neg (mt hmulti.mp hany), if_neg (not_or.mpr ⟨hempty, hany⟩), hn, Int.toNat_natCast]
      have hstart : HoldsRuns { seqSlot := List.replicate u.length 0 } none [] :=
        ⟨rfl, rfl, rfl, rfl, rfl⟩
      rcases decompTokens_runs u hstart (Nat.le_refl _) with
        ⟨prevSlot, d, runs, last, hrun, hd, -, hloop⟩ | ⟨d, hrun, hok, hloop⟩
      · rw [List.drop_length, decompLoop] at hloop
        rw [hrun, hloop, pxaSeqCount, hloop]
        refine ⟨rfl, fun _ => ⟨hd.seqs, hd.count, ?_, ?_⟩⟩
        · simp only [decompFinish, hd.count, List.all_map]
          rfl
        · simp only [decompFinish, hd.count, hd.nSeqTokens, List.all_map]
          rfl
      · rw [hrun, hloop]
        exact ⟨hok, fun h => by cases h⟩

end PxqLlama.Kv.SeqArrays
