import PxqLlama.Kv.DecodeBatch

/-!
# `Proofs.Kv.HybridSplit`: the ubatches of a hybrid model lose nothing

Each round takes at least one token and at most `n_ubatch`, so the loop ends, and its ubatches are
the batch when put together. A slice that is left as it is has one sequence, or no sequence twice,
or is decomposed into equal runs. Otherwise its first run is taken, or a single token.

The sequence of a token is its first id (`tokSeq`), which is what the recurrent layers use.
-/

namespace PxqLlama.Kv

open RunLengths

/-! ### The scan of the first ids -/

section
variable {ts : List Token} {first : Option Int} {seen : List Int} {a d a' d' : Bool}

/-- One round of the scan. The first id is that of the first token, so it does not differ there. -/
theorem scanSeqIds_cons (t : Token) : scanSeqIds (t :: ts) first seen a d
    = if t.seqId = [] then none
      else scanSeqIds ts (some (first.getD (tokSeq t))) (tokSeq t :: seen)
        (a || first.any (tokSeq t ≠ ·)) (d || tokSeq t ∈ seen) := by
  cases first with
  | none =>
    rw [Option.any_none, Bool.or_false]
    rfl
  | some f => rfl

/-- A scan that gives up has found a token without an id. -/
theorem exists_of_scanSeqIds_none (h : scanSeqIds ts first seen a d = none) :
    ∃ t ∈ ts, t.seqId = [] := by
  induction ts generalizing first seen a d with
  | nil => cases h
  | cons t ts ih =>
    rw [scanSeqIds_cons] at h
    by_cases hempty : t.seqId = []
    · exact ⟨t, List.mem_cons_self .., hempty⟩
    · rw [if_neg hempty] at h
      obtain ⟨t', ht', hempty'⟩ := ih h
      exact ⟨t', List.mem_cons_of_mem t ht', hempty'⟩

/-- A scan that goes on has not found one. -/
theorem scanSeqIds_cons_some {t : Token} {r : Bool × Bool}
    (h : scanSeqIds (t :: ts) first seen a d = some r) :
    scanSeqIds ts (some (first.getD (tokSeq t))) (tokSeq t :: seen)
      (a || first.any (tokSeq t ≠ ·)) (d || tokSeq t ∈ seen) = some r := by
  rw [scanSeqIds_cons] at h
  by_cases hempty : t.seqId = []
  · rw [if_pos hempty] at h
    cases h
  · rw [if_neg hempty] at h
    exact h

/-- A difference once seen is not forgotten. -/
theorem anyDiff_of_scanSeqIds (h : scanSeqIds ts first seen true d = some (a', d')) :
    a' = true := by
  induction ts generalizing first seen d with
  | nil =>
    cases h
    rfl
  | cons t ts ih => exact ih (scanSeqIds_cons_some h)

/-- Without a difference all tokens are of the first sequence. -/
theorem tokSeq_eq_of_scanSeqIds {f : Int}
    (h : scanSeqIds ts (some f) seen a d = some (false, d')) : ∀ t ∈ ts, tokSeq t = f := by
  induction ts generalizing seen a d with
  | nil => exact fun t ht => absurd ht List.not_mem_nil
  | cons t ts ih =>
    have hrest := scanSeqIds_cons_some h
    intro t' ht'
    rcases List.mem_cons.mp ht' with rfl | hmem
    · by_contra hne
      have hdiff : (a || (some f).any (tokSeq t' ≠ ·)) = true := by
        rw [Option.any_some, decide_eq_true hne, Bool.or_true]
      rw [hdiff] at hrest
      exact absurd (anyDiff_of_scanSeqIds hrest) Bool.false_ne_true
    · exact ih hrest t' hmem

theorem exists_tokSeq_of_scanSeqIds (h : scanSeqIds ts none seen a d = some (false, d')) :
    ∃ s, ∀ t ∈ ts, tokSeq t = s := by
  cases ts with
  | nil => exact ⟨0, fun t ht => absurd ht List.not_mem_nil⟩
  | cons t ts =>
    refine ⟨tokSeq t, fun t' ht' => ?_⟩
    rcases List.mem_cons.mp ht' with rfl | hmem
    · rfl
    · exact tokSeq_eq_of_scanSeqIds (scanSeqIds_cons_some h) t' hmem

theorem hasDup_of_scanSeqIds (h : scanSeqIds ts first seen a true = some (a', d')) :
    d' = true := by
  induction ts generalizing first seen a with
  | nil =>
    cases h
    rfl
  | cons t ts ih => exact ih (scanSeqIds_cons_some h)

/-- Without a repetition no sequence has two tokens. -/
theorem nodup_of_scanSeqIds (h : scanSeqIds ts first seen a d = some (a', false)) :
    (ts.map tokSeq).Nodup ∧ ∀ t ∈ ts, tokSeq t ∉ seen := by
  induction ts generalizing first seen a d with
  | nil => exact ⟨List.nodup_nil, fun t ht => absurd ht List.not_mem_nil⟩
  | cons t ts ih =>
    -- The scan goes on with this id among the seen ones.
    have hrest := scanSeqIds_cons_some h
    have hfresh : tokSeq t ∉ seen := by
      intro hin
      rw [decide_eq_true hin, Bool.or_true] at hrest
      exact absurd (hasDup_of_scanSeqIds hrest) Bool.false_ne_true
    obtain ⟨hnodup, hnew⟩ := ih hrest
    refine ⟨?_, fun t' ht' => ?_⟩
    · rw [List.map_cons, List.nodup_cons]
      refine ⟨fun hin => ?_, hnodup⟩
      obtain ⟨t', ht', heq⟩ := List.mem_map.mp hin
      exact hnew t' ht' (by rw [heq]; exact List.mem_cons_self ..)
    · rcases List.mem_cons.mp ht' with rfl | hmem
      · exact hfresh
      · exact fun hin => hnew t' hmem (List.mem_cons_of_mem _ hin)

end

/-! ### The runs of a decomposition -/

section
variable {ts : List Token} {runs out : List (Int × Nat)} {last : Int}

/-- The runs are the tokens, and no sequence has two of them. -/
theorem decompLoop_expand (h : decompLoop ts runs last = some out) :
    expand out = expand runs.reverse ++ ts.map tokSeq := by
  induction ts generalizing runs last with
  | nil =>
    rw [decompLoop, Option.some.injEq] at h
    rw [← h, List.map_nil, List.append_nil]
  | cons t ts ih =>
    cases runs with
    | nil =>
      rw [decompLoop] at h
      rw [ih h]
      rfl
    | cons r runs =>
      obtain ⟨s, n⟩ := r
      rw [decompLoop] at h
      split at h
      · rename_i hsame
        split at h
        · cases h
        · rw [ih h, expand_reverse_succ, List.map_cons, hsame, List.append_assoc]
          rfl
      · split at h
        · cases h
        · rw [ih h, expand_reverse_cons, List.map_cons, List.append_assoc]
          rfl

/-- The runs that are taken keep the sequences distinct. -/
theorem decompLoop_nodup (h : decompLoop ts runs last = some out)
    (hnodup : (runs.map Prod.fst).Nodup) : (out.map Prod.fst).Nodup := by
  induction ts generalizing runs last with
  | nil =>
    rw [decompLoop, Option.some.injEq] at h
    rw [← h, List.map_reverse, List.nodup_reverse]
    exact hnodup
  | cons t ts ih =>
    cases runs with
    | nil =>
      rw [decompLoop] at h
      exact ih h (List.nodup_singleton _)
    | cons r runs =>
      obtain ⟨s, n⟩ := r
      rw [decompLoop] at h
      rw [List.map_cons, List.nodup_cons] at hnodup
      split at h
      · split at h
        · cases h
        · exact ih h (List.nodup_cons.mpr hnodup)
      · rename_i hnew
        split at h
        · cases h
        · rename_i hfresh
          refine ih h (List.nodup_cons.mpr ⟨?_, List.nodup_cons.mpr hnodup⟩)
          intro hin
          rcases List.mem_cons.mp hin with heq | hmem
          · exact hnew heq
          · exact hfresh hmem

/-- No run that is taken is empty. -/
theorem decompLoop_pos (h : decompLoop ts runs last = some out)
    (hpos : ∀ r ∈ runs, 1 ≤ r.2) : ∀ r ∈ out, 1 ≤ r.2 := by
  induction ts generalizing runs last with
  | nil =>
    rw [decompLoop, Option.some.injEq] at h
    intro r hr
    rw [← h, List.mem_reverse] at hr
    exact hpos r hr
  | cons t ts ih =>
    cases runs with
    | nil =>
      rw [decompLoop] at h
      exact ih h fun r hr => by rw [List.mem_singleton.mp hr]
    | cons r runs =>
      obtain ⟨s, n⟩ := r
      rw [decompLoop] at h
      have hrest : ∀ r ∈ runs, 1 ≤ r.2 := fun r hr => hpos r (List.mem_cons_of_mem _ hr)
      split at h
      · split at h
        · cases h
        · refine ih h fun r hr => ?_
          rcases List.mem_cons.mp hr with rfl | hmem
          · exact Nat.succ_pos n
          · exact hrest r hmem
      · split at h
        · cases h
        · refine ih h fun r hr => ?_
          rcases List.mem_cons.mp hr with rfl | hmem
          · exact Nat.le_refl 1
          · exact hpos r hmem

end

/-! ### The length of an ubatch -/

/-- The tokens are decomposed into runs, and each sequence has the same number of tokens. -/
def EqualRuns (u : UBatch) : Prop :=
  (pxaDecomposeSeqs u).ok = true ∧ (pxaDecomposeSeqs u).uniformTok = true ∧
    ∀ t ∈ u, (u.map tokSeq).count (tokSeq t) = (pxaDecomposeSeqs u).nSeqTokens

/-- What the recurrent layers can take: one sequence, one token for each, or equal runs. -/
def Representable (u : UBatch) : Prop :=
  (∃ s, ∀ t ∈ u, tokSeq t = s) ∨ (u.map tokSeq).Nodup ∨ EqualRuns u

/-- What a decomposition that is ok comes from. -/
theorem pxaDecomposeSeqs_ok {b : UBatch} (hok : (pxaDecomposeSeqs b).ok = true) :
    ∃ runs, decompLoop b [] 0 = some runs ∧ (pxaDecomposeSeqs b).uniformTok =
        runs.all (fun r => decide (r.2 = (runs.map Prod.snd).headD 0)) ∧
      ((pxaDecomposeSeqs b).uniformTok = true →
        (pxaDecomposeSeqs b).nSeqTokens = (runs.map Prod.snd).headD 0) := by
  rw [pxaDecomposeSeqs] at hok ⊢
  split at hok
  · cases hok
  · rename_i hb
    rw [if_neg hb]
    cases hloop : decompLoop b [] 0 with
    | none =>
      rw [hloop] at hok
      cases hok
    | some runs => exact ⟨runs, rfl, rfl, fun huniform => if_pos huniform⟩

/-- A uniform decomposition has runs of one length. -/
theorem equalRuns_of_uniform {u : UBatch} (hok : (pxaDecomposeSeqs u).ok = true)
    (huniform : (pxaDecomposeSeqs u).uniformTok = true) : EqualRuns u := by
  refine ⟨hok, huniform, fun t ht => ?_⟩
  obtain ⟨runs, hloop, hall, hn⟩ := pxaDecomposeSeqs_ok hok
  rw [hall, List.all_eq_true] at huniform
  have hexpand : expand runs = u.map tokSeq := decompLoop_expand hloop
  have hmem : tokSeq t ∈ runs.map Prod.fst := by
    refine mem_of_mem_expand ?_
    rw [hexpand]
    exact List.mem_map_of_mem ht
  obtain ⟨r, hr, hseq⟩ := List.mem_map.mp hmem
  have hcount : (expand runs).count r.1 = r.2 :=
    count_expand (decompLoop_nodup hloop List.nodup_nil) hr
  rw [← hexpand, ← hseq, hcount, hn (hall.trans (List.all_eq_true.mpr huniform))]
  exact of_decide_eq_true (huniform r hr)

/-- The first run is of one sequence, and it is not empty. -/
theorem first_run {b : UBatch} {runs : List (Int × Nat)} (h : decompLoop b [] 0 = some runs)
    {s : Int} {n : Nat} {rest : List (Int × Nat)} (hruns : runs = (s, n) :: rest) :
    1 ≤ n ∧ n ≤ b.length ∧ ∀ t ∈ b.take n, tokSeq t = s := by
  have hexpand : expand runs = b.map tokSeq := decompLoop_expand h
  have hpos := decompLoop_pos h (fun r hr => absurd hr List.not_mem_nil)
  rw [hruns, expand_cons] at hexpand
  have hlen : n + (expand rest).length = b.length := by
    have := congrArg List.length hexpand
    rwa [List.length_append, List.length_replicate, List.length_map] at this
  refine ⟨hpos (s, n) (by rw [hruns]; exact List.mem_cons_self ..), by omega, fun t ht => ?_⟩
  have htake : (b.take n).map tokSeq = List.replicate n s := by
    rw [List.map_take, ← hexpand, List.take_left' (List.length_replicate ..)]
  have hin : tokSeq t ∈ (b.take n).map tokSeq := List.mem_map_of_mem ht
  rw [htake] at hin
  exact List.eq_of_mem_replicate hin

/-- The cases of a slice: it is kept, or its first run is taken, or one token. -/
theorem hybridSplit_cases {slice : List Token} (hne : slice ≠ []) :
    (hybridSplit slice = slice.length ∧
        ((∀ t ∈ slice, t.seqId ≠ []) → Representable slice)) ∨
      (1 ≤ hybridSplit slice ∧ hybridSplit slice ≤ slice.length ∧
        ∃ s, ∀ t ∈ slice.take (hybridSplit slice), tokSeq t = s) := by
  have hlen := List.length_pos_iff.mpr hne
  -- A single token is of one sequence.
  have hone : ∃ s, ∀ t ∈ slice.take 1, tokSeq t = s := by
    obtain ⟨t, ts, rfl⟩ := List.exists_cons_of_ne_nil hne
    refine ⟨tokSeq t, fun t' ht' => ?_⟩
    rw [List.take_succ_cons, List.take_zero, List.mem_singleton] at ht'
    rw [ht']
  rw [hybridSplit]
  split
  · cases hscan : scanSeqIds slice none [] false false with
    | none =>
      left
      refine ⟨rfl, fun hall => ?_⟩
      obtain ⟨t, ht, hempty⟩ := exists_of_scanSeqIds_none hscan
      exact absurd hempty (hall t ht)
    | some r =>
      obtain ⟨anyDiff, hasDup⟩ := r
      cases anyDiff with
      | false =>
        left
        exact ⟨rfl, fun _ => Or.inl (exists_tokSeq_of_scanSeqIds hscan)⟩
      | true =>
        cases hasDup with
        | false =>
          left
          exact ⟨rfl, fun _ => Or.inr (Or.inl (nodup_of_scanSeqIds hscan).1)⟩
        | true =>
          simp only
          split
          · rename_i hgood
            left
            rw [Bool.and_eq_true, Bool.and_eq_true] at hgood
            exact ⟨rfl, fun _ => Or.inr (Or.inr (equalRuns_of_uniform hgood.1.1 hgood.1.2))⟩
          · right
            split
            · rename_i count counts hcounts
              split
              · rename_i hok
                rw [Bool.and_eq_true] at hok
                obtain ⟨runs, hloop, -, -⟩ := pxaDecomposeSeqs_ok hok.1
                rw [pxaSeqCount, hloop, Option.getD_some, List.map_eq_cons_iff] at hcounts
                obtain ⟨⟨s, n⟩, rest, hruns, rfl, -⟩ := hcounts
                obtain ⟨hpos, hle, hsame⟩ := first_run hloop hruns
                exact ⟨hpos, hle, s, hsame⟩
              · exact ⟨Nat.le_refl 1, hlen, hone⟩
            · exact ⟨Nat.le_refl 1, hlen, hone⟩
  · rename_i hshort
    have hlength : slice.length = 1 := by omega
    right
    rw [hlength]
    exact ⟨Nat.le_refl 1, Nat.le_refl 1, hone⟩

/-! ### The loop -/

section
variable {call : DecodeCall}

/-- An ubatch is a prefix of what is left, not empty, and one that the recurrent layers can take. -/
theorem ubatch_hybrid (hsplit : call.split = hybridSplit) (hn : 1 ≤ call.nUbatch)
    {rest : List Token} (hrest : rest ≠ []) :
    call.ubatch rest ≠ [] ∧ (call.ubatch rest).length ≤ call.nUbatch ∧
      call.ubatch rest ++ rest.drop (call.ubatch rest).length = rest ∧
      ((∀ t ∈ call.ubatch rest, t.seqId ≠ []) → Representable (call.ubatch rest)) := by
  have hlen := List.length_pos_iff.mpr hrest
  have hslice : rest.take call.nUbatch ≠ [] := by
    rw [← List.length_pos_iff, List.length_take]
    omega
  have hubatch : call.ubatch rest =
      (rest.take call.nUbatch).take (hybridSplit (rest.take call.nUbatch)) := by
    rw [DecodeCall.ubatch, hsplit]
  have hprefix : ∀ n, (rest.take call.nUbatch).take n ++
      rest.drop ((rest.take call.nUbatch).take n).length = rest := by
    intro n
    rw [List.take_take, List.length_take]
    conv_rhs => rw [← List.take_append_drop (min n call.nUbatch) rest]
    congr 1
    rcases Nat.le_total (min n call.nUbatch) rest.length with hle | hle
    · rw [Nat.min_eq_left hle]
    · rw [Nat.min_eq_right hle, List.drop_length, List.drop_eq_nil_of_le hle]
  have hsliceLen : (rest.take call.nUbatch).length ≤ call.nUbatch := List.length_take_le ..
  rw [hubatch]
  generalize rest.take call.nUbatch = slice at hslice hprefix hsliceLen ⊢
  rcases hybridSplit_cases hslice with ⟨hkept, hshape⟩ | ⟨hpos, hle, hsame⟩
  · rw [hkept, List.take_length]
    have hwhole := hprefix slice.length
    rw [List.take_length] at hwhole
    exact ⟨hslice, hsliceLen, hwhole, hshape⟩
  · refine ⟨?_, ?_, hprefix _, fun _ => Or.inl hsame⟩
    · rw [← List.length_pos_iff, List.length_take]
      omega
    · rw [List.length_take]
      omega

/-- The ubatches of every batch: the loop ends, they are the batch when put together, and each is
one that the recurrent layers can take. -/
theorem hybrid_ubatches (hsplit : call.split = hybridSplit) (hn : 1 ≤ call.nUbatch)
    (batch : List Token) :
    ∃ us, (∀ fuel, batch.length < fuel → call.ubatches fuel batch = some us) ∧
      us.flatten = batch ∧ ∀ u ∈ us, u ≠ [] ∧ u.length ≤ call.nUbatch ∧
        ((∀ t ∈ u, t.seqId ≠ []) → Representable u) := by
  -- The tokens that are left get fewer in each round.
  induction hlen : batch.length using Nat.strong_induction_on generalizing batch with
  | _ n ih =>
    by_cases hrest : batch = []
    · refine ⟨[], fun fuel hfuel => ?_, hrest.symm, fun u hu => absurd hu List.not_mem_nil⟩
      obtain ⟨fuel, rfl⟩ : ∃ k, fuel = k + 1 := ⟨fuel - 1, by omega⟩
      rw [DecodeCall.ubatches, if_pos hrest]
    · obtain ⟨hne, hle, happend, hshape⟩ := ubatch_hybrid hsplit hn hrest
      have hpos := List.length_pos_iff.mpr hne
      have hshorter : (batch.drop (call.ubatch batch).length).length < n := by
        have hbatch := List.length_pos_iff.mpr hrest
        rw [List.length_drop]
        omega
      obtain ⟨us, hus, hflatten, hall⟩ := ih _ hshorter _ rfl
      refine ⟨call.ubatch batch :: us, fun fuel hfuel => ?_, ?_, fun u hu => ?_⟩
      · obtain ⟨fuel, rfl⟩ : ∃ k, fuel = k + 1 := ⟨fuel - 1, by omega⟩
        rw [DecodeCall.ubatches, if_neg hrest]
        simp only
        rw [hus fuel (by omega)]
        rfl
      · rw [List.flatten_cons, hflatten, happend]
      · rcases List.mem_cons.mp hu with rfl | hmem
        · exact ⟨hne, hle, hshape⟩
        · exact hall u hmem

end

/-- Two tokens of a sequence, one of another, and again one of the first. -/
theorem hybrid_ubatches_mixed :
    let call : DecodeCall := ⟨3, hybridSplit, true, fun _ => false, fun _ => false⟩
    let batch : List Token := [⟨0, [0]⟩, ⟨1, [0]⟩, ⟨0, [1]⟩, ⟨2, [0]⟩]
    1 ≤ call.nUbatch ∧ ∃ us, call.ubatches 5 batch = some us ∧ us.flatten = batch ∧
      ∀ u ∈ us, u ≠ [] ∧ u.length ≤ 3 ∧ ((∀ t ∈ u, t.seqId ≠ []) → Representable u) := by
  intro call batch
  obtain ⟨us, hus, hflatten, hall⟩ :=
    @hybrid_ubatches call rfl (show 1 ≤ 3 by decide) batch
  exact ⟨by decide, us, hus 5 (by decide), hflatten, hall⟩

end PxqLlama.Kv
