import PxqLlama.Dsv4.Memory

/-!
# `Proofs.Dsv4.Plan`: what the plan loop collects

One lemma says what the inner loop over the sequence ids adds (`foldl_planSeq`), one what
a token adds (`planToken_skip`, `planToken_fields`). The facts about the whole loop follow
by induction on the number of tokens: the visible counts (`planLoop_nVisible`), the bound
on the graph width (`planLoop_nKv_le`) and the committed rows (`mem_planLoop_writeIdxs`).
-/

namespace PxqLlama.Dsv4

variable (b : LlamaBatch) (ratio : Nat) (overlap : Bool) (stateSize : Nat)

/-- The loop over `k` sequence ids of a token leaves the per-token lists alone, and adds
the token's compressed row `k` times at a boundary. -/
theorem foldl_planSeq (i pos k : Nat) (acc : PlanAcc) :
    let acc' := (List.range k).foldl (planSeq b ratio overlap stateSize i pos) acc
    acc'.statePos = acc.statePos ∧ acc'.nVisible = acc.nVisible ∧ acc'.nKv = acc.nKv ∧
      acc'.writeIdxs = acc.writeIdxs ++
        (if (pos + 1) % ratio = 0 then List.replicate k (pos / ratio) else []) := by
  induction k with
  | zero => simp
  | succ k ih =>
    obtain ⟨hpos, hvis, hkv, hwrite⟩ := ih
    simp only [List.range_succ, List.foldl_append, List.foldl_cons, List.foldl_nil, planSeq]
    by_cases h : (pos + 1) % ratio = 0
    · rw [if_pos h] at hwrite
      rw [if_neg (not_not.mpr h), if_pos h]
      refine ⟨hpos, hvis, hkv, ?_⟩
      rw [hwrite, List.replicate_succ', List.append_assoc]
    · -- Not a boundary: only the persist rows change.
      rw [if_neg h] at hwrite
      rw [if_pos h, if_neg h]
      exact ⟨hpos, hvis, hkv, hwrite⟩

theorem planLoop_succ (n : Nat) :
    planLoop b ratio overlap stateSize (n + 1)
      = planToken b ratio overlap stateSize (planLoop b ratio overlap stateSize n) n := by
  rw [planLoop, List.range_succ, List.foldl_append]
  rfl

theorem planToken_skip {i : Nat} (hi : dsv4BatchPos b i < 0) (acc : PlanAcc) :
    planToken b ratio overlap stateSize acc i = acc := by
  rw [planToken, if_pos hi]

/-- What a token that is not skipped adds. -/
theorem planToken_fields {i pos : Nat} (hi : dsv4BatchPos b i = pos) (acc : PlanAcc) :
    let acc' := planToken b ratio overlap stateSize acc i
    acc'.statePos = acc.statePos ++ [pos % ratio] ∧
      acc'.nVisible = Function.update acc.nVisible i ((pos + 1) / ratio) ∧
      acc'.nKv = max acc.nKv ((pos + 1) / ratio) ∧
      acc'.writeIdxs = acc.writeIdxs ++ (if (pos + 1) % ratio = 0 then
        List.replicate (dsv4BatchNSeqId b i) (pos / ratio) else []) := by
  have hneg : ¬ dsv4BatchPos b i < 0 := by omega
  have htoNat : (dsv4BatchPos b i).toNat = pos := by omega
  simp only [planToken, hneg, if_false, htoNat]
  exact foldl_planSeq b ratio overlap stateSize i pos _ _

/-- The visible count of token `i`. -/
theorem planLoop_nVisible (n i : Nat) :
    (planLoop b ratio overlap stateSize n).nVisible i
      = if i < n ∧ 0 ≤ dsv4BatchPos b i then ((dsv4BatchPos b i).toNat + 1) / ratio else 0 := by
  induction n with
  | zero =>
    rw [if_neg (by omega)]
    rfl
  | succ n ih =>
    rw [planLoop_succ]
    rcases Int.lt_or_le (dsv4BatchPos b n) 0 with hneg | hpos
    · rw [planToken_skip b ratio overlap stateSize hneg, ih]
      by_cases hin : i = n
      · rw [hin, if_neg (by omega), if_neg (by omega)]
      · have : i < n + 1 ↔ i < n := by omega
        simp only [this]
    · have hfields := planToken_fields b ratio overlap stateSize
        (show dsv4BatchPos b n = (dsv4BatchPos b n).toNat by omega)
        (planLoop b ratio overlap stateSize n)
      rw [hfields.2.1]
      -- Token `n` sets its own count, and no other.
      by_cases hin : i = n
      · rw [hin, Function.update_self, if_pos ⟨by omega, hpos⟩]
      · have : i < n + 1 ↔ i < n := by omega
        rw [Function.update_of_ne hin, ih]
        simp only [this]

/-- The widest visible count bounds `n_kv` before padding. -/
theorem planLoop_nKv_le {n B : Nat}
    (h : ∀ i < n, 0 ≤ dsv4BatchPos b i → ((dsv4BatchPos b i).toNat + 1) / ratio ≤ B) :
    (planLoop b ratio overlap stateSize n).nKv ≤ B := by
  induction n with
  | zero => exact Nat.zero_le B
  | succ n ih =>
    have hprev := ih (fun i hi => h i (by omega))
    rw [planLoop_succ]
    rcases Int.lt_or_le (dsv4BatchPos b n) 0 with hneg | hpos
    · rwa [planToken_skip b ratio overlap stateSize hneg]
    · have hfields := planToken_fields b ratio overlap stateSize
        (show dsv4BatchPos b n = (dsv4BatchPos b n).toNat by omega)
        (planLoop b ratio overlap stateSize n)
      have hn := h n (by omega) hpos
      rw [hfields.2.2.1]
      omega

/-- The rows committed by the loop: those of the tokens at a boundary. -/
theorem mem_planLoop_writeIdxs {n r : Nat} (hn : n ≤ b.nTokens) :
    r ∈ (planLoop b ratio overlap stateSize n).writeIdxs ↔
      ∃ i < n, ∃ pos : Nat, dsv4BatchPos b i = pos ∧ (pos + 1) % ratio = 0 ∧
        r = pos / ratio := by
  induction n with
  | zero => simp [planLoop]
  | succ n ih =>
    rw [planLoop_succ]
    rcases Int.lt_or_le (dsv4BatchPos b n) 0 with hneg | hpos
    · rw [planToken_skip b ratio overlap stateSize hneg, ih (by omega)]
      constructor
      · rintro ⟨i, hi, h⟩
        exact ⟨i, by omega, h⟩
      · rintro ⟨i, hi, pos, hp, h⟩
        have hin : i ≠ n := by
          rintro rfl
          omega
        exact ⟨i, by omega, pos, hp, h⟩
    · obtain ⟨pos, hp⟩ : ∃ pos : Nat, dsv4BatchPos b n = pos :=
        ⟨(dsv4BatchPos b n).toNat, by omega⟩
      have hfields := planToken_fields b ratio overlap stateSize hp
        (planLoop b ratio overlap stateSize n)
      have hseq := dsv4BatchNSeqId_pos (b := b) (i := n) (by omega)
      -- Token `n` adds its row once for each of its sequences, and it has at least one.
      rw [hfields.2.2.2, List.mem_append, ih (by omega)]
      constructor
      · rintro (⟨i, hi, h⟩ | hr)
        · exact ⟨i, by omega, h⟩
        · split at hr
          · rename_i hb
            exact ⟨n, by omega, pos, hp, hb, List.eq_of_mem_replicate hr⟩
          · cases hr
      · rintro ⟨i, hi, pos', hp', hb, rfl⟩
        by_cases hin : i = n
        · right
          have hpp : pos' = pos := by
            rw [hin, hp] at hp'
            exact_mod_cast hp'.symm
          rw [hpp] at hb ⊢
          rw [if_pos hb]
          exact List.mem_replicate.mpr ⟨by omega, rfl⟩
        · left
          exact ⟨i, by omega, pos', hp', hb, rfl⟩

/-! ### The finished plan -/

variable (kvSize : Nat)

theorem plan_nVisible :
    (dsv4BuildCompPlan b ratio overlap stateSize kvSize).nVisible
      = (planLoop b ratio overlap stateSize b.nTokens).nVisible := by
  simp only [dsv4BuildCompPlan, addScratch]
  split <;> rfl

theorem plan_nKv :
    (dsv4BuildCompPlan b ratio overlap stateSize kvSize).nKv
      = Ggml.ggmlPad (planLoop b ratio overlap stateSize b.nTokens).nKv 256 := by
  simp only [dsv4BuildCompPlan, addScratch]
  split <;> rfl

/-- The rows written: those of the loop, or the scratch row when the loop writes none. -/
theorem plan_stateWriteIdxs :
    (dsv4BuildCompPlan b ratio overlap stateSize kvSize).stateWriteIdxs
      = if needsScratch ratio (planLoop b ratio overlap stateSize b.nTokens) then [kvSize - 1]
        else (planLoop b ratio overlap stateSize b.nTokens).writeIdxs := by
  simp only [dsv4BuildCompPlan]
  split
  · rename_i h
    simp only [needsScratch, Bool.and_eq_true, List.isEmpty_iff] at h
    simp only [addScratch, h.1.2, List.nil_append]
  · rfl

end PxqLlama.Dsv4
