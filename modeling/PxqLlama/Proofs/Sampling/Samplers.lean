import PxqLlama.Sampling.Samplers

/-!
# `Proofs.Sampling.Samplers`: what the samplers leave

`llamaSort` takes one of four ways, and each leaves the largest logits in front (`IsTop`). The way
for a large `k` sorts by buckets: a larger logit is in no lower bucket, so only the bucket in which
the cut lies needs a choice.
-/

namespace PxqLlama.Sampling

open TopSelect List

variable {α σ : Type} [Field α] [LinearOrder α] [FloorRing α]

/-! ### Buckets -/

theorem truncate_mono {x y : α} (h : x ≤ y) : truncate x ≤ truncate y := by
  rw [truncate, truncate]
  by_cases hx : 0 ≤ x
  · rw [if_pos hx, if_pos (hx.trans h)]
    exact Int.floor_le_floor h
  · rw [if_neg hx]
    have hneg : ⌈x⌉ ≤ 0 := Int.ceil_le.2 (by simpa using (not_le.1 hx).le)
    by_cases hy : 0 ≤ y
    · rw [if_pos hy]
      exact hneg.trans (Int.floor_nonneg.2 hy)
    · rw [if_neg hy]
      exact Int.ceil_le_ceil h

theorem bucketIndex_lt (x : α) : bucketIndex x < nbuckets := by
  simp only [bucketIndex, nbuckets]
  omega

variable (data : List (TokenData α))

/-- The candidates of one bucket. -/
def bucketOf (j : Nat) : List (TokenData α) := data.filter fun d => bucketIndex d.logit = j

/-- The candidates of the buckets above one. -/
def aboveBucket (ib : Nat) : List (TokenData α) := data.filter fun d => ib < bucketIndex d.logit

theorem length_aboveBucket_succ (ib : Nat) : (aboveBucket data ib).length =
    (aboveBucket data (ib + 1)).length + (bucketOf data (ib + 1)).length := by
  induction data with
  | nil => rfl
  | cons d ds ih =>
    simp only [aboveBucket, bucketOf] at ih ⊢
    simp only [List.filter_cons, decide_eq_true_eq]
    by_cases hd : bucketIndex d.logit = ib + 1
    · rw [if_pos (by omega), if_neg (by omega), if_pos hd, List.length_cons, List.length_cons]
      omega
    · by_cases hgt : ib + 1 < bucketIndex d.logit
      · rw [if_pos (by omega), if_pos hgt, if_neg hd, List.length_cons, List.length_cons]
        omega
      · rw [if_neg (by omega), if_neg hgt, if_neg hd]
        exact ih

theorem length_aboveBucket_zero :
    (aboveBucket data 0).length + (bucketOf data 0).length = data.length := by
  induction data with
  | nil => rfl
  | cons d ds ih =>
    simp only [aboveBucket, bucketOf] at ih ⊢
    simp only [List.filter_cons, decide_eq_true_eq]
    by_cases hd : bucketIndex d.logit = 0
    · rw [if_neg (by omega), if_pos hd, List.length_cons, List.length_cons]
      omega
    · rw [if_pos (by omega), if_neg hd, List.length_cons, List.length_cons]
      omega

variable {k : Nat}

/-- The cut is in the bucket that `cutBucket` finds. -/
theorem cutBucket_spec (hk : k ≤ data.length) (ib : Nat)
    (hbefore : (aboveBucket data ib).length ≤ k) :
    let cut := cutBucket (fun j => (bucketOf data j).length) k ib (aboveBucket data ib).length
    (aboveBucket data cut).length ≤ k ∧
      k ≤ (aboveBucket data cut).length + (bucketOf data cut).length := by
  induction ib with
  | zero => exact ⟨hbefore, by rw [cutBucket, length_aboveBucket_zero]; exact hk⟩
  | succ ib ih =>
    rw [cutBucket]
    by_cases hcut : k ≤ (aboveBucket data (ib + 1)).length + (bucketOf data (ib + 1)).length
    · simp only [if_pos hcut]
      exact ⟨hbefore, hcut⟩
    · simp only [if_neg hcut]
      rw [← length_aboveBucket_succ]
      exact ih (by rw [length_aboveBucket_succ]; omega)

theorem aboveBucket_top : aboveBucket data (nbuckets - 1) = [] := by
  refine List.filter_eq_nil_iff.2 fun d _ => ?_
  have := bucketIndex_lt d.logit
  simp only [decide_eq_true_eq]
  omega

variable {data} [IsStrictOrderedRing α]

theorem bucketIndex_mono {x y : α} (h : x ≤ y) : bucketIndex x ≤ bucketIndex y := by
  have hscale : (0 : α) ≤ nbuckets / (10 - -10) := by
    have : (0 : α) ≤ (nbuckets : Nat) := Nat.cast_nonneg _
    exact div_nonneg this (by norm_num)
  have hlinear := truncate_mono (add_le_add_left (mul_le_mul_of_nonneg_left h hscale)
    (- -10 * (nbuckets / (10 - -10) : α)))
  simp only [bucketIndex]
  omega

/-- A larger bucket has no smaller logits. -/
theorem logit_le_of_bucket_lt {a b : TokenData α} (h : bucketIndex b.logit < bucketIndex a.logit) :
    b.logit ≤ a.logit := by
  by_contra hlt
  have := bucketIndex_mono (not_le.1 hlt).le
  omega

/-- The candidates above a bucket, up to another. -/
theorem bucketsAbove_spec (algos : SortAlgorithms (TokenData.logit : TokenData α → α)) (ib j : Nat) :
    Descending TokenData.logit (bucketsAbove algos.sort (bucketOf data) ib j) ∧
      bucketsAbove algos.sort (bucketOf data) ib j ~
        data.filter fun d => ib < bucketIndex d.logit ∧ bucketIndex d.logit ≤ j := by
  induction j with
  | zero =>
    have hnone : (data.filter fun d => ib < bucketIndex d.logit ∧ bucketIndex d.logit ≤ 0) = [] :=
      List.filter_eq_nil_iff.2 fun d _ => by simp only [decide_eq_true_eq]; omega
    rw [hnone]
    exact ⟨List.Pairwise.nil, .nil⟩
  | succ j ih =>
    rw [bucketsAbove]
    by_cases hib : ib < j + 1
    · rw [if_pos hib]
      have hsort := algos.sort_perm (bucketOf data (j + 1))
      have hmem : ∀ a ∈ algos.sort (bucketOf data (j + 1)), bucketIndex a.logit = j + 1 := by
        intro a ha
        have := (List.mem_filter.1 (hsort.mem_iff.1 ha)).2
        simpa using this
      have hlower : ∀ b ∈ bucketsAbove algos.sort (bucketOf data) ib j,
          bucketIndex b.logit ≤ j := by
        intro b hb
        have := (List.mem_filter.1 (ih.2.mem_iff.1 hb)).2
        simp only [decide_eq_true_eq] at this
        exact this.2
      constructor
      · refine (algos.sort_descending _).append ih.1 fun a ha b hb => logit_le_of_bucket_lt ?_
        have := hmem a ha
        have := hlower b hb
        omega
      · refine (hsort.append ih.2).trans ?_
        have hsplit := List.filter_append_perm (fun d : TokenData α => bucketIndex d.logit = j + 1)
          (data.filter fun d => ib < bucketIndex d.logit ∧ bucketIndex d.logit ≤ j + 1)
        refine List.Perm.trans (List.Perm.of_eq ?_) hsplit
        rw [bucketOf, List.filter_filter, List.filter_filter]
        congr 1
        · refine List.filter_congr fun d _ => ?_
          simp only [← Bool.decide_and, decide_eq_decide]
          omega
        · refine List.filter_congr fun d _ => ?_
          simp only [← decide_not, ← Bool.decide_and, decide_eq_decide]
          omega
    · rw [if_neg hib]
      have hnone : (data.filter fun d =>
          ib < bucketIndex d.logit ∧ bucketIndex d.logit ≤ j + 1) = [] :=
        List.filter_eq_nil_iff.2 fun d _ => by simp only [decide_eq_true_eq]; omega
      rw [hnone]
      exact ⟨List.Pairwise.nil, .nil⟩

/-- The bucket sort leaves the `k` largest logits in front, in order. -/
theorem bucketSort_isTop (h : Host α σ) (hk : k ≤ data.length) :
    IsTop TokenData.logit k data ((bucketSort h k data).take k) := by
  let ib := cutBucket (fun j => (bucketOf data j).length) k (nbuckets - 1) 0
  let above := bucketsAbove h.algos.sort (bucketOf data) ib (nbuckets - 1)
  have hcut : (aboveBucket data ib).length ≤ k ∧
      k ≤ (aboveBucket data ib).length + (bucketOf data ib).length := by
    have hspec := cutBucket_spec data hk (nbuckets - 1)
    rw [aboveBucket_top] at hspec
    exact hspec (Nat.zero_le k)
  obtain ⟨habove, hperm⟩ := @bucketsAbove_spec α _ _ _ data _ h.algos ib (nbuckets - 1)
  have hperm' : above ~ aboveBucket data ib := by
    refine hperm.trans (List.Perm.of_eq (List.filter_congr fun d _ => ?_))
    have := bucketIndex_lt d.logit
    simp only [decide_eq_decide]
    omega
  -- The candidates are those above the cut's bucket, those in it and those below.
  let low := data.filter fun d => bucketIndex d.logit < ib
  have hsplit : data ~ above ++ (bucketOf data ib ++ low) := by
    have hfirst := List.filter_append_perm (fun d : TokenData α => ib < bucketIndex d.logit) data
    have hsecond := List.filter_append_perm (fun d : TokenData α => bucketIndex d.logit = ib)
      (data.filter fun d => ¬ ib < bucketIndex d.logit)
    rw [List.filter_filter, List.filter_filter] at hsecond
    have hmid : (data.filter fun d : TokenData α =>
        decide (bucketIndex d.logit = ib) && decide (¬ ib < bucketIndex d.logit)) =
          bucketOf data ib := by
      refine List.filter_congr fun d _ => ?_
      simp only [← Bool.decide_and, decide_eq_decide]
      omega
    have hlow : (data.filter fun d : TokenData α =>
        (!decide (bucketIndex d.logit = ib)) && decide (¬ ib < bucketIndex d.logit)) = low := by
      refine List.filter_congr fun d _ => ?_
      simp only [← decide_not, ← Bool.decide_and, decide_eq_decide]
      omega
    rw [hmid, hlow] at hsecond
    simp only [← decide_not] at hfirst
    exact hfirst.symm.trans (hperm'.symm.append hsecond.symm)
  have hmem : ∀ a ∈ above, ib < bucketIndex a.logit := by
    intro a ha
    have := (List.mem_filter.1 (hperm'.mem_iff.1 ha)).2
    simpa using this
  have hmid : ∀ a ∈ bucketOf data ib, bucketIndex a.logit = ib := by
    intro a ha
    have := (List.mem_filter.1 ha).2
    simpa using this
  have hlow : ∀ b ∈ low, bucketIndex b.logit < ib := by
    intro b hb
    have := (List.mem_filter.1 hb).2
    simpa using this
  have hm : k - above.length ≤ (bucketOf data ib).length := by
    rw [hperm'.length_eq]
    omega
  have htop := IsTop.between hsplit habove
    (fun a ha b hb => logit_le_of_bucket_lt (by
      have := hmem a ha
      rcases List.mem_append.1 hb with hb | hb
      · rw [hmid b hb]
        exact this
      · have := hlow b hb
        omega))
    (fun a ha b hb => logit_le_of_bucket_lt (by rw [hmid a ha]; exact hlow b hb)) hm
    (h.algos.partialSort_isTop (k - above.length) (bucketOf data ib))
  have hk' : above.length + (k - above.length) = k := by
    rw [hperm'.length_eq]
    omega
  rw [hk'] at htop
  show IsTop TokenData.logit k data ((((above ++ h.algos.partialSort (k - above.length)
    (bucketOf data ib)).take k) ++ data.drop k).take k)
  have hlen : ((above ++ h.algos.partialSort (k - above.length) (bucketOf data ib)).take k).length =
      k := by
    rw [List.length_take, List.length_append, (h.algos.partialSort_perm _ _).length_eq]
    omega
  rw [List.take_left' hlen]
  rwa [List.take_append, List.take_of_length_le (by omega)]

/-! ### Sorting -/

/-- What is in front after `llamaSort`. -/
theorem llamaSort_isTop (h : Host α σ) {c : TokenDataArray α} (hsorted : c.sorted = false)
    (hsize : ¬ c.data.length < 2) (hk : k ≤ c.data.length) :
    IsTop TokenData.logit k c.data ((llamaSort h c k).data.take k) ∧
      (llamaSort h c k).sorted = true := by
  have hrun : llamaSort h c k = { c with
      data := if k ≤ 1024 then
          if k = c.data.length then h.algos.sort c.data
          else if h.topkPartial then
            h.algos.sort ((h.algos.nthElement k c.data).take k) ++ (h.algos.nthElement k c.data).drop k
          else h.algos.partialSort k c.data
        else bucketSort h k c.data
      sorted := true } := by
    have hneg : ¬ ((k : Int) < 0) := by omega
    rw [llamaSort, if_neg (by rw [hsorted]; simpa using hsize)]
    simp only [hneg, if_false, Int.toNat_natCast]
  rw [hrun]
  refine ⟨?_, rfl⟩
  dsimp only
  split
  · split
    · rename_i hall
      have hsort := h.algos.sort_isTop c.data
      rw [← hall] at hsort
      rwa [List.take_of_length_le (Nat.le_of_eq (by
        rw [(h.algos.sort_perm c.data).length_eq, hall]))]
    · split
      · have hnth := h.algos.sort_nthElement_isTop k c.data
        rwa [List.take_left' (by rw [hnth.length]; omega)]
      · exact h.algos.partialSort_isTop k c.data
  · exact bucketSort_isTop h hk

omit [IsStrictOrderedRing α] in
theorem llamaSort_all_eq (h : Host α σ) (c : TokenDataArray α) :
    llamaSort h c (-1) = llamaSort h c c.data.length := by
  have hneg : ¬ ((c.data.length : Int) < 0) := by omega
  have hall : (-1 : Int) < 0 := by decide
  simp only [llamaSort, hneg, hall, if_true, if_false, Int.toNat_natCast]

omit [IsStrictOrderedRing α] in
/-- No candidates come to be. -/
theorem length_llamaSort_le (h : Host α σ) (c : TokenDataArray α) (hk : k ≤ c.data.length) :
    (llamaSort h c k).data.length ≤ c.data.length := by
  have hneg : ¬ ((k : Int) < 0) := by omega
  simp only [llamaSort, hneg, if_false, Int.toNat_natCast]
  split
  · exact Nat.le_refl _
  · dsimp only
    split
    · split
      · rw [(h.algos.sort_perm _).length_eq]
      · split
        · rw [List.length_append, (h.algos.sort_perm _).length_eq, ← List.length_append,
            List.take_append_drop, (h.algos.nthElement_perm _ _).length_eq]
        · rw [(h.algos.partialSort_perm _ _).length_eq]
    · rw [bucketSort, List.length_append, List.length_drop]
      have := List.length_take_le k (bucketsAbove h.algos.sort (bucketOf c.data)
        (cutBucket (fun j => (bucketOf c.data j).length) k (nbuckets - 1) 0) (nbuckets - 1) ++
          h.algos.partialSort (k - (bucketsAbove h.algos.sort (bucketOf c.data)
            (cutBucket (fun j => (bucketOf c.data j).length) k (nbuckets - 1) 0)
              (nbuckets - 1)).length) (bucketOf c.data
                (cutBucket (fun j => (bucketOf c.data j).length) k (nbuckets - 1) 0)))
      show List.length _ + _ ≤ _
      exact le_trans (Nat.add_le_add_right this _) (by omega)

/-- Sorting all candidates. -/
theorem llamaSort_all (h : Host α σ) {c : TokenDataArray α} (hsorted : c.sorted = false)
    (hsize : ¬ c.data.length < 2) :
    Descending TokenData.logit (llamaSort h c (-1)).data ∧ (llamaSort h c (-1)).data ~ c.data ∧
      (llamaSort h c (-1)).sorted = true := by
  rw [llamaSort_all_eq]
  obtain ⟨htop, hflag⟩ := llamaSort_isTop h hsorted hsize (Nat.le_refl _)
  rw [List.take_of_length_le (length_llamaSort_le h c (Nat.le_refl _))] at htop
  exact ⟨htop.descending, htop.perm, hflag⟩

end PxqLlama.Sampling
