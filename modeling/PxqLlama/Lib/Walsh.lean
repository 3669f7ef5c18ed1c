import Mathlib.Algebra.BigOperators.Ring.Finset
import Mathlib.Data.Nat.Bitwise
import Mathlib.Tactic.Ring
import Mathlib.Tactic.Abel

/-!
# `Lib.Walsh`: the Walsh-Hadamard transform and its butterflies

A sequence is a function on the natural numbers. `walsh k` transforms it block by block, each block
of length `2 ^ k` by the matrix with the entry `(-1) ^ popcount (i &&& j)` in row `i` and column
`j`. A butterfly of distance `2 ^ k` replaces the members of a pair by their sum and their
difference.

* `walsh_succ`: butterflies of distance `2 ^ k` lead from blocks of length `2 ^ k` to blocks of twice
  that length, so butterflies of the distances `1, 2, 4, ...` one after another are the transform.
* `walsh_walsh`: two transforms multiply by the length of a block.
* `foldl_butterflyAt`: pairs that are replaced in place, one after another, are replaced at once,
  when no pair has a member of another.
-/

namespace Walsh

/-! ### Ones of a number -/

/-- How many binary digits of a number are one. -/
def popcount (n : Nat) : Nat := (List.range (n.log2 + 1)).countP n.testBit

variable {k : Nat}

variable {n j : Nat}

/-- Digits above the first `k` do not count, when there are none. -/
theorem countP_testBit {m : Nat} (hn : n < 2 ^ k) (hkm : k ≤ m) :
    (List.range m).countP n.testBit = (List.range k).countP n.testBit := by
  obtain ⟨d, rfl⟩ := Nat.le.dest hkm
  rw [List.range_add, List.countP_append, Nat.add_eq_left, List.countP_eq_zero]
  intro i hi
  obtain ⟨j, -, rfl⟩ := List.mem_map.mp hi
  rw [Nat.testBit_lt_two_pow (Nat.lt_of_lt_of_le hn (Nat.pow_le_pow_right (by decide) (by omega)))]
  decide

theorem popcount_of_lt (hn : n < 2 ^ k) : popcount n = (List.range k).countP n.testBit := by
  have hlog : n < 2 ^ (n.log2 + 1) := Nat.lt_log2_self
  rcases Nat.le_total k (n.log2 + 1) with h | h
  · exact countP_testBit hn h
  · exact (countP_testBit hlog h).symm

theorem testBit_two_pow_add {m : Nat} (hm : m < 2 ^ k) (i : Nat) :
    (2 ^ k + m).testBit i = (decide (i = k) || m.testBit i) := by
  rcases Nat.lt_trichotomy i k with h | rfl | h
  · rw [Nat.testBit_two_pow_add_gt h, decide_eq_false (Nat.ne_of_lt h), Bool.false_or]
  · rw [Nat.testBit_two_pow_add_eq, Nat.testBit_lt_two_pow hm, decide_eq_true rfl]
    rfl
  · have hpow : 2 ^ (k + 1) ≤ 2 ^ i := Nat.pow_le_pow_right (by decide) h
    rw [Nat.pow_succ] at hpow
    rw [Nat.testBit_lt_two_pow (by omega), Nat.testBit_lt_two_pow (by omega),
      decide_eq_false (Nat.ne_of_gt h)]
    rfl

theorem popcount_two_pow_add (hn : n < 2 ^ k) : popcount (2 ^ k + n) = popcount n + 1 := by
  have hsum : 2 ^ k + n < 2 ^ (k + 1) := by
    rw [Nat.pow_succ]
    omega
  have htop : (2 ^ k + n).testBit k = true := by
    rw [testBit_two_pow_add hn, decide_eq_true rfl, Bool.true_or]
  rw [popcount_of_lt hsum, popcount_of_lt hn, List.range_succ, List.countP_append,
    List.countP_singleton, htop, if_pos rfl]
  congr 1
  refine List.countP_congr fun i hi => ?_
  rw [testBit_two_pow_add hn, decide_eq_false (Nat.ne_of_lt (List.mem_range.mp hi)), Bool.false_or]

/-! ### The transform -/

variable {R : Type} [CommRing R]

/-- The entry of the matrix. -/
def entry (i j : Nat) : R := (-1) ^ popcount (i &&& j)

/-- Every block of length `2 ^ k` transformed. -/
def walsh (k : Nat) (v : Nat → R) (i : Nat) : R :=
  ∑ j ∈ Finset.range (2 ^ k), entry (i % 2 ^ k) j * v (i / 2 ^ k * 2 ^ k + j)

/-- Every pair of the distance `2 ^ k` replaced. -/
def butterfly (k : Nat) (v : Nat → R) (i : Nat) : R :=
  if i.testBit k then v (i - 2 ^ k) - v i else v i + v (i + 2 ^ k)

theorem walsh_zero (v : Nat → R) : walsh 0 v = v := by
  funext i
  simp [walsh, entry, popcount, Nat.mod_one]

variable {i : Nat}

/-- In the first block the block number is zero. -/
theorem walsh_of_lt (hi : i < 2 ^ k) (v : Nat → R) :
    walsh k v i = ∑ j ∈ Finset.range (2 ^ k), entry i j * v j := by
  rw [walsh, Nat.mod_eq_of_lt hi, Nat.div_eq_of_lt hi]
  simp

/-! ### One more digit -/

section

variable {k m j : Nat} (hm : m < 2 ^ k) (hj : j < 2 ^ k)

include hm

theorem and_two_pow_add (j : Nat) (hj : j < 2 ^ k) : m &&& (2 ^ k + j) = m &&& j := by
  refine Nat.eq_of_testBit_eq fun i => ?_
  rw [Nat.testBit_and, Nat.testBit_and, testBit_two_pow_add hj]
  by_cases hi : i = k
  · rw [hi, Nat.testBit_lt_two_pow hm, Bool.false_and, Bool.false_and]
  · rw [decide_eq_false hi, Bool.false_or]

include hj

theorem two_pow_add_and_two_pow_add : (2 ^ k + m) &&& (2 ^ k + j) = 2 ^ k + (m &&& j) := by
  have hand : m &&& j < 2 ^ k := Nat.lt_of_le_of_lt Nat.and_le_left hm
  refine Nat.eq_of_testBit_eq fun i => ?_
  rw [Nat.testBit_and, testBit_two_pow_add hm, testBit_two_pow_add hj, testBit_two_pow_add hand,
    Nat.testBit_and]
  cases decide (i = k) <;> rfl

theorem entry_add_right : (entry m (2 ^ k + j) : R) = entry m j := by
  rw [entry, and_two_pow_add hm j hj, entry]

theorem entry_add_left : (entry (2 ^ k + m) j : R) = entry m j := by
  rw [entry, Nat.and_comm, and_two_pow_add hj m hm, Nat.and_comm, entry]

theorem entry_add_both : (entry (2 ^ k + m) (2 ^ k + j) : R) = -entry m j := by
  have hand : m &&& j < 2 ^ k := Nat.lt_of_le_of_lt Nat.and_le_left hm
  rw [entry, two_pow_add_and_two_pow_add hm hj, popcount_two_pow_add hand, pow_succ, entry]
  ring

end

/-- An index by the block it is in and by its half of the next larger block. -/
theorem index_cases (k i : Nat) :
    i.testBit k = false ∧ i % 2 ^ (k + 1) = i % 2 ^ k ∧
        i / 2 ^ (k + 1) * 2 ^ (k + 1) = i / 2 ^ k * 2 ^ k ∨
      i.testBit k = true ∧ 2 ^ k ≤ i ∧ i % 2 ^ (k + 1) = 2 ^ k + i % 2 ^ k ∧
        i / 2 ^ (k + 1) * 2 ^ (k + 1) + 2 ^ k = i / 2 ^ k * 2 ^ k := by
  have hblock := Nat.div_add_mod' i (2 ^ k)
  have hnext := Nat.div_add_mod' i (2 ^ (k + 1))
  have hmod : i % 2 ^ (k + 1) = i % 2 ^ k + 2 ^ k * (i / 2 ^ k % 2) := by
    rw [Nat.pow_succ, Nat.mod_mul]
  rw [Nat.testBit_eq_decide_div_mod_eq]
  rcases Nat.mod_two_eq_zero_or_one (i / 2 ^ k) with h | h
  · rw [h, Nat.mul_zero, Nat.add_zero] at hmod
    exact Or.inl ⟨by rw [h]; rfl, hmod, by omega⟩
  · rw [h, Nat.mul_one] at hmod
    have hle : 2 ^ k ≤ i % 2 ^ (k + 1) := by omega
    exact Or.inr ⟨by rw [h]; rfl, hle.trans (Nat.mod_le i _), by omega, by omega⟩

/-- The lower member of a pair is one block below. -/
theorem index_sub (hle : 2 ^ k ≤ i) :
    (i - 2 ^ k) % 2 ^ k = i % 2 ^ k ∧ (i - 2 ^ k) / 2 ^ k * 2 ^ k + 2 ^ k = i / 2 ^ k * 2 ^ k := by
  have hback : i - 2 ^ k + 2 ^ k = i := Nat.sub_add_cancel hle
  have hsucc := Nat.add_div_right (i - 2 ^ k) (Nat.two_pow_pos k)
  rw [hback] at hsucc
  exact ⟨by rw [← Nat.add_mod_right, hback], by rw [hsucc, Nat.succ_mul]⟩

/-- Butterflies lead to blocks of twice the length. -/
theorem walsh_succ (k : Nat) (v : Nat → R) : walsh (k + 1) v = butterfly k (walsh k v) := by
  funext i
  have hm : i % 2 ^ k < 2 ^ k := Nat.mod_lt i (Nat.two_pow_pos k)
  have hsplit : ∀ f : Nat → R, ∑ j ∈ Finset.range (2 ^ (k + 1)), f j =
      ∑ j ∈ Finset.range (2 ^ k), f j + ∑ j ∈ Finset.range (2 ^ k), f (2 ^ k + j) := by
    intro f
    rw [Nat.pow_succ, Nat.mul_two, Finset.sum_range_add]
  rw [walsh, hsplit, butterfly]
  rcases index_cases k i with ⟨hbit, hmod, hbase⟩ | ⟨hbit, hle, hmod, hbase⟩
  · -- the first half: the sum
    have hdiv : (i + 2 ^ k) / 2 ^ k = i / 2 ^ k + 1 := Nat.add_div_right i (Nat.two_pow_pos k)
    rw [hbit, if_neg Bool.false_ne_true, walsh, walsh, Nat.add_mod_right, hdiv, hmod, hbase]
    congr 1
    refine Finset.sum_congr rfl fun j hj => ?_
    rw [entry_add_right hm (Finset.mem_range.mp hj), Nat.succ_mul, Nat.add_assoc]
  · -- the second half: the difference
    obtain ⟨hmod', hdiv⟩ := index_sub hle
    have hlower : (i - 2 ^ k) / 2 ^ k * 2 ^ k = i / 2 ^ (k + 1) * 2 ^ (k + 1) := by omega
    rw [hbit, if_pos rfl, walsh, walsh, hmod', hlower, ← hbase, hmod, sub_eq_add_neg,
      ← Finset.sum_neg_distrib]
    congr 1
    · refine Finset.sum_congr rfl fun j hj => ?_
      rw [entry_add_left hm (Finset.mem_range.mp hj)]
    · refine Finset.sum_congr rfl fun j hj => ?_
      rw [entry_add_both hm (Finset.mem_range.mp hj), Nat.add_assoc, neg_mul]

/-! ### The transform is its own inverse, up to a factor -/

/-- Both members of a pair have the same block. -/
theorem walsh_butterfly (k : Nat) (v : Nat → R) :
    walsh k (butterfly k v) = butterfly k (walsh k v) := by
  funext i
  have hbits : ∀ j ∈ Finset.range (2 ^ k), (i / 2 ^ k * 2 ^ k + j).testBit k = i.testBit k := by
    intro j hj
    rw [Nat.testBit_eq_decide_div_mod_eq, Nat.testBit_eq_decide_div_mod_eq, Nat.mul_comm,
      Nat.mul_add_div (Nat.two_pow_pos k), Nat.div_eq_of_lt (Finset.mem_range.mp hj), Nat.add_zero]
  rw [walsh, butterfly]
  rcases index_cases k i with ⟨hbit, -, -⟩ | ⟨hbit, hle, -, -⟩
  · have hdiv : (i + 2 ^ k) / 2 ^ k = i / 2 ^ k + 1 := Nat.add_div_right i (Nat.two_pow_pos k)
    rw [hbit, if_neg Bool.false_ne_true, walsh, walsh, Nat.add_mod_right, hdiv,
      ← Finset.sum_add_distrib]
    refine Finset.sum_congr rfl fun j hj => ?_
    rw [butterfly, hbits j hj, hbit, if_neg Bool.false_ne_true, Nat.succ_mul, mul_add,
      Nat.add_right_comm]
  · obtain ⟨hmod, hdiv⟩ := index_sub hle
    rw [hbit, if_pos rfl, walsh, walsh, hmod, ← Finset.sum_sub_distrib]
    refine Finset.sum_congr rfl fun j hj => ?_
    have hlower : i / 2 ^ k * 2 ^ k + j - 2 ^ k = (i - 2 ^ k) / 2 ^ k * 2 ^ k + j := by omega
    rw [butterfly, hbits j hj, hbit, if_pos rfl, mul_sub, hlower]

theorem testBit_upper (hj : j.testBit k = false) : (j + 2 ^ k).testBit k = true := by
  rw [Nat.add_comm, Nat.testBit_two_pow_add_eq, hj, Bool.not_false]

theorem testBit_lower (hi : i.testBit k = true) (hle : 2 ^ k ≤ i) :
    (i - 2 ^ k).testBit k = false := by
  have hflip := Nat.testBit_two_pow_add_eq (i - 2 ^ k) k
  rw [Nat.add_sub_cancel' hle, hi] at hflip
  simpa using hflip.symm

/-- The upper member of a pair is in the same block of a larger length. -/
theorem upper_lt (hk : k < n) (hi : i < 2 ^ n) (hbit : i.testBit k = false) :
    i + 2 ^ k < 2 ^ n := by
  have hn : 2 ^ n = 2 ^ (n - (k + 1)) * 2 ^ (k + 1) := by
    rw [← Nat.pow_add, Nat.sub_add_cancel hk]
  have hblock : i / 2 ^ (k + 1) + 1 ≤ 2 ^ (n - (k + 1)) :=
    (Nat.div_lt_iff_lt_mul (Nat.two_pow_pos _)).mpr (hn ▸ hi)
  have hend : (i / 2 ^ (k + 1) + 1) * 2 ^ (k + 1) ≤ 2 ^ n := hn ▸ Nat.mul_le_mul_right _ hblock
  rw [Nat.succ_mul] at hend
  have hindex := Nat.div_add_mod' i (2 ^ (k + 1))
  have hmod : i % 2 ^ k < 2 ^ k := Nat.mod_lt i (Nat.two_pow_pos k)
  have hsum : 2 ^ (k + 1) = 2 ^ k + 2 ^ k := by rw [Nat.pow_succ, Nat.mul_two]
  rcases index_cases k i with ⟨-, heq, -⟩ | ⟨hon, -⟩
  · omega
  · rw [hbit] at hon
    exact absurd hon Bool.false_ne_true

theorem butterfly_butterfly (k : Nat) (v : Nat → R) (i : Nat) :
    butterfly k (butterfly k v) i = 2 * v i := by
  rcases index_cases k i with ⟨hbit, -, -⟩ | ⟨hbit, hle, -, -⟩
  · have hup := testBit_upper hbit
    rw [butterfly, hbit, if_neg Bool.false_ne_true, butterfly, hbit, if_neg Bool.false_ne_true,
      butterfly, hup, if_pos rfl, Nat.add_sub_cancel]
    ring
  · rw [butterfly, hbit, if_pos rfl, butterfly, testBit_lower hbit hle, if_neg Bool.false_ne_true,
      butterfly, hbit, if_pos rfl, Nat.sub_add_cancel hle]
    ring

theorem butterfly_smul (k : Nat) (c : R) (v : Nat → R) :
    butterfly k (fun i => c * v i) = fun i => c * butterfly k v i := by
  funext i
  unfold butterfly
  split <;> ring

theorem walsh_smul (k : Nat) (c : R) (v : Nat → R) :
    walsh k (fun i => c * v i) = fun i => c * walsh k v i := by
  funext i
  rw [walsh, walsh, Finset.mul_sum]
  exact Finset.sum_congr rfl fun j _ => by ring

theorem walsh_walsh (k : Nat) (v : Nat → R) : walsh k (walsh k v) = fun i => 2 ^ k * v i := by
  induction k generalizing v with
  | zero =>
    rw [walsh_zero, walsh_zero]
    funext i
    ring
  | succ k ih =>
    rw [walsh_succ, walsh_succ, walsh_butterfly, ih, butterfly_smul]
    funext i
    rw [congrFun (butterfly_smul k _ _) i, butterfly_butterfly, pow_succ]
    ring

/-- A block of the transform depends on the values of the block only. -/
theorem walsh_congr {v w : Nat → R} (h : ∀ j < 2 ^ k, v j = w j) (hi : i < 2 ^ k) :
    walsh k v i = walsh k w i := by
  rw [walsh_of_lt hi, walsh_of_lt hi]
  exact Finset.sum_congr rfl fun j hj => by rw [h j (Finset.mem_range.mp hj)]

/-- With a factor whose square is a half for each digit, the transform is its own inverse. -/
theorem scaled_scaled {c : R} (hc : c * c * 2 = 1) {v w : Nat → R}
    (h : ∀ i < 2 ^ k, w i = c ^ k * walsh k v i) (hj : j < 2 ^ k) : c ^ k * walsh k w j = v j := by
  have hone : c ^ k * (c ^ k * 2 ^ k) = 1 := by
    rw [← mul_pow, ← mul_pow, ← mul_assoc, hc, one_pow]
  rw [walsh_congr h hj, walsh_smul, walsh_walsh]
  calc c ^ k * (c ^ k * (2 ^ k * v j)) = c ^ k * (c ^ k * 2 ^ k) * v j := by ring
    _ = v j := by rw [hone, one_mul]

/-! ### Butterflies in place -/

/-- The members of a pair replaced in place. -/
def butterflyAt (h : Nat) (v : Nat → R) (j : Nat) : Nat → R :=
  Function.update (Function.update v j (v j + v (j + h))) (j + h) (v j - v (j + h))

theorem butterflyAt_lower {h : Nat} (hh : 0 < h) (v : Nat → R) (j : Nat) :
    butterflyAt h v j j = v j + v (j + h) := by
  rw [butterflyAt, Function.update_of_ne (by omega), Function.update_self]

theorem butterflyAt_upper (h : Nat) (v : Nat → R) (j : Nat) :
    butterflyAt h v j (j + h) = v j - v (j + h) := Function.update_self ..

theorem butterflyAt_of_ne {h : Nat} (hlower : i ≠ j) (hupper : i ≠ j + h) (v : Nat → R) :
    butterflyAt h v j i = v i := by
  rw [butterflyAt, Function.update_of_ne hupper, Function.update_of_ne hlower]

/-- Indices with different digits differ. -/
theorem ne_of_testBit (hi : i.testBit k = true) (hj : j.testBit k = false) : i ≠ j := by
  rintro rfl
  rw [hi] at hj
  exact Bool.noConfusion hj

/-- Pairs that are replaced in place one after another: no member of a pair is in another one,
because the lower members have no digit `2 ^ k` and the upper members have it. -/
theorem foldl_butterflyAt {js : List Nat} (hjs : ∀ j ∈ js, j.testBit k = false)
    (hnodup : js.Nodup) (v : Nat → R) (hi : i.testBit k = false) :
    js.foldl (butterflyAt (2 ^ k)) v i = (if i ∈ js then v i + v (i + 2 ^ k) else v i) ∧
      js.foldl (butterflyAt (2 ^ k)) v (i + 2 ^ k) =
        if i ∈ js then v i - v (i + 2 ^ k) else v (i + 2 ^ k) := by
  induction js generalizing v with
  | nil => exact ⟨rfl, rfl⟩
  | cons j js ih =>
    obtain ⟨hj, hjs⟩ := List.forall_mem_cons.mp hjs
    obtain ⟨hnotin, hnodup⟩ := List.nodup_cons.mp hnodup
    obtain ⟨hlower, hupper⟩ := ih hjs hnodup (butterflyAt (2 ^ k) v j)
    rw [List.foldl_cons, hlower, hupper]
    by_cases hij : i = j
    · subst hij
      rw [if_neg hnotin, if_neg hnotin, if_pos List.mem_cons_self, if_pos List.mem_cons_self]
      exact ⟨butterflyAt_lower (Nat.two_pow_pos k) v i, butterflyAt_upper _ v i⟩
    · have hi1 : i ≠ j + 2 ^ k := (ne_of_testBit (testBit_upper hj) hi).symm
      have hi2 : i + 2 ^ k ≠ j := ne_of_testBit (testBit_upper hi) hj
      have hi3 : i + 2 ^ k ≠ j + 2 ^ k := fun h => hij (Nat.add_right_cancel h)
      rw [butterflyAt_of_ne hij hi1, butterflyAt_of_ne hi2 hi3]
      simp only [List.mem_cons, hij, false_or, and_self]

end Walsh
