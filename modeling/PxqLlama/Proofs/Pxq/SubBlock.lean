import Mathlib.Algebra.Order.Field.Basic
import Mathlib.Data.Rat.Sqrt
import Mathlib.Data.Rat.Star
import PxqLlama.Pxq.SubBlock

/-!
# `Proofs.Pxq.SubBlock`: when the search of a sub-block writes its result

A candidate is taken when its error is below the best so far, which is `1e300` at first. For finite
elements, weights and anchor every error is far below that, so the first candidate is taken and
nothing of the old contents is left (`quantSubblock_fresh`). One element, weight or anchor that is
NaN or infinite makes every error NaN or `+∞`. No comparison with these is true, so nothing is
written, and the slabs get what an earlier row left in the vectors (`quantSubblock_stale`).
-/

namespace PxqLlama.Pxq

open Flt FloatFormat

/-- The value is a number. -/
def IsNum (v : Flt) : Prop := ∃ q, v = num q

/-- The block has no element other than zeros and NaN, or the anchor is not above zero, or the
anchor, the elements and the weights are all numbers. -/
def Determined (bs : Nat) (x : Nat → Single) (w : Option (Nat → Weight)) (anchor : Flt) : Prop :=
  (∀ i < bs, (num 0).lt (x i).1.abs = false) ∨ (num 0).lt anchor = false ∨
    IsNum anchor ∧ (∀ i < bs, IsNum (x i).1) ∧ ∀ w' ∈ w, ∀ i < bs, IsNum (w' i).1

theorem noNum_of_not_isNum {v : Flt} (h : ¬ IsNum v) : NoNum v := by
  cases v with
  | nan => exact Or.inl rfl
  | inf s => exact Or.inr ⟨s, rfl⟩
  | num q => exact absurd ⟨q, rfl⟩ h

theorem lt_trans_zero {a b : Flt} (ha : (num 0).lt a = true) (hab : a.lt b = true) :
    (num 0).lt b = true := by
  cases a with
  | nan => cases hab
  | inf s =>
    cases s with
    | true => cases ha
    | false => cases b <;> cases hab
  | num p =>
    cases b with
    | nan => cases hab
    | inf t =>
      cases t with
      | true => cases hab
      | false => rfl
    | num q =>
      have hp : 0 < p := of_decide_eq_true ha
      have hq : p < q := of_decide_eq_true hab
      exact decide_eq_true (lt_trans hp hq)

theorem absMax_succ (n : Nat) (x : Nat → Single) :
    absMax (n + 1) x =
      if (absMax n x).lt (x n).1.abs then (x n).1.abs else absMax n x := by
  rw [absMax, List.range_succ, List.foldl_append]
  rfl

/-- The greatest absolute value is above zero when one is. -/
theorem absMax_cases (n : Nat) (x : Nat → Single) :
    (absMax n x = num 0 ∧ ∀ i < n, (num 0).lt (x i).1.abs = false) ∨
      ((num 0).lt (absMax n x) = true ∧ ∃ i < n, (num 0).lt (x i).1.abs = true) := by
  induction n with
  | zero => exact Or.inl ⟨rfl, fun i hi => absurd hi (Nat.not_lt_zero i)⟩
  | succ n ih =>
    rw [absMax_succ]
    rcases ih with ⟨hzero, hall⟩ | ⟨hpos, i, hi, hone⟩
    · rw [hzero]
      cases hn : (num 0).lt (x n).1.abs with
      | true => exact Or.inr ⟨by rw [if_pos rfl, hn], n, Nat.lt_succ_self n, hn⟩
      | false =>
        left
        refine ⟨if_neg (by decide), fun i hi => ?_⟩
        rcases Nat.lt_succ_iff_lt_or_eq.mp hi with hlt | rfl
        · exact hall i hlt
        · exact hn
    · right
      refine ⟨?_, i, by omega, hone⟩
      split
      · rename_i hlt
        exact lt_trans_zero hpos hlt
      · exact hpos

theorem absMax_eq_false_iff (n : Nat) (x : Nat → Single) :
    (num 0).lt (absMax n x) = false ↔ ∀ i < n, (num 0).lt (x i).1.abs = false := by
  rcases absMax_cases n x with ⟨hzero, hall⟩ | ⟨hpos, i, hi, hone⟩
  · rw [hzero]
    exact iff_of_true rfl hall
  · rw [hpos]
    refine iff_of_false (by decide) fun hall => ?_
    exact absurd (hone.symm.trans (hall i hi)) (by decide)

variable {anchor : Half} {d : Flt} {x : Nat → Single} {w : Option (Nat → Weight)} {E : ExpertArgs}

section
variable {H : FloatHost} {Q : Quantizer} {tab : QuantTables}

/-! ### Finite blocks -/

/-- A scale of a finite anchor. -/
theorem num_subScale (h : IsNum anchor.1) (j : Nat) : Num (2 ^ 34) (subScale H tab anchor.1 j) := by
  obtain ⟨q, hq⟩ := h
  have hanchor : Num (2 ^ 16) anchor.1 := ⟨q, hq, le_trans (anchor.2 q hq) (by norm_num)⟩
  have hsub : Num (2 ^ 16) (num (tab.sub j)) :=
    ⟨tab.sub j, rfl, le_trans (tab.sub_le j) (by norm_num)⟩
  have hprod : Num (2 ^ 33) (H.double.mul anchor.1 (num (tab.sub j))) :=
    num_mul_pow hanchor hsub H.double_top (by decide)
  exact num_cast_pow hprod H.single_top (by decide)

/-- An error term is a number within these bounds. -/
theorem num_errTerm {x : Single} {w : Option Weight} (hx : IsNum x.1) (hw : ∀ w' ∈ w, IsNum w'.1)
    (hd : Num (2 ^ 34) d) : Num (2 ^ 390) (errTerm H Q tab x.1 (w.map fun w => w.1) d) := by
  obtain ⟨p, hp⟩ := hx
  have hx' : Num (2 ^ 128) x.1 := ⟨p, hp, x.2 p hp⟩
  have hw' : Num (2 ^ 128) ((w.map fun w => w.1).getD (num 1)) := by
    cases w with
    | none => exact ⟨1, rfl, by norm_num⟩
    | some w =>
      obtain ⟨q, hq⟩ := hw w rfl
      exact ⟨q, hq, w.2.1 q hq⟩
  have hbook : Num (2 ^ 16) (num (tab.book (elemCode H Q tab d x.1))) :=
    ⟨_, rfl, le_trans (tab.book_le _) (by norm_num)⟩
  rw [errTerm]
  have hrecon : Num (2 ^ 51) (H.single.mul d (num (tab.book (elemCode H Q tab d x.1)))) :=
    num_mul_pow hd hbook H.single_top (by decide)
  have he : Num (2 ^ 130) (H.double.sub x.1
      (H.single.mul d (num (tab.book (elemCode H Q tab d x.1))))) :=
    num_add_pow hx' (num_neg (num_mono hrecon (two_pow_le (by decide)))) H.double_top (by decide)
  have hwe := num_mul_pow hw' he H.double_top (by decide)
  exact num_mul_pow hwe he H.double_top (by decide)

/-- The error of the first `n` elements. -/
theorem num_errSum {n : Nat} (hn : n ≤ 16) (hx : ∀ i < n, IsNum (x i).1)
    (hw : ∀ w' ∈ w, ∀ i < n, IsNum (w' i).1) (hd : Num (2 ^ 34) d) :
    Num (2 ^ (390 + 2 * n)) ((List.range n).foldl (fun err i => H.double.add err
      (errTerm H Q tab (x i).1 (w.map fun w => (w i).1) d)) (num 0)) := by
  induction n with
  | zero => exact ⟨0, rfl, by rw [abs_zero]; positivity⟩
  | succ n ih =>
    rw [List.range_succ, List.foldl_append, List.foldl_cons, List.foldl_nil]
    have hrest := ih (by omega) (fun i hi => hx i (by omega)) fun w' hw' i hi =>
      hw w' hw' i (by omega)
    have hone : ∀ w' ∈ w.map fun w => w n, IsNum w'.1 := by
      intro w' hw'
      obtain ⟨w'', hw'', rfl⟩ := Option.mem_map.mp hw'
      exact hw w'' hw'' n (Nat.lt_succ_self n)
    have hterm : Num (2 ^ 390) (errTerm H Q tab (x n).1 ((w.map fun w => w n).map fun w => w.1) d) :=
      num_errTerm (hx n (Nat.lt_succ_self n)) hone hd
    rw [Option.map_map] at hterm
    have hterm' := num_mono hterm (two_pow_le (show 390 ≤ 390 + 2 * n by omega))
    exact num_add_pow hrest hterm' H.double_top (show 390 + 2 * n + 1 ≤ 1023 by omega)

/-- The first best error is a number above every error of a finite block. -/
theorem round_best (F : FloatFormat) (htop : 2 ^ 1023 ≤ F.top) :
    ∃ r, F.round (10 ^ 300) = num r ∧ 2 ^ 800 < r := by
  have hle : (10 : ℚ) ^ 300 ≤ 2 ^ 1000 := by
    calc (10 : ℚ) ^ 300 = (10 ^ 3) ^ 100 := by rw [← pow_mul]
      _ ≤ (2 ^ 10) ^ 100 := pow_le_pow_left₀ (by norm_num) (by norm_num) 100
      _ = 2 ^ 1000 := by rw [← pow_mul]
  have hge : (2 : ℚ) ^ 802 ≤ 10 ^ 300 := by
    calc (2 : ℚ) ^ 802 ≤ 2 ^ 900 := two_pow_le (by decide)
      _ = (2 ^ 3) ^ 300 := by rw [← pow_mul]
      _ ≤ 10 ^ 300 := pow_le_pow_left₀ (by norm_num) (by norm_num) 300
  have habs : |(10 : ℚ) ^ 300| = 10 ^ 300 := abs_of_nonneg (by positivity)
  have hbound : |(10 : ℚ) ^ 300| ≤ F.top := by
    rw [habs]
    exact le_trans hle (le_trans (two_pow_le (by decide)) htop)
  obtain ⟨r, hr, -, hbelow⟩ := F.bounded (10 ^ 300) hbound
  rw [habs] at hbelow
  have hhalf := hbelow (one_le_pow₀ (by norm_num))
  -- The rounding of a number above zero is not below zero.
  have hpos : 0 ≤ r := by
    have hsign := F.nonneg (10 ^ 300) (by positivity)
    rw [hr] at hsign
    exact hsign
  rw [abs_of_nonneg hpos] at hhalf
  refine ⟨r, hr, ?_⟩
  have hdouble : (2 : ℚ) ^ 801 = 2 * 2 ^ 800 := pow_succ' 2 800
  have hquarter : ∀ A C : ℚ, 2 * A < C → C ≤ 2 * r → A < r := by
    intro A C hA hC
    linarith
  refine hquarter _ _ ?_ hhalf
  rw [← hdouble]
  exact lt_of_lt_of_le (pow_lt_pow_right₀ (by norm_num) (by decide)) hge

theorem blockErr_lt (hx : ∀ i < Q.bs, IsNum (x i).1) (hw : ∀ w' ∈ w, ∀ i < Q.bs, IsNum (w' i).1)
    (hd : Num (2 ^ 34) d) : (blockErr H Q tab x w d).lt (H.double.round (10 ^ 300)) = true := by
  have hnum : Num (2 ^ (390 + 2 * Q.bs)) (blockErr H Q tab x w d) := num_errSum Q.bs_le hx hw hd
  obtain ⟨q, hq, hle⟩ := hnum
  obtain ⟨r, hr, hbest⟩ := round_best H.double H.double_top
  rw [hq, hr]
  have hbs := Q.bs_le
  have hsize : (2 : ℚ) ^ (390 + 2 * Q.bs) ≤ 2 ^ 800 := two_pow_le (by omega)
  refine decide_eq_true (lt_of_le_of_lt ?_ hbest)
  exact le_trans (le_abs_self q) (le_trans hle hsize)

/-! ### Blocks with a value that is no number -/

theorem weight_notNeg (w : Option Weight) : ((w.map fun w => w.1).getD (num 1)).NotNeg := by
  cases w with
  | none => exact show (0 : ℚ) ≤ 1 by norm_num
  | some w => exact w.2.2

/-- A term of the error is not below zero. -/
theorem notNeg_errTerm (x : Flt) (w : Option Weight) (d : Flt) :
    (errTerm H Q tab x (w.map fun w => w.1) d).NotNeg := notNeg_mul_mul (weight_notNeg w) _

/-- A term with an element, a weight or a scale that is no number is lost. -/
theorem lost_errTerm {x : Flt} {w : Option Weight} (h : NoNum x ∨ NoNum d ∨ ∃ w' ∈ w, NoNum w'.1) :
    Lost (errTerm H Q tab x (w.map fun w => w.1) d) := by
  refine lost_of_noNum ?_ (notNeg_errTerm x w d)
  rw [errTerm]
  rcases h with hx | hd | ⟨w', hw', hno⟩
  · exact noNum_mul_right _ (noNum_sub_left hx _)
  · exact noNum_mul_right _ (noNum_sub_right x (noNum_mul_left hd _))
  · rw [Option.mem_def.mp hw']
    exact noNum_mul_left (noNum_mul_left hno _) _

/-- A lost term makes the whole error lost. -/
theorem lost_blockErr {i : Nat} (hi : i < Q.bs)
    (h : NoNum (x i).1 ∨ NoNum d ∨ ∃ w' ∈ w, NoNum (w' i).1) : Lost (blockErr H Q tab x w d) := by
  have hterm : ∀ j, (errTerm H Q tab (x j).1 (w.map fun w => (w j).1) d).NotNeg := by
    intro j
    have hone : (errTerm H Q tab (x j).1 ((w.map fun w => w j).map fun w => w.1) d).NotNeg :=
      notNeg_errTerm _ _ _
    rwa [Option.map_map] at hone
  have hlost : Lost (errTerm H Q tab (x i).1 (w.map fun w => (w i).1) d) := by
    have hcause : NoNum (x i).1 ∨ NoNum d ∨ ∃ w' ∈ w.map fun w => w i, NoNum w'.1 := by
      rcases h with hx | hd | ⟨w', hw', hno⟩
      · exact Or.inl hx
      · exact Or.inr (Or.inl hd)
      · exact Or.inr (Or.inr ⟨w' i, Option.mem_map.mpr ⟨w', hw', rfl⟩, hno⟩)
    have hone : Lost (errTerm H Q tab (x i).1 ((w.map fun w => w i).map fun w => w.1) d) :=
      lost_errTerm hcause
    rwa [Option.map_map] at hone
  -- After `n` elements the sum is not below zero, and it is lost once element `i` is in it.
  have hsum : ∀ n, ((List.range n).foldl (fun err i => H.double.add err
      (errTerm H Q tab (x i).1 (w.map fun w => (w i).1) d)) (num 0)).NotNeg ∧
        (i < n → NoNum ((List.range n).foldl (fun err i => H.double.add err
          (errTerm H Q tab (x i).1 (w.map fun w => (w i).1) d)) (num 0))) := by
    intro n
    induction n with
    | zero => exact ⟨le_refl (0 : ℚ), fun h => absurd h (Nat.not_lt_zero i)⟩
    | succ n ih =>
      obtain ⟨hneg, hno⟩ := ih
      rw [List.range_succ, List.foldl_append, List.foldl_cons, List.foldl_nil]
      refine ⟨notNeg_add hneg (hterm n), fun hin => ?_⟩
      rcases Nat.lt_succ_iff_lt_or_eq.mp hin with hlt | heq
      · exact noNum_add_left (hno hlt) _
      · rw [← heq]
        exact noNum_add_right _ (noNum_of_lost hlost)
  obtain ⟨hneg, hno⟩ := hsum Q.bs
  exact lost_of_noNum (hno hi) hneg

/-! ### The search -/

/-- A lost error is not taken while the best one is a number. -/
theorem tryScale_lost {anchor : Flt} {row blk j : Nat} {best : ℚ} {out : SubBlock Q.bs}
    (h : Lost (blockErr H Q tab x w (subScale H tab anchor j))) :
    tryScale H Q tab x w anchor row blk (num best, out) j = (num best, out) := by
  obtain ⟨hlt, heq⟩ := Lost.not_lt (q := best) h
  rw [tryScale, hlt, heq, Bool.false_and, Bool.or_false]
  rfl

theorem floorLoop_le (sub : Nat → ℚ) (need : Flt) (left j : Nat) :
    floorLoop sub need left j ≤ j + left := by
  induction left generalizing j with
  | zero => exact Nat.le_refl j
  | succ left ih =>
    rw [floorLoop]
    split
    · have := ih (j + 1)
      omega
    · omega

theorem pxqSubFloor_le (smin : Bool) (x : Nat → Single) (anchor : Flt) :
    pxqSubFloor H Q tab smin x anchor ≤ 15 := by
  have hloop : ∀ (none : Bool) (need : Flt),
      (if none = true then 0 else floorLoop tab.sub need 15 0) ≤ 15 := by
    intro none need
    split
    · exact Nat.zero_le 15
    · exact floorLoop_le tab.sub need 15 0
  rw [pxqSubFloor]
  split
  · exact Nat.zero_le 15
  · simp only
    split
    · exact Nat.zero_le 15
    · exact hloop _ _

/-- A block that is determined is written, whatever was there. -/
theorem quantSubblock_fresh {smin : Bool} (h : Determined Q.bs x w anchor.1) (row blk : Nat)
    (out out' : SubBlock Q.bs) :
    quantSubblock H Q tab smin x w anchor.1 row blk out =
      quantSubblock H Q tab smin x w anchor.1 row blk out' := by
  by_cases hzero : (!(num 0).lt (absMax Q.bs x) || !(num 0).lt anchor.1) = true
  · rw [quantSubblock, quantSubblock, if_pos hzero, if_pos hzero]
  · rw [quantSubblock, quantSubblock, if_neg hzero, if_neg hzero]
    rw [Bool.or_eq_true, not_or, Bool.not_eq_true', Bool.not_eq_true', Bool.not_eq_false,
      Bool.not_eq_false] at hzero
    obtain ⟨hmax, hpos⟩ := hzero
    have hfinite : IsNum anchor.1 ∧ (∀ i < Q.bs, IsNum (x i).1) ∧
        ∀ w' ∈ w, ∀ i < Q.bs, IsNum (w' i).1 := by
      rcases h with hnone | hneg | hfinite
      · exact absurd (hmax.symm.trans ((absMax_eq_false_iff _ _).mpr hnone)) (by decide)
      · exact absurd (hpos.symm.trans hneg) (by decide)
      · exact hfinite
    obtain ⟨hanchor, hx, hw⟩ := hfinite
    -- The first candidate is taken, and from there on both searches are one.
    have hfloor : pxqSubFloor H Q tab smin x anchor.1 ≤ 15 := pxqSubFloor_le smin x anchor.1
    generalize pxqSubFloor H Q tab smin x anchor.1 = j0 at hfloor ⊢
    obtain ⟨n, hn⟩ : ∃ n, 16 - j0 = n + 1 := ⟨15 - j0, by omega⟩
    have hfirst : ∀ out : SubBlock Q.bs,
        tryScale H Q tab x w anchor.1 row blk (H.double.round (10 ^ 300), out) j0 =
          (blockErr H Q tab x w (subScale H tab anchor.1 j0),
            { s4 := j0
              codes := fun i => elemCode H Q tab (subScale H tab anchor.1 j0) (x i).1 }) := by
      intro out
      have hscale : Num (2 ^ 34) (subScale H tab anchor.1 j0) := num_subScale hanchor j0
      have hlt : (blockErr H Q tab x w (subScale H tab anchor.1 j0)).lt
          (H.double.round (10 ^ 300)) = true := blockErr_lt hx hw hscale
      rw [tryScale, hlt, Bool.true_or]
      rfl
    simp only
    rw [hn, List.range'_succ, List.foldl_cons, List.foldl_cons, hfirst, hfirst]

/-- A block that is not determined is not written. -/
theorem quantSubblock_stale {smin : Bool} (h : ¬ Determined Q.bs x w anchor.1) (row blk : Nat)
    (out : SubBlock Q.bs) : (quantSubblock H Q tab smin x w anchor.1 row blk out).2 = out := by
  rw [Determined, not_or, not_or] at h
  obtain ⟨hsome, hpos, hno⟩ := h
  rw [Bool.not_eq_false] at hpos
  obtain ⟨i₀, hsome'⟩ := not_forall.mp hsome
  obtain ⟨hi₀, -⟩ := Classical.not_imp.mp hsome'
  have hmax : (num 0).lt (absMax Q.bs x) = true := by
    rw [← Bool.not_eq_false, absMax_eq_false_iff]
    exact hsome
  -- Some element makes every candidate's error lost.
  have hlost : ∀ j, Lost (blockErr H Q tab x w (subScale H tab anchor.1 j)) := by
    intro j
    by_cases hanchor : IsNum anchor.1
    · by_cases hx : ∀ i < Q.bs, IsNum (x i).1
      · have hw : ¬ ∀ w' ∈ w, ∀ i < Q.bs, IsNum (w' i).1 := fun hw => hno ⟨hanchor, hx, hw⟩
        push Not at hw
        obtain ⟨w', hw', i, hi, hbad⟩ := hw
        exact lost_blockErr hi (Or.inr (Or.inr ⟨w', hw', noNum_of_not_isNum hbad⟩))
      · push Not at hx
        obtain ⟨i, hi, hbad⟩ := hx
        exact lost_blockErr hi (Or.inl (noNum_of_not_isNum hbad))
    · have hscale : NoNum (subScale H tab anchor.1 j) :=
        noNum_cast (noNum_mul_left (noNum_of_not_isNum hanchor) _)
      exact lost_blockErr hi₀ (Or.inr (Or.inl hscale))
  obtain ⟨r, hr, -⟩ := round_best H.double H.double_top
  have hloop : ∀ js : List Nat,
      js.foldl (tryScale H Q tab x w anchor.1 row blk) (num r, out) = (num r, out) := by
    intro js
    induction js with
    | nil => rfl
    | cons j js ih => rw [List.foldl_cons, tryScale_lost (hlost j), ih]
  rw [quantSubblock, if_neg (by simp [hmax, hpos]), hr, hloop]

end

/-! ### The rows of an expert -/

section
variable (H : FloatHost) (Q : Quantizer) (tab : QuantTables)

/-- The blocks of a row are written one after the other, each with its own place in the vectors. -/
theorem quantRow_apply (smin : Bool) (x : Nat → Single) (w : Option (Nat → Weight)) (K : Nat)
    (anchor : Flt) (row : Nat) (scratch : Nat → SubBlock Q.bs) (b : Nat) (hb : b < K / Q.bs) :
    (quantRow H Q tab smin x w K anchor row scratch).2 b =
      (quantSubblock H Q tab smin (rowBlock Q x b) (rowWeights Q w b) anchor row b
        (scratch b)).2 := by
  have hblocks : ∀ n b, ((List.range n).foldl (fun (st : Flt × (Nat → SubBlock Q.bs)) b =>
      let r := quantSubblock H Q tab smin (rowBlock Q x b) (rowWeights Q w b) anchor row b (st.2 b)
      (H.double.add st.1 r.1, Function.update st.2 b r.2)) (num 0, scratch)).2 b =
    if b < n then (quantSubblock H Q tab smin (rowBlock Q x b) (rowWeights Q w b) anchor row b
      (scratch b)).2 else scratch b := by
    intro n
    induction n with
    | zero => exact fun b => rfl
    | succ n ih =>
      intro b
      rw [List.range_succ, List.foldl_append, List.foldl_cons, List.foldl_nil]
      simp only
      by_cases hbn : b = n
      · rw [hbn, Function.update_self, ih n, if_neg (Nat.lt_irrefl n),
          if_pos (Nat.lt_succ_self n)]
      · rw [Function.update_of_ne hbn, ih b]
        by_cases hlt : b < n
        · rw [if_pos hlt, if_pos (by omega)]
        · rw [if_neg hlt, if_neg (by omega)]
  rw [quantRow, hblocks, if_pos hb]

/-- What is emitted for a block is what its call leaves, with something in the vectors before. -/
theorem exists_emitted_eq (E : ExpertArgs) (n b : Nat) (hb : b < E.K / Q.bs) :
    ∃ out, emitted H Q tab E n b = blockCall H Q tab E n b out :=
  ⟨_, quantRow_apply H Q tab E.smin (E.src n) (expertWeights H E n) E.K _ (E.row0 + n) _ b hb⟩

/-- Without the fit the anchor is the greatest absolute value of the row. -/
theorem rowAnchor_unfit (hfit : E.fit = false) (n : Nat) :
    rowAnchor H Q tab E n =
      H.fp16 (if (num 65504).lt (absMax E.K (E.src n)) then num 65504
        else absMax E.K (E.src n)) := by
  rw [rowAnchor, pickAnchor, hfit, Bool.not_false, Bool.true_or]
  rfl

/-- Without the fit nothing is tried before the row is quantized. -/
theorem emitted_unfit (hfit : E.fit = false) (n : Nat) {b : Nat} (hb : b < E.K / Q.bs) :
    emitted H Q tab E n b = blockCall H Q tab E n b (expertScratch H Q tab E n b) := by
  have hscratch : (pickAnchor H Q tab E.smin E.fit (E.src n) (expertWeights H E n) E.K
      (E.row0 + n) (expertScratch H Q tab E n)).2 = expertScratch H Q tab E n := by
    rw [pickAnchor, hfit, Bool.not_false, Bool.true_or]
    rfl
  rw [emitted, expertScratch, quantRow_apply H Q tab _ _ _ _ _ _ _ _ hb, hscratch]
  rfl

/-- Without the fit, a block that is not determined gets what the row before it got. -/
theorem emitted_of_stale (hfit : E.fit = false) {n b : Nat} (hb : b < E.K / Q.bs)
    (hno : ¬ Determined Q.bs (rowBlock Q (E.src (n + 1)) b)
      (rowWeights Q (expertWeights H E (n + 1)) b) (rowAnchor H Q tab E (n + 1)).1) :
    emitted H Q tab E (n + 1) b = emitted H Q tab E n b := by
  rw [emitted_unfit H Q tab hfit (n + 1) hb]
  exact quantSubblock_stale hno _ b _

/-- **When the slabs get what belongs to the block.** For every tier, tables, source rows, imatrix
and setting: what is emitted for a block of a row is what its call leaves whatever was in the
vectors, exactly when the block is determined. -/
theorem emitted_fresh_iff (E : ExpertArgs) (n : Nat) (b : Fin (E.K / Q.bs)) :
    (∀ out, emitted H Q tab E n b = blockCall H Q tab E n b out) ↔
      Determined Q.bs (rowBlock Q (E.src n) b) (rowWeights Q (expertWeights H E n) b)
        (rowAnchor H Q tab E n).1 := by
  obtain ⟨old, hold⟩ := exists_emitted_eq H Q tab E n b b.2
  constructor
  · intro hall
    by_contra hno
    have hstale : ∀ out, blockCall H Q tab E n b out = out := fun out =>
      quantSubblock_stale hno (E.row0 + n) b out
    -- Two contents that differ would both be emitted.
    have hzero := (hall ⟨0, fun _ => 0⟩).trans (hstale _)
    have hone := (hall ⟨1, fun _ => 0⟩).trans (hstale _)
    have hs4 : (0 : Nat) = 1 := congrArg SubBlock.s4 (hzero.symm.trans hone)
    exact absurd hs4 (by decide)
  · intro hdet out
    rw [hold]
    exact congrArg Prod.snd (quantSubblock_fresh hdet (E.row0 + n) b old out)

end

/-! ### Two experts -/

/-- The tables of PXQ4, in parts of `2^16`. -/
def pxq6Book : List Int :=
  [-64736, -48192, -36608, -27504, -19728, -12744, -6260, 0,
    5552, 11224, 17168, 23632, 30880, 39360, 50176, 65536]

def pxq6Sub16 : List Int :=
  [14072, 19888, 23728, 26800, 29488, 31936, 34272, 36608,
    38944, 41408, 44032, 46944, 50240, 54048, 58720, 64736]

def tableEntry (l : List Int) (i : Nat) : ℚ := l.getD i 0 / 65536

theorem abs_tableEntry_le {l : List Int} (hl : ∀ v ∈ l, |v| ≤ 65536) (i : Nat) :
    |tableEntry l i| ≤ 65504 := by
  have hget : |l.getD i 0| ≤ 65536 := by
    rw [List.getD_eq_getElem?_getD]
    cases hi : l[i]? with
    | none => decide
    | some v => exact hl v (List.mem_of_getElem? hi)
  have hcast : |((l.getD i 0 : Int) : ℚ)| ≤ 65536 := by exact_mod_cast hget
  rw [tableEntry, abs_div, abs_of_pos (by norm_num : (0 : ℚ) < 65536)]
  rw [div_le_iff₀ (by norm_num)]
  linarith

def pxq6Tables : QuantTables where
  book := tableEntry pxq6Book
  mids := fun i => num ((tableEntry pxq6Book i + tableEntry pxq6Book (i + 1)) / 2)
  sub := tableEntry pxq6Sub16
  book_le := abs_tableEntry_le (by decide)
  sub_le := abs_tableEntry_le (by decide)

/-- Arithmetic without rounding, with the ranges of `float`, `double` and fp16. -/
def exactHost : FloatHost where
  single := FloatFormat.exact (2 ^ 128) (by norm_num)
  double := FloatFormat.exact (2 ^ 1023) (pow_nonneg (by norm_num) 1023)
  fp16 := fun v => match v with
    | num q => if h : |q| ≤ 65504 then ⟨num q, fun r hr => by rw [← num.inj hr]; exact h⟩
      else ⟨inf (decide (q < 0)), fun r hr => by cases hr⟩
    | nan => ⟨nan, fun r hr => by cases hr⟩
    | inf s => ⟨inf s, fun r hr => by cases hr⟩
  exp2 := fun k => num (2 ^ (k / 16))
  sqrt := fun v => match v with
    | num q => if 0 ≤ q then num (Rat.sqrt q) else nan
    | inf false => inf false
    | _ => nan
  single_top := by
    show (2 : ℚ) ^ 127 ≤ 2 ^ 128
    exact two_pow_le (by decide)
  single_le := by
    intro q r h
    change (if |q| ≤ 2 ^ 128 then num q else inf (decide (q < 0))) = num r at h
    split at h
    · rename_i hle
      rw [← num.inj h]
      exact hle
    · cases h
  double_top := le_refl _
  sqrt_notNeg := by
    intro v
    match v with
    | num q =>
      dsimp only
      split
      · exact Rat.sqrt_nonneg q
      · trivial
    | inf false => rfl
    | inf true => trivial
    | nan => trivial

/-- A row of ones after a NaN. -/
def nanRow (i : Nat) : Single :=
  if i = 0 then ⟨nan, fun q hq => by cases hq⟩
  else ⟨num 1, fun q hq => by rw [← num.inj hq]; norm_num⟩

/-- An expert with `first` everywhere in its first row, and the NaN in the second. -/
def nanRowExpert (first : ℤ) (hfirst : |(first : ℚ)| ≤ 2 ^ 128) : ExpertArgs where
  src := fun n i => if n = 0 then ⟨num first, fun q hq => by rw [← num.inj hq]; exact hfirst⟩
    else nanRow i
  K := 256
  imx := none
  row0 := 0
  kqw := false
  smin := false
  fit := false

theorem rowAnchor_nanRow (first : ℤ) (hfirst : |(first : ℚ)| ≤ 2 ^ 128) :
    rowAnchor exactHost pxq6Quantizer pxq6Tables (nanRowExpert first hfirst) 1 =
      exactHost.fp16 (if (num 65504).lt (absMax 256 nanRow) then num 65504
        else absMax 256 nanRow) := by
  have hsrc : (nanRowExpert first hfirst).src 1 = nanRow := rfl
  have hK : (nanRowExpert first hfirst).K = 256 := rfl
  rw [rowAnchor_unfit _ _ _ rfl, hsrc, hK]

/-- The second row's first block is not determined: it holds a NaN and a one, and its anchor is
one. -/
theorem not_determined_nanRow (first : ℤ) (hfirst : |(first : ℚ)| ≤ 2 ^ 128) :
    ¬ Determined 16 (rowBlock pxq6Quantizer ((nanRowExpert first hfirst).src 1) 0)
      (rowWeights pxq6Quantizer (expertWeights exactHost (nanRowExpert first hfirst) 1) 0)
      (rowAnchor exactHost pxq6Quantizer pxq6Tables (nanRowExpert first hfirst) 1).1 := by
  rw [Determined, not_or, not_or]
  refine ⟨fun hnone => ?_, ?_, fun hfinite => ?_⟩
  · have hone : (num 0).lt (num 1).abs = false := hnone 1 (by decide)
    exact absurd hone (by decide)
  · rw [Bool.not_eq_false, rowAnchor_nanRow]
    decide +kernel
  · obtain ⟨q, hq⟩ : IsNum nan := hfinite.2.1 0 (by decide)
    cases hq

theorem abs_one_le : |((1 : ℤ) : ℚ)| ≤ 2 ^ 128 := by norm_num

theorem abs_zero_le : |((0 : ℤ) : ℚ)| ≤ 2 ^ 128 := by norm_num

/-- Two experts with the same second row, and the same anchor for it, get different codes for its
first block: what their first rows left. -/
theorem emitted_depends_on_earlier_row :
    (nanRowExpert 1 abs_one_le).src 1 = (nanRowExpert 0 abs_zero_le).src 1 ∧
      expertWeights exactHost (nanRowExpert 1 abs_one_le) 1 =
        expertWeights exactHost (nanRowExpert 0 abs_zero_le) 1 ∧
      rowAnchor exactHost pxq6Quantizer pxq6Tables (nanRowExpert 1 abs_one_le) 1 =
        rowAnchor exactHost pxq6Quantizer pxq6Tables (nanRowExpert 0 abs_zero_le) 1 ∧
      emitted exactHost pxq6Quantizer pxq6Tables (nanRowExpert 1 abs_one_le) 1 0 ≠
        emitted exactHost pxq6Quantizer pxq6Tables (nanRowExpert 0 abs_zero_le) 1 0 := by
  refine ⟨rfl, rfl, ?_, ?_⟩
  · rw [rowAnchor_nanRow, rowAnchor_nanRow]
  · rw [emitted_of_stale _ _ _ rfl (by decide) (not_determined_nanRow 1 _)]
    rw [emitted_of_stale _ _ _ rfl (by decide) (not_determined_nanRow 0 _)]
    rw [emitted_unfit _ _ _ rfl 0 (by decide), emitted_unfit _ _ _ rfl 0 (by decide)]
    intro heq
    -- A row of ones has a sub-scale to choose, a row of zeros has not.
    exact absurd (congrArg SubBlock.s4 heq) (by decide +kernel)

end PxqLlama.Pxq
