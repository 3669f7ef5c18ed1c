import Mathlib.Algebra.Order.Ring.Abs
import Mathlib.Tactic.Linarith
import Mathlib.Tactic.Ring

/-!
# `Lib.FloatRules`: floating point arithmetic up to rounding

A `Flt` is NaN, an infinity or a number. The operations follow the rules of IEEE 754 for these
three, and a number that results is rounded by the format. Of the rounding only this is known
(`FloatFormat`): up to the size `top` it stays a number, it keeps the sign, and it is off by a factor
of two at most, upwards always and downwards for numbers from one on. Zero has one sign here, so
nothing is said about the sign of an infinity that comes from a division by zero.

`Num` says that a value is a number of a bounded size, `NotNeg` that it is not below zero (NaN and
`+∞` are not), and `Lost` that it is NaN or `+∞`. A sum of values that are not below zero is lost as
soon as one of them is.
-/

/-- A value of a floating point format. -/
inductive Flt
  | nan
  | inf (neg : Bool)
  | num (q : ℚ)
  deriving DecidableEq

namespace Flt

def neg : Flt → Flt
  | nan => nan
  | inf s => inf (!s)
  | num q => num (-q)

def abs : Flt → Flt
  | nan => nan
  | inf _ => inf false
  | num q => num |q|

/-- `a < b`; false with NaN. -/
def lt : Flt → Flt → Bool
  | num p, num q => decide (p < q)
  | inf true, num _ => true
  | inf true, inf false => true
  | num _, inf false => true
  | _, _ => false

/-- `a == b`; false with NaN. -/
def eq : Flt → Flt → Bool
  | num p, num q => decide (p = q)
  | inf s, inf t => s == t
  | _, _ => false

/-- The value is a number of at most this size. -/
def Num (B : ℚ) (v : Flt) : Prop := ∃ q, v = num q ∧ |q| ≤ B

/-- The value is not below zero. -/
def NotNeg : Flt → Prop
  | nan => True
  | inf s => s = false
  | num q => 0 ≤ q

/-- The value is not above zero. -/
def NotPos : Flt → Prop
  | nan => True
  | inf s => s = true
  | num q => q ≤ 0

/-- The value is NaN or `+∞`. -/
def Lost (v : Flt) : Prop := v = nan ∨ v = inf false

/-- The value is NaN or an infinity. -/
def NoNum (v : Flt) : Prop := v = nan ∨ ∃ s, v = inf s

end Flt

open Flt

/-- A floating point format: the rounding of exact results. -/
structure FloatFormat where
  round : ℚ → Flt
  top : ℚ
  bounded : ∀ q, |q| ≤ top → ∃ r, round q = num r ∧ |r| ≤ 2 * |q| ∧ (1 ≤ |q| → |q| ≤ 2 * |r|)
  nonneg : ∀ q, 0 ≤ q → (round q).NotNeg
  nonpos : ∀ q, q ≤ 0 → (round q).NotPos

namespace FloatFormat

/-- The format that does not round: a number up to `top`, an infinity above it. -/
def exact (top : ℚ) (htop : 0 ≤ top) : FloatFormat where
  round := fun q => if |q| ≤ top then num q else inf (decide (q < 0))
  top := top
  bounded := by
    intro q hq
    have hnonneg : 0 ≤ |q| := abs_nonneg q
    exact ⟨q, if_pos hq, by linarith, fun _ => by linarith⟩
  nonneg := by
    intro q hq
    split
    · exact hq
    · exact decide_eq_false (not_lt.mpr hq)
  nonpos := by
    intro q hq
    split
    · exact hq
    · rename_i hbig
      -- Zero is not above the top, so the number is below zero.
      have hneg : q < 0 := by
        rcases lt_or_eq_of_le hq with hlt | rfl
        · exact hlt
        · exact absurd (by rw [abs_zero]; exact htop) hbig
      exact decide_eq_true hneg

variable (F : FloatFormat)

/-- A conversion to the format. -/
def cast : Flt → Flt
  | num q => F.round q
  | v => v

def add : Flt → Flt → Flt
  | num p, num q => F.round (p + q)
  | nan, _ => nan
  | _, nan => nan
  | inf s, inf t => if s = t then inf s else nan
  | inf s, num _ => inf s
  | num _, inf t => inf t

def sub (a b : Flt) : Flt := F.add a b.neg

def mul : Flt → Flt → Flt
  | num p, num q => F.round (p * q)
  | nan, _ => nan
  | _, nan => nan
  | inf s, inf t => inf (s != t)
  | inf s, num q => if q = 0 then nan else inf (s != decide (q < 0))
  | num p, inf t => if p = 0 then nan else inf (decide (p < 0) != t)

def div : Flt → Flt → Flt
  | num p, num q => if q = 0 then (if p = 0 then nan else inf (decide (p < 0))) else F.round (p / q)
  | nan, _ => nan
  | _, nan => nan
  | inf _, inf _ => nan
  | inf s, num q => inf (s != decide (q < 0))
  | num _, inf _ => num 0

variable {F} {A B : ℚ} {a b : Flt}

/-! ### Numbers of a bounded size -/

theorem num_neg (h : Num B b) : Num B b.neg := by
  obtain ⟨q, rfl, hq⟩ := h
  refine ⟨-q, rfl, ?_⟩
  rw [abs_neg]
  exact hq

theorem num_cast (h : Num B b) (htop : B ≤ F.top) : Num (2 * B) (F.cast b) := by
  obtain ⟨q, rfl, hq⟩ := h
  obtain ⟨r, hr, hle, -⟩ := F.bounded q (le_trans hq htop)
  exact ⟨r, hr, by linarith⟩

theorem num_add (ha : Num A a) (hb : Num B b) (htop : A + B ≤ F.top) :
    Num (2 * (A + B)) (F.add a b) := by
  obtain ⟨p, rfl, hp⟩ := ha
  obtain ⟨q, rfl, hq⟩ := hb
  have hsum : |p + q| ≤ A + B := le_trans (abs_add_le p q) (by linarith)
  obtain ⟨r, hr, hle, -⟩ := F.bounded (p + q) (le_trans hsum htop)
  exact ⟨r, hr, by linarith⟩

theorem num_mul (ha : Num A a) (hb : Num B b) (htop : A * B ≤ F.top) :
    Num (2 * (A * B)) (F.mul a b) := by
  obtain ⟨p, rfl, hp⟩ := ha
  obtain ⟨q, rfl, hq⟩ := hb
  have hprod : |p * q| ≤ A * B := by
    rw [abs_mul]
    exact mul_le_mul hp hq (abs_nonneg q) (le_trans (abs_nonneg p) hp)
  obtain ⟨r, hr, hle, -⟩ := F.bounded (p * q) (le_trans hprod htop)
  exact ⟨r, hr, by linarith⟩

/-! Sizes as powers of two. -/

theorem two_pow_le {m n : Nat} (h : m ≤ n) : (2 : ℚ) ^ m ≤ 2 ^ n :=
  pow_le_pow_right₀ (by norm_num) h

theorem num_mono (h : Num A b) (hle : A ≤ B) : Num B b := by
  obtain ⟨q, hq, hA⟩ := h
  exact ⟨q, hq, le_trans hA hle⟩

theorem num_cast_pow {m t : Nat} (h : Num (2 ^ m) b) (htop : 2 ^ t ≤ F.top) (hm : m ≤ t) :
    Num (2 ^ (m + 1)) (F.cast b) := by
  have hcast := num_cast h (le_trans (two_pow_le hm) htop)
  rwa [← pow_succ'] at hcast

theorem num_mul_pow {m n t : Nat} (ha : Num (2 ^ m) a) (hb : Num (2 ^ n) b)
    (htop : 2 ^ t ≤ F.top) (hm : m + n ≤ t) : Num (2 ^ (m + n + 1)) (F.mul a b) := by
  have hle : (2 : ℚ) ^ m * 2 ^ n ≤ F.top := by
    rw [← pow_add]
    exact le_trans (two_pow_le hm) htop
  have hmul := num_mul ha hb hle
  rwa [← pow_add, ← pow_succ'] at hmul

theorem num_add_pow {m t : Nat} (ha : Num (2 ^ m) a) (hb : Num (2 ^ m) b) (htop : 2 ^ t ≤ F.top)
    (hm : m + 1 ≤ t) : Num (2 ^ (m + 2)) (F.add a b) := by
  have hdouble : (2 : ℚ) ^ m + 2 ^ m = 2 ^ (m + 1) := by ring
  have hadd := num_add ha hb (by rw [hdouble]; exact le_trans (two_pow_le hm) htop)
  rwa [hdouble, ← pow_succ'] at hadd

/-! ### Values that are lost -/

theorem noNum_neg (h : NoNum b) : NoNum b.neg := by
  rcases h with rfl | ⟨s, rfl⟩
  · exact Or.inl rfl
  · exact Or.inr ⟨!s, rfl⟩

theorem noNum_cast (h : NoNum b) : NoNum (F.cast b) := by
  rcases h with rfl | ⟨s, rfl⟩
  · exact Or.inl rfl
  · exact Or.inr ⟨s, rfl⟩

theorem noNum_mul_left (ha : NoNum a) (b : Flt) : NoNum (F.mul a b) := by
  rcases ha with rfl | ⟨s, rfl⟩
  · cases b <;> exact Or.inl rfl
  · cases b with
    | nan => exact Or.inl rfl
    | inf t => exact Or.inr ⟨_, rfl⟩
    | num q =>
      rw [mul]
      split
      · exact Or.inl rfl
      · exact Or.inr ⟨_, rfl⟩

theorem noNum_add_left (ha : NoNum a) (b : Flt) : NoNum (F.add a b) := by
  rcases ha with rfl | ⟨s, rfl⟩
  · cases b <;> exact Or.inl rfl
  · cases b with
    | nan => exact Or.inl rfl
    | inf t =>
      rw [add]
      split
      · exact Or.inr ⟨_, rfl⟩
      · exact Or.inl rfl
    | num q => exact Or.inr ⟨_, rfl⟩

theorem noNum_add_right (a : Flt) (hb : NoNum b) : NoNum (F.add a b) := by
  rcases hb with rfl | ⟨t, rfl⟩
  · cases a <;> exact Or.inl rfl
  · cases a with
    | nan => exact Or.inl rfl
    | inf s =>
      rw [add]
      split
      · exact Or.inr ⟨_, rfl⟩
      · exact Or.inl rfl
    | num p => exact Or.inr ⟨_, rfl⟩

theorem noNum_sub_left (ha : NoNum a) (b : Flt) : NoNum (F.sub a b) := noNum_add_left ha _

theorem noNum_sub_right (a : Flt) (hb : NoNum b) : NoNum (F.sub a b) :=
  noNum_add_right a (noNum_neg hb)

theorem mul_num_inf (p : ℚ) (s : Bool) :
    F.mul (num p) (inf s) = if p = 0 then nan else inf (decide (p < 0) != s) := rfl

theorem mul_inf_num (s : Bool) (q : ℚ) :
    F.mul (inf s) (num q) = if q = 0 then nan else inf (s != decide (q < 0)) := rfl

/-- An infinity with the sign of a factor, times the factor. -/
theorem notNeg_mul_inf {s : Bool} {q : ℚ} (hs : s = decide (q < 0)) :
    (F.mul (inf s) (num q)).NotNeg := by
  rw [mul_inf_num]
  split
  · trivial
  · show (s != decide (q < 0)) = false
    rw [hs, bne_self_eq_false]

/-- A weight times a square keeps the sign of the weight. -/
theorem notNeg_mul_mul (ha : a.NotNeg) (b : Flt) : (F.mul (F.mul a b) b).NotNeg := by
  cases a with
  | nan => cases b <;> trivial
  | inf s =>
    have hs : s = false := ha
    subst hs
    cases b with
    | nan => trivial
    | inf t => cases t <;> rfl
    | num q =>
      rw [mul_inf_num]
      split
      · trivial
      · exact notNeg_mul_inf (Bool.false_bne _)
  | num p =>
    have hp : 0 ≤ p := ha
    cases b with
    | nan => trivial
    | inf t =>
      rw [mul_num_inf]
      split
      · trivial
      · have hneg : decide (p < 0) = false := decide_eq_false (not_lt.mpr hp)
        rw [hneg, Bool.false_bne]
        show (t != t) = false
        exact bne_self_eq_false t
    | num q =>
      show (F.mul (F.round (p * q)) (num q)).NotNeg
      -- The product with the weight has the sign of the factor, or is zero.
      rcases le_or_gt 0 q with hq | hq
      · have hfirst := F.nonneg (p * q) (mul_nonneg hp hq)
        cases hround : F.round (p * q) with
        | nan => trivial
        | inf s =>
          rw [hround] at hfirst
          have hneg : decide (q < 0) = false := decide_eq_false (not_lt.mpr hq)
          exact notNeg_mul_inf (Eq.trans hfirst hneg.symm)
        | num r =>
          rw [hround] at hfirst
          exact F.nonneg (r * q) (mul_nonneg hfirst hq)
      · have hfirst := F.nonpos (p * q) (mul_nonpos_of_nonneg_of_nonpos hp hq.le)
        cases hround : F.round (p * q) with
        | nan => trivial
        | inf s =>
          rw [hround] at hfirst
          have hneg : decide (q < 0) = true := decide_eq_true hq
          exact notNeg_mul_inf (Eq.trans hfirst hneg.symm)
        | num r =>
          rw [hround] at hfirst
          exact F.nonneg (r * q) (mul_nonneg_of_nonpos_of_nonpos hfirst hq.le)

/-- What is no number and not below zero is lost. -/
theorem lost_of_noNum (h : NoNum a) (hneg : a.NotNeg) : Lost a := by
  rcases h with rfl | ⟨s, rfl⟩
  · exact Or.inl rfl
  · have hs : s = false := hneg
    rw [hs]
    exact Or.inr rfl

theorem noNum_of_lost (h : Lost a) : NoNum a := by
  rcases h with rfl | rfl
  · exact Or.inl rfl
  · exact Or.inr ⟨false, rfl⟩

theorem noNum_mul_right (a : Flt) (hb : NoNum b) : NoNum (F.mul a b) := by
  rcases hb with rfl | ⟨t, rfl⟩
  · cases a <;> exact Or.inl rfl
  · cases a with
    | nan => exact Or.inl rfl
    | inf s => exact Or.inr ⟨_, rfl⟩
    | num p =>
      rw [mul]
      split
      · exact Or.inl rfl
      · exact Or.inr ⟨_, rfl⟩

theorem notNeg_cast (h : b.NotNeg) : (F.cast b).NotNeg := by
  cases b with
  | nan => trivial
  | inf s => exact h
  | num q => exact F.nonneg q h

theorem notNeg_mul {p : ℚ} (hp : 0 ≤ p) (hb : b.NotNeg) : (F.mul (num p) b).NotNeg := by
  cases b with
  | nan => trivial
  | inf s =>
    have hs : s = false := hb
    rw [mul_num_inf]
    split
    · trivial
    · rw [hs, decide_eq_false (not_lt.mpr hp)]
      rfl
  | num q => exact F.nonneg (p * q) (mul_nonneg hp hb)

theorem le_of_cast (hF : ∀ q r, F.round q = num r → |r| ≤ B) {r : ℚ} (h : F.cast b = num r) :
    |r| ≤ B := by
  cases b with
  | nan => cases h
  | inf s => cases h
  | num q => exact hF q r h

theorem notNeg_add (ha : a.NotNeg) (hb : b.NotNeg) : (F.add a b).NotNeg := by
  cases a with
  | nan => cases b <;> trivial
  | inf s =>
    have hs : s = false := ha
    subst hs
    cases b with
    | nan => trivial
    | inf t =>
      have ht : t = false := hb
      rw [ht]
      rfl
    | num q => rfl
  | num p =>
    cases b with
    | nan => trivial
    | inf t => exact hb
    | num q => exact F.nonneg _ (add_nonneg ha hb)

/-- A lost value is not below a number, and not equal to one. -/
theorem Lost.not_lt {q : ℚ} (h : Lost a) : a.lt (num q) = false ∧ a.eq (num q) = false := by
  rcases h with rfl | rfl
  · exact ⟨rfl, rfl⟩
  · exact ⟨rfl, rfl⟩

end FloatFormat
