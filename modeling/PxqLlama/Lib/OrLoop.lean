import Mathlib.Data.Nat.Bitwise
import Mathlib.Data.List.Basic

/-!
# `Lib.OrLoop`: words assembled by a loop of `|=`

Bit packing in C is a loop that ORs shifted fields into a word. `OrLoop.orLoop n f` is
that loop: `f 0 ||| f 1 ||| … ||| f (n - 1)`, from a zero word. A bit of the result is
set when some `f j` has it (`testBit_orLoop`).

`testBit_fields` is the main fact. A word of `n` fields of `k` bits each, field `j`
shifted to `k * j`, has at bit `i` the bit `i % k` of field `i / k`. Its two readings
are `field_shiftRight_mod` (shift and mask returns the field) and `fields_of_digits`
(the base-`2 ^ k` digits of a word, packed again, are the word: little-endian bytes
written and read back).
-/

namespace OrLoop

/-- `w = 0; for (j = 0; j < n; ++j) w |= f(j);` -/
def orLoop (n : Nat) (f : Nat → Nat) : Nat :=
  (List.range n).foldl (fun w j => w ||| f j) 0

/-- A bit of the word is set when some term of the loop has it. -/
theorem testBit_orLoop (n : Nat) (f : Nat → Nat) (i : Nat) :
    (orLoop n f).testBit i = (List.range n).any (fun j => (f j).testBit i) := by
  have key : ∀ (l : List Nat) (w : Nat),
      (l.foldl (fun w j => w ||| f j) w).testBit i
        = (w.testBit i || l.any (fun j => (f j).testBit i)) := by
    intro l
    induction l with
    | nil => intro w; simp
    | cons j l ih =>
      intro w
      rw [List.foldl_cons, ih, Nat.testBit_or, List.any_cons, Bool.or_assoc]
  rw [orLoop, key]
  simp

variable {n : Nat}

theorem orLoop_congr {f g : Nat → Nat} (h : ∀ j < n, f j = g j) : orLoop n f = orLoop n g :=
  List.foldl_ext _ _ 0 (fun w j hj => by rw [h j (List.mem_range.mp hj)])

/-- A loop whose terms fit in `k` bits builds a word of `k` bits. -/
theorem orLoop_lt {k : Nat} {f : Nat → Nat} (h : ∀ j < n, f j < 2 ^ k) : orLoop n f < 2 ^ k := by
  refine Nat.lt_pow_two_of_testBit _ (fun i hi => ?_)
  rw [testBit_orLoop, List.any_eq_false]
  intro j hj
  have hlt : f j < 2 ^ i := Nat.lt_of_lt_of_le (h j (List.mem_range.mp hj))
    (Nat.pow_le_pow_right (by omega) hi)
  simp [Nat.testBit_lt_two_pow hlt]

/-- A field of `k` bits stays below bit `n` when it is shifted by at most `n - k`. -/
theorem shiftLeft_lt {x k j : Nat} (hx : x < 2 ^ k) (h : k + j ≤ n) : x <<< j < 2 ^ n :=
  calc x <<< j = x * 2 ^ j := Nat.shiftLeft_eq x j
    _ < 2 ^ k * 2 ^ j := Nat.mul_lt_mul_of_pos_right hx (Nat.two_pow_pos j)
    _ = 2 ^ (k + j) := (Nat.pow_add 2 k j).symm
    _ ≤ 2 ^ n := Nat.pow_le_pow_right (by decide) h

/-- A loop that takes two terms a step is the loop over all of them. -/
theorem orLoop_two {m : Nat} {a b : Nat → Nat} (ha : ∀ j < n, a j < m) (hb : ∀ j < n, b j < m)
    (hall : ∀ k < m, ∃ j < n, k = a j ∨ k = b j) (f : Nat → Nat) :
    orLoop n (fun j => f (a j) ||| f (b j)) = orLoop m f := by
  apply Nat.eq_of_testBit_eq
  intro i
  rw [testBit_orLoop, testBit_orLoop, Bool.eq_iff_iff]
  simp only [List.any_eq_true, List.mem_range, Nat.testBit_or, Bool.or_eq_true]
  constructor
  · rintro ⟨j, hj, hbit | hbit⟩
    · exact ⟨a j, ha j hj, hbit⟩
    · exact ⟨b j, hb j hj, hbit⟩
  · rintro ⟨k, hk, hbit⟩
    obtain ⟨j, hj, rfl | rfl⟩ := hall k hk
    · exact ⟨j, hj, Or.inl hbit⟩
    · exact ⟨j, hj, Or.inr hbit⟩

theorem orLoop_halves (n : Nat) (f : Nat → Nat) :
    orLoop n (fun j => f j ||| f (n + j)) = orLoop (n + n) f :=
  orLoop_two (fun j _ => by omega) (fun j _ => by omega)
    (fun k _ => if h : k < n then ⟨k, h, by omega⟩ else ⟨k - n, by omega, by omega⟩) f

theorem orLoop_pairs (n : Nat) (f : Nat → Nat) :
    orLoop n (fun j => f (2 * j) ||| f (2 * j + 1)) = orLoop (2 * n) f :=
  orLoop_two (fun j _ => by omega) (fun j _ => by omega)
    (fun k _ => ⟨k / 2, by omega, by omega⟩) f

/-- Bit `i` of a word of `n` fields of `k` bits is bit `i % k` of field `i / k`. -/
theorem testBit_fields {k : Nat} (hk : 0 < k) {v : Nat → Nat} (hv : ∀ j < n, v j < 2 ^ k)
    (i : Nat) :
    (orLoop n (fun j => v j <<< (k * j))).testBit i
      = (decide (i / k < n) && (v (i / k)).testBit (i % k)) := by
  rw [testBit_orLoop, Bool.eq_iff_iff]
  simp only [List.any_eq_true, List.mem_range, Nat.testBit_shiftLeft, Bool.and_eq_true,
    decide_eq_true_eq]
  have hdm := Nat.div_add_mod i k
  have hmod := Nat.mod_lt i hk
  constructor
  · rintro ⟨j, hj, hji, hbit⟩
    -- A bit at or above `k` is clear in the field, so bit `i` lies inside field `j`.
    have hlt : i - k * j < k := by
      by_contra hge
      have : v j < 2 ^ (i - k * j) := Nat.lt_of_lt_of_le (hv j hj)
        (Nat.pow_le_pow_right (by omega) (by omega))
      rw [Nat.testBit_lt_two_pow this] at hbit
      cases hbit
    have hq : i / k = j := by
      rw [Nat.div_eq_iff hk]
      have hcomm : j * k = k * j := Nat.mul_comm j k
      omega
    have hr : i % k = i - k * j := by
      rw [← hq]
      omega
    rw [hq, hr]
    exact ⟨hj, hbit⟩
  · rintro ⟨hj, hbit⟩
    refine ⟨i / k, hj, by omega, ?_⟩
    rwa [show i - k * (i / k) = i % k from by omega]

/-- Shifting a word of fields down by `k * j` and masking returns field `j`. -/
theorem field_shiftRight_mod {k : Nat} {v : Nat → Nat} (hv : ∀ j < n, v j < 2 ^ k) {j : Nat}
    (hj : j < n) : (orLoop n (fun j => v j <<< (k * j))) >>> (k * j) % 2 ^ k = v j := by
  apply Nat.eq_of_testBit_eq
  intro i
  rw [Nat.testBit_mod_two_pow, Nat.testBit_shiftRight]
  by_cases hik : i < k
  · have hk : 0 < k := by omega
    have hq : (k * j + i) / k = j := by
      rw [Nat.mul_add_div hk, Nat.div_eq_of_lt hik, Nat.add_zero]
    have hr : (k * j + i) % k = i := by
      rw [Nat.mul_add_mod, Nat.mod_eq_of_lt hik]
    rw [testBit_fields hk hv, hq, hr]
    simp [hik, hj]
  · have : v j < 2 ^ i := Nat.lt_of_lt_of_le (hv j hj)
      (Nat.pow_le_pow_right (by omega) (by omega))
    simp [hik, Nat.testBit_lt_two_pow this]

/-- The `n` lowest digits of a word in base `2 ^ k`, packed again, are the word. -/
theorem fields_of_digits {k w : Nat} (hk : 0 < k) (hw : w < 2 ^ (k * n)) :
    orLoop n (fun j => (w >>> (k * j) % 2 ^ k) <<< (k * j)) = w := by
  apply Nat.eq_of_testBit_eq
  intro i
  rw [testBit_fields hk (fun j _ => Nat.mod_lt _ (Nat.two_pow_pos k)),
    Nat.testBit_mod_two_pow, Nat.testBit_shiftRight, Nat.div_add_mod,
    decide_eq_true (Nat.mod_lt i hk), Bool.true_and]
  by_cases hin : i / k < n
  · simp [hin]
  · have hle : k * n ≤ i := by
      have := (Nat.le_div_iff_mul_le hk).mp (Nat.not_lt.mp hin)
      rwa [Nat.mul_comm] at this
    have : w < 2 ^ i := Nat.lt_of_lt_of_le hw (Nat.pow_le_pow_right (by omega) hle)
    simp [hin, Nat.testBit_lt_two_pow this]

end OrLoop
