import Mathlib.Data.Nat.Bitwise

/-!
# `Ggml.Pad`: `GGML_PAD`

`#define GGML_PAD(x, n) (((x) + (n) - 1) & ~((n) - 1))` clears the bits of `n - 1` in
`x + n - 1`. For every `n` the result is at least `x` (`le_ggmlPad`). It is a multiple of
`n`, and the least one from `x` on, only when `n` is a power of two (`ggmlPad_two_pow`).
-/

namespace PxqLlama.Ggml

/-- `GGML_PAD(x, n)` for `n > 0`: `a & ~b` is `a - (a & b)`. -/
def ggmlPad (x n : Nat) : Nat :=
  let y := x + (n - 1)
  y - (y &&& (n - 1))

theorem le_ggmlPad (x n : Nat) : x ≤ ggmlPad x n := by
  have h : (x + (n - 1)) &&& (n - 1) ≤ n - 1 := Nat.and_le_right
  simp only [ggmlPad]
  omega

/-- Padding to a power of two rounds up to its multiples. -/
theorem ggmlPad_two_pow (x k : Nat) :
    ggmlPad x (2 ^ k) = (x + (2 ^ k - 1)) / 2 ^ k * 2 ^ k := by
  have hdm := Nat.div_add_mod' (x + (2 ^ k - 1)) (2 ^ k)
  simp only [ggmlPad, Nat.and_two_pow_sub_one_eq_mod]
  omega

theorem ggmlPad_256 (x : Nat) : ggmlPad x 256 = (x + 255) / 256 * 256 :=
  ggmlPad_two_pow x 8

end PxqLlama.Ggml
