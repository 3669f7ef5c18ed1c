import Mathlib.Order.Basic

/-!
# `Lib.NextFit`: the next run of free places

An array of `size` places, some of them free. `Run free size n h` says that the `n` places
from `h` on are free. `First` is the first such run from a start on. `Picks` is the run
that an allocator picks which looks from `start` to the end, and then from the beginning:
the first run from `start` on, or else the first of all.

There is only one pick (`Picks.unique`). `not_run_of_blocked` is what lets a scan step over a used
place.
-/

namespace NextFit

variable (free : Nat → Prop) (size n : Nat)

/-- The `n` places from `h` on are free. -/
def Run (h : Nat) : Prop := h + n ≤ size ∧ ∀ i < n, free (h + i)

/-- `h` is the first run from `start` on. -/
structure First (start h : Nat) : Prop where
  ge : start ≤ h
  run : Run free size n h
  least : ∀ k, start ≤ k → k < h → ¬ Run free size n k

/-- The first run from `start` on, or else the first of all. -/
def Picks (start h : Nat) : Prop :=
  First free size n start h ∨
    ((∀ k, start ≤ k → ¬ Run free size n k) ∧ First free size n 0 h)

variable {free : Nat → Prop} {size n : Nat}

theorem First.unique {start h h' : Nat} (hf : First free size n start h)
    (hf' : First free size n start h') : h = h' := by
  rcases Nat.lt_trichotomy h h' with hlt | heq | hlt
  · exact absurd hf.run (hf'.least h hf.ge hlt)
  · exact heq
  · exact absurd hf'.run (hf.least h' hf'.ge hlt)

theorem Picks.run {start h : Nat} (hf : Picks free size n start h) : Run free size n h := by
  rcases hf with hf | ⟨-, hf⟩
  · exact hf.run
  · exact hf.run

theorem Picks.unique {start h h' : Nat} (hf : Picks free size n start h)
    (hf' : Picks free size n start h') : h = h' := by
  rcases hf with hf | ⟨hnone, hf⟩
  · rcases hf' with hf' | ⟨hnone', -⟩
    · exact hf.unique hf'
    · exact absurd hf.run (hnone' h hf.ge)
  · rcases hf' with hf' | ⟨-, hf'⟩
    · exact absurd hf'.run (hnone h' hf'.ge)
    · exact hf.unique hf'

/-- A used place blocks every run that starts up to it and reaches it. -/
theorem not_run_of_blocked {h i k : Nat} (hused : ¬ free (h + i)) (hi : i < n) (hk : h ≤ k)
    (hki : k ≤ h + i) : ¬ Run free size n k := by
  rintro ⟨-, hfree⟩
  apply hused
  have hplace := hfree (h + i - k) (by omega)
  rwa [show k + (h + i - k) = h + i by omega] at hplace

/-- A run does not start near the end. -/
theorem not_run_of_size_lt {h k : Nat} (hsize : size < h + n) (hk : h ≤ k) :
    ¬ Run free size n k := by
  rintro ⟨hfits, -⟩
  omega

/-- More free places leave the runs free. -/
theorem Run.mono {free' : Nat → Prop} {h : Nat} (hrun : Run free size n h)
    (hmono : ∀ i < size, free i → free' i) : Run free' size n h := by
  obtain ⟨hfits, hfree⟩ := hrun
  exact ⟨hfits, fun i hi => hmono _ (by omega) (hfree i hi)⟩

end NextFit
