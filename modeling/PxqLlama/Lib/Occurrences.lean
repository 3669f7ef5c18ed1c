import Mathlib.Data.List.Infix

/-!
# `Lib.Occurrences`: the occurrences of a tag in a stream

`reports tag acc stream` says, for each element of a stream, whether it completes the next
occurrence of the tag: the leftmost one that starts behind the last reported one. `acc` is what was
read since then. A matcher needs to remember only how much of the tag ends what was read
(`Overlap`), and which of several is the longest (`Overlap.take_suffix`).

`Regular` are the tags for which a mismatch never has to fall back to a border: what follows a
border inside a prefix of the tag is what follows the prefix, so one mismatch rules out both.
-/

namespace Occurrences

variable {α : Type}

/-- The first `j` elements of the tag are the last ones read. -/
def Overlap (tag acc : List α) (j : Nat) : Prop := tag.take j <:+ acc

theorem overlap_zero (tag acc : List α) : Overlap tag acc 0 := List.nil_suffix

/-- An overlap grows by the element that stands behind it in the tag, and in no other way. -/
theorem overlap_succ {tag acc : List α} {j : Nat} {x : α} (hj : j < tag.length) :
    Overlap tag (acc ++ [x]) (j + 1) ↔ Overlap tag acc j ∧ tag[j]? = some x := by
  show tag.take (j + 1) <:+ acc ++ [x] ↔ tag.take j <:+ acc ∧ tag[j]? = some x
  rw [List.take_succ_eq_append_getElem hj, List.getElem?_eq_getElem hj]
  constructor
  · intro hsuffix
    obtain ⟨front, heq⟩ := hsuffix
    rw [← List.append_assoc] at heq
    have hboth := List.append_inj' heq rfl
    exact ⟨⟨front, hboth.1⟩, congrArg some (List.cons.inj hboth.2).1⟩
  · intro hboth
    obtain ⟨⟨front, heq⟩, hx⟩ := hboth
    exact ⟨front, by rw [← List.append_assoc, heq, Option.some.inj hx]⟩

/-- Of two overlaps the shorter one ends the longer one. -/
theorem Overlap.take_suffix {tag acc : List α} {i j : Nat} (hi : Overlap tag acc i)
    (hj : Overlap tag acc j) (hle : i ≤ j) : tag.take i <:+ tag.take j := by
  apply List.suffix_of_suffix_length_le hi hj
  simp only [List.length_take]
  omega

/-- The whole tag as an overlap. -/
theorem overlap_length {tag acc : List α} : Overlap tag acc tag.length ↔ tag <:+ acc := by
  show tag.take tag.length <:+ acc ↔ tag <:+ acc
  rw [List.take_length]

section
variable [DecidableEq α]

/-- Whether each element completes an occurrence that starts behind the last reported one. -/
def reports (tag : List α) : List α → List α → List Bool
  | _, [] => []
  | acc, x :: stream =>
    if tag <:+ acc ++ [x] then true :: reports tag [] stream
    else false :: reports tag (acc ++ [x]) stream

/-- An occurrence at the end of a stream is reported, or one that overlaps it is. -/
theorem mem_reports {tag : List α} (stream : List α) (acc : List α)
    (hacc : ¬ tag <:+ acc) (hend : tag <:+ acc ++ stream) : true ∈ reports tag acc stream := by
  induction stream generalizing acc with
  | nil =>
    rw [List.append_nil] at hend
    exact absurd hend hacc
  | cons x stream ih =>
    rw [reports]
    split
    · exact List.mem_cons_self
    · rename_i hnot
      apply List.mem_cons_of_mem
      apply ih (acc ++ [x]) hnot
      rw [List.append_assoc]
      exact hend

end

/-- What follows a border of a prefix of the tag follows the prefix. -/
def Regular (tag : List α) : Prop :=
  ∀ k b, 0 < b → b < k → k < tag.length → tag.take b <:+ tag.take k → tag[b]? = tag[k]?

instance [DecidableEq α] (tag : List α) : Decidable (Regular tag) :=
  decidable_of_iff
    (∀ k, k < tag.length → ∀ b, b < k → 0 < b → tag.take b <:+ tag.take k → tag[b]? = tag[k]?)
    ⟨fun h k b hb hk hlen => h k hlen b hk hb, fun h k hlen b hk hb => h k b hb hk hlen⟩

end Occurrences
